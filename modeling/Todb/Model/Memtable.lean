import Todb.Library.SortedMap
import Todb.Model.Sst.BlockIter

/-! # Memtables

The skip list is an ordered map: `insert` overwrites, iteration is in key order. -/

namespace Todb

open Library

/-- Approximate heap size. -/
class MemSize (α : Type) where
  memSize : α → ℕ

instance : MemSize Bytes := ⟨List.length⟩

structure MemTable (κ ν : Type) [LinearOrder κ] where
  map : SortedMap κ (Entry ν)
  memorySize : ℕ

namespace MemTable

variable {κ ν : Type} [LinearOrder κ] [MemSize κ] [MemSize ν]

def new : MemTable κ ν := ⟨.empty, 0⟩

def put (self : MemTable κ ν) (key : κ) (value : ν) : MemTable κ ν :=
  ⟨self.map.insert key (.put value),
    (self.memorySize + (MemSize.memSize key + MemSize.memSize value)) % 2 ^ 64⟩

/-- Writes a tombstone; only the key counts towards the size. -/
def delete (self : MemTable κ ν) (key : κ) : MemTable κ ν :=
  ⟨self.map.insert key .delete, (self.memorySize + MemSize.memSize key) % 2 ^ 64⟩

def estimateMemory (self : MemTable κ ν) : ℕ := self.memorySize

def len (self : MemTable κ ν) : ℕ := self.map.len

/-- The entries in key order, as an iterator runs through them. -/
def entries (self : MemTable κ ν) : List (κ × Entry ν) := self.map.entries

end MemTable

end Todb

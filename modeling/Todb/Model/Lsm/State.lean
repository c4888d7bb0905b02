import Todb.Model.Memtable
import Todb.Model.Sst.Builder

/-! # The state of an LSM store

A published `LsmState` names its memtables by address: the tables themselves are shared and
go on changing under every snapshot that names them. -/

namespace Todb.Lsm

open Library

/-- The address of a shared memtable (`Arc<MemTable<Bytes, Bytes>>`). -/
abbrev MemId := ℕ

abbrev SstId := UInt64

/-- What the store knows about a flushed file. `origin` and `entries` are ghosts: the memtable
the file was built from and what its builder was given. -/
structure SstMeta where
  id : SstId
  keyRange : Bytes × Bytes
  fileSize : UInt64
  origin : MemId
  entries : List (Bytes × Entry Bytes)
deriving DecidableEq

structure LevelMeta where
  level : UInt32
  ssts : List SstMeta
deriving DecidableEq

/-- `immMemtables` has the newest table first. -/
structure LsmState where
  activeMem : MemId
  immMemtables : List MemId
  levels : List LevelMeta
deriving DecidableEq

namespace LsmState

def new (activeMem : MemId) : LsmState := ⟨activeMem, [], []⟩

/-- `levels.first().into_iter().flat_map(|lvl| &lvl.ssts)`. -/
def l0 (self : LsmState) : List SstMeta := (self.levels.head?.map LevelMeta.ssts).getD []

/-- The state that `switch_memtable` publishes. -/
def switched (self : LsmState) (fresh : MemId) : LsmState :=
  { self with activeMem := fresh, immMemtables := self.activeMem :: self.immMemtables }

/-- The state that `flush_oldest_imm` publishes. -/
def flushed (self : LsmState) (sst : SstMeta) : LsmState :=
  { self with
    immMemtables := self.immMemtables.dropLast
    levels := match self.levels with
      | [] => [⟨0, [sst]⟩]
      | first :: rest => { first with ssts := first.ssts ++ [sst] } :: rest }

@[simp] theorem l0_new (m : MemId) : (new m).l0 = [] := rfl

@[simp] theorem l0_switched (self : LsmState) (fresh : MemId) :
    (self.switched fresh).l0 = self.l0 := rfl

@[simp] theorem l0_flushed (self : LsmState) (sst : SstMeta) :
    (self.flushed sst).l0 = self.l0 ++ [sst] := by
  cases h : self.levels <;> simp [flushed, l0, h]

end LsmState

/-- The fields of `LsmTableOption` that the store reads. -/
structure LsmTableOption where
  memtableSizeLimit : ℕ := 4 * 1024 * 1024
  maxImmMemtables : ℕ := 4

/-! ## Batches -/

inductive WriteEntry
  | put (key value : Bytes)
  | delete (key : Bytes)
deriving DecidableEq, Repr

namespace WriteEntry

def key : WriteEntry → Bytes
  | put key _ => key
  | delete key => key

def entry : WriteEntry → Entry Bytes
  | put _ value => .put value
  | delete _ => .delete

/-- One turn of the loop of `write` over its batch. -/
def apply (self : WriteEntry) (mem : MemTable Bytes Bytes) : MemTable Bytes Bytes :=
  match self with
  | put key value => mem.put key value
  | delete key => mem.delete key

@[simp] theorem apply_map (self : WriteEntry) (mem : MemTable Bytes Bytes) :
    (self.apply mem).map = mem.map.insert self.key self.entry := by
  cases self <;> rfl

end WriteEntry

abbrev WriteBatch := List WriteEntry

/-! ## Files -/

/-- A block writer that carries its file's id. -/
structure SstFileWriter where
  sstId : SstId
  inner : FileBlockWriter
deriving DecidableEq

def SstFileWriter.fileSize (self : SstFileWriter) : UInt64 := self.inner.fileSize

instance : BlockWriter SstFileWriter where
  writeBlock self data := do
    let (position, inner) ← BlockWriter.writeBlock self.inner data
    return (position, { self with inner })

/-- `files` is the data directory. -/
structure DiskManager where
  blockSize : ℕ
  nextSstId : SstId
  files : SstId → Option Bytes

namespace DiskManager

def new (blockSize : ℕ) : DiskManager := ⟨blockSize, 1, fun _ => none⟩

/-- Allocates an id and creates the empty file. -/
def createSst (self : DiskManager) : SstFileWriter × DiskManager :=
  (⟨self.nextSstId, FileBlockWriter.create self.blockSize⟩,
    { self with
      nextSstId := self.nextSstId + 1
      files := Function.update self.files self.nextSstId (some []) })

/-- The file that a writer has written. -/
def store (self : DiskManager) (writer : SstFileWriter) : DiskManager :=
  { self with files := Function.update self.files writer.sstId (some writer.inner.file) }

end DiskManager

/-- `SstOption::default().block_size(disk_manager.block_size())`. -/
def DiskManager.option (self : DiskManager) : SstOption := ⟨self.blockSize⟩

abbrev MemtableBuilder := SstBuilder (DefaultSstWriter SstFileWriter)

end Todb.Lsm

import Todb.Model.Storage.Fault
import Todb.Model.Wal.Frame

/-! # Write buffers -/

namespace Todb.Wal

open Library

inductive BufferState
  | active
  | full
deriving DecidableEq, Repr

/-- The atomics and the byte memory of a buffer. Its capacity is the configured buffer size. -/
structure WalBuffer where
  data : ℕ → UInt8
  writePos : ℕ
  entriesAllocated : ℕ
  entries : ℕ → ℕ
  inFlight : ℕ
  state : BufferState
  minLsn : ℕ
  count : ℕ

namespace WalBuffer

/-- A new buffer; its memory is uninitialised. -/
def new (memory : ℕ → UInt8) (minLsn : ℕ) : WalBuffer where
  data := memory
  writePos := 0
  entriesAllocated := 0
  entries _ := 0
  inFlight := 0
  state := .active
  minLsn := minLsn
  count := 0

/-- The number of stores `reset` makes. -/
def resetStores : ℕ := 6

/-- The stores of `reset`, one by one. -/
def resetStore (nextMinLsn stage : ℕ) (self : WalBuffer) : WalBuffer :=
  match stage with
  | 0 => { self with writePos := 0 }
  | 1 => { self with entriesAllocated := 0 }
  | 2 => { self with inFlight := 0 }
  | 3 => { self with count := 0 }
  | 4 => { self with minLsn := nextMinLsn }
  | _ => { self with state := .active }

/-- Nobody else uses the buffer during a reset. -/
def reset (nextMinLsn : ℕ) (self : WalBuffer) : WalBuffer :=
  (List.range resetStores).foldl (fun self stage => self.resetStore nextMinLsn stage) self

/-- `fetch_add` on `write_pos`, which a claim that does not fit advances as well. -/
def claimBufferRange (capacity frameLen : ℕ) (self : WalBuffer) : Option ℕ × WalBuffer :=
  let pos := self.writePos
  (if pos + frameLen < 2 ^ 64 ∧ pos + frameLen ≤ capacity then some pos else none,
    { self with writePos := (pos + frameLen) % 2 ^ 64 })

/-- `fetch_add` on `entries_allocated`, with the assertion that there is a slot. -/
def claimSlot (capacity : ℕ) (self : WalBuffer) : Outcome ℕ × WalBuffer :=
  let slot := self.entriesAllocated
  (if slot < capacity / headerLen then .ok slot else .error .panic,
    { self with entriesAllocated := (slot + 1) % 2 ^ 64 })

/-- The bytes `[start, start + len)`. -/
def read (self : WalBuffer) (start len : ℕ) : Bytes :=
  (List.range len).map fun k => self.data (start + k)

end WalBuffer

end Todb.Wal

import Todb.Library.Machine
import Todb.Model.Storage.Fault

/-! # The block cache

`DiskManager` of the WAL: a pool of `n` frames with second-chance eviction and pins. The
locked sections of `read_block` and of dropping a guard are atomic; the `pread` in between
runs without the lock. -/

namespace Todb.Wal.Disk

open Library

/-- A block index within a segment. -/
structure BlockKey where
  segId : UInt32
  blockIdx : UInt64
deriving DecidableEq, Repr

structure Frame where
  buf : Bytes
  key : Option BlockKey
  refBit : Bool
  pinCount : ℕ
deriving DecidableEq

structure ClockCache (n : ℕ) where
  frames : Fin n → Frame
  table : BlockKey → Option (Fin n)
  hand : ℕ

namespace ClockCache

variable {n : ℕ}

def new (n blockSize : ℕ) : ClockCache n :=
  ⟨fun _ => ⟨List.replicate blockSize 0, none, false, 0⟩, fun _ => none, 0⟩

def modify (self : ClockCache n) (idx : Fin n) (f : Frame → Frame) : ClockCache n :=
  { self with frames := Function.update self.frames idx (f (self.frames idx)) }

/-- The loop of `find_victim`; the hand stays below the number of frames. -/
def sweep : ℕ → ClockCache n → Option (Fin n) × ClockCache n
  | 0, self => (none, self)
  | k + 1, self =>
      if h : 0 < n then
        let i : Fin n := ⟨self.hand % n, Nat.mod_lt _ h⟩
        let next := { self with hand := (i.1 + 1) % n }
        if (self.frames i).pinCount = 0 then
          if (self.frames i).refBit then
            sweep k (next.modify i fun f => { f with refBit := false })
          else (some i, next)
        else sweep k next
      else (none, self)

/-- Two sweeps at most: the first clears reference bits, the second evicts. -/
def findVictim (self : ClockCache n) : Option (Fin n) × ClockCache n := sweep (2 * n) self

/-- The pin count is a `u32`. -/
def pinHit (self : ClockCache n) (key : BlockKey) : Option (Fin n × ClockCache n) :=
  (self.table key).map fun idx =>
    (idx, self.modify idx fun f => { f with pinCount := (f.pinCount + 1) % 2 ^ 32, refBit := true })

/-- Tears down the old mapping and pins the frame for the loader. -/
def prepareLoad (self : ClockCache n) (idx : Fin n) : ClockCache n :=
  let table := match (self.frames idx).key with
    | some old => Function.update self.table old none
    | none => self.table
  { self.modify idx fun f => { f with key := none, pinCount := 1, refBit := false } with table }

def commitLoad (self : ClockCache n) (idx : Fin n) (key : BlockKey) : ClockCache n :=
  { self.modify idx fun f => { f with key := some key, refBit := true } with
    table := Function.update self.table key (some idx) }

def unpin (self : ClockCache n) (idx : Fin n) : ClockCache n :=
  self.modify idx fun f => { f with pinCount := (f.pinCount + (2 ^ 32 - 1)) % 2 ^ 32 }

end ClockCache

/-! ## Calls in progress -/

/-- Where a call of `read_block` stands. -/
inductive Call (n : ℕ)
  | enter (key : BlockKey)
  | waiting (key : BlockKey)
  | loading (key : BlockKey) (idx : Fin n)
  | loaded (key : BlockKey) (idx : Fin n) (ok : Bool)
deriving DecidableEq, Repr

/-- A guard, with the block it was read for as a ghost. -/
structure PinGuard (n : ℕ) where
  idx : Fin n
  key : BlockKey
deriving DecidableEq, Repr

/-- The pool, the calls of all threads and the guards they hold. -/
structure Pool (n : ℕ) where
  cache : ClockCache n
  calls : List (Call n)
  guards : List (PinGuard n)

inductive Label
  | call (key : BlockKey)
  | lock (i : ℕ)
  | pread (i : ℕ) (failure : Option Bytes)
  | finish (i : ℕ)
  | drop (j : ℕ)
deriving DecidableEq, Repr

variable {n : ℕ}

/-- `pread_all` into a frame: past the end of the file the old bytes remain. -/
def preadInto (file buf : Bytes) (offset : ℕ) : Bytes :=
  let got := (file.drop offset).take buf.length
  got ++ buf.drop got.length

namespace Pool

def init (n blockSize : ℕ) : Pool n := ⟨.new n blockSize, [], []⟩

/-- The locked section at the top of the loop. A waiting call is woken by a notification or
spuriously and looks again. -/
def lock (self : Pool n) (i : ℕ) (key : BlockKey) : Pool n :=
  match self.cache.pinHit key with
  | some (idx, cache) =>
      { cache, calls := self.calls.eraseIdx i, guards := ⟨idx, key⟩ :: self.guards }
  | none =>
      match self.cache.findVictim with
      | (some idx, cache) =>
          { self with cache := cache.prepareLoad idx, calls := self.calls.set i (.loading key idx) }
      | (none, cache) => { self with cache, calls := self.calls.set i (.waiting key) }

variable (blockSize : ℕ) (files : UInt32 → Bytes)

/-- One step of one thread. Every segment id stands for one file; a `pread` that fails may
have overwritten the first bytes of the frame. -/
def step (self : Pool n) : Label → Option (Pool n)
  | .call key => some { self with calls := self.calls ++ [.enter key] }
  | .lock i =>
      match self.calls[i]? with
      | some (.enter key) => some (self.lock i key)
      | some (.waiting key) => some (self.lock i key)
      | _ => none
  | .pread i failure =>
      match self.calls[i]? with
      | some (.loading key idx) =>
          some { self with
            cache := self.cache.modify idx fun f => { f with
              buf := match failure with
                | none => preadInto (files key.segId) f.buf (key.blockIdx.toNat * blockSize)
                | some got => got.take f.buf.length ++ f.buf.drop got.length }
            calls := self.calls.set i (.loaded key idx failure.isNone) }
      | _ => none
  | .finish i =>
      match self.calls[i]? with
      | some (.loaded key idx true) =>
          some ⟨self.cache.commitLoad idx key, self.calls.eraseIdx i, ⟨idx, key⟩ :: self.guards⟩
      | some (.loaded _ idx false) =>
          some { self with cache := self.cache.unpin idx, calls := self.calls.eraseIdx i }
      | _ => none
  | .drop j =>
      match self.guards[j]? with
      | some guard =>
          some { self with cache := self.cache.unpin guard.idx, guards := self.guards.eraseIdx j }
      | none => none

end Pool

end Todb.Wal.Disk

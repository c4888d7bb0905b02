import Todb.Model.Lsm.State

/-! # Writers, switches and flushes

Every thread is at one program point; a step runs up to the next access to what the threads
share: the state behind its lock, the memtables, the flush lock, the files. The scheduler is
a thread that calls `flush_oldest_imm`. -/

namespace Todb.Lsm

open Library

/-- One `put` or `delete` on a memtable. -/
structure Event where
  mem : MemId
  key : Bytes
  entry : Entry Bytes
deriving DecidableEq

/-- A `write` call: its batch, and for each entry applied so far its place in the history
(a ghost whose length is the loop's position). -/
structure WriteCall where
  batch : WriteBatch
  places : List ℕ
deriving DecidableEq

namespace WriteCall

/-- The next turn of the loop over the entries. -/
def nextEntry (self : WriteCall) : Option WriteEntry := self.batch[self.places.length]?

def applied (self : WriteCall) (place : ℕ) : WriteCall :=
  { self with places := self.places ++ [place] }

end WriteCall

/-- Who called `flush_oldest_imm`. -/
inductive Caller
  | write (call : WriteCall)
  | scheduler
deriving DecidableEq

inductive Pc
  | idle
  /-- `wal.append`. -/
  | append (batch : WriteBatch)
  /-- `let state = self.snapshot()` in `write`. -/
  | snapshot (batch : WriteBatch)
  /-- The loop over the entries, and after it the size check. -/
  | apply (mem : MemId) (call : WriteCall)
  /-- `switch_memtable`, from `write` or on its own. -/
  | switch (call : Option WriteCall)
  /-- `self.snapshot().imm_memtables.len() >= max_imm_memtables`. -/
  | backlog (call : WriteCall)
  /-- `flush_lock.lock()`. -/
  | lock (caller : Caller)
  /-- `state.imm_memtables.last()`. -/
  | choose (caller : Caller)
  /-- `create_sst`, with the lock held. -/
  | create (caller : Caller) (mem : MemId)
  /-- `seek_to_first` on the memtable's iterator. -/
  | seek (caller : Caller) (mem : MemId) (builder : MemtableBuilder)
  /-- The loop over the memtable; `item` is what the iterator holds. After it `finish`. -/
  | build (caller : Caller) (mem : MemId) (builder : MemtableBuilder)
      (item : Option (Bytes × Entry Bytes)) (added : List (Bytes × Entry Bytes))
  /-- Publishing the new state. -/
  | publish (caller : Caller) (mem : MemId) (sst : SstMeta)

/-- `switchedOut`, `history` and `acked` are ghosts: the memtables switched out so far, every
application of an entry, and the `write` calls that have returned `Ok`. -/
structure Store (ι : Type) where
  mems : MemId → MemTable Bytes Bytes
  nextMem : MemId
  state : LsmState
  disk : DiskManager
  flushLock : Bool
  pcs : ι → Pc
  switchedOut : List MemId
  history : List Event
  acked : List WriteCall

inductive Label (ι : Type)
  | write (t : ι) (batch : WriteBatch)
  | switch (t : ι)
  | flush (t : ι)
  | step (t : ι)
  /-- The I/O of the thread's next step fails. -/
  | fail (t : ι)
deriving DecidableEq

namespace Store

variable {ι : Type} [DecidableEq ι]

def new (blockSize : ℕ) : Store ι where
  mems := fun _ => .new
  nextMem := 1
  state := .new 0
  disk := .new blockSize
  flushLock := false
  pcs := fun _ => .idle
  switchedOut := []
  history := []
  acked := []

def goto (self : Store ι) (t : ι) (pc : Pc) : Store ι :=
  { self with pcs := Function.update self.pcs t pc }

/-- `write` returns `Ok`. -/
def ack (self : Store ι) (t : ι) (call : WriteCall) : Store ι :=
  { self.goto t .idle with acked := call :: self.acked }

/-- `flush_oldest_imm` returns `Ok` and drops the flush guard. -/
def flushReturns (self : Store ι) (t : ι) : Caller → Store ι
  | .write call => { self.ack t call with flushLock := false }
  | .scheduler => { self.goto t .idle with flushLock := false }

/-- `flush_oldest_imm` returns an error, which ends the calling `write` as well. -/
def flushFails (self : Store ι) (t : ι) : Store ι :=
  { self.goto t .idle with flushLock := false }

/-- One entry of a batch goes into the memtable of the writer's snapshot. -/
def applyEntry (self : Store ι) (mem : MemId) (entry : WriteEntry) : Store ι :=
  { self with
    mems := Function.update self.mems mem (entry.apply (self.mems mem))
    history := self.history ++ [⟨mem, entry.key, entry.entry⟩] }

/-- The body of `switch_memtable` under the state's write lock. -/
def switchMemtable (opt : LsmTableOption) (self : Store ι) : Store ι :=
  if (self.mems self.state.activeMem).estimateMemory < opt.memtableSizeLimit then self
  else { self with
    nextMem := self.nextMem + 1
    state := self.state.switched self.nextMem
    switchedOut := self.switchedOut ++ [self.state.activeMem] }

/-- The first entry of a memtable beyond `key`, where `next` takes its iterator. -/
def entryAfter (mem : MemTable Bytes Bytes) (key : Bytes) : Option (Bytes × Entry Bytes) :=
  mem.entries.find? fun e => key < e.1

/-- A thread's next step. -/
def advance (opt : LsmTableOption) (self : Store ι) (t : ι) : Option (Store ι) :=
  match self.pcs t with
  | .idle => none
  | .append batch => some (self.goto t (.snapshot batch))
  | .snapshot batch => some (self.goto t (.apply self.state.activeMem ⟨batch, []⟩))
  | .apply mem call =>
      match call.nextEntry with
      | some entry =>
          some ((self.applyEntry mem entry).goto t (.apply mem (call.applied self.history.length)))
      | none =>
          if (self.mems mem).estimateMemory < opt.memtableSizeLimit then some (self.ack t call)
          else some (self.goto t (.switch (some call)))
  | .switch (some call) => some ((self.switchMemtable opt).goto t (.backlog call))
  | .switch none => some ((self.switchMemtable opt).goto t .idle)
  | .backlog call =>
      if self.state.immMemtables.length < opt.maxImmMemtables then some (self.ack t call)
      else some (self.goto t (.lock (.write call)))
  | .lock caller =>
      if self.flushLock then none
      else some { self.goto t (.choose caller) with flushLock := true }
  | .choose caller =>
      match self.state.immMemtables.getLast? with
      | none => some (self.flushReturns t caller)
      | some oldest => some (self.goto t (.create caller oldest))
  | .create caller mem =>
      let (writer, disk) := self.disk.createSst
      let builder := SstBuilder.new ⟨writer, self.disk.option⟩ self.disk.option
      some { self.goto t (.seek caller mem builder) with disk }
  | .seek caller mem builder =>
      some (self.goto t (.build caller mem builder (self.mems mem).entries.head? []))
  | .build caller mem builder (some (key, entry)) added =>
      match builder.add key entry with
      | .ok builder => some (self.goto t
          (.build caller mem builder (entryAfter (self.mems mem) key) (added ++ [(key, entry)])))
      | .error _ => some (self.flushFails t)
  | .build caller mem builder none added =>
      match builder.finish with
      | .ok (footer, writer) =>
          some { self.goto t (.publish caller mem
            ⟨writer.inner.sstId, (footer.firstKey, footer.lastKey), writer.inner.fileSize,
              mem, added⟩) with disk := self.disk.store writer.inner }
      | .error _ => some (self.flushFails t)
  | .publish caller _ sst =>
      some ({ self with state := self.state.flushed sst }.flushReturns t caller)

/-- A thread's next step when its I/O fails. -/
def failing (self : Store ι) (t : ι) : Option (Store ι) :=
  match self.pcs t with
  | .append _ => some (self.goto t .idle)
  -- The id is gone, whether or not the file could be created.
  | .create _ _ => some { self.flushFails t with
      disk := { self.disk with nextSstId := self.disk.nextSstId + 1 } }
  | .build _ _ _ _ _ => some (self.flushFails t)
  | _ => none

/-- A call by an idle thread. -/
def call (self : Store ι) (t : ι) (pc : Pc) : Option (Store ι) :=
  match self.pcs t with
  | .idle => some (self.goto t pc)
  | _ => none

def step (opt : LsmTableOption) (self : Store ι) : Label ι → Option (Store ι)
  | .write t batch => self.call t (.append batch)
  | .switch t => self.call t (.switch none)
  | .flush t => self.call t (.lock .scheduler)
  | .step t => self.advance opt t
  | .fail t => self.failing t

end Store

end Todb.Lsm

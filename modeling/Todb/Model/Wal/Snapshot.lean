import Todb.Model.Wal.System

/-! # Scans next to the flush thread

`Wal::scan` clones the segment list under its lock. The index memtable it gets is the one the
flush thread writes to; after a rollover the scans that have it keep it. -/

namespace Todb.Wal

open Library

/-- What a scan has cloned; `activeMem` counts the memtables in the order of their creation.
The value of `durable_lsn` and, as a ghost, the number of published LSNs are recorded. -/
structure Snapshot where
  sealed : List ℕ
  activeSeg : ℕ
  activeMem : ℕ
  durableLsn : ℕ
  published : ℕ
deriving DecidableEq, Repr

structure ScannedWal (ι : Type) where
  wal : System ι
  retired : List IndexMem
  snapshots : List Snapshot

inductive ScanLabel (ι : Type)
  | wal (l : Label ι)
  | clone

namespace ScannedWal

variable {ι : Type}

/-- The memtable a scan has, as it is now. -/
def memAt (self : ScannedWal ι) (k : ℕ) : IndexMem :=
  (self.retired[k]?).getD self.wal.flush.curMem

/-- The clones made under the segments lock. -/
def clone (self : ScannedWal ι) : Snapshot :=
  ⟨self.wal.flush.sealedSegs, self.wal.flush.curSeg, self.retired.length,
    self.wal.shared.durableLsn, self.wal.shared.published⟩

/-- The memtable that a step replaces. -/
def replaced (self : ScannedWal ι) (l : Label ι) : List IndexMem :=
  match l, self.wal.flush.pc with
  | .flush, .installSegment _ _ => [self.wal.flush.curMem]
  | _, _ => []

def step [DecidableEq ι] (crc32 : Bytes → UInt32) (cfg : WalConfig) (self : ScannedWal ι) :
    ScanLabel ι → Option (ScannedWal ι)
  | .wal l =>
      (self.wal.step crc32 cfg l).map fun wal =>
        { self with wal, retired := self.retired ++ self.replaced l }
  | .clone => some { self with snapshots := self.snapshots ++ [self.clone] }

end ScannedWal

/-! ## A flush thread with its input -/

/-- A buffer for the flush thread, and the position and payload of the frame in each slot. -/
structure Batch where
  buffer : WalBuffer
  slots : List (ℕ × Bytes)

namespace Batch

/-- The slot claims that filled a buffer. -/
def issues (buf : BufId) (self : Batch) : List Issue :=
  self.slots.mapIdx fun i slot => ⟨buf, i, slot.1, slot.2⟩

/-- The slot claims of some buffers, numbered from `buf`. -/
def issuesFrom : BufId → List Batch → List Issue
  | _, [] => []
  | buf, batch :: batches => batch.issues buf ++ issuesFrom (buf + 1) batches

end Batch

/-- The flush thread of a fresh directory with all its input queued. `flushTx` says whether
more may follow. -/
def System.fed (cfg : WalConfig) (batches : List Batch) (flushTx stopFlag : Bool) :
    System Empty where
  shared :=
    { buffers := fun b => ((batches[b]?).map Batch.buffer).getD (.new (fun _ => 0) 0)
      active := batches.length
      freePool := []
      flushQueue := List.range' 0 batches.length
      durableLsn := 0
      phase := .sent
      issued := Batch.issuesFrom 0 batches
      returned := List.range (Batch.issuesFrom 0 batches).length
      published := 0
      flushTx
      stopFlag
      flushHandle := .present
      syncs := []
      closes := [] }
  pcs := Empty.elim
  flush := .init cfg

def ScannedWal.fed (cfg : WalConfig) (batches : List Batch) (flushTx stopFlag : Bool) :
    ScannedWal Empty :=
  ⟨.fed cfg batches flushTx stopFlag, [], []⟩

end Todb.Wal

import Todb.Model.Wal.Segment
import Todb.Model.Wal.Threads

/-! # The flush thread

The only writer of segment files. I/O succeeds; a failed assertion of the index builder
panics the thread. -/

namespace Todb.Wal

open Library

/-- A buffer being flushed, with the locals of `flush_buffer`. -/
structure FlushJob where
  buf : BufId
  count : ℕ
  minLsn : ℕ
  logicalEnd : ℕ
deriving DecidableEq, Repr

inductive FlushPc
  | recv
  | loadCount (buf : BufId)
  | loadMinLsn (buf : BufId) (count : ℕ)
  | scan (buf : BufId) (count minLsn i logicalEnd : ℕ)
  | ensureSegment (job : FlushJob)
  | sealIdx (job : Option FlushJob)
  | sealMeta (job : Option FlushJob)
  | openSegment (job : FlushJob)
  | initMeta (job : FlushJob) (segId : ℕ) (wasCreated : Bool)
  | installSegment (job : FlushJob) (segId : ℕ)
  | pad (job : FlushJob)
  | pwrite (job : FlushJob)
  | fdatasync (job : FlushJob)
  | put (job : FlushJob) (i : ℕ)
  | publish (job : FlushJob)
  | recycle (buf : BufId)
  | recycleReset (buf : BufId) (stage : ℕ)
  | recyclePush (buf : BufId)
  | done
  | panicked (buf : Option BufId)
deriving DecidableEq, Repr

/-- A buffer that was flushed: where its image went, and the LSNs in it. -/
structure Region where
  seg : ℕ
  base : ℕ
  minLsn : ℕ
  count : ℕ
  image : Bytes
deriving DecidableEq

/-- The flush thread's own state, the segment list it maintains, and the disk. The flushed
buffers are recorded as a ghost. -/
structure FlushThread where
  pc : FlushPc
  curSeg : ℕ
  curMem : IndexMem
  segWritten : ℕ
  segMinLsn : ℕ
  segMaxLsn : ℕ
  nextSegId : ℕ
  sealedSegs : List ℕ
  disk : ℕ → Option SegmentFiles
  flushed : List Region

namespace FlushThread

/-- The flush thread of a fresh directory, with segment 0 created. -/
def init (cfg : WalConfig) : FlushThread where
  pc := .recv
  curSeg := 0
  curMem := .new
  segWritten := 0
  segMinLsn := 0
  segMaxLsn := 0
  nextSegId := 1
  sealedSegs := []
  disk := Function.update (fun _ => none) 0
    (some { SegmentFiles.create cfg.segmentSize with header := some ⟨0, 0, 0, 0⟩ })
  flushed := []

@[simp] theorem pc_init (cfg : WalConfig) : (init cfg).pc = .recv := rfl

def goto (self : FlushThread) (pc : FlushPc) : FlushThread := { self with pc }

/-- An operation on the files of a segment. -/
def modifyFiles (self : FlushThread) (segId : ℕ) (f : SegmentFiles → SegmentFiles) :
    FlushThread :=
  { self with disk := Function.update self.disk segId ((self.disk segId).map f) }

/-- How the thread ended, if it did. -/
def stopped (self : FlushThread) : Option Bool :=
  match self.pc with
  | .done => some true
  | .panicked _ => some false
  | _ => none

end FlushThread

variable (cfg : WalConfig)

def FlushJob.padded (self : FlushJob) : ℕ := alignUp self.logicalEnd cfg.blockSize

/-- `std::ptr::write_bytes` over the tail padding. -/
def WalBuffer.zeroTail (self : WalBuffer) (start stop : ℕ) : WalBuffer :=
  { self with data := fun i => if start ≤ i ∧ i < stop then 0 else self.data i }

/-- The `.idx` file and the header of the current segment. -/
def stepSeal (self : FlushThread) (job : Option FlushJob) : FlushThread :=
  if 0 < self.curMem.len % 2 ^ 32 then
    match sealIdx cfg.blockSize self.curMem ((self.disk self.curSeg).bind (·.idx)) with
    | .ok file =>
        (self.modifyFiles self.curSeg fun files => { files with idx := some file }).goto
          (.sealMeta job)
    | .error _ => self.goto (.panicked (job.map FlushJob.buf))
  else self.goto (.sealMeta job)

/-- One atomic operation or I/O call of the flush thread. -/
def stepFlush (sh : Shared) (self : FlushThread) : Option (Shared × FlushThread) :=
  match self.pc with
  | .recv =>
      match sh.flushQueue with
      | buf :: flushQueue => some ({ sh with flushQueue }, self.goto (.loadCount buf))
      | [] => if sh.flushTx then none else some (sh, self.goto (.sealIdx none))
  | .loadCount buf => some (sh, self.goto (.loadMinLsn buf (sh.buffers buf).count))
  | .loadMinLsn buf count =>
      some (sh, self.goto
        (if count = 0 then .recycle buf else .scan buf count (sh.buffers buf).minLsn 0 0))
  | .scan buf count minLsn i logicalEnd =>
      if i < cfg.bufferSize / headerLen then
        let (pos, flen) := unpack ((sh.buffers buf).entries i)
        let logicalEnd := max logicalEnd (pos + flen)
        some (sh, self.goto
          (if i + 1 < count then .scan buf count minLsn (i + 1) logicalEnd
            else .ensureSegment ⟨buf, count, minLsn, logicalEnd⟩))
      else some (sh, self.goto (.panicked (some buf)))
  | .ensureSegment job =>
      some (sh, self.goto
        (if cfg.segmentSize < self.segWritten + job.padded cfg then .sealIdx (some job)
          else .pad job))
  | .sealIdx job => some (sh, stepSeal cfg self job)
  | .sealMeta job =>
      let header : IdxHeader :=
        ⟨self.curSeg, self.segMinLsn, self.segMaxLsn, self.curMem.len % 2 ^ 32⟩
      some (sh, (self.modifyFiles self.curSeg fun files => { files with header := some header }).goto
        (match job with
          | some job => .openSegment job
          | none => .done))
  | .openSegment job =>
      let segId := self.nextSegId
      let created := (self.disk segId).isNone
      let disk := if created then
          Function.update self.disk segId (some (SegmentFiles.create cfg.segmentSize))
        else self.disk
      some (sh, { self with
        disk
        nextSegId := (segId + 1) % 2 ^ 32
        pc := .initMeta job segId created })
  | .initMeta job segId wasCreated =>
      let self := if wasCreated then
          self.modifyFiles segId fun files => { files with header := some ⟨segId, job.minLsn, 0, 0⟩ }
        else self
      some (sh, self.goto (.installSegment job segId))
  | .installSegment job segId =>
      some (sh, { self with
        sealedSegs := self.sealedSegs ++ [self.curSeg]
        curSeg := segId
        curMem := .new
        segWritten := 0
        segMinLsn := job.minLsn
        segMaxLsn := job.minLsn
        pc := .pad job })
  | .pad job =>
      some (sh.modify job.buf fun b => b.zeroTail job.logicalEnd (job.padded cfg),
        self.goto (.pwrite job))
  | .pwrite job =>
      if job.padded cfg ≤ cfg.bufferSize then
        let bytes := (sh.buffers job.buf).read 0 (job.padded cfg)
        some (sh, (self.modifyFiles self.curSeg fun files =>
          { files with log := pwriteAll files.log bytes self.segWritten }).goto (.fdatasync job))
      else some (sh, self.goto (.panicked (some job.buf)))
  | .fdatasync job =>
      some (sh, (self.modifyFiles self.curSeg fun files =>
        { files with synced := files.log }).goto (.put job 0))
  | .put job i =>
      let (pos, flen) := unpack ((sh.buffers job.buf).entries i)
      let curMem := self.curMem.put (lsnToKey ((job.minLsn + i) % 2 ^ 64))
        (encodeOffsetLen (self.segWritten + pos) flen)
      some (sh, { self with
        curMem
        pc := if i + 1 < job.count then .put job (i + 1) else .publish job })
  | .publish job =>
      let segMaxLsn := (job.minLsn + job.count - 1) % 2 ^ 64
      some ({ sh with durableLsn := segMaxLsn, published := job.minLsn + job.count },
        { self with
          segWritten := self.segWritten + job.padded cfg
          segMaxLsn
          flushed := self.flushed ++ [⟨self.curSeg, self.segWritten, job.minLsn, job.count,
            (sh.buffers job.buf).read 0 (job.padded cfg)⟩]
          pc := .recycle job.buf })
  | .recycle buf =>
      some (sh, self.goto (if sh.stopFlag then .recv else .recycleReset buf 0))
  | .recycleReset buf stage =>
      some (sh.modify buf (WalBuffer.resetStore 0 stage), self.goto
        (if stage + 1 < WalBuffer.resetStores then .recycleReset buf (stage + 1)
          else .recyclePush buf))
  | .recyclePush buf =>
      some ({ sh with freePool := buf :: sh.freePool }, self.goto .recv)
  | .done => none
  | .panicked _ => none

end Todb.Wal

import Todb.Model.Wal.Flush

/-! # Calls of the flush thread

`flush_buffer`, `ensure_segment` and `finalize_segment` as single calls on the flush state.
Nothing disturbs the buffer during a call. -/

namespace Todb.Wal

open Library

/-- The end of the last frame, over the slot words. -/
def WalBuffer.logicalEnd (self : WalBuffer) : ℕ :=
  (List.range self.count).foldl
    (fun logicalEnd i =>
      let (pos, flen) := unpack (self.entries i)
      max logicalEnd (pos + flen)) 0

/-- The loop that puts the frames of a buffer into the index. -/
def WalBuffer.putEntries (self : WalBuffer) (base : ℕ) (mem : IndexMem) : IndexMem :=
  (List.range self.count).foldl
    (fun mem i =>
      let (pos, flen) := unpack (self.entries i)
      mem.put (lsnToKey ((self.minLsn + i) % 2 ^ 64)) (encodeOffsetLen (base + pos) flen)) mem

namespace FlushThread

variable (cfg : WalConfig)

/-- The `.idx` file, for a memtable whose truncated length is not zero. -/
def writeIdx (self : FlushThread) : Outcome FlushThread :=
  if 0 < self.curMem.len % 2 ^ 32 then do
    let file ← sealIdx cfg.blockSize self.curMem ((self.disk self.curSeg).bind (·.idx))
    return self.modifyFiles self.curSeg fun files => { files with idx := some file }
  else .ok self

/-- The index first, then the header. -/
def finalizeSegment (self : FlushThread) : Outcome FlushThread := do
  let header : IdxHeader :=
    ⟨self.curSeg, self.segMinLsn, self.segMaxLsn, self.curMem.len % 2 ^ 32⟩
  let self ← self.writeIdx cfg
  return self.modifyFiles self.curSeg fun files => { files with header := some header }

/-- Opens the next segment and makes it the current one. A file that exists is kept. -/
def openSegment (self : FlushThread) (minLsn : ℕ) : FlushThread :=
  let segId := self.nextSegId
  { self with
    disk :=
      if (self.disk segId).isNone then
        Function.update self.disk segId
          (some { SegmentFiles.create cfg.segmentSize with header := some ⟨segId, minLsn, 0, 0⟩ })
      else self.disk
    nextSegId := (segId + 1) % 2 ^ 32
    sealedSegs := self.sealedSegs ++ [self.curSeg]
    curSeg := segId
    curMem := .new
    segWritten := 0
    segMinLsn := minLsn
    segMaxLsn := minLsn }

/-- Must the current segment be left for `padded` more bytes? -/
def needNew (self : FlushThread) (padded : ℕ) : Prop :=
  cfg.segmentSize < self.segWritten + padded

instance (self : FlushThread) (padded : ℕ) : Decidable (self.needNew cfg padded) :=
  inferInstanceAs (Decidable (_ < _))

def ensureSegment (self : FlushThread) (minLsn padded : ℕ) : Outcome FlushThread :=
  if self.needNew cfg padded then do
    let self ← self.finalizeSegment cfg
    return self.openSegment cfg minLsn
  else return self

/-- The image of a buffer in the log, its frames in the index, and the new counters. -/
def writeBuffer (self : FlushThread) (buf : WalBuffer) (padded : ℕ) : FlushThread :=
  let image := (buf.zeroTail buf.logicalEnd padded).read 0 padded
  let written := self.modifyFiles self.curSeg fun files =>
    let log := pwriteAll files.log image self.segWritten
    { files with log, synced := log }
  { written with
    curMem := buf.putEntries self.segWritten self.curMem
    segWritten := self.segWritten + padded
    segMaxLsn := (buf.minLsn + buf.count - 1) % 2 ^ 64
    flushed := self.flushed ++ [⟨self.curSeg, self.segWritten, buf.minLsn, buf.count, image⟩] }

-- The slot array has `buffer_size / 16` words; a longer count or image is out of bounds.
def flushBuffer (self : FlushThread) (buf : WalBuffer) : Outcome FlushThread :=
  if buf.count = 0 then .ok self
  else if cfg.bufferSize / headerLen < buf.count then .error .panic
  else do
    let padded := alignUp buf.logicalEnd cfg.blockSize
    let self ← self.ensureSegment cfg buf.minLsn padded
    if padded ≤ cfg.bufferSize then return self.writeBuffer buf padded
    else .error .panic

end FlushThread

end Todb.Wal

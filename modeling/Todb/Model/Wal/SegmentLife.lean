import Todb.Model.Wal.Meta
import Todb.Model.Wal.Segment

/-! # The life of a segment, as I/O

Every `pwrite` and `fdatasync` on the files of one segment, from its creation through the
flushed buffers to `finalize_segment`. -/

namespace Todb.Wal

open Library

inductive SegmentFile
  | logFile
  | idxFile
  | metaFile
deriving DecidableEq, Repr

abbrev SegmentOp := SegmentFile × FileOp Bytes

variable (blockSize : ℕ)

/-- The complete blocks of some bytes. -/
def blocksOf (bytes : Bytes) : List Bytes :=
  (List.range (bytes.length / blockSize)).map fun i => (bytes.drop (i * blockSize)).take blockSize

/-- The end of the last frame that slot words give. -/
def logicalEnd (entries : List UInt64) : ℕ :=
  entries.foldl (fun stop word => max stop ((unpack word.toNat).1 + (unpack word.toNat).2)) 0

/-- A buffer on its way to disk: its slot words and its bytes. The padded frames lie in the
buffer, as slicing it demands. -/
structure FilledBuffer where
  minLsn : UInt64
  entries : List UInt64
  data : Bytes
  inside : alignUp (logicalEnd entries) blockSize ≤ data.length

namespace FilledBuffer

variable {blockSize}

def padded (self : FilledBuffer blockSize) : ℕ := alignUp (logicalEnd self.entries) blockSize

/-- The bytes that are written: the frames, and zeros up to the next block boundary. -/
def image (self : FilledBuffer blockSize) : Bytes :=
  self.data.take (logicalEnd self.entries) ++
    List.replicate (self.padded - logicalEnd self.entries) 0

end FilledBuffer

/-- What the flush thread keeps about the segment it writes. -/
structure OpenSegment where
  segId : UInt32
  minLsn : UInt64
  maxLsn : UInt64
  written : ℕ
  mem : IndexMem

namespace OpenSegment

variable {blockSize}

/-- The index puts of a flushed buffer. -/
def putAll (base : ℕ) : ℕ → List UInt64 → IndexMem → IndexMem
  | _, [], mem => mem
  | lsn, word :: words, mem =>
      let (pos, flen) := unpack word.toNat
      putAll base (lsn + 1) words
        (mem.put (lsnToKey (lsn % 2 ^ 64)) (encodeOffsetLen (base + pos) flen))

/-- The bookkeeping of `flush_buffer`; an empty buffer is only recycled. -/
def flush (self : OpenSegment) (buf : FilledBuffer blockSize) : OpenSegment :=
  if buf.entries = [] then self
  else { self with
    mem := putAll self.written buf.minLsn.toNat buf.entries self.mem
    written := self.written + buf.padded
    maxLsn := buf.minLsn + UInt64.ofNat buf.entries.length - 1 }

/-- The I/O of `flush_buffer`. -/
def flushOps (self : OpenSegment) (buf : FilledBuffer blockSize) : List SegmentOp :=
  if buf.entries = [] then []
  else Disk.on .logFile
    (BlockFile.writes (self.written / blockSize) (blocksOf blockSize buf.image) ++ [.sync])

variable (crc32 : Bytes → UInt32)

/-- The header of a new segment. -/
def createOps (blockSize : ℕ) (self : OpenSegment) : List SegmentOp :=
  Disk.on .metaFile (Meta.writeMetaHeaderDouble blockSize
    (Meta.IdxHeader.new crc32 self.segId self.minLsn 0 0))

def finalHeader (self : OpenSegment) : Meta.IdxHeader :=
  Meta.IdxHeader.new crc32 self.segId self.minLsn self.maxLsn (UInt32.ofNat self.mem.len)

/-- The I/O of `finalize_segment`: the `.idx` blocks in the order the builder streams them,
and the header. -/
def finalizeOps (blockSize : ℕ) (self : OpenSegment) : List SegmentOp :=
  let header := Disk.on .metaFile (Meta.writeMetaHeaderDouble blockSize (self.finalHeader crc32))
  if 0 < UInt32.ofNat self.mem.len then
    match sealIdx blockSize self.mem none with
    | .ok file =>
        Disk.on .idxFile (BlockFile.writes 0 (blocksOf blockSize file) ++ [.sync]) ++ header
    | .error _ => []
  else header

/-- The flushes of some buffers. -/
def flushAllOps (self : OpenSegment) : List (FilledBuffer blockSize) → List SegmentOp
  | [] => []
  | buf :: bufs => self.flushOps buf ++ flushAllOps (self.flush buf) bufs

def flushAll (self : OpenSegment) (bufs : List (FilledBuffer blockSize)) : OpenSegment :=
  bufs.foldl flush self

/-- All I/O on a segment that receives the given buffers. -/
def lifeOps (self : OpenSegment) (bufs : List (FilledBuffer blockSize)) : List SegmentOp :=
  self.createOps crc32 blockSize ++ self.flushAllOps bufs ++
    (self.flushAll bufs).finalizeOps crc32 blockSize

end OpenSegment

/-- A new segment; `ensure_segment` starts it with the LSN of its first buffer. -/
def OpenSegment.new (segId : UInt32) (minLsn maxLsn : UInt64) : OpenSegment :=
  ⟨segId, minLsn, maxLsn, 0, .new⟩

/-- The files of a new segment read as zeros. -/
def freshSegment : SegmentFile → BlockFile Bytes :=
  fun _ => ⟨fun _ => List.replicate blockSize 0, []⟩

/-- The bytes of a file at an offset. -/
def bytesAt (file : ℕ → Bytes) (offset len : ℕ) : Bytes :=
  (List.range len).map fun i => ((file ((offset + i) / blockSize))[(offset + i) % blockSize]?).getD 0

end Todb.Wal

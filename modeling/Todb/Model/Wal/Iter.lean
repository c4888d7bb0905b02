import Todb.Model.Lsm.Scan
import Todb.Model.Wal.IndexReader
import Todb.Model.Wal.Meta
import Todb.Model.Wal.Snapshot

/-! # The WAL iterator

`WalIter` merges the indexes of the sealed segments with the memtable of the active one, and
reads frames through a block cache of its own. -/

namespace Todb.Wal

open Library

/-- Why a call does not return normally. `waits` is the wait in `read_block` for a frame to be
unpinned by someone else, when the caller is the only user of the cache. -/
inductive IterFault
  | err (e : WalError)
  | panic
  | outOfFuel
  | waits
deriving DecidableEq, Repr

/-- `map_err(|e| WalError::Io(io::Error::other(format!("{text}: {e}"))))`. -/
def IterFault.wrap (text : String) : Fault → IterFault
  | .err e => .err (.io (text ++ ": " ++ e.display))
  | .panic => .panic
  | .outOfFuel => .outOfFuel

/-- Reads return options: what fails inside one is a panic. -/
def IterFault.ofRead : Fault → IterFault
  | .outOfFuel => .outOfFuel
  | _ => .panic

/-! ## Reading through the cache -/

/-- A `pread` that fails, with the bytes it has read before. -/
structure ReadFailure where
  error : String
  got : Bytes
deriving DecidableEq, Repr

namespace Disk

variable {n : ℕ} (blockSize : ℕ)

/-- `read_block`, by the only user of the cache. -/
def Pool.readBlock (file : Bytes) (failure : Option ReadFailure) (key : BlockKey)
    (self : Pool n) : Ran IterFault (Pool n) :=
  match self.cache.pinHit key with
  | some (idx, cache) => .ok { self with cache, guards := ⟨idx, key⟩ :: self.guards }
  | none =>
      match self.cache.findVictim with
      | (some idx, cache) =>
          let cache := cache.prepareLoad idx
          match failure with
          | none =>
              let cache := cache.modify idx fun f =>
                { f with buf := preadInto file f.buf (key.blockIdx.toNat * blockSize) }
              .ok { self with
                cache := cache.commitLoad idx key
                guards := ⟨idx, key⟩ :: self.guards }
          | some failure =>
              let cache := cache.modify idx fun f =>
                { f with
                  buf := failure.got.take f.buf.length ++ f.buf.drop failure.got.length }
              .fail (.err (.io failure.error)) { self with cache := cache.unpin idx }
      | (none, cache) => .fail .waits { self with cache }

/-- The reads of one frame, whose guards are all kept. -/
def Pool.readBlocks (file : Bytes) (failures : BlockKey → Option ReadFailure) :
    List BlockKey → Pool n → Ran IterFault (Pool n)
  | [], self => .ok self
  | key :: keys, self =>
      (self.readBlock blockSize file (failures key) key).bind (readBlocks file failures keys)

/-- The bytes under the guards, in the order of the reads. -/
def Pool.guarded (self : Pool n) : List Bytes :=
  self.guards.reverse.map fun guard => (self.cache.frames guard.idx).buf

/-- All guards are dropped. -/
def Pool.dropGuards (self : Pool n) : Pool n :=
  { self with
    cache := self.guards.foldl (fun cache guard => cache.unpin guard.idx) self.cache
    guards := [] }

/-- `raw_read`, which goes past the cache. -/
def rawRead (file : Bytes) (offset len : ℕ) : Outcome Bytes :=
  if blockSize = 0 then .error .panic
  else
    let alignedOffset := offset / blockSize * blockSize
    let offsetInBlock := offset - alignedOffset
    let alignedLen := (offsetInBlock + len + blockSize - 1) / blockSize * blockSize
    slice (preadInto file (List.replicate alignedLen 0) alignedOffset) offsetInBlock
      (offsetInBlock + len)

end Disk

/-! ## Segment indexes -/

/-- Points to a frame in a segment's `.log`. -/
structure IndexEntry where
  segId : UInt32
  offset : ℕ
  len : ℕ
deriving DecidableEq, Repr

/-- An index cursor with the segment it belongs to. -/
structure SegmentIndexIter (ι : Type) where
  inner : ι
  segId : UInt32

/-- A tombstone has no value; a value that is too short panics. -/
def SegmentIndexIter.value {ι κ : Type} [Cursor ι κ (Entry Bytes) Fault]
    (self : SegmentIndexIter ι) : Outcome (Option IndexEntry) := do
  match ← Cursor.value self.inner with
  | some (.put bytes) =>
      match decodeOffsetLen bytes with
      | some (offset, len) => return some ⟨self.segId, offset, len⟩
      | none => throw .panic
  | some .delete => return none
  | none => return none

instance {ι κ : Type} [Cursor ι κ (Entry Bytes) Fault] :
    Cursor (SegmentIndexIter ι) κ IndexEntry Fault where
  valid self := Cursor.valid self.inner
  key self := Cursor.key self.inner
  value self := self.value
  seekToFirst d self := (Cursor.seekToFirst d self.inner).map fun inner => { self with inner }
  seek d self target := (Cursor.seek d self.inner target).map fun inner => { self with inner }
  next d self := (Cursor.next d self.inner).map fun inner => { self with inner }

abbrev SstIndexIter (fuel : ℕ) := SegmentIndexIter (SstIter fuel WalIndexReader)

abbrev MemTableIndexIter := SegmentIndexIter Lsm.OwnedMemTableIter

/-- An open segment: its id, and the file behind `meta_fd`. -/
structure Segment where
  segId : UInt32
  metaFile : Bytes
deriving DecidableEq

/-- The footer and the blocks are read through `meta_fd`. -/
def SegmentIndexIter.fromSealedSegment (fuel blockSize : ℕ) (segment : Segment) :
    Except IterFault (SstIndexIter fuel) := do
  let fileSize := segment.metaFile.length
  if fileSize < 4 then
    throw (.err (.io "idx file too small"))
  let trailer ← (Disk.rawRead blockSize segment.metaFile (fileSize - 4) 4).mapError .ofRead
  let footerTotal := ofBe trailer + 4
  if fileSize < footerTotal then
    throw (.err (.io "idx file too small for footer"))
  let footerBuf ← (Disk.rawRead blockSize segment.metaFile (fileSize - footerTotal)
    footerTotal).mapError .ofRead
  let footer ← (SstFooter.decode footerBuf).mapError (.wrap "decode footer")
  let reader := WalIndexReader.new segment.metaFile blockSize
  return ⟨SstIter.new fuel reader footer, segment.segId⟩

/-! ## Frames -/

/-- The blocks from `start_block` to `end_block`. -/
def IndexEntry.blocks (blockSize : ℕ) (self : IndexEntry) : Outcome (List Disk.BlockKey) :=
  if blockSize = 0 ∨ self.offset + self.len = 0 ∨ 2 ^ 64 ≤ self.offset + self.len then
    .error .panic
  else
    let startBlock := self.offset / blockSize
    let endBlock := (self.offset + self.len - 1) / blockSize
    .ok ((List.range' startBlock (endBlock + 1 - startBlock)).map fun block =>
      ⟨self.segId, UInt64.ofNat block⟩)

/-- The copy loop over the blocks after the first. -/
def copyRest (blockSize : ℕ) : ℕ → List Bytes → Outcome Bytes
  | _, [] => .ok []
  | remaining, block :: blocks =>
      if 0 < remaining then do
        let copyLen := min remaining blockSize
        let part ← slice block 0 copyLen
        return part ++ (← copyRest blockSize (remaining - copyLen) blocks)
      else .ok []

/-- The bytes of a frame, put together from the blocks that cover it. -/
def assemble (blockSize : ℕ) (entry : IndexEntry) (blocks : List Bytes) : Outcome Bytes := do
  let blockOffset := entry.offset % blockSize
  let firstCopyLen := min (blockSize - blockOffset) entry.len
  let first ← slice (← index blocks 0) blockOffset (blockOffset + firstCopyLen)
  return first ++ (← copyRest blockSize (entry.len - firstCopyLen) blocks.tail)

/-! ## The iterator -/

inductive LsnBound
  | included (lsn : ℕ)
  | excluded (lsn : ℕ)
  | unbounded
deriving DecidableEq, Repr

/-- `dm` is the cache that `scan` makes for the iterator, with the guards the iterator holds on
blocks of a frame. -/
structure WalIter (fuel n : ℕ) where
  indexIter : TwoMergeIter fuel (ConcatIter (SstIndexIter fuel)) MemTableIndexIter
  blockSize : ℕ
  dm : Disk.Pool n
  buffer : Bytes

namespace WalIter

variable {fuel n : ℕ}

/-- The range is not used. -/
def new (fuel n blockSize : ℕ) (sealedSegs : List Segment) (activeSeg : UInt32)
    (mems : Lsm.MemId → IndexMem) (activeMem : Lsm.MemId)
    (_range : LsnBound × LsnBound) : Except IterFault (WalIter fuel n) := do
  let sealedIters ← sealedSegs.mapM (SegmentIndexIter.fromSealedSegment fuel blockSize)
  let activeIter : MemTableIndexIter := ⟨.new mems activeMem, activeSeg⟩
  let indexIter ←
    (TwoMergeIter.new fuel (ConcatIter.new sealedIters) activeIter).mapError (.wrap "merge iter")
  return ⟨indexIter, blockSize, .init n blockSize, []⟩

def valid (self : WalIter fuel n) : Bool := Cursor.valid self.indexIter

def key (self : WalIter fuel n) : Except IterFault (Option ℕ) := do
  match ← (Cursor.key self.indexIter).mapError .ofRead with
  | none => return none
  | some key =>
      match keyToLsn key with
      | some lsn => return some lsn
      | none => throw .panic

/-- A call on the index. -/
def onIndex (text : String) (self : WalIter fuel n)
    (r : Ran Fault (TwoMergeIter fuel (ConcatIter (SstIndexIter fuel)) MemTableIndexIter)) :
    Ran IterFault (WalIter fuel n) :=
  ⟨r.result.mapError (.wrap text), { self with indexIter := r.state }⟩

def next (self : WalIter fuel n) : Ran IterFault (WalIter fuel n) :=
  self.onIndex "iter next" (Cursor.next .forward self.indexIter)

def seekToFirst (self : WalIter fuel n) : Ran IterFault (WalIter fuel n) :=
  self.onIndex "seek_to_first" (Cursor.seekToFirst .forward self.indexIter)

def seek (self : WalIter fuel n) (lsn : ℕ) : Ran IterFault (WalIter fuel n) :=
  self.onIndex "seek" (Cursor.seek .forward self.indexIter (lsnToKey lsn))

variable (crc32 : Bytes → UInt32) (logs : UInt32 → Bytes)
  (failures : Disk.BlockKey → Option ReadFailure)

/-- Reads the blocks, assembles the frame and decodes it. The guards are dropped on return. -/
def loadCurrentFrame (self : WalIter fuel n) :
    Except IterFault DecodedFrame × WalIter fuel n :=
  match (Cursor.value self.indexIter).mapError .ofRead with
  | .error fault => (.error fault, self)
  | .ok none => (.error (.err (.io "index iterator not valid")), self)
  | .ok (some entry) =>
      match (entry.blocks self.blockSize).mapError .ofRead with
      | .error fault => (.error fault, self)
      | .ok keys =>
          let read := self.dm.readBlocks self.blockSize (logs entry.segId) failures keys
          match read.result with
          | .error fault => (.error fault, { self with dm := read.state.dropGuards })
          | .ok () =>
              let self := { self with dm := read.state.dropGuards }
              match (assemble self.blockSize entry read.state.guarded).mapError .ofRead with
              | .error fault => (.error fault, self)
              | .ok buffer =>
                  (match DecodedFrame.decodeAt crc32 buffer 0 with
                    | .error e => .error (.err e)
                    | .ok none => .error (.err (.io "incomplete frame"))
                    | .ok (some decoded) => .ok decoded, { self with buffer })

/-- The payload of the current record. -/
def value (self : WalIter fuel n) : Except IterFault Bytes × WalIter fuel n :=
  if !self.valid then (.error (.err (.io "iterator not valid")), self)
  else
    match self.loadCurrentFrame crc32 logs failures with
    | (.error fault, self) => (.error fault, self)
    | (.ok decoded, self) =>
        let payloadLen := decoded.totalLen - headerLen
        ((slice self.buffer headerLen (headerLen + payloadLen)).mapError .ofRead, self)

/-- The iterator with the current contents of its memtable. -/
def refresh (mems : Lsm.MemId → IndexMem) (self : WalIter fuel n) : WalIter fuel n :=
  { self with indexIter := { self.indexIter with
      b := { self.indexIter.b with inner := self.indexIter.b.inner.refresh mems } } }

end WalIter

/-! ## Scans of a WAL -/

/-- The bytes behind `meta_fd`: the two copies of the header. -/
def SegmentFiles.metaFile (crc32 : Bytes → UInt32) (blockSize : ℕ) (self : SegmentFiles) :
    Bytes :=
  match self.header with
  | none => []
  | some header =>
      let block := Meta.headerBlock blockSize (Meta.IdxHeader.new crc32
        (UInt32.ofNat header.segId) (UInt64.ofNat header.minLiveLsn)
        (UInt64.ofNat header.maxLiveLsn) (UInt32.ofNat header.entryCount))
      block ++ block

/-- The bytes behind `log_fd`. -/
def System.logs {ι : Type} (self : System ι) (segId : UInt32) : Bytes :=
  ((self.flush.disk segId.toNat).map (·.log)).getD []

/-- `Wal::scan`, after its clones of the segment list. -/
def ScannedWal.scan {ι : Type} (fuel : ℕ) (crc32 : Bytes → UInt32) (cfg : WalConfig)
    (self : ScannedWal ι) (snapshot : Snapshot) (range : LsnBound × LsnBound) :
    Except IterFault (WalIter fuel cfg.readCacheBlocks) :=
  let segment (id : ℕ) : Segment :=
    ⟨UInt32.ofNat id,
      ((self.wal.flush.disk id).map (·.metaFile crc32 cfg.blockSize)).getD []⟩
  WalIter.new fuel cfg.readCacheBlocks cfg.blockSize (snapshot.sealed.map segment)
    (UInt32.ofNat snapshot.activeSeg) self.memAt snapshot.activeMem range

end Todb.Wal

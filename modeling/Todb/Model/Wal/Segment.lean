import Todb.Model.Memtable
import Todb.Model.Sst.Builder
import Todb.Model.Wal.Config
import Todb.Model.Wal.Frame

/-! # Segment files

A segment is a preallocated `.log`, a `.meta` header and, once sealed, an `.idx` SST. -/

namespace Todb.Wal

open Library

/-- A complete `pwrite` loop: a gap before the offset is filled with zeros. -/
def pwriteAll (file data : Bytes) (offset : ℕ) : Bytes :=
  file.take offset ++ List.replicate (offset - file.length) 0 ++ data ++
    file.drop (offset + data.length)

/-! ## The index file writer -/

structure SegmentIndexBlockWriter where
  file : Bytes
  blockSize : ℕ
  nextOffset : ℕ
deriving DecidableEq

/-- The file is opened without truncation. -/
def SegmentIndexBlockWriter.create (file : Bytes) (blockSize : ℕ) : SegmentIndexBlockWriter :=
  ⟨file, blockSize, 0⟩

-- `copy_from_slice` panics on a length mismatch; offsets are `i64` in the call to `pwrite`.
instance : BlockWriter SegmentIndexBlockWriter where
  writeBlock self data :=
    if data.length = self.blockSize then
      if self.nextOffset + self.blockSize ≤ isizeMax then
        .ok (⟨UInt64.ofNat self.nextOffset⟩,
          { self with
            file := pwriteAll self.file data self.nextOffset
            nextOffset := self.nextOffset + self.blockSize })
      else .error (.err (.ioError "file too large"))
    else .error .panic

structure ODirectSstWriter where
  inner : SegmentIndexBlockWriter
  blockSize : ℕ
deriving DecidableEq

def ODirectSstWriter.new (inner : SegmentIndexBlockWriter) (option : SstOption) :
    ODirectSstWriter :=
  ⟨inner, option.blockSize⟩

/-- The footer block: `[body][padding][trailer]`, the trailer being the last four bytes. -/
def footerBlock (blockSize : ℕ) (encoded : Bytes) : Bytes :=
  let bodyLen := encoded.length - 4
  encoded.take bodyLen ++ List.replicate (blockSize - 4 - bodyLen) 0 ++ encoded.drop bodyLen

instance : SstWriter ODirectSstWriter where
  writeBlock self data := do
    let (position, inner) ← BlockWriter.writeBlock self.inner data
    return (position, { self with inner })
  writeFooter self footer :=
    let encoded := footer.encode
    if 4 ≤ encoded.length ∧ encoded.length ≤ self.blockSize then do
      let (position, inner) ←
        BlockWriter.writeBlock self.inner (footerBlock self.blockSize encoded)
      return (position, { self with inner })
    else .error .panic

/-! ## Headers and files -/

/-- The fields of the `.meta` header that vary. -/
structure IdxHeader where
  segId : ℕ
  minLiveLsn : ℕ
  maxLiveLsn : ℕ
  entryCount : ℕ
deriving DecidableEq, Repr

/-- The files of a segment. `synced` is the `.log` at its last `fdatasync`; `header` is what
both copies of `.meta` hold. -/
structure SegmentFiles where
  log : Bytes
  synced : Bytes
  header : Option IdxHeader
  idx : Option Bytes
deriving DecidableEq

/-- A preallocated `.log` reads as zeros. -/
def SegmentFiles.create (segmentSize : ℕ) : SegmentFiles :=
  ⟨List.replicate segmentSize 0, [], none, none⟩

/-- The index memtable of a segment: LSN keys, `(offset, len)` values. -/
abbrev IndexMem := MemTable Bytes Bytes

/-- Streams the index memtable through the SST builder into the `.idx` file. -/
def sealIdx (blockSize : ℕ) (mem : IndexMem) (existing : Option Bytes) : Outcome Bytes := do
  let option : SstOption := ⟨blockSize⟩
  let writer := SegmentIndexBlockWriter.create (existing.getD []) blockSize
  let (_, sstWriter) ← buildSst (ODirectSstWriter.new writer option) option mem.entries
  return sstWriter.inner.file

end Todb.Wal

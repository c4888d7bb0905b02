import Todb.Model.Storage.Fault

/-! # Block positions, writers and readers -/

namespace Todb

open Library

/-- A file position, a byte offset. -/
structure Position where
  offset : UInt64
deriving DecidableEq, Repr

/-- `Position::from(&[u8])`: exactly eight big-endian bytes. -/
def Position.ofBytes (value : Bytes) : Outcome Position :=
  if value.length = 8 then .ok ⟨UInt64.ofNat (ofBe value)⟩ else .error .panic

/-- The largest `isize`: no allocation and no file offset exceeds it. -/
def isizeMax : ℕ := 2 ^ 63 - 1

/-- Abstraction over block write targets. -/
class BlockWriter (ω : Type) where
  writeBlock : ω → Bytes → Outcome (Position × ω)

/-- Appends blocks to a byte vector. -/
structure InMemoryBlockWriter where
  buf : Bytes
  nextOffset : UInt64
deriving DecidableEq

def InMemoryBlockWriter.new : InMemoryBlockWriter := ⟨[], 0⟩

-- A vector that would grow past `isize::MAX` bytes panics with a capacity overflow.
instance : BlockWriter InMemoryBlockWriter where
  writeBlock self data :=
    if self.buf.length + data.length ≤ isizeMax then
      .ok (⟨self.nextOffset⟩,
        ⟨self.buf ++ data, self.nextOffset + UInt64.ofNat data.length⟩)
    else .error .panic

/-- Appends blocks to a file. -/
structure FileBlockWriter where
  file : Bytes
  nextOffset : UInt64
  blockSize : ℕ
deriving DecidableEq

def FileBlockWriter.create (blockSize : ℕ) : FileBlockWriter := ⟨[], 0, blockSize⟩

def FileBlockWriter.fileSize (self : FileBlockWriter) : UInt64 := self.nextOffset

-- A write past the largest file offset fails with `EFBIG`.
instance : BlockWriter FileBlockWriter where
  writeBlock self data :=
    if self.file.length + data.length ≤ isizeMax then
      .ok (⟨self.nextOffset⟩,
        { self with
          file := self.file ++ data
          nextOffset := self.nextOffset + UInt64.ofNat data.length })
    else .error (.err (.ioError "file too large"))

/-- Abstraction over block read sources. -/
class BlockReader (ρ : Type) where
  readBlock : ρ → Position → Outcome Bytes

/-- Reads blocks from a shared buffer; the last block may be short. -/
structure InMemoryBlockReader where
  buf : Bytes
  blockSize : ℕ
deriving DecidableEq

instance : BlockReader InMemoryBlockReader where
  readBlock self position :=
    let start := position.offset.toNat
    if self.buf.length < start then .error (.err (.invalidKey "position out of bounds"))
    else slice self.buf start (min (start + self.blockSize) self.buf.length)

/-- Reads blocks from a file with `read_exact_at`. -/
structure FileBlockReader where
  file : Bytes
  blockSize : ℕ
deriving DecidableEq

instance : BlockReader FileBlockReader where
  readBlock self position :=
    let start := position.offset.toNat
    if start + self.blockSize ≤ self.file.length then
      .ok ((self.file.drop start).take self.blockSize)
    else .error (.err (.ioError "failed to fill whole buffer"))

end Todb

import Todb.Model.Wal.Segment

/-! # Reading and writing index files

What `ODirectSstWriter` leaves in an `.idx` file, and how `from_sealed_segment` looks for
the footer in a file. -/

namespace Todb.Wal

open Library

/-- Why a call of the WAL does not return normally. -/
inductive WalFault
  | err (e : WalError)
  | panic
deriving DecidableEq, Repr

/-! ## Writing -/

/-- A sequence of `write_block` calls. -/
def writeBlocks : List Bytes → ODirectSstWriter → Outcome ODirectSstWriter
  | [], writer => .ok writer
  | block :: blocks, writer => do
      let (_, writer) ← SstWriter.writeBlock writer block
      writeBlocks blocks writer

/-- The blocks, then `write_footer`, into a new file. -/
def writeIndexFile (blockSize : ℕ) (blocks : List Bytes) (footer : SstFooter) :
    Outcome Bytes := do
  let writer := ODirectSstWriter.new (.create [] blockSize) ⟨blockSize⟩
  let writer ← writeBlocks blocks writer
  let (_, writer) ← SstWriter.writeFooter writer footer
  return writer.inner.file

/-! ## Reading -/

/-- `pread_all` into a zeroed buffer: what lies past the end of the file reads as zeros. -/
def preadAll (file : Bytes) (offset len : ℕ) : Bytes :=
  (file.drop offset).take len ++ List.replicate (len - (file.length - offset)) 0

/-- `DiskManager::raw_read`: the blocks around the bytes are read, then cut. -/
def rawRead (blockSize : ℕ) (file : Bytes) (offset len : ℕ) : Bytes :=
  let alignedOffset := offset / blockSize * blockSize
  let offsetInBlock := offset - alignedOffset
  let alignedLen := (offsetInBlock + len + blockSize - 1) / blockSize * blockSize
  ((preadAll file alignedOffset alignedLen).drop offsetInBlock).take len

/-- The footer as `from_sealed_segment` reads it: the last four bytes of the file give the
length of the body, which is taken to end where they start. -/
def readFooter (blockSize : ℕ) (file : Bytes) : Except WalFault SstFooter :=
  let fileSize := file.length
  if fileSize < 4 then .error (.err (.io "idx file too small"))
  else
    let bodyLen := ofBe (rawRead blockSize file (fileSize - 4) 4)
    let footerTotal := bodyLen + 4
    if fileSize < footerTotal then .error (.err (.io "idx file too small for footer"))
    else
      match SstFooter.decode (rawRead blockSize file (fileSize - footerTotal) footerTotal) with
      | .ok footer => .ok footer
      | .error (.err e) => .error (.err (.io ("decode footer: " ++ e.display)))
      | .error _ => .error .panic

end Todb.Wal

import Todb.Library.Crash
import Todb.Model.Wal.Config
import Todb.Model.Wal.Frame

/-! # The `.meta` header

The header with all its fields, its bytes, and the double write that replaces it. -/

namespace Todb.Wal.Meta

open Library

/-- `IDX_HEADER_LEN`. -/
def idxHeaderLen : ℕ := 36

/-- `.idx` header; `headerCrc` covers the other fields. -/
structure IdxHeader where
  magic : { bytes : Bytes // bytes.length = 4 }
  version : UInt32
  segId : UInt32
  minLiveLsn : UInt64
  maxLiveLsn : UInt64
  entryCount : UInt32
  headerCrc : UInt32
deriving DecidableEq

/-- `b"WIDX"`. -/
def magicBytes : { bytes : Bytes // bytes.length = 4 } := ⟨[87, 73, 68, 88], rfl⟩

namespace IdxHeader

def serializeFields (self : IdxHeader) : Bytes :=
  self.magic.1 ++ leBytes 4 self.version.toNat ++ leBytes 4 self.segId.toNat ++
    leBytes 8 self.minLiveLsn.toNat ++ leBytes 8 self.maxLiveLsn.toNat ++
    leBytes 4 self.entryCount.toNat

def serialize (self : IdxHeader) : Bytes :=
  self.serializeFields ++ leBytes 4 self.headerCrc.toNat

variable (crc32 : Bytes → UInt32)

def new (segId : UInt32) (minLiveLsn maxLiveLsn : UInt64) (entryCount : UInt32) : IdxHeader :=
  let h : IdxHeader := ⟨magicBytes, 1, segId, minLiveLsn, maxLiveLsn, entryCount, 0⟩
  { h with headerCrc := crc32 h.serializeFields }

/-- `None` on a short buffer or a wrong checksum. -/
def deserialize (buf : Bytes) : Option IdxHeader :=
  if h : buf.length < idxHeaderLen then none
  else
    let storedCrc := UInt32.ofNat (ofLe ((buf.drop 32).take 4))
    if crc32 (buf.take 32) ≠ storedCrc then none
    else some {
      magic := ⟨buf.take 4, by simp [idxHeaderLen] at h ⊢; omega⟩
      version := UInt32.ofNat (ofLe ((buf.drop 4).take 4))
      segId := UInt32.ofNat (ofLe ((buf.drop 8).take 4))
      minLiveLsn := UInt64.ofNat (ofLe ((buf.drop 12).take 8))
      maxLiveLsn := UInt64.ofNat (ofLe ((buf.drop 20).take 8))
      entryCount := UInt32.ofNat (ofLe ((buf.drop 28).take 4))
      headerCrc := storedCrc }

end IdxHeader

variable (crc32 : Bytes → UInt32)

/-- The first copy that passes its checksum. -/
def selectValidHeader (copyA copyB : Bytes) : Except WalError IdxHeader :=
  match IdxHeader.deserialize crc32 copyA, IdxHeader.deserialize crc32 copyB with
  | some h, _ => .ok h
  | none, some h => .ok h
  | none, none => .error (.headerCorrupt (ofLe ((copyA.drop 8).take 4)))

/-- A header at the start of a zeroed block. -/
def headerBlock (blockSize : ℕ) (header : IdxHeader) : Bytes :=
  header.serialize ++ List.replicate (blockSize - idxHeaderLen) 0

/-- Copy A, sync, copy B, sync. A block too small for a header panics before any I/O. -/
def writeMetaHeaderDouble (blockSize : ℕ) (header : IdxHeader) : List (FileOp Bytes) :=
  if idxHeaderLen ≤ blockSize then
    [.write 0 (headerBlock blockSize header), .sync,
      .write 1 (headerBlock blockSize header), .sync]
  else []

/-- The two copies are the blocks 0 and 1. -/
def readMetaHeader (file : ℕ → Bytes) : Except WalError IdxHeader :=
  selectValidHeader crc32 (file 0) (file 1)

end Todb.Wal.Meta

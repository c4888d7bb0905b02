import Todb.Model.Storage.Block

/-! # SST footers -/

namespace Todb

open Library

/-- Trailing metadata of an SST file. -/
structure SstFooter where
  rootIndexBlockPosition : Position
  treeHeight : UInt32
  firstKey : Bytes
  lastKey : Bytes
deriving DecidableEq

namespace SstFooter

/-- `body ++ [body_len : u32]`, all integers big-endian. -/
def encode (self : SstFooter) : Bytes :=
  let body := beBytes 8 self.rootIndexBlockPosition.offset.toNat ++
    beBytes 4 self.treeHeight.toNat ++ beBytes 4 self.firstKey.length ++
    beBytes 4 self.lastKey.length ++ self.firstKey ++ self.lastKey
  body ++ beBytes 4 body.length

def decode (buf : Bytes) : Outcome SstFooter := do
  if buf.length < 4 then
    throw (.err (.invalidValue "footer too short for trailer"))
  let bodyLen := ofBe (← slice buf (buf.length - 4) buf.length)
  if buf.length < bodyLen + 4 then
    throw (.err (.invalidValue "footer truncated"))
  let body ← slice buf 0 bodyLen
  if body.length < 20 then
    throw (.err (.invalidValue "footer body too short"))
  let rootOffset := ofBe (← slice body 0 8)
  let treeHeight := ofBe (← slice body 8 12)
  let firstKeyLen := ofBe (← slice body 12 16)
  let lastKeyLen := ofBe (← slice body 16 20)
  if 20 + firstKeyLen + lastKeyLen ≠ bodyLen then
    throw (.err (.invalidValue "footer key length mismatch"))
  let firstKey ← slice body 20 (20 + firstKeyLen)
  let lastKey ← slice body (20 + firstKeyLen) (20 + firstKeyLen + lastKeyLen)
  return ⟨⟨UInt64.ofNat rootOffset⟩, UInt32.ofNat treeHeight, firstKey, lastKey⟩

end SstFooter

end Todb

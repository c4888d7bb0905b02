import Todb.Model.Sst.Builder
import Todb.Model.Wal.Disk

/-! # The block reader of a sealed index -/

namespace Todb.Wal

open Library

/-- `WalIndexReader` over one index file. A block comes from the file through a frame of the
cache, and `frame` is what that frame held before the load. -/
structure WalIndexReader where
  file : Bytes
  blockSize : ℕ
  frame : Bytes
  frame_length : frame.length = blockSize

/-- A reader over a new cache, whose frames are zeros. -/
def WalIndexReader.new (file : Bytes) (blockSize : ℕ) : WalIndexReader :=
  ⟨file, blockSize, List.replicate blockSize 0, List.length_replicate⟩

-- Both `/` and the `debug_assert_eq!` may panic.
instance : BlockReader WalIndexReader where
  readBlock self position :=
    if self.blockSize ≠ 0 ∧ position.offset.toNat % self.blockSize = 0 then
      let blockIdx := position.offset.toNat / self.blockSize
      .ok (Disk.preadInto self.file self.frame (blockIdx * self.blockSize))
    else .error .panic

end Todb.Wal

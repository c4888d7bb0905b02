import Todb.Verification.Sst.RoundTrip
import Todb.Verification.Sst.Totality
import Todb.Verification.Wal.IndexFile

/-! # Sealing an index

The keys and values of a WAL index are small against every accepted block size, so sealing
fails only where the file system does, and the file is a complete SST. -/

namespace Todb.Wal

open Library

/-- The fault of a `pwrite` past the largest file offset. -/
def fileTooLarge : Fault := .err (.ioError "file too large")

/-! ## Room in the file -/

/-- The writer is at the end of a file of complete blocks and, if the room is bounded, the
next `k` blocks have valid offsets. -/
structure ODirectSstWriter.Room (blockSize : ℕ) (bounded : Prop) (k : ℕ)
    (writer : ODirectSstWriter) : Prop where
  blockSize_eq : writer.blockSize = blockSize
  innerBlockSize_eq : writer.inner.blockSize = blockSize
  nextOffset_eq : writer.inner.nextOffset = writer.inner.file.length
  blocks : blockSize ∣ writer.inner.file.length
  room : bounded → writer.inner.file.length + k * blockSize ≤ isizeMax

theorem room_create {blockSize k : ℕ} {bounded : Prop}
    (h : bounded → k * blockSize ≤ isizeMax) :
    ODirectSstWriter.Room blockSize bounded k
      (ODirectSstWriter.new (.create [] blockSize) ⟨blockSize⟩) :=
  ⟨rfl, rfl, rfl, dvd_zero _, by simpa [ODirectSstWriter.new, SegmentIndexBlockWriter.create] using h⟩

theorem writeBlock_meets {blockSize k : ℕ} {bounded : Prop} {writer : ODirectSstWriter}
    {data : Bytes} (h : writer.Room blockSize bounded (k + 1)) (hdata : data.length = blockSize) :
    Meets (fun fault => ¬ bounded ∧ fault = fileTooLarge)
      (fun r => ODirectSstWriter.Room blockSize bounded k { writer with inner := r.2 })
      (BlockWriter.writeBlock writer.inner data) := by
  simp only [BlockWriter.writeBlock]
  rw [if_pos (hdata.trans h.innerBlockSize_eq.symm)]
  refine Meets.ite (fun _ => ?_) (fun hlarge => ?_)
  · have hfile : pwriteAll writer.inner.file data writer.inner.nextOffset =
        writer.inner.file ++ data := by
      rw [h.nextOffset_eq, pwriteAll_length]
    refine
      { blockSize_eq := h.blockSize_eq
        innerBlockSize_eq := h.innerBlockSize_eq
        nextOffset_eq := ?_
        blocks := ?_
        room := fun hbounded => ?_ }
    · simp only [hfile, List.length_append, hdata, h.innerBlockSize_eq]
      rw [h.nextOffset_eq]
    · simpa [hfile, hdata] using h.blocks
    · have hroom := h.room hbounded
      rw [Nat.add_mul] at hroom
      simp only [hfile, List.length_append, hdata]
      omega
  · refine ⟨fun hbounded => hlarge ?_, rfl⟩
    have hroom := h.room hbounded
    rw [Nat.add_mul] at hroom
    rw [h.nextOffset_eq, h.innerBlockSize_eq]
    omega

theorem accepts_oDirect (blockSize : ℕ) (bounded : Prop) :
    Accepts (fun fault => ¬ bounded ∧ fault = fileTooLarge) blockSize
      (ODirectSstWriter.Room blockSize bounded) where
  writeBlock h hdata := (writeBlock_meets h hdata).bind fun _ hr => hr
  writeFooter {writer footer k} h hfits := by
    have hlength : (footerBlock writer.blockSize footer.encode).length = blockSize := by
      rw [h.blockSize_eq, footerBlock]
      simp only [List.length_append, List.length_take, List.length_replicate, List.length_drop,
        SstFooter.length_encode] at hfits ⊢
      omega
    simp only [SstWriter.writeFooter]
    rw [if_pos ⟨by simp, h.blockSize_eq.symm ▸ hfits⟩]
    exact (writeBlock_meets h hlength).bind fun _ hr => hr
  mono h hle := { h with room := fun hbounded =>
    (Nat.add_le_add_left (Nat.mul_le_mul_right _ hle) _).trans (h.room hbounded) }

/-! ## Index entries -/

/-- The index entry of a frame. -/
def indexEntry (lsn offset len : ℕ) : Bytes × Entry Bytes :=
  (lsnToKey lsn, .put (encodeOffsetLen offset len))

/-- Every entry gives the location of an LSN. -/
def PlainIndex (entries : List (Bytes × Entry Bytes)) : Prop :=
  ∀ e ∈ entries, ∃ lsn offset len, e = indexEntry lsn offset len

/-- The index entries of frames given by LSN, offset and length. -/
def indexEntries (frames : List (ℕ × ℕ × ℕ)) : List (Bytes × Entry Bytes) :=
  frames.map fun f => indexEntry f.1 f.2.1 f.2.2

theorem plainIndex_indexEntries (frames : List (ℕ × ℕ × ℕ)) : PlainIndex (indexEntries frames) := by
  intro e he
  obtain ⟨f, -, rfl⟩ := List.mem_map.mp he
  exact ⟨f.1, f.2.1, f.2.2, rfl⟩

theorem ascending_indexEntries {frames : List (ℕ × ℕ × ℕ)} (hlsn : ∀ f ∈ frames, f.1 < 2 ^ 64)
    (hasc : frames.Pairwise fun f g => f.1 < g.1) : Ascending (indexEntries frames) := by
  refine List.pairwise_map.mpr (hasc.imp_of_mem fun {f g} _ hg hlt => ?_)
  exact lsnToKey_lt hlt (hlsn g hg)

variable {blockSize : ℕ} {mem : IndexMem} {entries : List (Bytes × Entry Bytes)}

theorem narrowKeys_of_le (hsize : 512 ≤ blockSize) : NarrowKeys ⟨blockSize⟩ 8 := by
  simp only [NarrowKeys]
  omega

theorem PlainIndex.narrow (h : PlainIndex entries) (hsize : 512 ≤ blockSize) :
    ∀ e ∈ entries, NarrowEntry ⟨blockSize⟩ 8 e := by
  intro e he
  obtain ⟨lsn, offset, len, rfl⟩ := h e he
  simp [NarrowEntry, indexEntry, lsnToKey, encodeOffsetLen, blockFixedHeaderSize,
    DataBlockBuilder.entrySize, DataBlockBuilder.valueLen, perEntryOffsetTableBytes,
    dataEntryHeaderLen]
  omega

/-- The end keys of an index fit one root: two of them fit every block. -/
theorem PlainIndex.rootFits (h : PlainIndex entries) (hsize : 512 ≤ blockSize) :
    rootFits (indexFull ⟨blockSize⟩) (blockEndKeys ⟨blockSize⟩ entries) = true := by
  have hkeys : ∀ key ∈ blockEndKeys ⟨blockSize⟩ entries, key.length = 8 := by
    intro key hkey
    obtain ⟨e, he, rfl⟩ := List.mem_map.mp hkey
    obtain ⟨lsn, offset, len, rfl⟩ := h e ((ends_sublist entries).subset he)
    simp [indexEntry, lsnToKey]
  refine rootFits_of_pairs fun a ha b hb => ?_
  simp [indexFull, IndexBlockBuilder.entrySize, blockFixedHeaderSize, hkeys a ha, hkeys b hb]
  omega

/-! ## `sealIdx` -/

theorem sealIdx_meets (hsize : 512 ≤ blockSize) (hplain : PlainIndex mem.entries)
    (bounded : Prop) (hbounded : bounded → (3 * mem.len + 5) * blockSize ≤ isizeMax) :
    Meets (fun fault => ¬ bounded ∧ fault = fileTooLarge) (fun file => blockSize ∣ file.length)
      (sealIdx blockSize mem none) := by
  have hroom : ODirectSstWriter.Room blockSize bounded (0 + 3 * mem.entries.length + 5)
      (ODirectSstWriter.new (.create [] blockSize) ⟨blockSize⟩) :=
    room_create fun hb => (Nat.zero_add (3 * mem.len)).symm ▸ hbounded hb
  exact (buildSst_meets (accepts_oDirect blockSize bounded) (narrowKeys_of_le hsize)
    (hplain.narrow hsize) hroom).bind fun _ hr => hr.blocks

/-- Sealing fails only where the file system does. -/
theorem exists_sealIdx (hsize : 512 ≤ blockSize) (hplain : PlainIndex mem.entries)
    (hio : sealIdx blockSize mem none ≠ .error fileTooLarge) :
    ∃ file, sealIdx blockSize mem none = .ok file ∧ blockSize ∣ file.length :=
  (sealIdx_meets hsize hplain False False.elim).exists_ok
    fun _ h => h.2.symm ▸ hio

/-- Indexes of moderate size stay within the file offsets. -/
theorem sealIdx_ne_fileTooLarge (hsize : 512 ≤ blockSize) (hplain : PlainIndex mem.entries)
    (hroom : (3 * mem.len + 5) * blockSize ≤ isizeMax) :
    sealIdx blockSize mem none ≠ .error fileTooLarge := by
  intro h
  have hmeets := sealIdx_meets hsize hplain True fun _ => hroom
  rw [h] at hmeets
  exact hmeets.1 trivial

/-- The sealed file is a well-formed SST of the whole index. -/
theorem sealIdx_wellFormed {file : Bytes} (hsize : 512 ≤ blockSize)
    (hplain : PlainIndex mem.entries) (hsmall : SmallBlocks ⟨blockSize⟩ mem.entries)
    (hseal : sealIdx blockSize mem none = .ok file) :
    ∃ footer, WellFormedSst (⟨file, blockSize⟩ : FileBlockReader) footer mem.entries := by
  obtain ⟨⟨footer, writer⟩, hbuild, hret⟩ := bind_eq_ok.mp hseal
  obtain rfl := Except.ok.inj hret
  have hasc : Ascending mem.entries := mem.map.ascending
  refine ⟨footer, buildSst_wellFormed (wrote_create blockSize) hasc hsmall.short
    (hplain.rootFits hsize) hbuild ?_⟩
  rintro file ⟨rfl, -, -⟩
  exact (serves_file _ _).blocks

end Todb.Wal

import Todb.Model.Wal.IndexReader
import Todb.Verification.Sst.OneBlock
import Todb.Verification.Wal.SealedIndex

/-! # Reading a sealed index back

All blocks of a sealed index lie at multiples of the block size, so the reader over the block
cache serves every block that the root reaches. -/

namespace Todb.Wal

open Library

/-- The reader serves the blocks at multiples of the block size, whatever the frames held. -/
theorem servesBlocks_index (reader : WalIndexReader) (hpos : 0 < reader.blockSize) :
    ServesBlocks reader reader.file reader.blockSize := by
  intro position block hdvd hblock
  unfold blockAt at hblock
  split at hblock
  · rename_i hle
    obtain rfl := Option.some.inj hblock
    have hgot : ((reader.file.drop position.offset.toNat).take reader.frame.length).length =
        reader.frame.length := by
      rw [reader.frame_length]
      simp
      omega
    simp only [BlockReader.readBlock]
    rw [if_pos ⟨hpos.ne', Nat.mod_eq_zero_of_dvd hdvd⟩, Nat.div_mul_cancel hdvd, Disk.preadInto,
      hgot, List.drop_length, List.append_nil, reader.frame_length]
  · cases hblock

/-! ## The tree -/

variable {blockSize : ℕ} {frames : List (ℕ × ℕ × ℕ)}

/-- An index entry as the readers of the index take it apart. -/
def frameOf (e : Bytes × Entry Bytes) : Option (ℕ × ℕ × ℕ) :=
  match e.2 with
  | .put value => do
      let lsn ← keyToLsn e.1
      let (offset, len) ← decodeOffsetLen value
      return (lsn, offset, len)
  | .delete => none

theorem frameOf_indexEntry {lsn offset len : ℕ} (hlsn : lsn < 2 ^ 64) (hoffset : offset < 2 ^ 64)
    (hlen : len < 2 ^ 32) : frameOf (indexEntry lsn offset len) = some (lsn, offset, len) := by
  simp [frameOf, indexEntry, keyToLsn_lsnToKey hlsn, decodeOffsetLen_encode hoffset hlen]

theorem map_sum_indexEntries (size : Bytes × Entry Bytes → ℕ) (c : ℕ)
    (hsize : ∀ lsn offset len, size (indexEntry lsn offset len) = c)
    {es : List (Bytes × Entry Bytes)} (hes : PlainIndex es) : (es.map size).sum = c * es.length := by
  have hconst : es.map size = List.replicate es.length c := by
    refine List.eq_replicate_iff.mpr ⟨by simp, fun n hn => ?_⟩
    obtain ⟨e, he, rfl⟩ := List.mem_map.mp hn
    obtain ⟨lsn, offset, len, rfl⟩ := hes e he
    exact hsize lsn offset len
  rw [hconst, List.sum_replicate, smul_eq_mul, Nat.mul_comm]

theorem entrySize_indexEntry (lsn offset len : ℕ) :
    DataBlockBuilder.entrySize (indexEntry lsn offset len).1 (indexEntry lsn offset len).2 = 30 := by
  simp [indexEntry, DataBlockBuilder.entrySize, lsnToKey, encodeOffsetLen,
    DataBlockBuilder.valueLen, perEntryOffsetTableBytes, dataEntryHeaderLen]

/-- An index entry takes 30 bytes of a data block, and its key 25 bytes of an index block.
Neither fills a block of exactly 2^32 bytes. -/
theorem shortBlocks_index (hsmall : blockSize ≤ 2 ^ 32 ∨ 12 + 30 * frames.length < 2 ^ 32) :
    ShortBlocks ⟨blockSize⟩ (indexEntries frames) := by
  have hlength : (indexEntries frames).length = frames.length := List.length_map _
  refine ⟨fun es hes hfits => ?_, fun ks hks hfits => ?_⟩
  · have hle := hes.length_le
    have hplain : PlainIndex es := fun e he => plainIndex_indexEntries frames e (hes.subset he)
    rw [map_sum_indexEntries _ 30 entrySize_indexEntry hplain] at *
    simp only [blockFixedHeaderSize] at *
    omega
  · obtain ⟨es, hes, rfl⟩ := List.sublist_map_iff.mp hks
    have hle := hes.length_le
    have hplain : PlainIndex es := fun e he => plainIndex_indexEntries frames e (hes.subset he)
    rw [List.map_map, map_sum_indexEntries _ 25 (fun _ _ _ => by
      simp [indexEntry, IndexBlockBuilder.entrySize, lsnToKey]) hplain] at *
    simp only [blockFixedHeaderSize] at *
    omega

/-- What `finalize_segment` streams into a new index file. -/
def buildIndex (blockSize : ℕ) (frames : List (ℕ × ℕ × ℕ)) : Outcome (SstFooter × ODirectSstWriter) :=
  buildSst (ODirectSstWriter.new (.create [] blockSize) ⟨blockSize⟩) ⟨blockSize⟩
    (indexEntries frames)

/-- The builder's assertions hold for index entries. With enough room in the file the index is
built. -/
theorem buildIndex_meets (hsize : 512 ≤ blockSize) (frames : List (ℕ × ℕ × ℕ)) (bounded : Prop)
    (hbounded : bounded → (3 * frames.length + 5) * blockSize ≤ isizeMax) :
    Meets (fun fault => ¬ bounded ∧ fault = fileTooLarge) (fun _ => True)
      (buildIndex blockSize frames) := by
  have hroom : ODirectSstWriter.Room blockSize bounded (0 + 3 * (indexEntries frames).length + 5)
      (ODirectSstWriter.new (.create [] blockSize) ⟨blockSize⟩) := by
    refine room_create fun hb => ?_
    rw [indexEntries, List.length_map, Nat.zero_add]
    exact hbounded hb
  exact (buildSst_meets (accepts_oDirect blockSize bounded) (narrowKeys_of_le hsize)
    ((plainIndex_indexEntries frames).narrow hsize) hroom).mono fun _ _ => trivial

theorem exists_buildIndex (hsize : 512 ≤ blockSize)
    (hroom : (3 * frames.length + 5) * blockSize ≤ isizeMax) :
    ∃ footer writer, buildIndex blockSize frames = .ok (footer, writer) := by
  obtain ⟨⟨footer, writer⟩, hbuild, -⟩ := (buildIndex_meets hsize frames True
    fun _ => hroom).exists_ok fun _ h => absurd trivial h.1
  exact ⟨footer, writer, hbuild⟩

/-- A complete index: `tree_height - 1` levels of index blocks above the data blocks, every path
from the root having that length, every block at a multiple of the block size, and every entry in
a data block that the root reaches. -/
def CompleteIndex (blockSize : ℕ) (file : Bytes) (footer : SstFooter)
    (entries : List (Bytes × Entry Bytes)) : Prop :=
  ∃ h ls, footer.treeHeight.toNat = h + 2 ∧ entriesOf ls = entries ∧
    Subtree (⟨file, blockSize⟩ : BlockGrid) (h + 1) footer.rootIndexBlockPosition ls

theorem completeIndex_of_build {footer : SstFooter} {writer : ODirectSstWriter}
    (hsize : 512 ≤ blockSize) (hne : frames ≠ [])
    (hshort : ShortBlocks ⟨blockSize⟩ (indexEntries frames))
    (hbuild : buildIndex blockSize frames = .ok (footer, writer)) :
    CompleteIndex blockSize writer.inner.file footer (indexEntries frames) := by
  obtain ⟨-, -, file, trailer, hwrote, -, hcases⟩ :=
    buildSst_spec (wrote_create blockSize) hshort hbuild
  rcases hcases with ⟨hnil, -⟩ | ⟨h, rs, tail, hfinished, -⟩
  · exact absurd (List.map_eq_nil_iff.mp hnil) hne
  · have htail := hfinished.tail_iff.mpr ((plainIndex_indexEntries frames).rootFits hsize)
    have hentries := hfinished.entries_eq
    rw [htail, List.append_nil] at hentries
    refine ⟨h, rs, hfinished.height_eq, hentries, hfinished.subtree.mono ?_⟩
    intro position block hread
    obtain ⟨hdvd, hblock⟩ := readBlock_grid.mp hread
    have hfile : writer.inner.file = file ++ trailer := hwrote.1
    rw [hfile]
    exact readBlock_grid.mpr ⟨hdvd, blockAt_append trailer hblock⟩

/-- A fresh iterator over the cache reads a complete index. -/
theorem CompleteIndex.yields {file : Bytes} {footer : SstFooter}
    {entries : List (Bytes × Entry Bytes)} (h : CompleteIndex blockSize file footer entries)
    (hasc : Ascending entries) {reader : WalIndexReader}
    (hserves : ServesBlocks reader file blockSize) (fuel : ℕ) :
    ∃ it, (SstIter.new fuel reader footer).seekToFirst .forward = .ok it ∧
      Cursor.Yields .forward it entries := by
  obtain ⟨height, ls, hheight, rfl, hsub⟩ := h
  refine WellFormedSst.yields (.tree hheight ⟨hsub.mono ?_, hasc⟩) fuel
  intro position block hread
  obtain ⟨hdvd, hblock⟩ := readBlock_grid.mp hread
  exact hserves position block hdvd hblock

/-- Where the first value of a data block ends past 2^32 but does not start there, the index is
built and cannot be read. -/
theorem scan_panics_of_cut (hsize : 512 ≤ blockSize)
    (hstart : 12 + 16 * frames.length < 2 ^ 32) (hstop : 2 ^ 32 ≤ 26 + 16 * frames.length)
    (hfits : 12 + 30 * frames.length ≤ blockSize)
    (hroom : (3 * frames.length + 5) * blockSize ≤ isizeMax) :
    ∃ footer writer, buildIndex blockSize frames = .ok (footer, writer) ∧
      ((SstIter.new 2 (WalIndexReader.new writer.inner.file blockSize) footer).seekToFirst
        .forward).result = .error .panic := by
  obtain ⟨footer, writer, hbuild⟩ := exists_buildIndex hsize hroom
  refine ⟨footer, writer, hbuild, ?_⟩
  have hplain := plainIndex_indexEntries frames
  have hlength : (indexEntries frames).length = frames.length := List.length_map _
  have hsum : ((indexEntries frames).map fun e => DataBlockBuilder.entrySize e.1 e.2).sum =
      30 * frames.length := by
    rw [map_sum_indexEntries _ 30 entrySize_indexEntry hplain, hlength]
  have hbody := DataBlockBuilder.length_blockBody_entries (indexEntries frames)
  set cells := (indexEntries frames).map fun e => (e.1, encodeEntry e.2) with hcells
  have hheader : headerSize cells + keysLen cells = 12 + 16 * frames.length := by
    rw [headerSize, keysLen, hcells, List.length_map, List.map_map, hlength,
      map_sum_indexEntries _ 8 (fun _ _ _ => by simp [indexEntry, lsnToKey]) hplain, hlength]
    omega
  obtain ⟨f, fs, hf⟩ : ∃ f fs, frames = f :: fs := List.exists_cons_of_ne_nil fun hnil => by
    simp [hnil] at hstop
  have hcons : cells = (lsnToKey f.1, encodeEntry (.put (encodeOffsetLen f.2.1 f.2.2))) ::
      (indexEntries fs).map fun e => (e.1, encodeEntry e.2) := by
    rw [hcells, hf]
    rfl
  have hvalue : (encodeEntry (.put (encodeOffsetLen f.2.1 f.2.2))).length = 14 := by
    simp [encodeEntry, encodeOffsetLen]
  have hfit : (blockBody cells).length ≤ blockSize := by
    rw [hbody, hsum]
    exact hfits
  obtain ⟨it, hnew, hfail⟩ := seekToFirst_cut
    (List.replicate (blockSize - (blockBody cells).length) 0) hcons
    (by rw [hcells, List.length_map, hlength]; omega) (by omega) (by omega) (by omega)
  rw [← finishBlock_eq hfit] at hnew
  refine seekToFirst_buildSst_one_block .forward 2 (wrote_create blockSize) ?_ ?_ ?_ hbuild ?_ hnew
    hfail
  · rw [hf]
    exact List.cons_ne_nil _ _
  · rw [hsum]
    exact hfits
  · intro e he
    obtain ⟨lsn, offset, len, rfl⟩ := hplain e he
    simp [indexEntry, lsnToKey, IndexBlockBuilder.entrySize, blockFixedHeaderSize]
  · rintro file ⟨rfl, -⟩
    exact servesBlocks_index (.new writer.inner.file blockSize) (show 0 < blockSize by omega)

end Todb.Wal

import Todb.Verification.Sst.Finish
import Todb.Verification.Sst.Iterator

/-! # Round trips through SST files

A built file, read through a fresh iterator with the returned footer, gives back the
entries exactly when the end keys of its data blocks fit one root. -/

namespace Todb

open Library Direction

variable {ρ : Type} [BlockReader ρ]

/-- All blocks the root reaches are complete blocks of the file, whatever follows them. -/
theorem Finished.wellFormed {option : SstOption} {entries : List (Bytes × Entry Bytes)}
    {footer : SstFooter} {file trailer : Bytes} {h : ℕ} {rs tail : List Leaf}
    (hfinished : Finished option entries footer file h rs tail) (hasc : Ascending entries)
    {reader : ρ} (hserves : ServesBlocks reader (file ++ trailer) option.blockSize) :
    WellFormedSst reader footer (entriesOf rs) := by
  refine .tree hfinished.height_eq ⟨hfinished.subtree.mono ?_, ?_⟩
  · intro position block hread
    obtain ⟨hdvd, hblock⟩ := readBlock_grid.mp hread
    exact hserves position block hdvd (blockAt_append trailer hblock)
  · rw [← hfinished.entries_eq, entriesOf_append] at hasc
    exact hasc.sublist (List.sublist_append_left _ _)

/-- A file whose end keys fit one root is well-formed and holds all entries. -/
theorem buildSst_wellFormed {ω : Type} [SstWriter ω] [LawfulSstWriter ω] {option : SstOption}
    {entries : List (Bytes × Entry Bytes)} {writer writer' : ω} {footer : SstFooter} {reader : ρ}
    (hwrote : LawfulSstWriter.Wrote writer []) (hasc : Ascending entries)
    (hsmall : ShortBlocks option entries)
    (hfits : rootFits (indexFull option) (blockEndKeys option entries) = true)
    (hbuild : buildSst writer option entries = .ok (footer, writer'))
    (hserves : ∀ file, LawfulSstWriter.Wrote writer' file →
      ServesBlocks reader file option.blockSize) :
    WellFormedSst reader footer entries := by
  obtain ⟨-, -, file, trailer, hwrote', -, hcases⟩ := buildSst_spec hwrote hsmall hbuild
  rcases hcases with ⟨rfl, hheight⟩ | ⟨h, rs, tail, hfinished, -⟩
  · exact .empty hheight
  · have htail := hfinished.tail_iff.mpr hfits
    have hwf := hfinished.wellFormed hasc (hserves _ hwrote')
    have hentries := hfinished.entries_eq
    rw [htail, List.append_nil] at hentries
    rwa [hentries] at hwf

theorem buildSst_inMemory {option : SstOption} {entries : List (Bytes × Entry Bytes)}
    {writer' : DefaultSstWriter InMemoryBlockWriter} {footer : SstFooter}
    (hasc : Ascending entries) (hsmall : SmallBlocks option entries)
    (hfits : rootFits (indexFull option) (blockEndKeys option entries) = true)
    (hbuild : buildSst (⟨.new, option⟩ : DefaultSstWriter InMemoryBlockWriter) option entries =
      .ok (footer, writer')) :
    WellFormedSst (⟨writer'.inner.buf, option.blockSize⟩ : InMemoryBlockReader) footer entries :=
  buildSst_wellFormed wrote_inMemory_new hasc hsmall.short hfits hbuild fun _ hwrote =>
    (serves_written hwrote).blocks

/-! ## Fresh iterators -/

/-- On a freshly constructed iterator, `seek_to_first` and `seek` followed by any number of
`next` calls run through the entries of a well-formed tree in either direction. -/
theorem sstIter_fresh_correct (reader : ρ) (footer : SstFooter) (h : ℕ) (ls : List Leaf)
    (hheight : footer.treeHeight.toNat = h + 2)
    (htree : WellFormedTree reader h footer.rootIndexBlockPosition ls)
    (fuel : ℕ) (hfuel : 2 ≤ fuel) (d : Direction) :
    (∃ it, (SstIter.new fuel reader footer).seekToFirst d = .ok it ∧
      Cursor.Yields d it (d.order (entriesOf ls))) ∧
    ∀ target, ∃ it, (SstIter.new fuel reader footer).seek d target = .ok it ∧
      Cursor.Yields d it ((d.order (entriesOf ls)).dropWhile (Cursor.before d target)) := by
  have hover : (SstIter.new fuel reader footer).indexIter.Over reader h
      footer.rootIndexBlockPosition := ⟨rfl, hheight, rfl⟩
  refine ⟨?_, fun target => ?_⟩
  · obtain ⟨it, hseek, hat⟩ := SstIter.seekToFirst_of_zero htree d rfl hover rfl
    exact ⟨it, hseek, (SstIter.stepping_at htree).yields ⟨_, hat, (rest_first d _).symm⟩⟩
  · obtain ⟨it, hseek, hat⟩ := SstIter.seek_of_zero htree hfuel d target rfl hover rfl
    exact ⟨it, hseek, (SstIter.stepping_at htree).yields
      ⟨_, hat, (htree.ascending.rest_target d target).symm⟩⟩

/-- A file with one data block. -/
theorem sstIter_fresh_correct_one_block :
    ∃ (reader : InMemoryBlockReader) (footer : SstFooter) (h : ℕ) (ls : List Leaf),
      footer.treeHeight.toNat = h + 2 ∧
      WellFormedTree reader h footer.rootIndexBlockPosition ls ∧
      entriesOf ls = [([1], .put [7])] ∧
      ∃ it, (SstIter.new 2 reader footer).seekToFirst .reverse = .ok it ∧
        Cursor.Yields .reverse it [([1], .put [7])] := by
  obtain ⟨⟨footer, writer'⟩, hbuild⟩ : ∃ r, buildSst
      (⟨.new, ⟨64⟩⟩ : DefaultSstWriter InMemoryBlockWriter) ⟨64⟩ [([1], .put [7])] = .ok r :=
    ⟨_, rfl⟩
  have hsst := buildSst_inMemory (by decide) (by decide) (by decide) hbuild
  obtain ⟨-, hnil⟩ | ⟨h, ls, hheight, htree, hes⟩ := hsst.cases
  · cases hnil
  · have hcorrect := (sstIter_fresh_correct _ footer h ls hheight htree 2 le_rfl .reverse).1
    rw [hes] at hcorrect
    exact ⟨_, footer, h, ls, hheight, htree, hes, hcorrect⟩

/-! ## Round trips -/

/-- Reading a file back: a fresh forward scan yields the entries, and the footer names the
first and the last key. -/
structure RoundTrips (fuel : ℕ) (reader : ρ) (footer : SstFooter)
    (entries : List (Bytes × Entry Bytes)) : Prop where
  scan : ∃ it, (SstIter.new fuel reader footer).seekToFirst .forward = .ok it ∧
    Cursor.Yields .forward it entries
  firstKey_eq : footer.firstKey = (entries.head?.map Prod.fst).getD []
  lastKey_eq : footer.lastKey = (entries.getLast?.map Prod.fst).getD []

end Todb

import Todb.Verification.Sst.Tower

/-! # Adding entries to an SST builder

While entries arrive, the data builder holds the open group of the greedy packing of all
entries, and the index levels form a tower over the data blocks written for the closed
groups. -/

namespace Todb

open Library LawfulSstWriter

/-! ## Data blocks -/

/-- Does a data entry overflow a block that holds `es`? -/
def dataFull (option : SstOption) (es : List (Bytes × Entry Bytes)) (e : Bytes × Entry Bytes) :
    Bool :=
  decide (option.blockSize < blockFixedHeaderSize +
    (es.map fun e => DataBlockBuilder.entrySize e.1 e.2).sum +
    DataBlockBuilder.entrySize e.1 e.2)

/-- The last keys of the data blocks that the entries are packed into. -/
def blockEndKeys (option : SstOption) (entries : List (Bytes × Entry Bytes)) : List Bytes :=
  (ends (dataFull option) entries).map Prod.fst

/-- One index block takes the last keys of all data blocks. -/
def OneIndexBlock (option : SstOption) (entries : List (Bytes × Entry Bytes)) : Prop :=
  (pack (indexFull option) (blockEndKeys option entries)).closed = []

instance (option : SstOption) (entries : List (Bytes × Entry Bytes)) :
    Decidable (OneIndexBlock option entries) :=
  inferInstanceAs (Decidable (_ = _))

/-- The bytes an entry takes in a data block, or its key in an index block if that is more. -/
def footprint (e : Bytes × Entry Bytes) : ℕ := DataBlockBuilder.entrySize e.1 e.2 + 7

/-- No block reaches 2³² bytes, because of the block size or of the amount of data. -/
def SmallBlocks (option : SstOption) (entries : List (Bytes × Entry Bytes)) : Prop :=
  option.blockSize < 2 ^ 32 ∨ blockFixedHeaderSize + (entries.map footprint).sum < 2 ^ 32

instance (option : SstOption) (entries : List (Bytes × Entry Bytes)) :
    Decidable (SmallBlocks option entries) :=
  inferInstanceAs (Decidable (_ ∨ _))

/-- Whichever of the entries share a data block, and whichever of their keys an index block,
the offsets fit 32 bits. -/
structure ShortBlocks (option : SstOption) (entries : List (Bytes × Entry Bytes)) : Prop where
  data : ∀ es : List (Bytes × Entry Bytes), es.Sublist entries →
    blockFixedHeaderSize + (es.map fun e => DataBlockBuilder.entrySize e.1 e.2).sum ≤
      option.blockSize →
    blockFixedHeaderSize + (es.map fun e => DataBlockBuilder.entrySize e.1 e.2).sum < 2 ^ 32
  index : SmallIndex option (entries.map Prod.fst)

theorem ShortBlocks.sublist {option : SstOption} {es es' : List (Bytes × Entry Bytes)}
    (h : ShortBlocks option es) (hsub : es'.Sublist es) : ShortBlocks option es' :=
  ⟨fun ds hds => h.data ds (hds.trans hsub), h.index.sublist (hsub.map Prod.fst)⟩

theorem SmallBlocks.short {option : SstOption} {entries : List (Bytes × Entry Bytes)}
    (h : SmallBlocks option entries) : ShortBlocks option entries := by
  refine ⟨fun es hes hfits => ?_, fun ks hks hfits => ?_⟩
  · have hsub := (hes.map footprint).sum_le_sum (fun _ _ => Nat.zero_le _)
    have hle : (es.map fun e => DataBlockBuilder.entrySize e.1 e.2).sum ≤ (es.map footprint).sum :=
      List.sum_le_sum (fun e _ => Nat.le_add_right _ _)
    rcases h with h | h <;> omega
  · have hsub := (hks.map IndexBlockBuilder.entrySize).sum_le_sum (fun _ _ => Nat.zero_le _)
    have hle : ((entries.map Prod.fst).map IndexBlockBuilder.entrySize).sum ≤
        (entries.map footprint).sum := by
      rw [List.map_map]
      refine List.sum_le_sum (fun e _ => ?_)
      simp only [Function.comp_apply, IndexBlockBuilder.entrySize, footprint,
        DataBlockBuilder.entrySize, perEntryOffsetTableBytes, dataEntryHeaderLen]
      omega
    rcases h with h | h <;> omega

namespace DataBlockBuilder

/-- The builder holds the given entries, and they fit a block. -/
structure Fills (builder : DataBlockBuilder) (option : SstOption)
    (es : List (Bytes × Entry Bytes)) : Prop where
  option_eq : builder.option = option
  entries_eq : builder.entries = es
  size_eq : builder.estimatedSize = (es.map fun e => entrySize e.1 e.2).sum
  fits : es ≠ [] → blockFixedHeaderSize + (es.map fun e => entrySize e.1 e.2).sum ≤ option.blockSize

variable {builder builder' : DataBlockBuilder} {option : SstOption}
  {es : List (Bytes × Entry Bytes)} {key : Bytes} {entry : Entry Bytes}

theorem fills_new (option : SstOption) : (new option).Fills option [] :=
  ⟨rfl, rfl, rfl, fun h => absurd rfl h⟩

theorem wouldExceed_eq (h : builder.Fills option es) :
    builder.wouldExceed key entry = dataFull option es (key, entry) := by
  simp only [wouldExceed, dataFull, h.option_eq, h.size_eq]

theorem Fills.add (h : builder.Fills option es)
    (hfits : es = [] ∨ dataFull option es (key, entry) = false)
    (hadd : builder.add key entry = .ok builder') : builder'.Fills option (es ++ [(key, entry)]) := by
  simp only [DataBlockBuilder.add] at hadd
  split at hadd
  · rename_i hlt
    obtain rfl := Except.ok.inj hadd
    refine ⟨h.option_eq, by simp [h.entries_eq], by simp [h.size_eq], fun _ => ?_⟩
    rw [h.option_eq] at hlt
    simp only [List.map_append, List.sum_append, List.map_cons, List.map_nil, List.sum_cons,
      List.sum_nil]
    rcases hfits with rfl | hfits
    · simp only [List.map_nil, List.sum_nil]
      omega
    · simp only [dataFull, decide_eq_false_iff_not, not_lt] at hfits
      omega
  · cases hadd

/-- The bytes of a block of entries, without the padding. -/
theorem length_blockBody_entries (es : List (Bytes × Entry Bytes)) :
    (blockBody (es.map fun e => (e.1, encodeEntry e.2))).length =
      blockFixedHeaderSize + (es.map fun e => entrySize e.1 e.2).sum := by
  rw [length_blockBody, List.map_map]
  congr 2
  refine List.map_congr_left (fun e _ => ?_)
  obtain ⟨k, v⟩ := e
  cases v with
  | put v =>
      simp [cellSize, entrySize, encodeEntry, valueLen, perEntryOffsetTableBytes,
        dataEntryHeaderLen]
      omega
  | delete =>
      simp [cellSize, entrySize, encodeEntry, valueLen, perEntryOffsetTableBytes,
        dataEntryHeaderLen]

/-- A finished builder's block holds its entries. -/
theorem Fills.dataBlock (h : builder.Fills option es) (hne : es ≠ [])
    (hsmall : ShortBlocks option es) : DataBlock builder.finish.1 es := by
  have hlength := length_blockBody_entries es
  have hfits := h.fits hne
  rw [finish, h.option_eq, h.entries_eq]
  refine dataBlock_finishBlock (hlength ▸ hfits) ?_
  rw [hlength]
  exact hsmall.data es (.refl _) hfits

end DataBlockBuilder

/-! ## The state between additions -/

section Building

variable {ω : Type} [SstWriter ω] [LawfulSstWriter ω]

/-- The builder after `entries` have been added. -/
structure Building (option : SstOption) (builder : SstBuilder ω) (file : Bytes) (w : ℕ)
    (ls : List Leaf) (entries : List (Bytes × Entry Bytes)) : Prop where
  wrote : Wrote builder.writer file
  option_eq : builder.option = option
  data : builder.dataBuilder.Fills option (pack (dataFull option) entries).current
  tower : Tower option file 0 ((promoted (dataFull option) entries).map Prod.fst)
    builder.indexBuilders w ls
  leaves : entriesOf ls = (pack (dataFull option) entries).closed.flatten
  weight : option.blockSize * w ≤ file.length
  blocks : option.blockSize ∣ file.length
  bounded : file.length ≤ isizeMax
  firstKey_eq : builder.firstKey = entries.head?.map Prod.fst
  lastKey_eq : builder.lastKey = entries.getLast?.map Prod.fst

variable {option : SstOption} {self self' : SstBuilder ω} {file : Bytes} {w : ℕ}
  {ls : List Leaf} {keys : List Bytes}

omit [LawfulSstWriter ω] in
theorem addIndexEntry_zero {key : Bytes} {position : Position}
    (hadd : self.addIndexEntry 0 key position = .ok self') :
    ∃ writer' builders', addToLevels self.option self.indexBuilders self.writer key position =
        .ok (writer', builders') ∧
      self' = { self with writer := writer', indexBuilders := builders' } := by
  obtain ⟨⟨writer', builders'⟩, hlevels, hret⟩ := bind_eq_ok.mp hadd
  refine ⟨writer', builders', by simpa using hlevels, ?_⟩
  simpa [pure, Except.pure] using hret.symm

/-- Flushing a non-empty data builder puts one more leaf under the tower. -/
theorem flushDataBlock_spec {es : List (Bytes × Entry Bytes)} {last : Bytes × Entry Bytes}
    (hwrote : Wrote self.writer file) (hblocks : option.blockSize ∣ file.length)
    (hoption : self.option = option) (hdata : self.dataBuilder.Fills option es)
    (hlast : es.getLast? = some last) (htower : Tower option file 0 keys self.indexBuilders w ls)
    (hsmall : ShortBlocks option es) (hsmall' : SmallIndex option (keys ++ [last.1]))
    (hflush : self.flushDataBlock = .ok self') :
    ∃ file' n leaf, Grows option self'.writer file file' (1 + n) ∧
      Tower option file' 0 (keys ++ [last.1]) self'.indexBuilders (w + n) (ls ++ [leaf]) ∧
      leaf.2 = es ∧ self' = { self with
        writer := self'.writer
        indexBuilders := self'.indexBuilders
        dataBuilder := .new option } := by
  have hne : es ≠ [] := by
    rintro rfl
    simp at hlast
  have hnonempty : self.dataBuilder.isEmpty = false := by
    rw [DataBlockBuilder.isEmpty, hdata.entries_eq, List.isEmpty_eq_false_iff]
    exact hne
  have hlastKey : self.dataBuilder.lastKey = some last.1 := by
    rw [DataBlockBuilder.lastKey, hdata.entries_eq, hlast]
    rfl
  rw [SstBuilder.flushDataBlock, hnonempty] at hflush
  simp only [Bool.false_eq_true, if_false, hlastKey, Option.getD_some] at hflush
  obtain ⟨⟨handle, writer₁⟩, hwrite, hadd⟩ := bind_eq_ok.mp hflush
  obtain ⟨hposition, hwrote₁, hbound⟩ := writeBlock_ok hwrote hwrite
  have hlength : self.dataBuilder.finish.1.length = option.blockSize := by
    rw [← hdata.option_eq]
    exact length_finishBlock _ _
  have hgrows₁ : Grows option writer₁ file (file ++ self.dataBuilder.finish.1) 1 :=
    ⟨hwrote₁, ⟨_, rfl⟩, by simp [hlength], hbound⟩
  have hread : BlockReader.readBlock
      (⟨file ++ self.dataBuilder.finish.1, option.blockSize⟩ : BlockGrid) handle =
        .ok self.dataBuilder.finish.1 := by
    rw [readBlock_grid, hposition]
    exact ⟨hblocks, hlength ▸ blockAt_append_self file self.dataBuilder.finish.1⟩
  have hsub : Subtree
      (⟨file ++ self.dataBuilder.finish.1, option.blockSize⟩ : BlockGrid) 0 handle
        [(handle, es)] := by
    rw [Subtree]
    exact ⟨_, es, hread, hdata.dataBlock hne hsmall, hne, rfl⟩
  have hkey : lastKeyOf [(handle, es)] = some last.1 := by
    simp [lastKeyOf, entriesOf, hlast]
  obtain ⟨writer', builders', hlevels, rfl⟩ := addIndexEntry_zero hadd
  simp only [hoption] at hlevels
  obtain ⟨file', n, hgrows₂, htower'⟩ := addToLevels_spec self.indexBuilders
    (htower.append _) hgrows₁.wrote (dvd_length_append hblocks hgrows₁.length_eq) hgrows₁.bounded hsmall' hsub hkey hlevels
  refine ⟨file', n, (handle, es), hgrows₁.trans hgrows₂, htower', rfl, ?_⟩
  rw [DataBlockBuilder.finish, hdata.option_eq]

variable {entries : List (Bytes × Entry Bytes)}

/-- The end keys of the closed data blocks after one more block is closed. -/
theorem blockEndKeys_eq {last : Bytes × Entry Bytes}
    (hlast : (pack (dataFull option) entries).current.getLast? = some last) :
    blockEndKeys option entries =
      (promoted (dataFull option) entries).map Prod.fst ++ [last.1] := by
  simp [blockEndKeys, ends, hlast]

theorem ShortBlocks.endKeys (hsmall : ShortBlocks option entries) :
    SmallIndex option (blockEndKeys option entries) :=
  hsmall.index.sublist ((ends_sublist entries).map Prod.fst)

/-- Flushing after `entries`: every entry is under the tower. -/
theorem Building.flush (h : Building option self file w ls entries) (hne : entries ≠ [])
    (hsmall : ShortBlocks option entries) (hflush : self.flushDataBlock = .ok self') :
    ∃ file' w' leaf, Wrote self'.writer file' ∧
      Tower option file' 0 (blockEndKeys option entries) self'.indexBuilders w' (ls ++ [leaf]) ∧
      leaf.2 = (pack (dataFull option) entries).current ∧
      option.blockSize * w' ≤ file'.length ∧ option.blockSize ∣ file'.length ∧
      file'.length ≤ isizeMax ∧ self' = { self with
        writer := self'.writer
        indexBuilders := self'.indexBuilders
        dataBuilder := .new option } := by
  obtain ⟨last, hlast, -⟩ := exists_ends_eq (dataFull option) hne
  have hends := blockEndKeys_eq hlast
  obtain ⟨file', n, leaf, hgrows, htower, hleaf, hself⟩ := flushDataBlock_spec h.wrote h.blocks
    h.option_eq h.data hlast h.tower (hsmall.sublist (current_sublist entries)) (hends ▸ hsmall.endKeys) hflush
  refine ⟨file', w + n, leaf, hgrows.wrote, hends ▸ htower, hleaf, ?_,
    dvd_length_append h.blocks hgrows.length_eq, hgrows.bounded, hself⟩
  have hweight := h.weight
  rw [hgrows.length_eq, Nat.mul_add, Nat.mul_add]
  omega

omit [LawfulSstWriter ω] in
theorem add_eq (self : SstBuilder ω) (key : Bytes) (entry : Entry Bytes) :
    self.add key entry =
      (if self.dataBuilder.wouldExceed key entry then (self.recordKey key).flushDataBlock
      else .ok (self.recordKey key)) >>= fun mid =>
        mid.dataBuilder.add key entry >>= fun dataBuilder => pure { mid with dataBuilder } := by
  rw [SstBuilder.add]
  change (if self.dataBuilder.wouldExceed key entry then _ else _) = _
  split <;> rfl

theorem Building.add (h : Building option self file w ls entries) {key : Bytes}
    {entry : Entry Bytes} (hsmall : ShortBlocks option entries)
    (hadd : self.add key entry = .ok self') :
    ∃ file' w' ls', Building option self' file' w' ls' (entries ++ [(key, entry)]) := by
  rw [add_eq] at hadd
  obtain ⟨mid, hmid, hadd⟩ := bind_eq_ok.mp hadd
  obtain ⟨dataBuilder, hput, hret⟩ := bind_eq_ok.mp hadd
  obtain rfl := Except.ok.inj hret
  have hfirst : (self.recordKey key).firstKey = (entries ++ [(key, entry)]).head?.map Prod.fst := by
    rw [SstBuilder.recordKey, h.firstKey_eq]
    cases entries <;> rfl
  have hlast : (self.recordKey key).lastKey = (entries ++ [(key, entry)]).getLast?.map Prod.fst := by
    simp [SstBuilder.recordKey]
  rw [DataBlockBuilder.wouldExceed_eq h.data] at hmid
  by_cases hflush : entries ≠ [] ∧
      dataFull option (pack (dataFull option) entries).current (key, entry) = true
  · obtain ⟨hne, hfull⟩ := hflush
    rw [hfull, if_pos rfl] at hmid
    obtain ⟨last, hlastEntry, -⟩ := exists_ends_eq (dataFull option) hne
    have hends := blockEndKeys_eq hlastEntry
    obtain ⟨file', n, leaf, hgrows, htower, hleaf, hself⟩ :=
      flushDataBlock_spec (show Wrote (self.recordKey key).writer file from h.wrote) h.blocks
        h.option_eq h.data hlastEntry h.tower
        (hsmall.sublist (current_sublist entries)) (hends ▸ hsmall.endKeys) hmid
    have hpack := pack_concat_full hne hfull
    rw [hself] at hput ⊢
    refine ⟨file', w + n, ls ++ [leaf], ?_⟩
    exact
      { wrote := hgrows.wrote
        option_eq := h.option_eq
        data := by
          rw [hpack]
          exact (DataBlockBuilder.fills_new option).add (.inl rfl) hput
        tower := by
          rw [promoted_concat_full hne hfull]
          change Tower option file' 0 (blockEndKeys option entries) _ _ _
          rw [hends]
          exact htower
        leaves := by
          rw [hpack, entriesOf_append, h.leaves, List.flatten_append, ← hleaf]
          simp [entriesOf]
        weight := by
          have hweight := h.weight
          rw [hgrows.length_eq, Nat.mul_add, Nat.mul_add]
          omega
        blocks := dvd_length_append h.blocks hgrows.length_eq
        bounded := hgrows.bounded
        firstKey_eq := hfirst
        lastKey_eq := hlast }
  · have hpack : pack (dataFull option) (entries ++ [(key, entry)]) =
        ⟨(pack (dataFull option) entries).closed,
          (pack (dataFull option) entries).current ++ [(key, entry)]⟩ := by
      by_cases hne : entries = []
      · subst hne
        rfl
      · exact pack_concat_fits (Bool.eq_false_iff.mpr fun hfull => hflush ⟨hne, hfull⟩)
    have hfits : (pack (dataFull option) entries).current = [] ∨
        dataFull option (pack (dataFull option) entries).current (key, entry) = false := by
      by_cases hne : entries = []
      · subst hne
        exact .inl rfl
      · exact .inr (Bool.eq_false_iff.mpr fun hfull => hflush ⟨hne, hfull⟩)
    have hmid' : mid = self.recordKey key := by
      rcases hfits with hnil | hfits
      · have hempty : (self.recordKey key).flushDataBlock = .ok (self.recordKey key) := by
          have hentries : self.dataBuilder.entries = [] := h.data.entries_eq.trans hnil
          rw [SstBuilder.flushDataBlock, if_pos]
          change self.dataBuilder.entries.isEmpty = true
          rw [hentries]
          rfl
        rw [hempty, ite_self] at hmid
        exact (Except.ok.inj hmid).symm
      · rw [hfits] at hmid
        exact (Except.ok.inj hmid).symm
    subst hmid'
    refine ⟨file, w, ls, ?_⟩
    exact
      { wrote := h.wrote
        option_eq := h.option_eq
        data := by
          rw [hpack]
          exact h.data.add hfits hput
        tower := by
          rw [promoted, hpack]
          exact h.tower
        leaves := by
          rw [hpack]
          exact h.leaves
        weight := h.weight
        blocks := h.blocks
        bounded := h.bounded
        firstKey_eq := hfirst
        lastKey_eq := hlast }

/-- A new builder over an empty target. -/
theorem building_new {writer : ω} (hwrote : Wrote writer []) :
    Building option (SstBuilder.new writer option) [] 0 [] [] where
  wrote := hwrote
  option_eq := rfl
  data := DataBlockBuilder.fills_new option
  tower := .nil
  leaves := rfl
  weight := by simp
  blocks := dvd_zero _
  bounded := by simp
  firstKey_eq := rfl
  lastKey_eq := rfl

/-- Adding a sequence of entries one by one. -/
theorem Building.addAll (h : Building option self file w ls entries)
    {more : List (Bytes × Entry Bytes)} (hsmall : ShortBlocks option (entries ++ more))
    (hadd : SstBuilder.addAll more self = .ok self') :
    ∃ file' w' ls', Building option self' file' w' ls' (entries ++ more) := by
  induction more generalizing self file w ls entries with
  | nil =>
      obtain rfl := Except.ok.inj hadd
      exact ⟨file, w, ls, by simpa using h⟩
  | cons e more ih =>
      obtain ⟨mid, hone, hrest⟩ := bind_eq_ok.mp hadd
      obtain ⟨file₁, w₁, ls₁, h₁⟩ :=
        h.add (hsmall.sublist (List.sublist_append_left _ _)) hone
      obtain ⟨file', w', ls', h'⟩ := ih h₁ (by simpa using hsmall) hrest
      exact ⟨file', w', ls', by simpa using h'⟩

end Building

end Todb

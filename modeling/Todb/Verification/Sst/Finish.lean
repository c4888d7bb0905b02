import Todb.Verification.Sst.Building

/-! # Completing an SST file

`finish` flushes the levels that exist, bottom up, and then the top level if it holds more
than one block. What the root reaches is what the top level covers by then. -/

namespace Todb

open Library LawfulSstWriter

variable {ω : Type} [SstWriter ω] [LawfulSstWriter ω]
  {option : SstOption} {self self' : SstBuilder ω} {file : Bytes} {level w : ℕ}
  {ls : List Leaf} {keys : List Bytes} {entries : List (Bytes × Entry Bytes)}

/-! ## Flushing one level -/

/-- `flush_index_block` at the lowest level of a tower that stands above `below`. -/
theorem flushIndexBlock_spec {below builders : List IndexBlockBuilder}
    (hwrote : Wrote self.writer file) (hblocks : option.blockSize ∣ file.length)
    (hoption : self.option = option) (hbuilders : self.indexBuilders = below ++ builders) (hne : keys ≠ [])
    (hsmall : SmallIndex option keys)
    (htower : Tower option file level keys builders w ls)
    (hflush : self.flushIndexBlock below.length = .ok self') :
    ∃ file' n w' above, Grows option self'.writer file file' (1 + n) ∧ w' ≤ w + n ∧
      Tower option file' (level + 1) (ends (indexFull option) keys) above w' ls ∧
      self' = { self with
        writer := self'.writer
        indexBuilders := below ++ IndexBlockBuilder.new option :: above } := by
  cases htower with
  | nil => exact absurd rfl hne
  | @cons _ w _ builder above ls lss hne hfills hc habove =>
      have hdrop : self.indexBuilders.drop below.length = builder :: above := by
        rw [hbuilders, List.drop_left]
      have htake : self.indexBuilders.take below.length = below := by
        rw [hbuilders, List.take_left]
      rw [SstBuilder.flushIndexBlock, hdrop] at hflush
      obtain ⟨⟨writer', builder', above'⟩, hlevel, hret⟩ := bind_eq_ok.mp hflush
      obtain rfl := Except.ok.inj hret
      rw [hoption] at hlevel
      obtain ⟨rfl, file', n, hgrows, habove'⟩ := flushLevel_spec (addToLevels_spec above) hwrote
        hblocks hne hsmall hfills hc habove hlevel
      exact ⟨file', n, w + n, above', hgrows, by omega, habove', by simp [htake]⟩

/-! ## The loop over the existing levels -/

/-- Completing `n` levels: they end up empty, and all end keys have moved up. -/
theorem flushLevels_spec {n : ℕ} {below builders : List IndexBlockBuilder}
    (hwrote : Wrote self.writer file) (hblocks : option.blockSize ∣ file.length)
    (hbound : file.length ≤ isizeMax) (hoption : self.option = option)
    (hbuilders : self.indexBuilders = below ++ builders) (hlevel : below.length = level)
    (hne : keys ≠ []) (hsmall : SmallIndex option keys)
    (htower : Tower option file level keys builders w ls)
    (hweight : option.blockSize * w ≤ file.length)
    (hflush : SstBuilder.flushLevels (List.range' level n) self = .ok self') :
    ∃ file' w' below' above, Wrote self'.writer file' ∧ option.blockSize ∣ file'.length ∧
      file'.length ≤ isizeMax ∧
      option.blockSize * w' ≤ file'.length ∧ below'.length = level + n ∧
      Tower option file' (level + n) ((ends (indexFull option))^[n] keys) above w' ls ∧
      self' = { self with
        writer := self'.writer
        indexBuilders := below' ++ above } := by
  induction n generalizing self file level w keys below builders with
  | zero =>
      obtain rfl := Except.ok.inj hflush
      exact ⟨file, w, below, builders, hwrote, hblocks, hbound, hweight, hlevel, htower,
        by rw [← hbuilders]⟩
  | succ n ih =>
      rw [List.range'_succ, SstBuilder.flushLevels] at hflush
      obtain ⟨builder, hindex, hflush⟩ := bind_eq_ok.mp hflush
      have hbuilder : builder.isEmpty = false := by
        cases htower with
        | nil => exact absurd rfl hne
        | @cons _ w _ b above ls lss hne hfills hc habove =>
            have hb : builder = b := by
              rw [hbuilders, ← hlevel, index_of_lt (by simp)] at hindex
              simpa using (Except.ok.inj hindex).symm
            obtain ⟨key, hkey, -⟩ := exists_ends_eq (indexFull option) hne
            exact hb ▸ (hfills.exists_last hkey).1
      rw [hbuilder] at hflush
      simp only [Bool.false_eq_true, if_false] at hflush
      obtain ⟨mid, hone, hrest⟩ := bind_eq_ok.mp hflush
      subst hlevel
      obtain ⟨file₁, m, w₁, above₁, hgrows, hw₁, htower₁, hmid⟩ :=
        flushIndexBlock_spec hwrote hblocks hoption hbuilders hne hsmall htower hone
      have hweight₁ : option.blockSize * w₁ ≤ file₁.length := by
        have hle := Nat.mul_le_mul_left option.blockSize hw₁
        rw [Nat.mul_add] at hle
        rw [hgrows.length_eq, Nat.mul_add]
        omega
      obtain ⟨file', w', below', above, hwrote', hblocks', hbound', hweight', hlength', htower',
        hself'⟩ := ih hgrows.wrote (dvd_length_append hblocks hgrows.length_eq) hgrows.bounded (by rw [hmid]; exact hoption)
          (show mid.indexBuilders = (below ++ [IndexBlockBuilder.new option]) ++ above₁ by
            rw [hmid]; simp) (by simp) (ends_ne_nil _ hne)
          (hsmall.sublist (ends_sublist keys)) htower₁ hweight₁ hrest
      refine ⟨file', w', below', above, hwrote', hblocks', hbound', hweight', by omega, ?_, ?_⟩
      · rw [Function.iterate_succ_apply]
        convert htower' using 1
        omega
      · rw [hself', hmid]

/-! ## The top level -/

omit [SstWriter ω] [LawfulSstWriter ω] in
/-- The top level of a tower and what it covers: everything exactly when it is the only
level, that is when no group below it was closed. -/
theorem Tower.top {builders : List IndexBlockBuilder}
    (htower : Tower option file level keys builders w ls) (hne : keys ≠ []) :
    ∃ init top topKeys w' lss tail, builders = init ++ [top] ∧ topKeys ≠ [] ∧
      topKeys.Sublist keys ∧ Tower option file (level + init.length) topKeys [top] w' lss ∧
      ls = lss ++ tail ∧ (tail = [] ↔ (pack (indexFull option) keys).closed = []) ∧
      ∀ leaf ∈ tail, leaf.2 ≠ [] := by
  induction htower with
  | nil => exact absurd rfl hne
  | @cons level w keys builder above ls lss hkeys hfills hc habove ih =>
      have hlss : lss.flatten ≠ [] := by
        obtain ⟨key, hkey, -⟩ := exists_ends_eq (indexFull option) hkeys
        obtain ⟨-, last, -, -, hchild⟩ := hfills.exists_last hkey
        have hlast := hc.lastKeyOf_flatten hchild
        rintro hnil
        simp [hnil, lastKeyOf, entriesOf] at hlast
      by_cases hpromoted : promoted (indexFull option) keys = []
      · rw [hpromoted] at habove
        cases habove with
        | cons hnil => exact absurd rfl hnil
        | nil =>
            have htop := Tower.cons hkeys hfills hc (by rw [hpromoted]; exact .nil)
            refine ⟨[], builder, keys, _, lss.flatten, [], rfl, hkeys, List.Sublist.refl _,
              htop, by simp, ?_, by simp⟩
            simpa using promoted_eq_nil_iff.mp hpromoted
      · obtain ⟨init, top, topKeys, w', lss', tail, rfl, htopKeys, hsub, htop, rfl, -, hleaves⟩ :=
          ih hpromoted
        refine ⟨builder :: init, top, topKeys, w', lss', tail ++ lss.flatten, rfl, htopKeys,
          hsub.trans (promoted_sublist keys), ?_, by simp, ?_, ?_⟩
        · convert htop using 1
          simp only [List.length_cons]
          omega
        · rw [← promoted_eq_nil_iff]
          simp only [hpromoted, List.append_eq_nil_iff, hlss, and_false]
        · intro leaf hleaf
          rcases List.mem_append.mp hleaf with hleaf | hleaf
          · exact hleaves leaf hleaf
          · exact hc.leaves_ne_nil leaf hleaf

omit [SstWriter ω] [LawfulSstWriter ω] in
/-- A single level with a single entry points at one subtree that covers all. -/
theorem Tower.single {top : IndexBlockBuilder} {e : IndexEntry}
    (htower : Tower option file level keys [top] w ls) (htop : top.entries = [e]) :
    Subtree (⟨file, option.blockSize⟩ : BlockGrid) level e.child ls := by
  cases htower with
  | @cons _ w _ _ _ ls lss hne hfills hc habove =>
      generalize promoted (indexFull option) keys = above at habove
      cases habove with
      | nil =>
          rw [IndexBlockBuilder.children, htop] at hc
          cases hc with
          | cons hhead htail =>
              cases htail with
              | nil => simpa using hhead.1

omit [SstWriter ω] [LawfulSstWriter ω] in
/-- The builders of a single level: nothing was promoted. -/
theorem Tower.promoted_eq_nil {top : IndexBlockBuilder}
    (htower : Tower option file level keys [top] w ls) : promoted (indexFull option) keys = [] := by
  cases htower with
  | cons hne hfills hc habove =>
      generalize promoted (indexFull option) keys = above at habove
      cases habove with
      | nil => rfl

omit [SstWriter ω] [LawfulSstWriter ω] in
/-- A tower over one entry has one level with that entry. -/
theorem Tower.of_singleton {builders : List IndexBlockBuilder} {key : Bytes}
    (htower : Tower option file level [key] builders w ls) :
    ∃ top e, builders = [top] ∧ top.entries = [e] := by
  cases htower with
  | @cons _ w _ top above ls lss hne hfills hc habove =>
      have hkeys : top.entries.map IndexEntry.endKey = [key] := hfills.keys_eq
      obtain ⟨e, hentries, -⟩ := List.map_eq_singleton_iff.mp hkeys
      cases habove with
      | cons hnil => exact absurd rfl hnil
      | nil => exact ⟨top, e, rfl, hentries⟩

/-- After `flush_top`, the last entry of the last level is the root. -/
theorem flushTop_spec {below builders : List IndexBlockBuilder}
    (hwrote : Wrote self.writer file) (hblocks : option.blockSize ∣ file.length)
    (hoption : self.option = option)
    (hbuilders : self.indexBuilders = below ++ builders) (hlevel : below.length = level)
    (hne : keys ≠ []) (hsmall : SmallIndex option keys)
    (htower : Tower option file level keys builders w ls)
    (hflush : self.flushTop = .ok self') :
    ∃ file' rs tail init top e, Wrote self'.writer file' ∧
      self' = { self with writer := self'.writer, indexBuilders := init ++ [top] } ∧
      top.entries = [e] ∧ level ≤ init.length ∧ init.length ≤ level + builders.length ∧
      (keys.length = 1 → init.length = level) ∧
      Subtree (⟨file', option.blockSize⟩ : BlockGrid) init.length e.child rs ∧
      ls = rs ++ tail ∧ (tail = [] ↔ (pack (indexFull option) keys).closed = []) ∧
      ∀ leaf ∈ tail, leaf.2 ≠ [] := by
  obtain ⟨init, top, topKeys, w', rs, tail, rfl, htopKeys, hsub, htop, rfl, htail, hleaves⟩ :=
    htower.top hne
  have hlast : self.indexBuilders.getLast? = some top := by simp [hbuilders]
  have hlength : self.indexBuilders.length - 1 = (below ++ init).length := by
    simp [hbuilders]
  have hbuilders' : self.indexBuilders = (below ++ init) ++ [top] := by simp [hbuilders]
  have hdepth : (below ++ init).length = level + init.length := by simp [hlevel]
  -- Over one key there is one level, with one entry.
  have honly : keys.length = 1 → init = [] ∧ ∃ e, top.entries = [e] := by
    intro hkeys
    obtain ⟨key, rfl⟩ := List.length_eq_one_iff.mp hkeys
    obtain ⟨top', e, hsingle, he⟩ := htower.of_singleton
    obtain ⟨rfl, hsame⟩ := List.append_inj' (show init ++ [top] = [] ++ [top'] from hsingle) rfl
    obtain rfl := (List.cons.inj hsame).1
    exact ⟨rfl, e, he⟩
  rw [SstBuilder.flushTop, hlast] at hflush
  by_cases hmany : 1 < top.entryCount
  · simp only [hmany, if_true, hlength] at hflush
    obtain ⟨file', n, w'', above, hgrows, -, habove, hself⟩ := flushIndexBlock_spec hwrote hblocks
      hoption hbuilders' htopKeys (hsmall.sublist hsub) htop hflush
    obtain ⟨key, -, hends⟩ := exists_ends_eq (indexFull option) htopKeys
    rw [htop.promoted_eq_nil, List.nil_append] at hends
    rw [hends] at habove
    obtain ⟨root, e, rfl, hroot⟩ := habove.of_singleton
    refine ⟨file', rs, tail, below ++ init ++ [IndexBlockBuilder.new option], root, e, hgrows.wrote,
      by rw [hself]; simp, hroot, ?_, ?_, fun hkeys => ?_, ?_, rfl, htail, hleaves⟩
    · simp [hlevel]
    · simp [hlevel]
    · obtain ⟨-, e', he'⟩ := honly hkeys
      simp [IndexBlockBuilder.entryCount, he'] at hmany
    · convert habove.single hroot using 1
      simp [hlevel]
      omega
  · simp only [hmany, if_false] at hflush
    obtain rfl := Except.ok.inj hflush
    obtain ⟨e, hroot⟩ : ∃ e, top.entries = [e] := by
      cases htop with
      | cons hne hfills =>
          obtain ⟨key, hkey, -⟩ := exists_ends_eq (indexFull option) hne
          have hempty := (hfills.exists_last hkey).1
          rw [IndexBlockBuilder.isEmpty, List.isEmpty_eq_false_iff] at hempty
          have hpos := List.length_pos_iff.mpr hempty
          exact List.length_eq_one_iff.mp (by rw [IndexBlockBuilder.entryCount] at hmany; omega)
    refine ⟨file, rs, tail, below ++ init, top, e, hwrote, by rw [← hbuilders'], hroot, ?_, ?_,
      fun hkeys => ?_, ?_, rfl, htail, hleaves⟩
    · rw [hdepth]
      omega
    · rw [hdepth]
      simp
    · rw [hdepth, (honly hkeys).1, List.length_nil, Nat.add_zero]
    · rw [hdepth]
      exact htop.single hroot

/-! ## The whole of `finish` -/

omit [SstWriter ω] [LawfulSstWriter ω] in
/-- A file of at most `isize::MAX` bytes has fewer than 2³¹ index levels. -/
theorem Tower.length_lt {builders : List IndexBlockBuilder}
    (htower : Tower option file level keys builders w ls)
    (hweight : option.blockSize * w ≤ file.length) (hbound : file.length ≤ isizeMax) :
    builders.length < 2 ^ 31 := by
  have hlevels := htower.stacked.length_mul_le
  rw [List.length_map] at hlevels
  cases htower with
  | nil => simp
  | @cons _ w _ builder above _ _ hne hfills _ _ =>
      have hblock : 29 ≤ option.blockSize := by
        obtain ⟨key, rest, hcons⟩ :=
          List.exists_cons_of_ne_nil (current_ne_nil (indexFull option) hne)
        have hfits := hfills.fits
        rw [hcons] at hfits
        simp only [List.map_cons, List.sum_cons, blockFixedHeaderSize,
          IndexBlockBuilder.entrySize] at hfits
        omega
      by_contra hge
      push Not at hge
      have hsquare : 2 ^ 31 * (2 ^ 31 - 1) ≤
          (builder :: above).length * ((builder :: above).length - 1) :=
        Nat.mul_le_mul hge (by omega)
      have hbytes := Nat.mul_le_mul_right (w + (promoted (indexFull option) keys).length) hblock
      unfold isizeMax at hbound
      omega

/-- What a finished file contains: the root of the footer reaches the data blocks `rs`, and
it reaches all of them exactly when the end keys fit one root. -/
structure Finished (option : SstOption) (entries : List (Bytes × Entry Bytes))
    (footer : SstFooter) (file : Bytes) (h : ℕ) (rs tail : List Leaf) : Prop where
  height_eq : footer.treeHeight.toNat = h + 2
  subtree : Subtree (⟨file, option.blockSize⟩ : BlockGrid) (h + 1)
    footer.rootIndexBlockPosition rs
  entries_eq : entriesOf (rs ++ tail) = entries
  tail_iff : tail = [] ↔ rootFits (indexFull option) (blockEndKeys option entries) = true
  tail_leaves : ∀ leaf ∈ tail, leaf.2 ≠ []

/-- The levels of a non-empty file, from the last data block to the root. -/
theorem finish_levels {self₁ self₂ self₃ : SstBuilder ω}
    (h : Building option self file w ls entries) (hne : entries ≠ [])
    (hsmall : ShortBlocks option entries) (hdata : self.flushDataBlock = .ok self₁)
    (hlevels : SstBuilder.flushLevels (List.range self₁.indexBuilders.length) self₁ = .ok self₂)
    (htop : self₂.flushTop = .ok self₃) :
    ∃ file' n rs tail, Wrote self₃.writer file' ∧
      Finished option entries self₃.footer file' n rs tail ∧ (n = 0 ↔ OneIndexBlock option entries) ∧
      self₃.firstKey = self.firstKey ∧ self₃.lastKey = self.lastKey := by
  obtain ⟨file₁, w₁, leaf, hwrote₁, htower₁, hleaf, hweight₁, hblocks₁, hbound₁, hself₁⟩ :=
    h.flush hne hsmall hdata
  have hkeys : blockEndKeys option entries ≠ [] := by
    simpa [blockEndKeys] using ends_ne_nil (dataFull option) hne
  have hoption₁ : self₁.option = option := by rw [hself₁]; exact h.option_eq
  rw [List.range_eq_range'] at hlevels
  obtain ⟨file₂, w₂, below, above, hwrote₂, hblocks₂, hbound₂, hweight₂, hbelow, htower₂, hself₂⟩ :=
    flushLevels_spec hwrote₁ hblocks₁ hbound₁ hoption₁
      (show self₁.indexBuilders = [] ++ self₁.indexBuilders from rfl) (by rfl) hkeys
      hsmall.endKeys htower₁ hweight₁ hlevels
  rw [Nat.zero_add] at hbelow htower₂
  obtain ⟨file₃, rs, tail, init, top, e, hwrote₃, hself₃, hroot, hle, hge, hone, hsub, hls, htail,
    hleaves⟩ := flushTop_spec hwrote₂ hblocks₂ (by rw [hself₂]; exact hoption₁) (by rw [hself₂]) hbelow
      (iterate_ends_ne_nil hkeys _)
      (hsmall.endKeys.sublist (iterate_ends_sublist _ _)) htower₂ htop
  have hpos : 0 < self₁.indexBuilders.length := by
    rw [List.length_pos_iff]
    intro hnil
    exact hkeys (htower₁.stacked.nil_iff.mp (by simp [hnil]))
  have hlt₁ := htower₁.length_lt hweight₁ hbound₁
  have hlt₂ := htower₂.length_lt hweight₂ hbound₂
  refine ⟨file₃, init.length - 1, rs, tail, hwrote₃, ?_, ?_, ?_, ?_⟩
  · have hheight : self₃.footer.treeHeight.toNat = init.length + 1 := by
      rw [hself₃]
      simp only [SstBuilder.footer, List.length_append, List.length_singleton]
      rw [UInt32.toNat_ofNat']
      exact Nat.mod_eq_of_lt (by omega)
    have hposition : self₃.footer.rootIndexBlockPosition = e.child := by
      rw [hself₃]
      simp [SstBuilder.footer, IndexBlockBuilder.lastEntry, hroot]
    refine ⟨by rw [hheight]; omega, ?_, ?_, ?_, hleaves⟩
    · rw [hposition, Nat.sub_add_cancel (by omega)]
      exact hsub
    · rw [← hls, entriesOf_append, h.leaves]
      simp only [entriesOf, List.map_cons, List.map_nil, List.flatten_cons, List.flatten_nil,
        List.append_nil, hleaf]
      exact pack_flatten _ entries
    · rw [htail, htower₁.stacked.rootFits_eq, List.length_map, List.isEmpty_iff]
  · have hlength := htower₁.stacked.length_eq_one_iff hkeys
    rw [List.length_map] at hlength
    rw [OneIndexBlock, ← hlength]
    constructor
    · intro hzero
      omega
    · intro hsingle
      have hpromoted := promoted_eq_nil_iff.mpr (hlength.mp hsingle)
      obtain ⟨key, -, hends⟩ := exists_ends_eq (indexFull option) hkeys
      have hinit := hone (by simp [hsingle, hends, hpromoted])
      omega
  · have h₁ : self₁.firstKey = self.firstKey := by rw [hself₁]
    have h₂ : self₂.firstKey = self₁.firstKey := by rw [hself₂]
    have h₃ : self₃.firstKey = self₂.firstKey := by rw [hself₃]
    exact h₃.trans (h₂.trans h₁)
  · have h₁ : self₁.lastKey = self.lastKey := by rw [hself₁]
    have h₂ : self₂.lastKey = self₁.lastKey := by rw [hself₂]
    have h₃ : self₃.lastKey = self₂.lastKey := by rw [hself₃]
    exact h₃.trans (h₂.trans h₁)

/-- Without entries nothing is flushed. -/
theorem finish_empty {self₁ self₂ self₃ : SstBuilder ω}
    (h : Building option self file w ls []) (hdata : self.flushDataBlock = .ok self₁)
    (hlevels : SstBuilder.flushLevels (List.range self₁.indexBuilders.length) self₁ = .ok self₂)
    (htop : self₂.flushTop = .ok self₃) : self₃ = self ∧ self.indexBuilders = [] := by
  have hbuilders : self.indexBuilders = [] := by
    simpa using h.tower.stacked.nil_iff.mpr rfl
  have hempty : self.dataBuilder.isEmpty = true := by
    rw [DataBlockBuilder.isEmpty, h.data.entries_eq]
    rfl
  rw [SstBuilder.flushDataBlock, if_pos hempty] at hdata
  obtain rfl := Except.ok.inj hdata
  rw [hbuilders] at hlevels
  obtain rfl := Except.ok.inj hlevels
  rw [SstBuilder.flushTop, hbuilders] at htop
  exact ⟨(Except.ok.inj htop).symm, hbuilders⟩

/-- Building an SST: an empty file for no entries, and else the tree below the root. -/
theorem buildSst_spec {writer writer' : ω} {footer : SstFooter} (hwrote : Wrote writer [])
    (hsmall : ShortBlocks option entries)
    (hbuild : buildSst writer option entries = .ok (footer, writer')) :
    footer.firstKey = (entries.head?.map Prod.fst).getD [] ∧
      footer.lastKey = (entries.getLast?.map Prod.fst).getD [] ∧
      ∃ file trailer, Wrote writer' (file ++ trailer) ∧ Trailer (ω := ω) footer trailer ∧
        ((entries = [] ∧ footer.treeHeight = 0) ∨
          ∃ h rs tail, Finished option entries footer file h rs tail ∧
            (h = 0 ↔ OneIndexBlock option entries)) := by
  obtain ⟨self, hadd, hfinish⟩ := bind_eq_ok.mp hbuild
  obtain ⟨file, w, ls, h⟩ := (building_new hwrote).addAll (by simpa using hsmall) hadd
  rw [List.nil_append] at h
  obtain ⟨self₁, hdata, hfinish⟩ := bind_eq_ok.mp hfinish
  obtain ⟨self₂, hlevels, hfinish⟩ := bind_eq_ok.mp hfinish
  obtain ⟨self₃, htop, hfinish⟩ := bind_eq_ok.mp hfinish
  obtain ⟨⟨position, writer₁⟩, hfooter, hret⟩ := bind_eq_ok.mp hfinish
  obtain ⟨rfl, rfl⟩ : self₃.footer = footer ∧ writer₁ = writer' := by
    simpa [pure, Except.pure] using hret
  by_cases hne : entries = []
  · subst hne
    obtain ⟨rfl, hbuilders⟩ := finish_empty h hdata hlevels htop
    obtain ⟨trailer, htrailer, hwrote'⟩ := writeFooter_ok h.wrote hfooter
    refine ⟨?_, ?_, file, trailer, hwrote', htrailer, .inl ⟨rfl, ?_⟩⟩
    · rw [← h.firstKey_eq]
      rfl
    · rw [← h.lastKey_eq]
      rfl
    · simp [SstBuilder.footer, hbuilders]
  · obtain ⟨file', n, rs, tail, hwrote', hfinished, hheight, hfirst, hlast⟩ :=
      finish_levels h hne hsmall hdata hlevels htop
    obtain ⟨trailer, htrailer, hwrote''⟩ := writeFooter_ok hwrote' hfooter
    refine ⟨?_, ?_, file', trailer, hwrote'', htrailer, .inr ⟨n, rs, tail, hfinished, hheight⟩⟩
    · rw [← h.firstKey_eq, ← hfirst]
      rfl
    · rw [← h.lastKey_eq, ← hlast]
      rfl

end Todb

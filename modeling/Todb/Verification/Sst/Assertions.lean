import Todb.Verification.Sst.Building

/-! # When the builder's assertions hold

The block builders assert that an entry fits an empty block: `add` on a data block for every
entry, `add` on an index block for the last key of every data block, and again for that key on
every level above. So an assertion fails for one of two reasons only, which are properties of
the entries. -/

namespace Todb

open Library

/-- A failure that is an assertion only where `P` does not hold. -/
def Blames (P : Prop) (fault : Fault) : Prop := fault = .panic → ¬ P

theorem Blames.of_imp {P Q : Prop} (himp : Q → P) (fault : Fault) (h : Blames P fault) :
    Blames Q fault := fun hpanic hQ => h hpanic (himp hQ)

/-- The assertion of a data block. -/
def EntryFits (option : SstOption) (e : Bytes × Entry Bytes) : Prop :=
  blockFixedHeaderSize + DataBlockBuilder.entrySize e.1 e.2 < option.blockSize

/-- The assertion of an index block. -/
def KeyFits (option : SstOption) (key : Bytes) : Prop :=
  blockFixedHeaderSize + IndexBlockBuilder.entrySize key < option.blockSize

/-- Every entry fits an empty data block, and the last key of every data block an empty index
block. -/
structure Passes (option : SstOption) (entries : List (Bytes × Entry Bytes)) : Prop where
  entry : ∀ e ∈ entries, EntryFits option e
  endKey : ∀ key ∈ blockEndKeys option entries, KeyFits option key

instance (option : SstOption) (e : Bytes × Entry Bytes) : Decidable (EntryFits option e) :=
  inferInstanceAs (Decidable (_ < _))

instance (option : SstOption) (key : Bytes) : Decidable (KeyFits option key) :=
  inferInstanceAs (Decidable (_ < _))

instance (option : SstOption) (entries : List (Bytes × Entry Bytes)) :
    Decidable (Passes option entries) :=
  decidable_of_iff ((∀ e ∈ entries, EntryFits option e) ∧
    ∀ key ∈ blockEndKeys option entries, KeyFits option key)
    ⟨fun h => ⟨h.1, h.2⟩, fun h => ⟨h.1, h.2⟩⟩

/-- What has been asserted once the entries are added and the last block is still open. -/
structure PassesSoFar (option : SstOption) (entries : List (Bytes × Entry Bytes)) : Prop where
  entry : ∀ e ∈ entries, EntryFits option e
  endKey : ∀ e ∈ promoted (dataFull option) entries, KeyFits option e.1

theorem PassesSoFar.of_append {option : SstOption} {entries more : List (Bytes × Entry Bytes)}
    (h : PassesSoFar option (entries ++ more)) : PassesSoFar option entries :=
  ⟨fun e he => h.entry e (List.mem_append_left _ he),
    fun e he => h.endKey e (promoted_append_subset _ _ he)⟩

theorem Passes.soFar {option : SstOption} {entries : List (Bytes × Entry Bytes)}
    (h : Passes option entries) : PassesSoFar option entries :=
  ⟨h.entry, fun _ he => h.endKey _ (List.mem_map_of_mem (List.mem_append_left _ he))⟩

/-- A writer that panics on no block of the right size, and on no footer. -/
structure Steady {ω : Type} [SstWriter ω] (blockSize : ℕ) (Ready : ω → Prop) : Prop where
  writeBlock : ∀ {writer data}, Ready writer → data.length = blockSize →
    Meets (Blames True) (fun r => Ready r.2) (SstWriter.writeBlock writer data)
  writeFooter : ∀ {writer footer}, Ready writer →
    Meets (Blames True) (fun r => Ready r.2) (SstWriter.writeFooter writer footer)

/-! ## Index levels -/

/-- The builder holds keys that passed its assertion. -/
structure IndexBlockBuilder.Holds (builder : IndexBlockBuilder) (option : SstOption) : Prop where
  option_eq : builder.option = option
  keys : ∀ e ∈ builder.entries, KeyFits option e.endKey

namespace IndexBlockBuilder

variable {option : SstOption} {builder : IndexBlockBuilder}

theorem holds_new : (new option).Holds option := ⟨rfl, by simp [new]⟩

theorem Holds.add (h : builder.Holds option) (key : Bytes) (position : Position) :
    Meets (Blames (KeyFits option key)) (fun builder' => KeyFits option key ∧ builder'.Holds option)
      (builder.add key position) := by
  rw [IndexBlockBuilder.add, h.option_eq]
  refine Meets.ite (fun hfits => ⟨hfits, rfl, ?_⟩) (fun hfits _ => hfits)
  intro e he
  rcases List.mem_append.mp he with he | he
  · exact h.keys e he
  · rw [List.mem_singleton.mp he]
    exact hfits

theorem Holds.finish (h : builder.Holds option) : builder.finish.2.Holds option := by
  rw [IndexBlockBuilder.finish, h.option_eq]
  exact holds_new

theorem Holds.lastKey (h : builder.Holds option) (hne : builder.isEmpty = false) :
    KeyFits option ((builder.lastEntry.map IndexEntry.endKey).getD []) := by
  rw [IndexBlockBuilder.isEmpty, List.isEmpty_eq_false_iff] at hne
  obtain ⟨e, he⟩ := Option.isSome_iff_exists.mp (List.getLast?_isSome.mpr hne)
  rw [lastEntry, he]
  exact h.keys e (List.mem_of_getLast? he)

end IndexBlockBuilder

section Levels

variable {ω : Type} [SstWriter ω] {option : SstOption} {Ready : ω → Prop}

/-- A writer and the index levels above it, with nothing in them that fails an assertion. -/
def LevelsHold (Ready : ω → Prop) (option : SstOption) (writer : ω)
    (builders : List IndexBlockBuilder) : Prop :=
  Ready writer ∧ ∀ builder ∈ builders, builder.Holds option

/-- What `add_index_entry` does on the given levels: only the new key can be to blame. -/
def AssertsKey (Ready : ω → Prop) (option : SstOption) (key : Bytes)
    (builders : List IndexBlockBuilder) (x : Outcome (ω × List IndexBlockBuilder)) : Prop :=
  Meets (Blames (KeyFits option key)) (fun r => KeyFits option key ∧
    LevelsHold Ready option r.1 r.2 ∧ builders.length ≤ r.2.length) x

/-- A key that moves up has passed the assertion on its own level. -/
theorem flushLevel_asserts (hsteady : Steady option.blockSize Ready) {builder : IndexBlockBuilder}
    {above : List IndexBlockBuilder} {writer : ω}
    (add : ω → Bytes → Position → Outcome (ω × List IndexBlockBuilder))
    (hready : Ready writer) (hbuilder : builder.Holds option)
    (habove : ∀ b ∈ above, b.Holds option)
    (hadd : ∀ writer key position, Ready writer →
      AssertsKey Ready option key above (add writer key position)) :
    Meets (Blames True) (fun r => r.2.1.Holds option ∧ LevelsHold Ready option r.1 r.2.2 ∧
      above.length ≤ r.2.2.length) (flushLevel add writer builder above) := by
  rw [flushLevel]
  refine Meets.ite (fun _ => ⟨hbuilder, ⟨hready, habove⟩, le_rfl⟩) (fun hne => ?_)
  have hlength : builder.finish.1.length = option.blockSize := by
    rw [← hbuilder.option_eq]
    exact length_finishBlock _ _
  have hlast := hbuilder.lastKey (by simpa using hne)
  refine (hsteady.writeBlock hready hlength).bind fun r hr => ?_
  refine ((hadd r.2 _ r.1 hr).weaken (Blames.of_imp fun _ => hlast)).bind ?_
  rintro ⟨writer', above'⟩ ⟨-, hlevels, hle⟩
  exact ⟨hbuilder.finish, hlevels, hle⟩

theorem addToLevels_asserts (hsteady : Steady option.blockSize Ready)
    (builders : List IndexBlockBuilder) (hbuilders : ∀ b ∈ builders, b.Holds option) :
    ∀ (writer : ω) (key : Bytes) (position : Position), Ready writer →
      AssertsKey Ready option key builders (addToLevels option builders writer key position) := by
  induction builders with
  | nil =>
      intro writer key position hready
      refine (IndexBlockBuilder.holds_new.add key position).bind ?_
      rintro builder ⟨hkey, hholds⟩
      exact ⟨hkey, ⟨hready, by simpa using hholds⟩, Nat.zero_le _⟩
  | cons builder above ih =>
      intro writer key position hready
      obtain ⟨hbuilder, habove⟩ := List.forall_mem_cons.mp hbuilders
      have hspace : Meets (Blames True) (fun r : ω × IndexBlockBuilder × List IndexBlockBuilder =>
          r.2.1.Holds option ∧ LevelsHold Ready option r.1 r.2.2 ∧ above.length ≤ r.2.2.length)
          (if builder.wouldExceed key then
            flushLevel (fun writer => addToLevels option above writer) writer builder above
          else .ok (writer, builder, above)) :=
        Meets.ite
          (fun _ => flushLevel_asserts hsteady _ hready hbuilder habove (ih habove))
          (fun _ => ⟨hbuilder, ⟨hready, habove⟩, le_rfl⟩)
      rw [addToLevels_cons]
      refine (hspace.weaken (Blames.of_imp fun _ => trivial)).bind ?_
      rintro ⟨writer', builder', above'⟩ ⟨hbuilder', ⟨hready', habove'⟩, hle⟩
      refine (hbuilder'.add key position).bind ?_
      rintro builder'' ⟨hkey, hbuilder''⟩
      exact ⟨hkey, ⟨hready', List.forall_mem_cons.mpr ⟨hbuilder'', habove'⟩⟩,
        Nat.succ_le_succ hle⟩

end Levels

/-! ## The whole builder -/

section Builder

variable {ω : Type} [SstWriter ω] {option : SstOption} {Ready : ω → Prop} {self : SstBuilder ω}
  {entries : List (Bytes × Entry Bytes)}

/-- The index levels of a builder between two calls. -/
structure SstBuilder.Levelled (Ready : ω → Prop) (option : SstOption) (builder : SstBuilder ω) :
    Prop where
  option_eq : builder.option = option
  levels : LevelsHold Ready option builder.writer builder.indexBuilders

/-- A builder that has taken the entries; every assertion so far held. -/
structure SstBuilder.Took (Ready : ω → Prop) (option : SstOption) (builder : SstBuilder ω)
    (entries : List (Bytes × Entry Bytes)) : Prop extends
    SstBuilder.Levelled Ready option builder where
  data : builder.dataBuilder.Fills option (pack (dataFull option) entries).current
  passes : PassesSoFar option entries

omit [SstWriter ω] in
theorem took_new {writer : ω} (hready : Ready writer) :
    (SstBuilder.new writer option).Took Ready option [] where
  option_eq := rfl
  levels := ⟨hready, by simp [SstBuilder.new]⟩
  data := DataBlockBuilder.fills_new option
  passes := ⟨by simp, by simp [promoted, lasts]⟩

omit [SstWriter ω] in
theorem SstBuilder.Took.recordKey (h : self.Took Ready option entries) (key : Bytes) :
    (self.recordKey key).Took Ready option entries := ⟨⟨h.option_eq, h.levels⟩, h.data, h.passes⟩

/-- Flushing asserts the last key of the open block. -/
theorem SstBuilder.Took.flushDataBlock (hsteady : Steady option.blockSize Ready)
    (h : self.Took Ready option entries) :
    Meets (Blames (Passes option entries)) (fun self' => Passes option entries ∧
      self'.Levelled Ready option ∧ self'.dataBuilder.Fills option []) self.flushDataBlock := by
  rw [SstBuilder.flushDataBlock, DataBlockBuilder.isEmpty, h.data.entries_eq]
  refine Meets.ite (fun hempty => ?_) (fun hempty => ?_)
  · -- An empty block belongs to a builder that has taken nothing.
    obtain rfl : entries = [] := by
      by_contra hne
      exact current_ne_nil _ hne (List.isEmpty_iff.mp hempty)
    exact ⟨⟨by simp, by simp [blockEndKeys, ends, promoted, lasts]⟩, ⟨h.option_eq, h.levels⟩, h.data⟩
  · have hne : entries ≠ [] := by
      rintro rfl
      exact hempty rfl
    obtain ⟨last, hlast, -⟩ := exists_ends_eq (dataFull option) hne
    have hkey : self.dataBuilder.lastKey.getD [] = last.1 := by
      rw [DataBlockBuilder.lastKey, h.data.entries_eq, hlast]
      rfl
    have hpasses : Passes option entries ↔ KeyFits option last.1 := by
      have hends := blockEndKeys_eq hlast
      constructor
      · intro hall
        exact hall.endKey _ (by simp [hends])
      · intro hfits
        refine ⟨h.passes.entry, fun key hmem => ?_⟩
        rw [hends, List.mem_append, List.mem_singleton] at hmem
        rcases hmem with hmem | rfl
        · obtain ⟨e, he, rfl⟩ := List.mem_map.mp hmem
          exact h.passes.endKey e he
        · exact hfits
    have hlength : self.dataBuilder.finish.1.length = option.blockSize := by
      rw [← h.data.option_eq]
      exact length_finishBlock _ _
    refine ((hsteady.writeBlock h.levels.1 hlength).weaken (Blames.of_imp fun _ => trivial)).bind ?_
    rintro ⟨handle, writer⟩ hready
    have hadd := addToLevels_asserts hsteady self.indexBuilders h.levels.2 writer last.1 handle hready
    simp only [SstBuilder.addIndexEntry, List.drop_zero, List.take_zero, List.nil_append,
      h.option_eq, hkey]
    refine (hadd.weaken (Blames.of_imp hpasses.mp)).bind ?_
    rintro ⟨writer', builders⟩ ⟨hfits, hlevels, -⟩
    exact ⟨hpasses.mpr hfits, ⟨rfl, hlevels⟩, h.data.option_eq ▸ DataBlockBuilder.fills_new _⟩

theorem DataBlockBuilder.Fills.meets_add {builder : DataBlockBuilder}
    {es : List (Bytes × Entry Bytes)} {e : Bytes × Entry Bytes} (h : builder.Fills option es)
    (hfits : es = [] ∨ dataFull option es e = false) :
    Meets (Blames (EntryFits option e)) (fun builder' => EntryFits option e ∧
      builder'.Fills option (es ++ [e])) (builder.add e.1 e.2) := by
  cases hadd : builder.add e.1 e.2 with
  | ok builder' =>
      refine ⟨?_, h.add hfits hadd⟩
      rw [DataBlockBuilder.add, h.option_eq] at hadd
      split at hadd
      · assumption
      · cases hadd
  | error fault =>
      rw [DataBlockBuilder.add, h.option_eq] at hadd
      split at hadd
      · cases hadd
      · rename_i hexceeds
        exact fun _ => hexceeds

/-- Adding an entry asserts the entry, and the last key of the block it does not fit. -/
theorem SstBuilder.Took.add (hsteady : Steady option.blockSize Ready)
    (h : self.Took Ready option entries) (e : Bytes × Entry Bytes) :
    Meets (Blames (PassesSoFar option (entries ++ [e])))
      (fun self' => self'.Took Ready option (entries ++ [e])) (self.add e.1 e.2) := by
  rw [add_eq, DataBlockBuilder.wouldExceed_eq h.data]
  by_cases hfull : dataFull option (pack (dataFull option) entries).current e = true
  · rw [if_pos hfull]
    have hpack : (pack (dataFull option) (entries ++ [e])).current = [e] ∧
        promoted (dataFull option) (entries ++ [e]) = ends (dataFull option) entries := by
      by_cases hne : entries = []
      · subst hne
        exact ⟨rfl, rfl⟩
      · exact ⟨by rw [pack_concat_full hne hfull], promoted_concat_full hne hfull⟩
    have hiff : PassesSoFar option (entries ++ [e]) ↔
        Passes option entries ∧ EntryFits option e := by
      constructor
      · intro hall
        refine ⟨⟨fun e' he' => hall.entry e' (List.mem_append_left _ he'), ?_⟩,
          hall.entry e (by simp)⟩
        intro key hkey
        obtain ⟨e', he', rfl⟩ := List.mem_map.mp hkey
        exact hall.endKey e' (hpack.2 ▸ he')
      · rintro ⟨hpasses, he⟩
        refine ⟨List.forall_mem_append.mpr ⟨hpasses.entry, by simpa using he⟩, ?_⟩
        intro e' he'
        exact hpasses.endKey _ (List.mem_map_of_mem (hpack.2 ▸ he'))
    refine (((h.recordKey e.1).flushDataBlock hsteady).weaken
      (Blames.of_imp fun hall => (hiff.mp hall).1)).bind ?_
    rintro mid ⟨hpasses, hlevelled, hfills⟩
    refine ((hfills.meets_add (.inl rfl)).weaken
      (Blames.of_imp fun hall => (hiff.mp hall).2)).bind ?_
    rintro builder ⟨he, hbuilder⟩
    refine ⟨⟨hlevelled.option_eq, hlevelled.levels⟩, ?_, hiff.mpr ⟨hpasses, he⟩⟩
    rw [hpack.1]
    exact hbuilder
  · have hfits : dataFull option (pack (dataFull option) entries).current e = false :=
      Bool.eq_false_iff.mpr hfull
    rw [if_neg hfull]
    have hsoFar : EntryFits option e → PassesSoFar option (entries ++ [e]) := by
      intro he
      refine ⟨List.forall_mem_append.mpr ⟨h.passes.entry, by simpa using he⟩, ?_⟩
      rw [promoted_concat_fits hfits]
      exact h.passes.endKey
    refine ((h.data.meets_add (.inr hfits)).weaken
      (Blames.of_imp fun hall => hall.entry e (by simp))).bind ?_
    rintro builder ⟨he, hbuilder⟩
    refine ⟨⟨h.option_eq, h.levels⟩, ?_, hsoFar he⟩
    rw [pack_concat_fits hfits]
    exact hbuilder

theorem SstBuilder.Took.addAll (hsteady : Steady option.blockSize Ready)
    (h : self.Took Ready option entries) (more : List (Bytes × Entry Bytes)) :
    Meets (Blames (PassesSoFar option (entries ++ more)))
      (fun self' => self'.Took Ready option (entries ++ more)) (SstBuilder.addAll more self) := by
  induction more generalizing self entries with
  | nil =>
      rw [List.append_nil]
      exact h
  | cons e more ih =>
      rw [List.append_cons]
      exact ((h.add hsteady e).weaken (Blames.of_imp PassesSoFar.of_append)).bind
        fun self' h' => ih h'

/-- Flushing a level asserts nothing new. -/
theorem SstBuilder.Levelled.flushIndexBlock (hsteady : Steady option.blockSize Ready)
    (h : self.Levelled Ready option) {level : ℕ} (hlevel : level < self.indexBuilders.length) :
    Meets (Blames True) (fun self' => self'.Levelled Ready option ∧
      self.indexBuilders.length ≤ self'.indexBuilders.length) (self.flushIndexBlock level) := by
  obtain ⟨builder, above, hdrop⟩ : ∃ builder above,
      self.indexBuilders.drop level = builder :: above :=
    List.exists_cons_of_ne_nil (by simp; omega)
  have hsplit : self.indexBuilders.take level ++ builder :: above = self.indexBuilders := by
    rw [← hdrop, List.take_append_drop]
  have hholds := h.levels.2
  rw [← hsplit] at hholds
  obtain ⟨hbelow, hrest⟩ := List.forall_mem_append.mp hholds
  obtain ⟨hbuilder, habove⟩ := List.forall_mem_cons.mp hrest
  rw [SstBuilder.flushIndexBlock, hdrop, h.option_eq]
  refine (flushLevel_asserts hsteady _ h.levels.1 hbuilder habove
    (addToLevels_asserts hsteady above habove)).bind ?_
  rintro ⟨writer, builder', above'⟩ ⟨hbuilder', ⟨hready, habove'⟩, hle⟩
  refine ⟨⟨rfl, hready, ?_⟩, ?_⟩
  · exact List.forall_mem_append.mpr ⟨hbelow, List.forall_mem_cons.mpr ⟨hbuilder', habove'⟩⟩
  · have hlength := congrArg List.length hsplit
    simp only [List.length_append, List.length_cons] at hlength hle ⊢
    omega

theorem SstBuilder.Levelled.flushLevels (hsteady : Steady option.blockSize Ready)
    (h : self.Levelled Ready option) (levels : List ℕ)
    (hlevels : ∀ level ∈ levels, level < self.indexBuilders.length) :
    Meets (Blames True) (fun self' => self'.Levelled Ready option)
      (SstBuilder.flushLevels levels self) := by
  induction levels generalizing self with
  | nil => exact h
  | cons level levels ih =>
      obtain ⟨hlevel, hrest⟩ := List.forall_mem_cons.mp hlevels
      rw [SstBuilder.flushLevels, index_of_lt hlevel]
      refine Meets.ite (fun _ => ih h hrest) (fun _ => ?_)
      refine (h.flushIndexBlock hsteady hlevel).bind ?_
      rintro self' ⟨h', hle⟩
      exact ih h' fun level hmem => (hrest level hmem).trans_le hle

theorem SstBuilder.Levelled.flushTop (hsteady : Steady option.blockSize Ready)
    (h : self.Levelled Ready option) :
    Meets (Blames True) (fun self' => self'.Levelled Ready option) self.flushTop := by
  rw [SstBuilder.flushTop]
  cases htop : self.indexBuilders.getLast? with
  | none => exact h
  | some top =>
      refine Meets.ite (fun _ => ?_) (fun _ => h)
      have hpos : 0 < self.indexBuilders.length :=
        List.length_pos_of_mem (List.mem_of_getLast? htop)
      exact (h.flushIndexBlock hsteady (Nat.sub_lt hpos one_pos)).mono fun _ h' => h'.1

/-- After the last data block nothing more is asserted. -/
theorem SstBuilder.Took.finish (hsteady : Steady option.blockSize Ready)
    (h : self.Took Ready option entries) :
    Meets (Blames (Passes option entries)) (fun r => Passes option entries ∧ Ready r.2)
      self.finish := by
  rw [SstBuilder.finish]
  refine (h.flushDataBlock hsteady).bind ?_
  rintro self₁ ⟨hpasses, h₁, -⟩
  refine Meets.weaken ?_ (Blames.of_imp fun _ => trivial)
  refine (h₁.flushLevels hsteady _ (by simp)).bind fun self₂ h₂ => ?_
  refine (h₂.flushTop hsteady).bind fun self₃ h₃ => ?_
  exact (hsteady.writeFooter h₃.levels.1).bind fun _ hready => ⟨hpasses, hready⟩

/-- The assertions decide whether a file is built, as far as the writer does not fail. -/
theorem buildSst_asserts (hsteady : Steady option.blockSize Ready) {writer : ω}
    (hready : Ready writer) :
    Meets (Blames (Passes option entries)) (fun r => Passes option entries ∧ Ready r.2)
      (buildSst writer option entries) :=
  (((took_new hready).addAll hsteady entries).weaken (Blames.of_imp Passes.soFar)).bind
    fun _ h => h.finish hsteady

end Builder

/-! ## The checks made before adding -/

/-- A writer over blocks is steady when the blocks below it are written or refused, and keeps
what writing them keeps. -/
theorem steady_default {ω : Type} [BlockWriter ω] (blockSize : ℕ) (Keeps : ω → Prop)
    (hinner : ∀ (inner : ω) (data : Bytes), Keeps inner →
      Meets (Blames True) (fun r => Keeps r.2) (BlockWriter.writeBlock inner data)) :
    Steady blockSize fun writer : DefaultSstWriter ω =>
      writer.option.blockSize = blockSize ∧ Keeps writer.inner := by
  constructor
  · rintro writer data ⟨hsize, hkeeps⟩ hlength
    refine Meets.ite (fun _ => ?_) (fun hne => absurd (hlength.trans hsize.symm) hne)
    exact (hinner writer.inner data hkeeps).bind fun _ hkeeps => ⟨hsize, hkeeps⟩
  · rintro writer footer ⟨hsize, hkeeps⟩
    exact (hinner writer.inner footer.encode hkeeps).bind fun _ hkeeps => ⟨hsize, hkeeps⟩

/-- A file that cannot grow is an I/O error. -/
theorem FileBlockWriter.blames (inner : FileBlockWriter) (data : Bytes) :
    Meets (Blames True) (fun _ => True) (BlockWriter.writeBlock inner data) :=
  Meets.ite (fun _ => trivial) (fun _ hpanic => absurd hpanic (by simp))

/-- `would_exceed` on an empty block lets an entry of exactly the block size through, which the
assertion does not. -/
theorem entryFits_iff {option : SstOption} {e : Bytes × Entry Bytes}
    (hfits : (DataBlockBuilder.new option).wouldExceed e.1 e.2 = false) :
    EntryFits option e ↔
      blockFixedHeaderSize + DataBlockBuilder.entrySize e.1 e.2 ≠ option.blockSize := by
  have hle : blockFixedHeaderSize + DataBlockBuilder.entrySize e.1 e.2 ≤ option.blockSize := by
    simpa [DataBlockBuilder.wouldExceed, DataBlockBuilder.new] using hfits
  exact ⟨fun h => h.ne, fun h => lt_of_le_of_ne hle h⟩

/-- Where the checks agree: no entry has exactly the size of a block, and the last key of every
data block fits an index block. -/
structure ChecksAgree (option : SstOption) (entries : List (Bytes × Entry Bytes)) : Prop where
  entry : ∀ e ∈ entries,
    blockFixedHeaderSize + DataBlockBuilder.entrySize e.1 e.2 ≠ option.blockSize
  endKey : ∀ key ∈ blockEndKeys option entries,
    blockFixedHeaderSize + IndexBlockBuilder.entrySize key < option.blockSize

theorem passes_iff_checksAgree {option : SstOption} {entries : List (Bytes × Entry Bytes)}
    (hfits : ∀ e ∈ entries, (DataBlockBuilder.new option).wouldExceed e.1 e.2 = false) :
    Passes option entries ↔ ChecksAgree option entries := by
  constructor
  · intro h
    exact ⟨fun e he => (entryFits_iff (hfits e he)).mp (h.entry e he), h.endKey⟩
  · intro h
    exact ⟨fun e he => (entryFits_iff (hfits e he)).mpr (h.entry e he), h.endKey⟩

/-- Of entries that `would_exceed` lets into an empty block, a file is built exactly where the
checks agree; and where they agree no writer, failing or not, makes an assertion fire. -/
theorem builder_completes_iff {ω : Type} [SstWriter ω] {option : SstOption} {Ready : ω → Prop}
    (hsteady : Steady option.blockSize Ready) {writer : ω} (hready : Ready writer)
    {entries : List (Bytes × Entry Bytes)}
    (hfits : ∀ e ∈ entries, (DataBlockBuilder.new option).wouldExceed e.1 e.2 = false) :
    (ChecksAgree option entries → buildSst writer option entries ≠ .error .panic) ∧
      ((∀ fault, buildSst writer option entries = .error fault → fault = .panic) →
        ((∃ r, buildSst writer option entries = .ok r) ↔ ChecksAgree option entries)) := by
  have hasserts := @buildSst_asserts ω _ option Ready entries hsteady writer hready
  rw [← passes_iff_checksAgree hfits]
  refine ⟨fun h hpanic => ?_, fun hio => ⟨fun ⟨r, hr⟩ => ?_, fun h => ?_⟩⟩
  · rw [hpanic] at hasserts
    exact hasserts rfl h
  · rw [hr] at hasserts
    exact hasserts.1
  · obtain ⟨r, hr, -⟩ := hasserts.exists_ok
      fun fault hblames herror => hblames (hio fault herror) h
    exact ⟨r, hr⟩

/-- A file of blocks of 64 bytes. -/
def smallBlocks : DefaultSstWriter FileBlockWriter := ⟨FileBlockWriter.create 64, ⟨64⟩⟩

theorem builder_completes_small :
    ∃ r, buildSst smallBlocks ⟨64⟩ [([1], .put [7]), ([2], .delete)] = .ok r := by
  have hsteady : Steady 64 fun writer : DefaultSstWriter FileBlockWriter =>
      writer.option.blockSize = 64 ∧ True :=
    steady_default 64 (fun _ => True) fun inner data _ => FileBlockWriter.blames inner data
  have hok : (buildSst smallBlocks ⟨64⟩ [([1], .put [7]), ([2], .delete)]).toBool = true := by
    decide +kernel
  have hagree : ChecksAgree ⟨64⟩ [([1], .put [7]), ([2], .delete)] := ⟨by decide, by decide⟩
  refine ((builder_completes_iff hsteady ⟨rfl, trivial⟩ (by decide)).2 fun fault hfault => ?_).mpr hagree
  rw [hfault] at hok
  cases hok

/-- An entry of exactly 64 bytes, and a tombstone whose key only an index block refuses. -/
theorem builder_trips_at_boundary :
    (DataBlockBuilder.new ⟨64⟩).wouldExceed [1] (.put (List.replicate 41 0)) = false ∧
      buildSst smallBlocks ⟨64⟩ [([1], .put (List.replicate 41 0))] = .error .panic ∧
      (DataBlockBuilder.new ⟨64⟩).wouldExceed (List.replicate 35 1) .delete = false ∧
      buildSst smallBlocks ⟨64⟩ [(List.replicate 35 1, .delete)] = .error .panic :=
  ⟨by decide, rfl, by decide, rfl⟩

end Todb

import Todb.Verification.Sst.Building

/-! # The builder never trips an assertion

Keys and values that are small against the block size pass every assertion of the builder,
so building a file fails only where the writer does. The blocks written are at most three
for every entry, and five. -/

namespace Todb

open Library

/-- A writer with room for `k` more blocks takes one and has room for one less. -/
structure Accepts {ω : Type} [SstWriter ω] (admits : Fault → Prop) (blockSize : ℕ)
    (Room : ℕ → ω → Prop) : Prop where
  writeBlock : ∀ {writer data k}, Room (k + 1) writer → data.length = blockSize →
    Meets admits (fun r => Room k r.2) (SstWriter.writeBlock writer data)
  writeFooter : ∀ {writer footer k}, Room (k + 1) writer → footer.encode.length ≤ blockSize →
    Meets admits (fun r => Room k r.2) (SstWriter.writeFooter writer footer)
  mono : ∀ {writer k k'}, Room k' writer → k ≤ k' → Room k writer

/-- Keys of at most `n` bytes: two of them fit an index block, and a footer fits a block. -/
def NarrowKeys (option : SstOption) (n : ℕ) : Prop := 46 + 2 * n ≤ option.blockSize

namespace IndexBlockBuilder

variable {option : SstOption} {n : ℕ} {builder : IndexBlockBuilder}

/-- The builder holds keys of at most `n` bytes. -/
structure Narrow (builder : IndexBlockBuilder) (option : SstOption) (n : ℕ) : Prop where
  option_eq : builder.option = option
  keys_le : ∀ e ∈ builder.entries, e.endKey.length ≤ n
  size_le : builder.estimatedSize ≤ builder.entryCount * (n + 17)

theorem narrow_new : (new option).Narrow option n := ⟨rfl, by simp [new], by simp [new]⟩

theorem Narrow.finish (h : builder.Narrow option n) : builder.finish.2.Narrow option n := by
  rw [IndexBlockBuilder.finish, h.option_eq]
  exact narrow_new

theorem Narrow.lastKey_le (h : builder.Narrow option n) :
    ((builder.lastEntry.map IndexEntry.endKey).getD []).length ≤ n := by
  cases hlast : builder.lastEntry with
  | none => simp
  | some e => exact h.keys_le e (List.mem_of_getLast? hlast)

theorem Narrow.add {admits : Fault → Prop} (h : builder.Narrow option n)
    (hoption : NarrowKeys option n) {key : Bytes} (hkey : key.length ≤ n) (position : Position) :
    Meets admits (fun builder' => builder'.Narrow option n ∧
      builder'.entryCount = builder.entryCount + 1) (builder.add key position) := by
  have hfits : blockFixedHeaderSize + entrySize key < builder.option.blockSize := by
    simp only [h.option_eq, blockFixedHeaderSize, entrySize, NarrowKeys] at hoption ⊢
    omega
  rw [IndexBlockBuilder.add, if_pos hfits]
  refine ⟨⟨h.option_eq, ?_, ?_⟩, by simp [entryCount]⟩
  · intro e he
    rcases List.mem_append.mp he with he | he
    · exact h.keys_le e he
    · rw [List.mem_singleton.mp he]
      exact hkey
  · have hsize := h.size_le
    simp only [entryCount, entrySize, List.length_append, List.length_singleton,
      Nat.add_mul] at hsize ⊢
    omega

/-- A block without space for one more key holds two. -/
theorem Narrow.two_le (h : builder.Narrow option n) (hoption : NarrowKeys option n) {key : Bytes}
    (hkey : key.length ≤ n) (hfull : builder.wouldExceed key = true) : 2 ≤ builder.entryCount := by
  by_contra hlt
  have hle : builder.entryCount * (n + 17) ≤ 1 * (n + 17) :=
    Nat.mul_le_mul_right _ (by omega)
  have hsize := h.size_le
  simp only [wouldExceed, h.option_eq, blockFixedHeaderSize, entrySize, decide_eq_true_eq,
    NarrowKeys] at hfull hoption
  omega

end IndexBlockBuilder

section Levels

variable {ω : Type} [SstWriter ω] {admits : Fault → Prop} {option : SstOption} {n k : ℕ}
  {Room : ℕ → ω → Prop}

/-- The entries that wait in the index builders. -/
def waiting (builders : List IndexBlockBuilder) : ℕ :=
  (builders.map IndexBlockBuilder.entryCount).sum

@[simp] theorem waiting_nil : waiting [] = 0 := rfl

@[simp] theorem waiting_cons (builder : IndexBlockBuilder) (builders : List IndexBlockBuilder) :
    waiting (builder :: builders) = builder.entryCount + waiting builders := rfl

@[simp] theorem waiting_append (builders more : List IndexBlockBuilder) :
    waiting (builders ++ more) = waiting builders + waiting more := by
  simp [waiting]

/-- Room for `k` blocks besides one for every waiting entry. -/
structure LevelsOk (Room : ℕ → ω → Prop) (option : SstOption) (n k : ℕ) (writer : ω)
    (builders : List IndexBlockBuilder) : Prop where
  narrow : ∀ builder ∈ builders, builder.Narrow option n
  room : Room (k + waiting builders) writer

/-- What `add_index_entry` on the given levels does: it may add a level. -/
def TakesEntry (admits : Fault → Prop) (Room : ℕ → ω → Prop) (option : SstOption) (n k : ℕ)
    (builders : List IndexBlockBuilder) (x : Outcome (ω × List IndexBlockBuilder)) : Prop :=
  Meets admits (fun r => LevelsOk Room option n k r.1 r.2 ∧
    builders.length ≤ r.2.length ∧ r.2.length ≤ builders.length + 1) x

/-- Flushing a level of `m` entries takes a block, and leaves one entry above. -/
theorem flushLevel_meets (haccepts : Accepts admits option.blockSize Room)
    {builder : IndexBlockBuilder} {above : List IndexBlockBuilder} {writer : ω}
    (add : ω → Bytes → Position → Outcome (ω × List IndexBlockBuilder))
    (hne : builder.isEmpty = false) (hnarrow : builder.Narrow option n)
    (hroom : Room (k + 2 + waiting above) writer)
    (hadd : ∀ writer key position, key.length ≤ n → Room (k + 1 + waiting above) writer →
      TakesEntry admits Room option n k above (add writer key position)) :
    Meets admits (fun r => r.2.1.Narrow option n ∧ r.2.1.entryCount = 0 ∧
      LevelsOk Room option n k r.1 r.2.2 ∧
      above.length ≤ r.2.2.length ∧ r.2.2.length ≤ above.length + 1)
      (flushLevel add writer builder above) := by
  have hlength : builder.finish.1.length = option.blockSize := by
    rw [← hnarrow.option_eq]
    exact length_finishBlock _ _
  rw [flushLevel, if_neg (by simp [hne])]
  refine (haccepts.writeBlock (k := k + 1 + waiting above)
    (haccepts.mono hroom (by omega)) hlength).bind ?_
  intro r hr
  refine (hadd r.2 _ r.1 hnarrow.lastKey_le hr).bind ?_
  rintro ⟨writer', above'⟩ ⟨hlevels, hge, hle⟩
  exact ⟨hnarrow.finish, rfl, hlevels, hge, hle⟩

theorem addToLevels_meets (haccepts : Accepts admits option.blockSize Room)
    (hoption : NarrowKeys option n) (builders : List IndexBlockBuilder) :
    ∀ {k : ℕ} {writer : ω} {key : Bytes} {position : Position},
      (∀ builder ∈ builders, builder.Narrow option n) → key.length ≤ n →
      Room (k + 1 + waiting builders) writer →
      TakesEntry admits Room option n k builders
        (addToLevels option builders writer key position) := by
  induction builders with
  | nil =>
      intro k writer key position _ hkey hroom
      rw [addToLevels]
      refine (IndexBlockBuilder.narrow_new.add hoption hkey position).bind ?_
      rintro builder ⟨hnarrow, hcount⟩
      refine ⟨⟨by simpa using hnarrow, ?_⟩, by simp⟩
      have hone : builder.entryCount = 1 := hcount
      simpa [hone] using hroom
  | cons builder above ih =>
      intro k writer key position hnarrow hkey hroom
      obtain ⟨hbuilder, habove⟩ := List.forall_mem_cons.mp hnarrow
      rw [addToLevels_cons]
      -- After the flush, if there is one, the level has space for the key.
      have hspace : Meets admits (fun r : ω × IndexBlockBuilder × List IndexBlockBuilder =>
          r.2.1.Narrow option n ∧ LevelsOk Room option n (k + 1 + r.2.1.entryCount) r.1 r.2.2 ∧
          above.length ≤ r.2.2.length ∧ r.2.2.length ≤ above.length + 1)
          (if builder.wouldExceed key then
            flushLevel (fun writer => addToLevels option above writer) writer builder above
          else .ok (writer, builder, above)) := by
        refine Meets.ite (fun hfull => ?_) (fun _ => ?_)
        · have htwo := hbuilder.two_le hoption hkey hfull
          have hne : builder.isEmpty = false := by
            rw [IndexBlockBuilder.isEmpty, List.isEmpty_eq_false_iff]
            intro hnil
            simp [IndexBlockBuilder.entryCount, hnil] at htwo
          rw [waiting_cons] at hroom
          have hflush := flushLevel_meets (k := k + 1) haccepts
            (fun writer => addToLevels option above writer) hne hbuilder
            (haccepts.mono hroom (by omega))
            (fun writer key position hkey hroom => ih habove hkey hroom)
          refine hflush.mono ?_
          rintro ⟨writer', builder', above'⟩ ⟨hnarrow', hcount, hlevels, hlength⟩
          exact ⟨hnarrow', by simpa [hcount] using hlevels, hlength⟩
        · refine ⟨hbuilder, ⟨habove, ?_⟩, le_rfl, Nat.le_succ _⟩
          rw [waiting_cons, ← Nat.add_assoc] at hroom
          exact hroom
      refine hspace.bind ?_
      rintro ⟨writer', builder', above'⟩ ⟨hnarrow', hlevels, hge, hle⟩
      refine (hnarrow'.add hoption hkey position).bind ?_
      rintro builder'' ⟨hnarrow'', hcount⟩
      refine ⟨⟨List.forall_mem_cons.mpr ⟨hnarrow'', hlevels.narrow⟩, ?_⟩, ?_⟩
      · refine haccepts.mono hlevels.room ?_
        simp only [waiting_cons] at hcount ⊢
        omega
      · simp only [List.length_cons] at hge hle ⊢
        omega

end Levels

/-! ## The whole builder -/

section Builder

variable {ω : Type} [SstWriter ω] {admits : Fault → Prop} {option : SstOption} {n k d : ℕ}
  {Room : ℕ → ω → Prop} {self : SstBuilder ω}

/-- An entry that a data block can hold, with a key of at most `n` bytes. -/
def NarrowEntry (option : SstOption) (n : ℕ) (e : Bytes × Entry Bytes) : Prop :=
  e.1.length ≤ n ∧ blockFixedHeaderSize + DataBlockBuilder.entrySize e.1 e.2 < option.blockSize

/-- Room for `k` blocks besides the waiting entries, and at most `d` index levels. -/
structure BuilderOk (Room : ℕ → ω → Prop) (option : SstOption) (n k d : ℕ)
    (builder : SstBuilder ω) : Prop where
  levels : LevelsOk Room option n k builder.writer builder.indexBuilders
  height_le : builder.indexBuilders.length ≤ d
  option_eq : builder.option = option
  dataOption_eq : builder.dataBuilder.option = option
  data_narrow : ∀ e ∈ builder.dataBuilder.entries, e.1.length ≤ n
  firstKey_le : ∀ key ∈ builder.firstKey, key.length ≤ n
  lastKey_le : ∀ key ∈ builder.lastKey, key.length ≤ n

/-- Less room, and more levels allowed. -/
theorem BuilderOk.mono (haccepts : Accepts admits option.blockSize Room) {k' d' : ℕ}
    (h : BuilderOk Room option n k' d self) (hk : k ≤ k') (hd : d ≤ d') :
    BuilderOk Room option n k d' self :=
  { h with
    levels := ⟨h.levels.narrow, haccepts.mono h.levels.room (by omega)⟩
    height_le := h.height_le.trans hd }

theorem BuilderOk.flushDataBlock (haccepts : Accepts admits option.blockSize Room)
    (hoption : NarrowKeys option n) (h : BuilderOk Room option n (k + 2) d self) :
    Meets admits (BuilderOk Room option n k (d + 1)) self.flushDataBlock := by
  rw [SstBuilder.flushDataBlock]
  refine Meets.ite (fun _ => ?_) (fun _ => ?_)
  · exact h.mono haccepts (Nat.le_add_right k 2) (Nat.le_succ d)
  · have hlength : self.dataBuilder.finish.1.length = option.blockSize := by
      rw [← h.dataOption_eq]
      exact length_finishBlock _ _
    have hlast : (self.dataBuilder.lastKey.getD []).length ≤ n := by
      rw [DataBlockBuilder.lastKey]
      cases hlast : self.dataBuilder.entries.getLast? with
      | none => simp
      | some e => exact h.data_narrow e (List.mem_of_getLast? hlast)
    have hroom : Room (k + 1 + waiting self.indexBuilders + 1) self.writer :=
      haccepts.mono h.levels.room (by omega)
    refine (haccepts.writeBlock hroom hlength).bind ?_
    rintro ⟨handle, writer⟩ hroom'
    simp only [SstBuilder.addIndexEntry, List.drop_zero, List.take_zero, List.nil_append,
      h.option_eq]
    refine (addToLevels_meets haccepts hoption self.indexBuilders h.levels.narrow hlast hroom').bind ?_
    rintro ⟨writer', builders⟩ ⟨hlevels, -, hle⟩
    exact
      { levels := hlevels
        height_le := hle.trans (Nat.succ_le_succ h.height_le)
        option_eq := rfl
        dataOption_eq := h.dataOption_eq
        data_narrow := by simp [DataBlockBuilder.new]
        firstKey_le := h.firstKey_le
        lastKey_le := h.lastKey_le }

omit [SstWriter ω] in
theorem BuilderOk.recordKey (h : BuilderOk Room option n k d self) {key : Bytes}
    (hkey : key.length ≤ n) : BuilderOk Room option n k d (self.recordKey key) := by
  refine { h with firstKey_le := ?_, lastKey_le := ?_ }
  · intro key' hfirst
    have hfirst : self.firstKey.or (some key) = some key' := hfirst
    cases hself : self.firstKey with
    | none =>
        rw [hself] at hfirst
        cases hfirst
        exact hkey
    | some key'' =>
        rw [hself] at hfirst
        cases hfirst
        exact h.firstKey_le _ hself
  · rintro key' hlast
    cases hlast
    exact hkey

theorem BuilderOk.add (haccepts : Accepts admits option.blockSize Room)
    (hoption : NarrowKeys option n) (h : BuilderOk Room option n (k + 2) d self)
    {e : Bytes × Entry Bytes} (he : NarrowEntry option n e) :
    Meets admits (BuilderOk Room option n k (d + 1)) (self.add e.1 e.2) := by
  have hrecord := h.recordKey he.1
  have hflush : Meets admits (BuilderOk Room option n k (d + 1))
      (if (self.recordKey e.1).dataBuilder.wouldExceed e.1 e.2 then
        (self.recordKey e.1).flushDataBlock else .ok (self.recordKey e.1)) := by
    refine Meets.ite (fun _ => hrecord.flushDataBlock haccepts hoption) (fun _ => ?_)
    exact hrecord.mono haccepts (Nat.le_add_right k 2) (Nat.le_succ d)
  rw [add_eq]
  refine hflush.bind ?_
  intro self' h'
  rw [DataBlockBuilder.add, if_pos (by rw [h'.dataOption_eq]; exact he.2)]
  refine { h' with dataOption_eq := h'.dataOption_eq, data_narrow := ?_ }
  intro e' he'
  rcases List.mem_append.mp he' with he' | he'
  · exact h'.data_narrow e' he'
  · rw [List.mem_singleton.mp he']
    exact he.1

theorem BuilderOk.addAll (haccepts : Accepts admits option.blockSize Room)
    (hoption : NarrowKeys option n) (entries : List (Bytes × Entry Bytes)) :
    ∀ {k d : ℕ} {self : SstBuilder ω}, BuilderOk Room option n (k + 2 * entries.length) d self →
      (∀ e ∈ entries, NarrowEntry option n e) →
      Meets admits (BuilderOk Room option n k (d + entries.length))
        (SstBuilder.addAll entries self) := by
  induction entries with
  | nil =>
      intro k d self h _
      exact h
  | cons e entries ih =>
      intro k d self h hentries
      obtain ⟨he, hrest⟩ := List.forall_mem_cons.mp hentries
      rw [List.length_cons, show k + 2 * (entries.length + 1) = k + 2 * entries.length + 2 by ring]
        at h
      refine (h.add haccepts hoption he).bind fun self' h' => ?_
      rw [List.length_cons, show d + (entries.length + 1) = d + 1 + entries.length by ring]
      exact ih h' hrest

/-- Flushing one index level takes a block at most. -/
theorem BuilderOk.flushIndexBlock (haccepts : Accepts admits option.blockSize Room)
    (hoption : NarrowKeys option n) (h : BuilderOk Room option n (k + 1) d self) {level : ℕ}
    (hlevel : level < self.indexBuilders.length) :
    Meets admits (fun self' => BuilderOk Room option n k (d + 1) self' ∧
        self.indexBuilders.length ≤ self'.indexBuilders.length) (self.flushIndexBlock level) := by
  obtain rfl := h.option_eq
  obtain ⟨builder, above, hdrop⟩ : ∃ builder above,
      self.indexBuilders.drop level = builder :: above :=
    List.exists_cons_of_ne_nil (by simp; omega)
  have hsplit : self.indexBuilders.take level ++ builder :: above = self.indexBuilders := by
    rw [← hdrop, List.take_append_drop]
  have hnarrow := h.levels.narrow
  rw [← hsplit] at hnarrow
  obtain ⟨hbelow, hbuilder, habove⟩ :
      (∀ b ∈ self.indexBuilders.take level, b.Narrow self.option n) ∧
        builder.Narrow self.option n ∧ ∀ b ∈ above, b.Narrow self.option n := by
    obtain ⟨hbelow, hrest⟩ := List.forall_mem_append.mp hnarrow
    exact ⟨hbelow, List.forall_mem_cons.mp hrest⟩
  have hlength : self.indexBuilders.length = level + (above.length + 1) := by
    rw [← hsplit]
    simp
    omega
  have hroom := h.levels.room
  rw [← hsplit, waiting_append, waiting_cons] at hroom
  rw [SstBuilder.flushIndexBlock, hdrop]
  simp only
  by_cases hempty : builder.isEmpty = true
  · rw [flushLevel, if_pos hempty]
    simp only [pure, Except.pure, bind, Except.bind, meets_ok, hsplit]
    exact ⟨h.mono haccepts (Nat.le_add_right k 1) (Nat.le_succ d), le_rfl⟩
  · have hne : builder.isEmpty = false := by simpa using hempty
    have hone : 1 ≤ builder.entryCount := by
      rw [IndexBlockBuilder.isEmpty, List.isEmpty_eq_false_iff] at hne
      exact List.length_pos_iff.mpr hne
    refine (flushLevel_meets haccepts (k := k + waiting (self.indexBuilders.take level)) _ hne
      hbuilder (haccepts.mono hroom (by omega))
      (fun writer key position hkey hroom =>
        addToLevels_meets haccepts hoption above habove hkey hroom)).bind ?_
    rintro ⟨writer, builder', above'⟩ ⟨hnarrow', hcount, hlevels, hge, hle⟩
    have hheight := h.height_le
    refine ⟨{ h with levels := ⟨?_, ?_⟩, height_le := ?_ }, ?_⟩
    · exact List.forall_mem_append.mpr ⟨hbelow, List.forall_mem_cons.mpr ⟨hnarrow', hlevels.narrow⟩⟩
    · refine haccepts.mono hlevels.room ?_
      simp only [waiting_append, waiting_cons] at hcount ⊢
      omega
    · simp only [List.length_append, List.length_take, List.length_cons] at hge hle ⊢
      omega
    · simp only [List.length_append, List.length_take, List.length_cons] at hge hle ⊢
      omega

theorem BuilderOk.flushLevels (haccepts : Accepts admits option.blockSize Room)
    (hoption : NarrowKeys option n) (levels : List ℕ) :
    ∀ {k d : ℕ} {self : SstBuilder ω}, BuilderOk Room option n (k + levels.length) d self →
      (∀ level ∈ levels, level < self.indexBuilders.length) →
      Meets admits (BuilderOk Room option n k (d + levels.length))
        (SstBuilder.flushLevels levels self) := by
  induction levels with
  | nil =>
      intro k d self h _
      exact h
  | cons level levels ih =>
      intro k d self h hlevels
      obtain ⟨hlevel, hrest⟩ := List.forall_mem_cons.mp hlevels
      rw [List.length_cons, ← Nat.add_assoc] at h
      rw [SstBuilder.flushLevels, index_of_lt hlevel, List.length_cons,
        show d + (levels.length + 1) = d + 1 + levels.length by ring]
      refine Meets.ite (fun _ => ?_) (fun _ => ?_)
      · exact ih (h.mono haccepts (Nat.le_succ _) (Nat.le_succ d)) hrest
      · refine (h.flushIndexBlock haccepts hoption hlevel).bind ?_
        rintro self' ⟨h', hge⟩
        exact ih h' fun level hmem => (hrest level hmem).trans_le hge

theorem BuilderOk.flushTop (haccepts : Accepts admits option.blockSize Room)
    (hoption : NarrowKeys option n) (h : BuilderOk Room option n (k + 1) d self) :
    Meets admits (BuilderOk Room option n k (d + 1)) self.flushTop := by
  rw [SstBuilder.flushTop]
  cases htop : self.indexBuilders.getLast? with
  | none => exact h.mono haccepts (Nat.le_succ k) (Nat.le_succ d)
  | some top =>
      refine Meets.ite (fun _ => ?_) (fun _ => h.mono haccepts (Nat.le_succ k) (Nat.le_succ d))
      have hpos : 0 < self.indexBuilders.length :=
        List.length_pos_of_mem (List.mem_of_getLast? htop)
      exact (h.flushIndexBlock haccepts hoption (Nat.sub_lt hpos one_pos)).mono fun _ h' => h'.1

omit [SstWriter ω] in
theorem BuilderOk.footer_le (hoption : NarrowKeys option n) (h : BuilderOk Room option n k d self) :
    self.footer.encode.length ≤ option.blockSize := by
  have hfirst : (self.firstKey.getD []).length ≤ n := by
    cases hkey : self.firstKey with
    | none => simp
    | some key => exact h.firstKey_le key hkey
  have hlast : (self.lastKey.getD []).length ≤ n := by
    cases hkey : self.lastKey with
    | none => simp
    | some key => exact h.lastKey_le key hkey
  simp only [NarrowKeys] at hoption
  simp only [SstFooter.encode, SstBuilder.footer, List.length_append, length_beBytes]
  omega

theorem BuilderOk.finish (haccepts : Accepts admits option.blockSize Room)
    (hoption : NarrowKeys option n) (h : BuilderOk Room option n (k + d + 5) d self) :
    Meets admits (fun r => Room k r.2) self.finish := by
  rw [SstBuilder.finish]
  refine (BuilderOk.flushDataBlock (k := k + d + 3) haccepts hoption h).bind fun self₁ h₁ => ?_
  have h₁' : BuilderOk Room option n (k + 2 + (List.range self₁.indexBuilders.length).length)
      (d + 1) self₁ := by
    refine h₁.mono haccepts ?_ le_rfl
    have := h₁.height_le
    rw [List.length_range]
    omega
  refine (h₁'.flushLevels haccepts hoption _ (by simp)).bind fun self₂ h₂ => ?_
  refine (h₂.flushTop haccepts hoption).bind fun self₃ h₃ => ?_
  have hroom : Room (k + 1) self₃.writer := haccepts.mono h₃.levels.room (Nat.le_add_right _ _)
  exact (haccepts.writeFooter hroom (h₃.footer_le hoption)).bind fun r hr => hr

/-- Three blocks for every entry and five more are enough room for the file. -/
theorem buildSst_meets (haccepts : Accepts admits option.blockSize Room)
    (hoption : NarrowKeys option n) {entries : List (Bytes × Entry Bytes)} {writer : ω}
    (hentries : ∀ e ∈ entries, NarrowEntry option n e)
    (hroom : Room (k + 3 * entries.length + 5) writer) :
    Meets admits (fun r => Room k r.2) (buildSst writer option entries) := by
  have hnew : BuilderOk Room option n (k + entries.length + 5 + 2 * entries.length) 0
      (SstBuilder.new writer option) :=
    { levels := ⟨by simp [SstBuilder.new], haccepts.mono hroom (by simp [SstBuilder.new]; omega)⟩
      height_le := le_rfl
      option_eq := rfl
      dataOption_eq := rfl
      data_narrow := by simp [SstBuilder.new, DataBlockBuilder.new]
      firstKey_le := by simp [SstBuilder.new]
      lastKey_le := by simp [SstBuilder.new] }
  refine (hnew.addAll haccepts hoption entries hentries).bind fun self h => ?_
  rw [Nat.zero_add] at h
  exact h.finish haccepts hoption

end Builder

end Todb

import Todb.Verification.Sst.Building

/-! # The block format

Entries added to a block builder one by one, as long as they fit, are read back from the
finished block, which the padding fills up to the block size. -/

namespace Todb

open Library Direction

/-! ## Reading a block from one end to the other -/

namespace DataEntryDecodeIter

theorem stepping_at (es : List (Bytes × Entry Bytes)) :
    Cursor.Stepping fun d (dc : DataEntryDecodeIter NormalBlockIter) l =>
      ∃ p, dc.At es p ∧ l = d.rest es p where
  read := by
    rintro d dc l ⟨p, hat, rfl⟩
    have hhead := head?_rest d es hat.inside
    refine ⟨?_, ?_, ?_⟩
    · rw [hat.valid_eq, ← isSome_entryAt hat.inside, ← hhead]
      cases d.rest es p <;> rfl
    · rw [hat.key_eq, hhead]
    · rw [hat.value_eq, hhead]
  next := by
    rintro d dc l ⟨p, hat, rfl⟩
    obtain ⟨dc', hnext, hat'⟩ := hat.next d
    exact ⟨dc', hnext, _, hat', (rest_step d es hat.inside).symm⟩

end DataEntryDecodeIter

theorem DataBlock.yields {block : Bytes} {es : List (Bytes × Entry Bytes)} (h : DataBlock block es)
    (d : Direction) :
    ∃ it dc, NormalBlockIter.new block = .ok it ∧
      Cursor.seekToFirst d (DataEntryDecodeIter.new it) = .ok dc ∧
      Cursor.Yields d dc (d.order es) := by
  obtain ⟨it, dc, hnew, hseek, hat⟩ := h.load_first d
  exact ⟨it, dc, hnew, hseek,
    (DataEntryDecodeIter.stepping_at es).yields ⟨_, hat, (rest_first d es).symm⟩⟩

/-- A position is eight big-endian bytes. -/
theorem Position.ofBytes_eq_ok {bytes : Bytes} {child : Position} :
    Position.ofBytes bytes = .ok child ↔ bytes = beBytes 8 child.offset.toNat := by
  constructor
  · intro h
    rw [Position.ofBytes] at h
    split at h
    · rename_i hlength
      obtain rfl := Except.ok.inj h
      have hlt : ofBe bytes < 2 ^ 64 := by
        have hof := ofBe_lt bytes
        rw [hlength] at hof
        norm_num at hof ⊢
        exact hof
      rw [UInt64.toNat_ofNat_of_lt' hlt, beBytes_ofBe hlength]
    · cases h
  · rintro rfl
    have hof : ofBe (beBytes 8 child.offset.toNat) = child.offset.toNat :=
      ofBe_beBytes_of_lt (by simpa using child.offset.toNat_lt)
    simp [Position.ofBytes, hof]

namespace IndexEntryDecodeIter

/-- What an index cursor shows of a child: its end key and the bytes of its position. -/
def shown (children : List (Bytes × Position)) : List (Bytes × Bytes) :=
  children.map fun c => (c.1, beBytes 8 c.2.offset.toNat)

theorem stepping_at (children : List (Bytes × Position)) :
    Cursor.Stepping fun d (ic : IndexEntryDecodeIter NormalBlockIter) l =>
      ∃ p, ic.At children p ∧ l = d.rest (shown children) p where
  read := by
    rintro d ic l ⟨p, hat, rfl⟩
    have hinside : Inside (shown children).length p := by
      simpa [shown] using hat.inside
    have hhead := head?_rest d (shown children) hinside
    refine ⟨?_, ?_, ?_⟩
    · rw [hat.valid_eq, ← isSome_entryAt hinside, ← hhead]
      cases d.rest (shown children) p <;> rfl
    · rw [hat.key_eq, hhead]
      cases p <;> simp [shown, Function.comp_def]
    · rw [hhead]
      cases p with
      | none =>
          have hvalid : Cursor.valid ic.input = false := hat.valid_eq
          change IndexEntryDecodeIter.value ic = _
          simp [value, hvalid]
      | some i =>
          have hi := hat.inside i rfl
          obtain ⟨bytes, hvalue, hbytes⟩ := hat.value_eq hi
          rw [hvalue, Position.ofBytes_eq_ok.mp hbytes]
          simp [shown, hi]
  next := by
    rintro d ic l ⟨p, hat, rfl⟩
    obtain ⟨ic', hnext, hat'⟩ := hat.next d
    have hinside : Inside (shown children).length p := by
      simpa [shown] using hat.inside
    refine ⟨ic', hnext, _, hat', ?_⟩
    rw [← rest_step d (shown children) hinside]
    simp [shown]

end IndexEntryDecodeIter

theorem IndexBlock.yields {block : Bytes} {children : List (Bytes × Position)}
    (h : IndexBlock block children) (d : Direction) :
    ∃ it ic, NormalBlockIter.new block = .ok it ∧
      Cursor.seekToFirst d (IndexEntryDecodeIter.new it) = .ok ic ∧
      Cursor.Yields d ic (d.order (IndexEntryDecodeIter.shown children)) := by
  obtain ⟨it, ic, hnew, hseek, hat⟩ := h.load_first d
  refine ⟨it, ic, hnew, hseek,
    (IndexEntryDecodeIter.stepping_at children).yields ⟨_, hat, ?_⟩⟩
  rw [← rest_first d (IndexEntryDecodeIter.shown children)]
  simp [IndexEntryDecodeIter.shown]

/-! ## Adding one by one -/

/-- The entries are added one after the other; each fits, and no assertion fires. -/
def DataBlockBuilder.Takes : DataBlockBuilder → List (Bytes × Entry Bytes) → DataBlockBuilder → Prop
  | builder, [], builder' => builder' = builder
  | builder, (key, entry) :: es, builder' =>
      builder.wouldExceed key entry = false ∧
        ∃ next, builder.add key entry = .ok next ∧ next.Takes es builder'

/-- The children are added one after the other; each fits, and no assertion fires. -/
def IndexBlockBuilder.Takes :
    IndexBlockBuilder → List (Bytes × Position) → IndexBlockBuilder → Prop
  | builder, [], builder' => builder' = builder
  | builder, (key, child) :: children, builder' =>
      builder.wouldExceed key = false ∧
        ∃ next, builder.add key child = .ok next ∧ next.Takes children builder'

section Takes

variable {option : SstOption}

theorem DataBlockBuilder.Fills.takes {builder builder' : DataBlockBuilder}
    {es es' : List (Bytes × Entry Bytes)} (h : builder.Fills option es)
    (htakes : builder.Takes es' builder') : builder'.Fills option (es ++ es') := by
  induction es' generalizing builder es with
  | nil =>
      obtain rfl := htakes
      simpa using h
  | cons e es' ih =>
      obtain ⟨hfits, next, hadd, hrest⟩ := htakes
      rw [DataBlockBuilder.wouldExceed_eq h] at hfits
      simpa using ih (h.add (.inr hfits) hadd) hrest

theorem IndexBlockBuilder.Fills.takes {builder builder' : IndexBlockBuilder} {keys : List Bytes}
    {children : List (Bytes × Position)} (h : builder.Fills option keys)
    (htakes : builder.Takes children builder') :
    builder'.Fills option (keys ++ children.map Prod.fst) ∧
      builder'.children = builder.children ++ children := by
  induction children generalizing builder keys with
  | nil =>
      obtain rfl := htakes
      simpa using h
  | cons c children ih =>
      obtain ⟨hfits, next, hadd, hrest⟩ := htakes
      rw [IndexBlockBuilder.wouldExceed_eq h] at hfits
      obtain ⟨hnext, hchildren⟩ := h.add hfits hadd
      obtain ⟨hfills, hall⟩ := ih hnext hrest
      exact ⟨by simpa using hfills, by simpa [hchildren] using hall⟩

end Takes

/-! ## The round trip -/

/-- What is required of a finished block: it has the block size, the layout of its cells takes
`12 + estimatedSize` bytes of it, and the rest is padding. -/
def Padded (option : SstOption) (estimatedSize : ℕ) (cells : List (Bytes × Bytes))
    (block : Bytes) : Prop :=
  block.length = option.blockSize ∧ (blockBody cells).length = 12 + estimatedSize ∧
    ∃ pad, block = blockBody cells ++ List.replicate pad 0

theorem padded_finishBlock {option : SstOption} {estimatedSize : ℕ} {cells : List (Bytes × Bytes)}
    (hlength : (blockBody cells).length = blockFixedHeaderSize + estimatedSize)
    (hfits : blockFixedHeaderSize + estimatedSize ≤ option.blockSize) :
    Padded option estimatedSize cells (finishBlock option.blockSize cells) :=
  ⟨length_finishBlock _ _, hlength, _, finishBlock_eq (hlength ▸ hfits)⟩

/-- With a block size below 2^32, a block of entries that were added one by one has the block
size, its layout is not truncated, and the entries are read back from it in either direction;
and so for a block of children, also for one without any if the header fits. -/
theorem block_format (option : SstOption) (hsize : option.blockSize < 2 ^ 32) :
    (∀ (es : List (Bytes × Entry Bytes)) (builder : DataBlockBuilder), es ≠ [] →
      (DataBlockBuilder.new option).Takes es builder →
      Padded option builder.estimatedSize (builder.entries.map fun e => (e.1, encodeEntry e.2))
          builder.finish.1 ∧
        ∀ d, ∃ it dc, NormalBlockIter.new builder.finish.1 = .ok it ∧
          Cursor.seekToFirst d (DataEntryDecodeIter.new it) = .ok dc ∧
          Cursor.Yields d dc (d.order es)) ∧
    ∀ (children : List (Bytes × Position)) (builder : IndexBlockBuilder),
      (children ≠ [] ∨ blockFixedHeaderSize ≤ option.blockSize) →
      (IndexBlockBuilder.new option).Takes children builder →
      Padded option builder.estimatedSize
          (builder.entries.map fun e => (e.endKey, encodeChild e.child)) builder.finish.1 ∧
        (∀ d, ∃ it ic, NormalBlockIter.new builder.finish.1 = .ok it ∧
          Cursor.seekToFirst d (IndexEntryDecodeIter.new it) = .ok ic ∧
          Cursor.Yields d ic (d.order (IndexEntryDecodeIter.shown children))) ∧
        ∀ c ∈ children, Position.ofBytes (beBytes 8 c.2.offset.toNat) = .ok c.2 := by
  constructor
  · intro es builder hne htakes
    have hfills := (DataBlockBuilder.fills_new option).takes htakes
    rw [List.nil_append] at hfills
    refine ⟨?_, (hfills.dataBlock hne (SmallBlocks.short (.inl hsize))).yields⟩
    rw [DataBlockBuilder.finish, hfills.option_eq, hfills.entries_eq, hfills.size_eq]
    exact padded_finishBlock (DataBlockBuilder.length_blockBody_entries es) (hfills.fits hne)
  · intro children builder hsome htakes
    have hroom : blockFixedHeaderSize ≤ option.blockSize := by
      refine hsome.elim (fun hne => ?_) id
      obtain ⟨⟨key, child⟩, rest, rfl⟩ := List.exists_cons_of_ne_nil hne
      have hfits : (IndexBlockBuilder.new option).wouldExceed key = false := htakes.1
      have hle := of_decide_eq_false hfits
      simp only [IndexBlockBuilder.new] at hle
      omega
    obtain ⟨hfills, hchildren⟩ := (IndexBlockBuilder.fills_new option hroom).takes htakes
    have hall : builder.children = children := hchildren
    rw [List.nil_append] at hfills
    refine ⟨?_, ?_, fun c _ => Position.ofBytes_eq_ok.mpr rfl⟩
    · rw [IndexBlockBuilder.finish, hfills.option_eq, hfills.size_eq]
      exact padded_finishBlock hfills.length_blockBody_children hfills.fits
    · rw [← hall]
      exact (hfills.indexBlock fun _ _ hfits => hfits.trans_lt hsize).yields

/-- A put and a tombstone in a block of 64 bytes, and two children in one of 128. -/
theorem block_format_two :
    (∃ builder, (DataBlockBuilder.new ⟨64⟩).Takes [([1], .put [7]), ([], .delete)] builder ∧
      builder.finish.1.length = 64 ∧
      ∃ it dc, NormalBlockIter.new builder.finish.1 = .ok it ∧
        Cursor.seekToFirst .forward (DataEntryDecodeIter.new it) = .ok dc ∧
        Cursor.Yields .forward dc [([1], .put [7]), ([], .delete)]) ∧
    ∃ builder, (IndexBlockBuilder.new ⟨128⟩).Takes [([1], ⟨0⟩), ([2], ⟨128⟩)] builder ∧
      builder.finish.1.length = 128 := by
  refine ⟨⟨_, ⟨rfl, _, rfl, rfl, _, rfl, rfl⟩, ?_⟩, _, ⟨rfl, _, rfl, rfl, _, rfl, rfl⟩, ?_⟩
  · obtain ⟨hpadded, hread⟩ := (block_format ⟨64⟩ (by decide)).1 _ _ (List.cons_ne_nil _ _)
      (show (DataBlockBuilder.new ⟨64⟩).Takes [([1], .put [7]), ([], .delete)] _ from
        ⟨rfl, _, rfl, rfl, _, rfl, rfl⟩)
    exact ⟨hpadded.1, hread .forward⟩
  · exact ((block_format ⟨128⟩ (by decide)).2 _ _ (.inl (List.cons_ne_nil _ _))
      (show (IndexBlockBuilder.new ⟨128⟩).Takes [([1], ⟨0⟩), ([2], ⟨128⟩)] _ from
        ⟨rfl, _, rfl, rfl, _, rfl, rfl⟩)).1.1

end Todb

import Todb.Verification.Sst.BlockCursor

/-! # Blocks of arbitrary bytes

Nothing in `NormalBlockIter` returns an error: a header or a cell that does not lie in the block
is a slice out of range. So a block is safe to iterate exactly if its two offset tables lie in it
and describe cells in it, which its bytes decide. -/

namespace Todb

open Library Direction

namespace NormalBlockIter

/-! ## The tables -/

/-- The big-endian `u32` whose first byte is `start`. -/
def u32At (block : Bytes) (start : ℕ) : ℕ := ofBe ((block.drop start).take 4)

def countOf (block : Bytes) : ℕ := u32At block 0

/-- Entry `i` of the key table. -/
def keyOffset (block : Bytes) (i : ℕ) : ℕ := u32At block (4 + 4 * i)

/-- Entry `i` of the value table. -/
def valueOffset (block : Bytes) (i : ℕ) : ℕ := u32At block (4 + 4 * (countOf block + 1) + 4 * i)

theorem readU32_eq (block : Bytes) (start : ℕ) :
    readU32 block start =
      if start + 4 ≤ block.length then .ok (u32At block start) else .error .panic := by
  by_cases h : start + 4 ≤ block.length
  · rw [readU32, slice_eq_ok (Nat.le_add_right _ _) h, if_pos h, u32At, Nat.add_sub_cancel_left]
    rfl
  · rw [readU32, slice, if_neg fun hin => h hin.2, if_neg h]
    rfl

theorem readOffsets_eq (block : Bytes) (n start : ℕ) :
    readOffsets block n start =
      if n = 0 ∨ start + 4 * n ≤ block.length then
        .ok ((List.range n).map fun i => u32At block (start + 4 * i))
      else .error .panic := by
  induction n generalizing start with
  | zero => simp [readOffsets]
  | succ n ih =>
      rw [readOffsets, readU32_eq, ih]
      by_cases hfirst : start + 4 ≤ block.length
      · by_cases hrest : start + 4 * (n + 1) ≤ block.length
        · have hrest' : start + 4 + 4 * n ≤ block.length := by omega
          simp only [hfirst, hrest, hrest', or_true, if_true, bind, Except.bind, pure, Except.pure,
            List.range_succ_eq_map, List.map_cons, List.map_map, Nat.mul_zero, Nat.add_zero]
          refine congrArg Except.ok (congrArg _ (List.map_congr_left fun i _ => ?_))
          rw [Function.comp_apply, Nat.mul_succ, ← Nat.add_assoc, Nat.add_right_comm]
        · have hrest' : ¬(n = 0 ∨ start + 4 + 4 * n ≤ block.length) := by omega
          simp [hfirst, hrest, hrest', bind, Except.bind]
      · have hrest : ¬(n + 1 = 0 ∨ start + 4 * (n + 1) ≤ block.length) := by omega
        simp only [hfirst, hrest, if_false, bind, Except.bind]

/-- The iterator that `new` returns if the tables lie in the block. -/
def parsed (block : Bytes) : NormalBlockIter :=
  ⟨block, (List.range (countOf block + 1)).map (keyOffset block),
    (List.range (countOf block + 1)).map (valueOffset block), countOf block, none⟩

theorem new_eq (block : Bytes) :
    new block =
      if 12 + 8 * countOf block ≤ block.length then .ok (parsed block) else .error .panic := by
  rw [new, readU32_eq]
  by_cases hcount : 0 + 4 ≤ block.length
  · simp only [hcount, if_true, readOffsets_eq, bind, Except.bind]
    by_cases hkeys : 4 + 4 * (u32At block 0 + 1) ≤ block.length
    · by_cases hvalues : 12 + 8 * countOf block ≤ block.length
      · have hvalues' : 4 + 4 * (u32At block 0 + 1) + 4 * (u32At block 0 + 1) ≤ block.length := by
          simp only [countOf] at hvalues
          omega
        simp only [hkeys, hvalues, hvalues', or_true, if_true, pure, Except.pure]
        rfl
      · have hvalues' : ¬(u32At block 0 + 1 = 0 ∨
            4 + 4 * (u32At block 0 + 1) + 4 * (u32At block 0 + 1) ≤ block.length) := by
          simp only [countOf] at hvalues
          omega
        simp only [hkeys, hvalues, hvalues', or_true, if_true, if_false]
    · have hkeys' : ¬(u32At block 0 + 1 = 0 ∨ 4 + 4 * (u32At block 0 + 1) ≤ block.length) := by
        omega
      have hvalues : ¬12 + 8 * countOf block ≤ block.length := by
        simp only [countOf]
        omega
      simp only [hkeys', hvalues, if_false]
  · have hvalues : ¬12 + 8 * countOf block ≤ block.length := by omega
    simp only [hcount, hvalues, if_false, bind, Except.bind]

/-! ## The cells -/

/-- Cell `i` of a table lies in the block. -/
def CellIn (block : Bytes) (offset : ℕ → ℕ) (i : ℕ) : Prop :=
  offset i ≤ offset (i + 1) ∧ offset (i + 1) ≤ block.length

theorem cell_eq {block : Bytes} {offset : ℕ → ℕ} {n i : ℕ} (hi : i < n) :
    cell block ((List.range (n + 1)).map offset) i = slice block (offset i) (offset (i + 1)) := by
  rw [cell, index_of_lt (by simp; omega), index_of_lt (by simp; omega)]
  simp [bind, Except.bind]

theorem cellIn_of_ok {block : Bytes} {offset : ℕ → ℕ} {n i : ℕ} (hi : i < n) {bytes : Bytes}
    (h : cell block ((List.range (n + 1)).map offset) i = .ok bytes) : CellIn block offset i := by
  rw [cell_eq hi, slice] at h
  split at h
  · assumption
  · cases h

/-- The tables lie in the block, and so does every cell they describe. -/
structure InBounds (block : Bytes) : Prop where
  tables : 12 + 8 * countOf block ≤ block.length
  keys : ∀ i < countOf block, CellIn block (keyOffset block) i
  values : ∀ i < countOf block, CellIn block (valueOffset block) i

/-- The cells of a block. -/
def cellsOf (block : Bytes) : List (Bytes × Bytes) :=
  (List.range (countOf block)).map fun i =>
    ((block.drop (keyOffset block i)).take (keyOffset block (i + 1) - keyOffset block i),
      (block.drop (valueOffset block i)).take (valueOffset block (i + 1) - valueOffset block i))

theorem InBounds.holds {block : Bytes} (h : InBounds block) :
    (parsed block).Holds (cellsOf block) where
  count_eq := by simp [parsed, cellsOf]
  keyAt_eq i hi := by
    have hlt : i < countOf block := by simpa [cellsOf] using hi
    obtain ⟨hle, hin⟩ := h.keys i hlt
    simp only [keyAt, parsed, cell_eq hlt, slice_eq_ok hle hin, cellsOf, List.getElem_map,
      List.getElem_range]
  valueAt_eq i hi := by
    have hlt : i < countOf block := by simpa [cellsOf] using hi
    obtain ⟨hle, hin⟩ := h.values i hlt
    simp only [valueAt, parsed, cell_eq hlt, slice_eq_ok hle hin, cellsOf, List.getElem_map,
      List.getElem_range]

/-! ## Calls -/

variable {it : NormalBlockIter} {cells : List (Bytes × Bytes)} {p : Option ℕ}

/-- The binary search reads keys of the block only, in whatever order they are. -/
theorem Holds.seek_total (h : it.Holds cells) (d : Direction) (t : Bytes) :
    ∃ it' p, it.seek d t = .ok it' ∧ it'.At cells p := by
  have hsearch : ∀ q : Bytes → Bool, ∃ lo,
      bisect (fun mid => do return q (← it.keyAt mid)) it.count 0 it.count = .ok lo ∧
        lo ≤ cells.length := by
    intro q
    have htest : ∀ i, 0 ≤ i → i < it.count →
        ∃ answer, (do return q (← it.keyAt i) : Outcome Bool) = .ok answer :=
      fun i _ hi => ⟨_, by rw [h.keyAt_eq i (h.count_eq ▸ hi)]; rfl⟩
    obtain ⟨lo, hlo, -, hle⟩ := bisect_total it.count 0 it.count htest (Nat.zero_le _)
    exact ⟨lo, hlo, h.count_eq ▸ hle⟩
  cases d with
  | forward =>
      obtain ⟨lo, hlo, hle⟩ := hsearch fun key => decide (key < t)
      refine ⟨_, if lo < it.count then some lo else none, ?_, h.at_withCurr ?_⟩
      · simp only [NormalBlockIter.seek, hlo, Ran.read_ok]
      · intro i hi
        split at hi
        · cases hi
          rwa [← h.count_eq]
        · cases hi
  | reverse =>
      obtain ⟨lo, hlo, hle⟩ := hsearch fun key => decide (key ≤ t)
      refine ⟨_, if lo = 0 then none else some (lo - 1), ?_, h.at_withCurr ?_⟩
      · simp only [NormalBlockIter.seek, hlo, Ran.read_ok]
      · intro i hi
        split at hi
        · cases hi
        · cases hi
          omega

theorem At.call (h : it.At cells p) (c : Cursor.Call Bytes) :
    ∃ it' p', Cursor.call it c = .ok it' ∧ it'.At cells p' := by
  cases c with
  | seekToFirst d =>
      obtain ⟨it', hit', hat⟩ := h.seekToFirst d
      exact ⟨it', _, hit', hat⟩
  | seek d t => exact h.seek_total d t
  | next d =>
      obtain ⟨it', hit', hat⟩ := h.next d
      exact ⟨it', _, hit', hat⟩

theorem At.calls (h : it.At cells p) (history : List (Cursor.Call Bytes)) :
    ∃ it' p', Cursor.calls history it = .ok it' ∧ it'.At cells p' := by
  induction history generalizing it p with
  | nil => exact ⟨it, p, rfl, h⟩
  | cons c history ih =>
      obtain ⟨it₁, p₁, hcall, hat⟩ := h.call c
      obtain ⟨it', p', hcalls, hat'⟩ := ih hat
      exact ⟨it', p', by rw [Cursor.calls, hcall, Ran.bind_ok, hcalls], hat'⟩

/-- Every entry is reached from the first by `next`. -/
theorem calls_reach (it : NormalBlockIter) {i : ℕ} (hi : i < it.count) :
    Cursor.calls (.seekToFirst .forward :: List.replicate i (.next .forward)) it =
      .ok (it.withCurr (some i)) := by
  induction i with
  | zero => simp [Cursor.calls, Cursor.call, Cursor.seekToFirst, seekToFirst, hi]
  | succ i ih =>
      rw [List.replicate_succ', ← List.cons_append, Cursor.calls_append, ih (by omega), Ran.bind_ok]
      simp [Cursor.calls, Cursor.call, Cursor.next, next, withCurr, hi]

/-- `new` returns an error, or an iterator that no calls make slice out of range, neither while
it is moved nor when it is read. -/
def Survives (block : Bytes) : Prop :=
  (∃ error, new block = .error (.err error)) ∨
    ∃ it, new block = .ok it ∧ ∀ history, ∃ it', Cursor.calls history it = .ok it' ∧
      (∃ key, Cursor.key it' = .ok key) ∧ ∃ value, Cursor.value it' = .ok value

theorem ok_of_map {x : Outcome Bytes} {read : Option Bytes} (h : some <$> x = .ok read) :
    ∃ bytes, x = .ok bytes := by
  cases x with
  | ok bytes => exact ⟨bytes, rfl⟩
  | error fault => cases h

theorem InBounds.survives {block : Bytes} (h : InBounds block) : Survives block := by
  refine .inr ⟨parsed block, by rw [new_eq, if_pos h.tables], fun history => ?_⟩
  have hat : (parsed block).At (cellsOf block) none := ⟨h.holds, rfl, by simp [Inside]⟩
  obtain ⟨it', p', hcalls, hat'⟩ := hat.calls history
  exact ⟨it', hcalls, ⟨_, hat'.key_eq⟩, ⟨_, hat'.value_eq⟩⟩

theorem Survives.inBounds {block : Bytes} (h : Survives block) : InBounds block := by
  have htables : 12 + 8 * countOf block ≤ block.length := by
    by_contra hout
    simp [Survives, new_eq, hout] at h
  obtain ⟨it, hnew, hcalls⟩ : ∃ it, new block = .ok it ∧ ∀ history, ∃ it',
      Cursor.calls history it = .ok it' ∧
        (∃ key, Cursor.key it' = .ok key) ∧ ∃ value, Cursor.value it' = .ok value := by
    rcases h with ⟨error, herror⟩ | h
    · rw [new_eq, if_pos htables] at herror
      cases herror
    · exact h
  rw [new_eq, if_pos htables] at hnew
  obtain rfl := Except.ok.inj hnew
  have hread : ∀ i < countOf block, (∃ bytes, (parsed block).keyAt i = .ok bytes) ∧
      ∃ bytes, (parsed block).valueAt i = .ok bytes := by
    intro i hi
    obtain ⟨it', hreach, ⟨key, hkey⟩, ⟨value, hvalue⟩⟩ :=
      hcalls (.seekToFirst .forward :: List.replicate i (.next .forward))
    rw [calls_reach _ hi] at hreach
    obtain rfl := Ran.ok_inj.mp hreach
    exact ⟨ok_of_map hkey, ok_of_map hvalue⟩
  refine ⟨htables, fun i hi => ?_, fun i hi => ?_⟩
  · obtain ⟨bytes, hbytes⟩ := (hread i hi).1
    exact cellIn_of_ok hi hbytes
  · obtain ⟨bytes, hbytes⟩ := (hread i hi).2
    exact cellIn_of_ok hi hbytes

end NormalBlockIter

/-- A block can be iterated without a crash exactly if its tables and cells lie in it. -/
theorem block_survives_iff (block : Bytes) :
    NormalBlockIter.Survives block ↔ NormalBlockIter.InBounds block :=
  ⟨fun h => h.inBounds, fun h => h.survives⟩

/-- A block of three bytes, and one whose only key ends before it starts. -/
theorem block_crashes :
    NormalBlockIter.new [0, 0, 0] = .error .panic ∧
      ∃ it it', NormalBlockIter.new
          [0, 0, 0, 1, 0, 0, 0, 9, 0, 0, 0, 8, 0, 0, 0, 0, 0, 0, 0, 0] = .ok it ∧
        Cursor.seekToFirst .forward it = .ok it' ∧ Cursor.key it' = .error .panic :=
  ⟨rfl, _, _, rfl, rfl, rfl⟩

end Todb

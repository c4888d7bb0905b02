import Mathlib

/-! # Prefix-closed predicates, positions in concatenations, binary search -/

namespace Todb.Library

open List

variable {α ε : Type*}

/-! ## Predicates that hold on an initial part of a list -/

/-- `p` holds on an initial part of `l` and nowhere after it. -/
def Initial (p : α → Bool) (l : List α) : Prop :=
  l.Pairwise (fun a b => p b = true → p a = true)

theorem Initial.tail {p : α → Bool} {a : α} {l : List α} (h : Initial p (a :: l)) :
    Initial p l :=
  (pairwise_cons.mp h).2

theorem Initial.countP_eq_zero {p : α → Bool} {a : α} {l : List α}
    (h : Initial p (a :: l)) (ha : p a = false) : l.countP p = 0 := by
  rw [List.countP_eq_zero]
  intro b hb hpb
  have hpa := (pairwise_cons.mp h).1 b hb hpb
  simp [ha] at hpa

/-- The elements satisfying a prefix-closed predicate are the first `countP` ones. -/
theorem Initial.getElem_iff {p : α → Bool} {l : List α} (h : Initial p l) (i : ℕ)
    (hi : i < l.length) : p l[i] = true ↔ i < l.countP p := by
  induction l generalizing i with
  | nil => simp at hi
  | cons a l ih =>
      cases hpa : p a with
      | true =>
          cases i with
          | zero => simp [hpa]
          | succ i =>
              have hi' : i < l.length := by simpa using hi
              simp [hpa, ih h.tail i hi']
      | false =>
          have hzero := h.countP_eq_zero hpa
          cases i with
          | zero => simp [hpa, hzero]
          | succ i =>
              have hi' : i < l.length := by simpa using hi
              simp [hpa, ih h.tail i hi', hzero]

theorem Initial.dropWhile_eq {p : α → Bool} {l : List α} (h : Initial p l) :
    l.dropWhile p = l.drop (l.countP p) := by
  induction l with
  | nil => rfl
  | cons a l ih =>
      cases hpa : p a with
      | true => simp [hpa, ih h.tail]
      | false => simp [hpa, h.countP_eq_zero hpa]

theorem Initial.countP_lt_of_exists {p : α → Bool} {l : List α}
    (hx : ∃ x ∈ l, p x = false) : l.countP p < l.length := by
  obtain ⟨x, hx, hpx⟩ := hx
  refine lt_of_le_of_ne countP_le_length ?_
  intro heq
  have hall := countP_eq_length.mp heq x hx
  simp [hpx] at hall

/-- The first element that fails the predicate. -/
theorem Initial.isLeast_countP {p : α → Bool} {l : List α} (h : Initial p l)
    (hlt : l.countP p < l.length) :
    IsLeast {i | ∃ hi : i < l.length, p l[i] = false} (l.countP p) := by
  refine ⟨⟨hlt, ?_⟩, ?_⟩
  · rw [← Bool.not_eq_true, h.getElem_iff _ hlt]
    exact lt_irrefl _
  · rintro i ⟨hi, hfalse⟩
    rw [← Bool.not_eq_true, h.getElem_iff i hi] at hfalse
    exact Nat.not_lt.mp hfalse

/-- The last element that satisfies it. -/
theorem Initial.isGreatest_countP {p : α → Bool} {l : List α} (h : Initial p l)
    (hpos : 0 < l.countP p) :
    IsGreatest {i | ∃ hi : i < l.length, p l[i] = true} (l.countP p - 1) := by
  have hle : l.countP p ≤ l.length := countP_le_length
  refine ⟨⟨by omega, ?_⟩, ?_⟩
  · rw [h.getElem_iff]
    omega
  · rintro i ⟨hi, htrue⟩
    rw [h.getElem_iff i hi] at htrue
    omega

/-! ## Positions in a concatenation -/

/-- Where the `i`-th block of a concatenation starts. -/
def offsetOf (lss : List (List α)) (i : ℕ) : ℕ := (lss.take i).flatten.length

@[simp] theorem offsetOf_zero (lss : List (List α)) : offsetOf lss 0 = 0 := by
  simp [offsetOf]

theorem offsetOf_succ (lss : List (List α)) (i : ℕ) (hi : i < lss.length) :
    offsetOf lss (i + 1) = offsetOf lss i + lss[i].length := by
  rw [offsetOf, offsetOf, take_succ_eq_append_getElem hi]
  simp only [flatten_append, length_append, flatten_singleton]

theorem offsetOf_length (lss : List (List α)) :
    offsetOf lss lss.length = lss.flatten.length := by
  simp [offsetOf]

theorem flatten_split (lss : List (List α)) (i : ℕ) (hi : i < lss.length) :
    lss.flatten = (lss.take i).flatten ++ (lss[i] ++ (lss.drop (i + 1)).flatten) := by
  have hsplit : lss = lss.take i ++ lss[i] :: lss.drop (i + 1) := by
    rw [← drop_eq_getElem_cons hi, take_append_drop]
  conv_lhs => rw [hsplit]
  rw [flatten_append, flatten_cons]

theorem offsetOf_add_lt (lss : List (List α)) (i j : ℕ) (hi : i < lss.length)
    (hj : j < lss[i].length) : offsetOf lss i + j < lss.flatten.length := by
  rw [flatten_split lss i hi]
  simp only [offsetOf, length_append]
  omega

theorem getElem?_flatten_offsetOf (lss : List (List α)) (i j : ℕ) (hi : i < lss.length)
    (hj : j < lss[i].length) : lss.flatten[offsetOf lss i + j]? = some lss[i][j] := by
  rw [flatten_split lss i hi, offsetOf, getElem?_append_right (Nat.le_add_right _ _),
    Nat.add_sub_cancel_left, getElem?_append_left hj, getElem?_eq_getElem hj]

/-- Counting in a concatenation when the predicate is settled outside one block. -/
theorem countP_flatten_block (p : α → Bool) (lss : List (List α)) (i : ℕ)
    (hi : i < lss.length) (hbefore : ∀ ls ∈ lss.take i, ∀ x ∈ ls, p x = true)
    (hafter : ∀ ls ∈ lss.drop (i + 1), ∀ x ∈ ls, p x = false) :
    lss.flatten.countP p = offsetOf lss i + lss[i].countP p := by
  have hb : (lss.take i).flatten.countP p = (lss.take i).flatten.length := by
    rw [countP_eq_length]
    intro x hx
    obtain ⟨ls, hls, hx⟩ := mem_flatten.mp hx
    exact hbefore ls hls x hx
  have ha : (lss.drop (i + 1)).flatten.countP p = 0 := by
    rw [countP_eq_zero]
    intro x hx
    obtain ⟨ls, hls, hx⟩ := mem_flatten.mp hx
    simp [hafter ls hls x hx]
  rw [flatten_split lss i hi, countP_append, countP_append, hb, ha, offsetOf]
  omega

/-! ## Binary search -/

/-- Halving search for the first index in `[lo, hi)` that fails `test`. -/
def bisect (test : ℕ → Except ε Bool) : ℕ → ℕ → ℕ → Except ε ℕ
  | 0, lo, _ => .ok lo
  | fuel + 1, lo, hi =>
      if lo < hi then do
        let mid := lo + (hi - lo) / 2
        if ← test mid then bisect test fuel (mid + 1) hi else bisect test fuel lo mid
      else .ok lo

/-- The search stays between its ends and asks only about positions there. -/
theorem bisect_total {test : ℕ → Except ε Bool} (fuel lo hi : ℕ)
    (htest : ∀ i, lo ≤ i → i < hi → ∃ answer, test i = .ok answer) (hle : lo ≤ hi) :
    ∃ b, bisect test fuel lo hi = .ok b ∧ lo ≤ b ∧ b ≤ hi := by
  induction fuel generalizing lo hi with
  | zero => exact ⟨lo, rfl, le_rfl, hle⟩
  | succ fuel ih =>
      by_cases h : lo < hi
      · obtain ⟨answer, hmid⟩ := htest (lo + (hi - lo) / 2) (by omega) (by omega)
        simp only [bisect, h, if_true, hmid, bind, Except.bind]
        cases answer with
        | true =>
            obtain ⟨b, hb, hlo, hhi⟩ := ih (lo + (hi - lo) / 2 + 1) hi
              (fun i h1 h2 => htest i (by omega) h2) (by omega)
            exact ⟨b, hb, by omega, hhi⟩
        | false =>
            obtain ⟨b, hb, hlo, hhi⟩ := ih lo (lo + (hi - lo) / 2)
              (fun i h1 h2 => htest i h1 (by omega)) (by omega)
            exact ⟨b, hb, hlo, by omega⟩
      · exact ⟨lo, by rw [bisect, if_neg h], le_rfl, hle⟩

/-- The search returns the boundary `b` whenever `test` answers `i < b`. -/
theorem bisect_eq {test : ℕ → Except ε Bool} {b : ℕ} (fuel lo hi : ℕ)
    (htest : ∀ i, lo ≤ i → i < hi → test i = .ok (decide (i < b)))
    (hlo : lo ≤ b) (hhi : b ≤ hi) (hfuel : hi - lo ≤ fuel) :
    bisect test fuel lo hi = .ok b := by
  induction fuel generalizing lo hi with
  | zero =>
      have : lo = b := by omega
      simp [bisect, this]
  | succ fuel ih =>
      by_cases h : lo < hi
      · have hmid := htest (lo + (hi - lo) / 2) (by omega) (by omega)
        simp only [bisect, h, if_true, hmid]
        by_cases hb : lo + (hi - lo) / 2 < b
        · simpa [hb, bind, Except.bind] using
            ih (lo + (hi - lo) / 2 + 1) hi (fun i h1 h2 => htest i (by omega) h2)
              (by omega) hhi (by omega)
        · simpa [hb, bind, Except.bind] using
            ih lo (lo + (hi - lo) / 2) (fun i h1 h2 => htest i h1 (by omega))
              hlo (by omega) (by omega)
      · have : lo = b := by omega
        rw [bisect, if_neg h, this]

end Todb.Library

import Mathlib

/-! # Greedy packing and towers of packings

Items are packed in order into groups, a group being closed when the next item does not
fit. Packing the last items of the closed groups again, level by level, gives a tower;
`rootFits` says when completing all levels that exist leaves a single group on top. -/

namespace Todb.Library

open List

variable {α : Type}

/-- The closed groups and the group still being filled. -/
structure Packed (α : Type) where
  closed : List (List α)
  current : List α
deriving DecidableEq

section Pack

variable (full : List α → α → Bool)

/-- Adds an item; `full g a` says that `a` does not fit the group `g`. -/
def Packed.step (p : Packed α) (a : α) : Packed α :=
  if !p.current.isEmpty && full p.current a then ⟨p.closed ++ [p.current], [a]⟩
  else ⟨p.closed, p.current ++ [a]⟩

def pack (l : List α) : Packed α := l.foldl (Packed.step full) ⟨[], []⟩

/-- The last items of the groups. -/
def lasts (groups : List (List α)) : List α := groups.flatMap fun g => g.getLast?.toList

/-- The last items of the closed groups. -/
def promoted (l : List α) : List α := lasts (pack full l).closed

/-- The last items of all groups. -/
def ends (l : List α) : List α := promoted full l ++ (pack full l).current.getLast?.toList

variable {full}

@[simp] theorem pack_nil : pack full [] = ⟨[], []⟩ := rfl

theorem pack_concat (l : List α) (a : α) : pack full (l ++ [a]) = (pack full l).step full a := by
  simp [pack, foldl_append]

theorem lasts_append (gs gs' : List (List α)) : lasts (gs ++ gs') = lasts gs ++ lasts gs' :=
  flatMap_append

theorem lasts_singleton (g : List α) : lasts [g] = g.getLast?.toList := by
  simp [lasts]

variable (full) in
/-- Nothing is lost and nothing is reordered. -/
theorem pack_flatten (l : List α) :
    (pack full l).closed.flatten ++ (pack full l).current = l := by
  induction l using List.reverseRecOn with
  | nil => rfl
  | append_singleton l a ih =>
      rw [pack_concat, Packed.step]
      split
      · simp [ih]
      · rw [← append_assoc, ih]

variable (full) in
theorem current_ne_nil {l : List α} (h : l ≠ []) : (pack full l).current ≠ [] := by
  rcases eq_nil_or_concat l with rfl | ⟨l, a, rfl⟩
  · exact absurd rfl h
  · rw [concat_eq_append, pack_concat, Packed.step]
    split <;> simp

variable (full) in
theorem ne_nil_of_mem_closed (l : List α) : ∀ g ∈ (pack full l).closed, g ≠ [] := by
  induction l using List.reverseRecOn with
  | nil => simp
  | append_singleton l a ih =>
      intro g hg
      rw [pack_concat, Packed.step] at hg
      split at hg
      · rename_i hfull
        rcases mem_append.mp hg with hg | hg
        · exact ih g hg
        · obtain rfl := mem_singleton.mp hg
          simp at hfull
          exact hfull.1
      · exact ih g hg

theorem pack_concat_full {l : List α} {a : α} (hl : l ≠ [])
    (hfull : full (pack full l).current a = true) :
    pack full (l ++ [a]) = ⟨(pack full l).closed ++ [(pack full l).current], [a]⟩ := by
  rw [pack_concat, Packed.step, if_pos]
  simp [hfull, current_ne_nil full hl]

theorem pack_concat_fits {l : List α} {a : α} (hfits : full (pack full l).current a = false) :
    pack full (l ++ [a]) = ⟨(pack full l).closed, (pack full l).current ++ [a]⟩ := by
  rw [pack_concat, Packed.step, if_neg]
  simp [hfits]

theorem promoted_concat_full {l : List α} {a : α} (hl : l ≠ [])
    (hfull : full (pack full l).current a = true) : promoted full (l ++ [a]) = ends full l := by
  rw [promoted, pack_concat_full hl hfull, lasts_append, lasts_singleton, ends, promoted]

theorem promoted_concat_fits {l : List α} {a : α}
    (hfits : full (pack full l).current a = false) :
    promoted full (l ++ [a]) = promoted full l := by
  rw [promoted, pack_concat_fits hfits, promoted]

/-- What has been promoted stays promoted. -/
theorem promoted_append_subset (l more : List α) :
    promoted full l ⊆ promoted full (l ++ more) := by
  induction more using List.reverseRecOn with
  | nil => rw [append_nil]; exact Subset.refl _
  | append_singleton more a ih =>
      rw [← append_assoc, promoted, promoted, pack_concat, Packed.step]
      split
      · rw [lasts_append]
        exact Subset.trans ih (subset_append_left _ _)
      · exact ih

theorem length_lasts_le (gs : List (List α)) : (lasts gs).length ≤ gs.flatten.length := by
  induction gs with
  | nil => rfl
  | cons g gs ih =>
      have hg : g.getLast?.toList.length ≤ g.length := by
        cases g with
        | nil => simp
        | cons a g => simp [getLast?_cons]
      simp only [lasts, flatMap_cons, length_append, flatten_cons] at ih ⊢
      omega

variable (full) in
theorem length_promoted_lt {l : List α} (h : l ≠ []) : (promoted full l).length < l.length := by
  have hflat := congrArg length (pack_flatten full l)
  have hcurrent := length_pos_iff.mpr (current_ne_nil full h)
  have hlasts := length_lasts_le (pack full l).closed
  rw [length_append] at hflat
  change (lasts _).length < _
  omega

theorem sublist_lasts (gs : List (List α)) : (lasts gs).Sublist gs.flatten := by
  induction gs with
  | nil => exact Sublist.refl _
  | cons g gs ih =>
      rw [lasts, flatMap_cons, flatten_cons]
      refine Sublist.append ?_ ih
      cases hlast : g.getLast? with
      | none => simp
      | some a => simpa using mem_of_getLast? hlast

theorem ends_sublist (l : List α) : (ends full l).Sublist l := by
  conv_rhs => rw [← pack_flatten full l]
  refine (sublist_lasts _).append ?_
  cases hlast : (pack full l).current.getLast? with
  | none => simp
  | some a => simpa using mem_of_getLast? hlast

theorem promoted_sublist (l : List α) : (promoted full l).Sublist l :=
  (sublist_append_left _ _).trans (ends_sublist l)

variable (full) in
theorem exists_ends_eq {l : List α} (h : l ≠ []) :
    ∃ a, (pack full l).current.getLast? = some a ∧ ends full l = promoted full l ++ [a] := by
  obtain ⟨a, ha⟩ :=
    Option.isSome_iff_exists.mp (getLast?_isSome.mpr (current_ne_nil full h))
  exact ⟨a, ha, by simp [ends, ha]⟩

variable (full) in
theorem ends_ne_nil {l : List α} (h : l ≠ []) : ends full l ≠ [] := by
  obtain ⟨a, -, hends⟩ := exists_ends_eq full h
  simp [hends]

theorem iterate_ends_ne_nil {l : List α} (h : l ≠ []) (n : ℕ) : (ends full)^[n] l ≠ [] := by
  induction n generalizing l with
  | zero => exact h
  | succ n ih => exact ih (ends_ne_nil full h)

theorem iterate_ends_sublist (l : List α) (n : ℕ) : ((ends full)^[n] l).Sublist l := by
  induction n generalizing l with
  | zero => exact Sublist.refl l
  | succ n ih => exact (ih (ends full l)).trans (ends_sublist l)

/-- No group was closed exactly when nothing was promoted. -/
theorem promoted_eq_nil_iff {l : List α} :
    promoted full l = [] ↔ (pack full l).closed = [] := by
  constructor
  · intro hnil
    by_contra hne
    obtain ⟨g, gs, hcons⟩ := exists_cons_of_ne_nil hne
    have hg : g ≠ [] := ne_nil_of_mem_closed full l g (by simp [hcons])
    rw [promoted, hcons] at hnil
    simp [lasts, hg] at hnil
  · intro hnil
    simp [promoted, hnil, lasts]

theorem current_sublist (l : List α) : (pack full l).current.Sublist l := by
  conv_rhs => rw [← pack_flatten full l]
  exact sublist_append_right _ _

@[simp] theorem promoted_singleton (a : α) : promoted full [a] = [] := rfl

end Pack

/-! ## Towers -/

section Tower

variable {full : List α → α → Bool}

/-- The groups being filled on each level when `l` has been packed on the lowest, and the
number of groups closed on all levels together. -/
inductive Stacked (full : List α → α → Bool) : List α → List (List α) → ℕ → Prop
  | nil : Stacked full [] [] 0
  | cons {l : List α} {stack : List (List α)} {w : ℕ} (h : l ≠ [])
      (habove : Stacked full (promoted full l) stack w) :
      Stacked full l ((pack full l).current :: stack) (w + (promoted full l).length)

theorem Stacked.length_le {l : List α} {stack : List (List α)} {w : ℕ}
    (h : Stacked full l stack w) : stack.length ≤ l.length := by
  induction h with
  | nil => rfl
  | cons h _ ih =>
      have := length_promoted_lt full h
      rw [length_cons]
      omega

/-- The number of levels grows at most with the square root of the closed groups. -/
theorem Stacked.length_mul_le {l : List α} {stack : List (List α)} {w : ℕ}
    (h : Stacked full l stack w) : stack.length * (stack.length - 1) ≤ 2 * w := by
  induction h with
  | nil => simp
  | @cons l stack w h habove ih =>
      have hle := habove.length_le
      rw [length_cons, Nat.add_sub_cancel]
      cases hn : stack.length with
      | zero => simp
      | succ n =>
          rw [hn] at ih hle
          simp only [Nat.add_sub_cancel] at ih
          nlinarith

theorem Stacked.nil_iff {l : List α} {stack : List (List α)} {w : ℕ}
    (h : Stacked full l stack w) : stack = [] ↔ l = [] := by
  cases h with
  | nil => simp
  | cons h => simp [h]

/-- There is one level as long as its items fit one group. -/
theorem Stacked.length_eq_one_iff {l : List α} {stack : List (List α)} {w : ℕ}
    (h : Stacked full l stack w) (hne : l ≠ []) :
    stack.length = 1 ↔ (pack full l).closed = [] := by
  cases h with
  | nil => exact absurd rfl hne
  | cons _ habove =>
      rw [length_cons, Nat.add_eq_right, length_eq_zero_iff, habove.nil_iff, promoted_eq_nil_iff]

variable (full)

/-- `l` are the items of the lowest level that arrived before completion and `m` those after
completing the levels below. Once the levels that existed are used up, one group must hold
what arrived. -/
def rootFitsAux : ℕ → List α → List α → Bool
  | 0, _, m => (pack full m).closed.isEmpty
  | fuel + 1, l, m =>
      if l.isEmpty then (pack full m).closed.isEmpty
      else rootFitsAux fuel (promoted full l) (ends full m)

/-- Completing every level of the tower over `l` leaves one group on top. -/
def rootFits (l : List α) : Bool := rootFitsAux full l.length l l

variable {full}

theorem Stacked.rootFitsAux_eq {l : List α} {stack : List (List α)} {w : ℕ}
    (h : Stacked full l stack w) {fuel : ℕ} (hfuel : l.length ≤ fuel) (m : List α) :
    rootFitsAux full fuel l m = (pack full ((ends full)^[stack.length] m)).closed.isEmpty := by
  induction h generalizing fuel m with
  | nil => cases fuel <;> rfl
  | @cons l stack w h habove ih =>
      have hlt := length_promoted_lt full h
      obtain ⟨fuel, rfl⟩ : ∃ n, fuel = n + 1 := ⟨fuel - 1, by omega⟩
      have hne : ¬ l.isEmpty = true := by simpa using h
      rw [rootFitsAux, if_neg hne, ih (by omega), length_cons, Function.iterate_succ_apply]

theorem Stacked.rootFits_eq {l : List α} {stack : List (List α)} {w : ℕ}
    (h : Stacked full l stack w) :
    rootFits full l = (pack full ((ends full)^[stack.length] l)).closed.isEmpty :=
  h.rootFitsAux_eq le_rfl l

end Tower

/-! ## Groups of at least two -/

section Pairs

variable {full : List α → α → Bool}

/-- At most two items are still to be placed on each level when any two share a group. -/
theorem ends_append_of_pairs {l extra : List α} (hl : l ≠ []) (hextra : extra.length ≤ 2)
    (hpairs : ∀ a ∈ extra, ∀ b ∈ extra, full [a] b = false) :
    ∃ extra', ends full (l ++ extra) = promoted full l ++ extra' ∧ extra'.length ≤ 2 := by
  obtain ⟨a, ha, -⟩ := exists_ends_eq full hl
  match extra with
  | [] => exact ⟨[a], by simp [ends, ha], by simp⟩
  | [x] =>
      cases hx : full (pack full l).current x with
      | true =>
          refine ⟨[a, x], ?_, by simp⟩
          rw [ends, promoted_concat_full hl hx, pack_concat_full hl hx]
          simp [ends, ha]
      | false =>
          refine ⟨[x], ?_, by simp⟩
          rw [ends, promoted_concat_fits hx, pack_concat_fits hx]
          simp
  | [x, y] =>
      rw [show l ++ [x, y] = (l ++ [x]) ++ [y] by simp]
      cases hx : full (pack full l).current x with
      | true =>
          have hy : full (pack full (l ++ [x])).current y = false := by
            rw [pack_concat_full hl hx]
            exact hpairs x (by simp) y (by simp)
          refine ⟨[a, y], ?_, by simp⟩
          rw [ends, promoted_concat_fits hy, pack_concat_fits hy, promoted_concat_full hl hx]
          simp [ends, ha]
      | false =>
          cases hy : full (pack full (l ++ [x])).current y with
          | true =>
              refine ⟨[x, y], ?_, by simp⟩
              rw [ends, promoted_concat_full (by simp) hy, pack_concat_full (by simp) hy, ends,
                promoted_concat_fits hx, pack_concat_fits hx]
              simp
          | false =>
              refine ⟨[y], ?_, by simp⟩
              rw [ends, promoted_concat_fits hy, pack_concat_fits hy, promoted_concat_fits hx]
              simp

theorem closed_of_pairs {extra : List α} (hextra : extra.length ≤ 2)
    (hpairs : ∀ a ∈ extra, ∀ b ∈ extra, full [a] b = false) :
    (pack full extra).closed = [] := by
  match extra with
  | [] => rfl
  | [x] => rfl
  | [x, y] =>
      have hxy : full [x] y = false := hpairs x (by simp) y (by simp)
      simp [pack, Packed.step, hxy]

theorem rootFitsAux_of_pairs (fuel : ℕ) (l extra : List α) (hfuel : l.length ≤ fuel)
    (hextra : extra.length ≤ 2)
    (hpairs : ∀ a ∈ l ++ extra, ∀ b ∈ l ++ extra, full [a] b = false) :
    rootFitsAux full fuel l (l ++ extra) = true := by
  induction fuel generalizing l extra with
  | zero =>
      obtain rfl := length_eq_zero_iff.mp (Nat.le_zero.mp hfuel)
      simp [rootFitsAux, closed_of_pairs hextra hpairs]
  | succ fuel ih =>
      by_cases hl : l = []
      · subst hl
        simp [rootFitsAux, closed_of_pairs hextra hpairs]
      · obtain ⟨extra', hends, hextra'⟩ := ends_append_of_pairs hl hextra
          (fun a ha b hb => hpairs a (mem_append_right l ha) b (mem_append_right l hb))
        have hmem : ∀ a ∈ promoted full l ++ extra', a ∈ l ++ extra := by
          rw [← hends]
          exact fun a ha => (ends_sublist _).mem ha
        have hlt := length_promoted_lt full hl
        have hne : ¬ l.isEmpty = true := by simpa using hl
        rw [rootFitsAux, if_neg hne, hends]
        exact ih _ _ (by omega) hextra'
          (fun a ha b hb => hpairs a (hmem a ha) b (hmem b hb))

/-- If any two items share a group, completing the tower leaves one group on top. -/
theorem rootFits_of_pairs {l : List α} (hpairs : ∀ a ∈ l, ∀ b ∈ l, full [a] b = false) :
    rootFits full l = true := by
  have h := rootFitsAux_of_pairs l.length l [] le_rfl (by simp) (by simpa using hpairs)
  rwa [append_nil] at h

end Pairs

end Todb.Library

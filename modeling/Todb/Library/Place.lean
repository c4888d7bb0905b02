import Todb.Library.Cursor
import Todb.Library.Search

/-! # Index positions of a cursor in a list

A cursor over an indexed list stands at `some i` or is invalid at `none`. Here are the
positions that `seekToFirst`, `seek` and `next` lead to in each direction, and what is
still to be enumerated from a position. -/

namespace Todb.Library

open List

namespace Direction

variable {α κ ν : Type}

/-- The sequence in scan order. -/
def order (d : Direction) (l : List α) : List α :=
  match d with
  | .forward => l
  | .reverse => l.reverse

theorem order_map {β : Type} (d : Direction) (f : α → β) (l : List α) :
    d.order (l.map f) = (d.order l).map f := by
  cases d
  · rfl
  · exact List.map_reverse.symm

theorem mem_order {d : Direction} {l : List α} {a : α} : a ∈ d.order l ↔ a ∈ l := by
  cases d
  · rfl
  · exact List.mem_reverse

/-- Where a scan of `n` entries starts. -/
def first (d : Direction) (n : ℕ) : Option ℕ :=
  match d with
  | .forward => if 0 < n then some 0 else none
  | .reverse => if 0 < n then some (n - 1) else none

/-- The position after the given one. -/
def step (d : Direction) (n : ℕ) : Option ℕ → Option ℕ
  | none => none
  | some i =>
      match d with
      | .forward => if i + 1 < n then some (i + 1) else none
      | .reverse => if i = 0 then none else some (i - 1)

/-- The position of the first entry, in scan order, that is not before `target`. -/
def target [LinearOrder κ] (d : Direction) (l : List (κ × ν)) (target : κ) : Option ℕ :=
  match d with
  | .forward =>
      let lo := l.countP (fun entry => decide (entry.1 < target))
      if lo < l.length then some lo else none
  | .reverse =>
      let lo := l.countP (fun entry => decide (entry.1 ≤ target))
      if lo = 0 then none else some (lo - 1)

/-- What a scan yields from a position on. -/
def rest (d : Direction) (l : List α) : Option ℕ → List α
  | none => []
  | some i =>
      match d with
      | .forward => l.drop i
      | .reverse => (l.take (i + 1)).reverse

/-- A position is invalid or inside the list. -/
def Inside (n : ℕ) (p : Option ℕ) : Prop := ∀ i, p = some i → i < n

theorem inside_first (d : Direction) (n : ℕ) : Inside n (d.first n) := by
  intro i h
  cases d <;> simp [first] at h <;> omega

theorem first_eq_some (d : Direction) {n : ℕ} (hn : 0 < n) :
    ∃ i, d.first n = some i ∧ i < n := by
  cases d with
  | forward => exact ⟨0, by simp [first, hn], hn⟩
  | reverse => exact ⟨n - 1, by simp [first, hn], by omega⟩

theorem inside_step (d : Direction) (n : ℕ) {p : Option ℕ} (hp : Inside n p) :
    Inside n (d.step n p) := by
  intro i h
  cases p with
  | none => simp [step] at h
  | some j =>
      have hj := hp j rfl
      cases d <;> simp [step] at h <;> omega

theorem inside_target [LinearOrder κ] (d : Direction) (l : List (κ × ν)) (t : κ) :
    Inside l.length (d.target l t) := by
  intro i h
  cases d with
  | forward =>
      simp only [target, Option.ite_none_right_eq_some, Option.some.injEq] at h
      omega
  | reverse =>
      have hle : l.countP (fun entry => decide (entry.1 ≤ t)) ≤ l.length := countP_le_length
      simp only [target, Option.ite_none_left_eq_some, Option.some.injEq] at h
      omega

theorem rest_first (d : Direction) (l : List α) : d.rest l (d.first l.length) = d.order l := by
  cases l with
  | nil => cases d <;> rfl
  | cons a l => cases d <;> simp [rest, first, order]

theorem rest_step (d : Direction) (l : List α) {p : Option ℕ} (hp : Inside l.length p) :
    d.rest l (d.step l.length p) = (d.rest l p).tail := by
  cases p with
  | none => cases d <;> rfl
  | some i =>
      have hi := hp i rfl
      cases d with
      | forward =>
          by_cases hlt : i + 1 < l.length
          · simp only [step, if_pos hlt, rest, tail_drop]
          · simp only [step, if_neg hlt, rest, tail_drop]
            rw [drop_eq_nil_of_le (by omega)]
      | reverse =>
          simp only [step, rest]
          rw [take_succ_eq_append_getElem hi, reverse_append]
          cases i with
          | zero => simp
          | succ i => simp

/-- The entry under a position. -/
def entryAt (l : List α) (p : Option ℕ) : Option α := p.bind (l[·]?)

@[simp] theorem entryAt_none (l : List α) : entryAt l none = none := rfl

@[simp] theorem entryAt_some (l : List α) (i : ℕ) : entryAt l (some i) = l[i]? := rfl

theorem isSome_entryAt {l : List α} {p : Option ℕ} (hp : Inside l.length p) :
    (entryAt l p).isSome = p.isSome := by
  cases p with
  | none => rfl
  | some i => simp [hp i rfl]

theorem head?_rest (d : Direction) (l : List α) {p : Option ℕ} (hp : Inside l.length p) :
    (d.rest l p).head? = entryAt l p := by
  cases p with
  | none => rfl
  | some i =>
      have hi := hp i rfl
      cases d with
      | forward => simp [rest, head?_drop]
      | reverse =>
          simp only [rest, entryAt_some]
          rw [take_succ_eq_append_getElem hi, reverse_append, getElem?_eq_getElem hi]
          simp

/-! ## Positions in a concatenation -/

section Flatten

variable {lss : List (List α)} {i j : ℕ} {cl : List α}

theorem first_flatten (d : Direction) (hi : d.first lss.length = some i)
    (hcl : lss[i]? = some cl) (hj : d.first cl.length = some j) :
    d.first lss.flatten.length = some (offsetOf lss i + j) := by
  obtain ⟨hlt, rfl⟩ := List.getElem?_eq_some_iff.mp hcl
  have hjlt := inside_first d _ j hj
  have hend := offsetOf_succ lss i hlt
  have hbound := offsetOf_add_lt lss i j hlt hjlt
  cases d with
  | forward =>
      simp only [first, Option.ite_none_right_eq_some, Option.some.injEq] at hi hj ⊢
      obtain rfl : i = 0 := by omega
      simp only [offsetOf_zero] at hbound ⊢
      omega
  | reverse =>
      simp only [first, Option.ite_none_right_eq_some, Option.some.injEq] at hi hj ⊢
      have hlast : i + 1 = lss.length := by omega
      rw [hlast, offsetOf_length] at hend
      omega

/-- A step that stays inside one block. -/
theorem step_flatten_inside (d : Direction) {j' : ℕ} (hcl : lss[i]? = some cl)
    (hj : j < cl.length) (hstep : d.step cl.length (some j) = some j') :
    d.step lss.flatten.length (some (offsetOf lss i + j)) = some (offsetOf lss i + j') := by
  obtain ⟨hlt, rfl⟩ := List.getElem?_eq_some_iff.mp hcl
  have hj' : j' < lss[i].length :=
    inside_step d _ (fun k hk => by obtain rfl := Option.some.inj hk; exact hj) j' hstep
  have hbound := offsetOf_add_lt lss i j' hlt hj'
  cases d with
  | forward =>
      simp only [step, Option.ite_none_right_eq_some, Option.some.injEq] at hstep ⊢
      omega
  | reverse =>
      simp only [step, Option.ite_none_left_eq_some, Option.some.injEq] at hstep ⊢
      omega

/-- A step from the end of one block to the next block. -/
theorem step_flatten_across (d : Direction) {i' j' : ℕ} {cl' : List α}
    (hcl : lss[i]? = some cl) (hj : j < cl.length)
    (hstep : d.step cl.length (some j) = none) (hnext : d.step lss.length (some i) = some i')
    (hcl' : lss[i']? = some cl') (hfirst : d.first cl'.length = some j') :
    d.step lss.flatten.length (some (offsetOf lss i + j)) = some (offsetOf lss i' + j') := by
  obtain ⟨hlt, rfl⟩ := List.getElem?_eq_some_iff.mp hcl
  obtain ⟨hlt', rfl⟩ := List.getElem?_eq_some_iff.mp hcl'
  have hj' := inside_first d _ j' hfirst
  have hbound := offsetOf_add_lt lss i' j' hlt' hj'
  have hend := offsetOf_succ lss i hlt
  have hend' := offsetOf_succ lss i' hlt'
  cases d with
  | forward =>
      simp only [step, first, Option.ite_none_right_eq_some, Option.some.injEq,
        ite_eq_right_iff, reduceCtorEq, imp_false] at hstep hnext hfirst ⊢
      obtain rfl : i' = i + 1 := by omega
      omega
  | reverse =>
      simp only [step, first, Option.ite_none_right_eq_some, Option.ite_none_left_eq_some,
        Option.some.injEq, ite_eq_left_iff, reduceCtorEq, imp_false, not_not] at hstep hnext hfirst ⊢
      obtain rfl : i = i' + 1 := by omega
      omega

/-- A step from the end of the last block in scan order. -/
theorem step_flatten_end (d : Direction) (hcl : lss[i]? = some cl) (hj : j < cl.length)
    (hstep : d.step cl.length (some j) = none) (hnext : d.step lss.length (some i) = none) :
    d.step lss.flatten.length (some (offsetOf lss i + j)) = none := by
  obtain ⟨hlt, rfl⟩ := List.getElem?_eq_some_iff.mp hcl
  have hend := offsetOf_succ lss i hlt
  cases d with
  | forward =>
      simp only [step, ite_eq_right_iff, reduceCtorEq, imp_false] at hstep hnext ⊢
      have hlast : i + 1 = lss.length := by omega
      rw [hlast, offsetOf_length] at hend
      omega
  | reverse =>
      simp only [step, ite_eq_left_iff, reduceCtorEq, imp_false, not_not] at hstep hnext ⊢
      subst hnext
      simp only [offsetOf_zero]
      omega

end Flatten

end Direction

/-! ## Sorted lists -/

section Sorted

variable {κ ν : Type} [LinearOrder κ]

/-- Keys strictly ascend. -/
def Ascending (l : List (κ × ν)) : Prop := l.Pairwise (fun a b => a.1 < b.1)

instance (l : List (κ × ν)) : Decidable (Ascending l) :=
  inferInstanceAs (Decidable (l.Pairwise fun a b => a.1 < b.1))

theorem Ascending.of_keys {ν' : Type} {l : List (κ × ν)} {l' : List (κ × ν')}
    (h : Ascending l') (hkeys : l.map Prod.fst = l'.map Prod.fst) : Ascending l := by
  have hmap : (l'.map Prod.fst).Pairwise (· < ·) := pairwise_map.mpr h
  exact pairwise_map.mp (hkeys ▸ hmap)

/-- Seeking looks at the keys only. -/
theorem Direction.target_of_keys {ν' : Type} {l : List (κ × ν)} {l' : List (κ × ν')}
    (hkeys : l.map Prod.fst = l'.map Prod.fst) (d : Direction) (t : κ) :
    d.target l t = d.target l' t := by
  have hcount : ∀ p : κ → Bool,
      l.countP (fun entry => p entry.1) = l'.countP (fun entry => p entry.1) := by
    intro p
    have hl := countP_map (p := p) (f := Prod.fst) (l := l)
    have hl' := countP_map (p := p) (f := Prod.fst) (l := l')
    exact hl.symm.trans (hkeys ▸ hl')
  have hlength : l.length = l'.length := by simpa using congrArg length hkeys
  cases d with
  | forward => simp only [Direction.target, hcount (fun k => decide (k < t)), hlength]
  | reverse => simp only [Direction.target, hcount (fun k => decide (k ≤ t))]

theorem Ascending.initial_lt {l : List (κ × ν)} (h : Ascending l) (t : κ) :
    Initial (fun entry => decide (entry.1 < t)) l := by
  refine Pairwise.imp ?_ h
  intro a b hab hb
  simp only [decide_eq_true_eq] at hb ⊢
  exact hab.trans hb

theorem Ascending.initial_le {l : List (κ × ν)} (h : Ascending l) (t : κ) :
    Initial (fun entry => decide (entry.1 ≤ t)) l := by
  refine Pairwise.imp ?_ h
  intro a b hab hb
  simp only [decide_eq_true_eq] at hb ⊢
  exact (hab.trans_le hb).le

/-- Counting splits a reversed list where a prefix-closed predicate ends. -/
theorem Initial.dropWhile_reverse {α : Type} {p : α → Bool} {l : List α} (h : Initial p l) :
    l.reverse.dropWhile (fun a => !p a) = (l.take (l.countP p)).reverse := by
  induction l using List.reverseRecOn with
  | nil => rfl
  | append_singleton l a ih =>
      have hl : Initial p l := (pairwise_append.mp h).1
      rw [reverse_append, reverse_singleton, singleton_append, countP_append]
      cases hpa : p a with
      | true =>
          have hall : l.countP p = l.length := by
            rw [countP_eq_length]
            intro b hb
            exact (pairwise_append.mp h).2.2 b hb a (by simp) hpa
          rw [dropWhile_cons_of_neg (by simp [hpa]), hall, take_of_length_le (by simp [hpa])]
          simp
      | false =>
          rw [dropWhile_cons_of_pos (by simp [hpa]), ih hl]
          have hle : l.countP p ≤ l.length := countP_le_length
          simp [hpa, take_append_of_le_length hle]

/-- Seeking by counting leaves exactly the entries a scan has still to visit. -/
theorem Ascending.rest_target {l : List (κ × ν)} (h : Ascending l) (d : Direction) (t : κ) :
    d.rest l (d.target l t) = (d.order l).dropWhile (Cursor.before d t) := by
  cases d with
  | forward =>
      have hdrop := (h.initial_lt t).dropWhile_eq
      change _ = l.dropWhile (fun entry => decide (entry.1 < t))
      rw [hdrop]
      simp only [Direction.target]
      split
      · rfl
      · rename_i hge
        rw [drop_eq_nil_of_le (by omega)]
        rfl
  | reverse =>
      have hdrop := (h.initial_le t).dropWhile_reverse
      have hbefore : Cursor.before (ν := ν) .reverse t =
          fun entry => !decide (entry.1 ≤ t) := by
        funext entry
        simp only [Cursor.before, ← not_le, decide_not]
      rw [hbefore, Direction.order, hdrop]
      simp only [Direction.target]
      split
      · rename_i hzero
        simp [hzero, Direction.rest]
      · rename_i hpos
        rw [Direction.rest, Nat.sub_add_cancel (Nat.pos_of_ne_zero hpos)]

section Flatten

variable {lss : List (List (κ × ν))} {i m : ℕ} {cl : List (κ × ν)} {t : κ}

/-- Keys of earlier blocks are smaller than keys of later blocks. -/
theorem Ascending.lt_of_blocks (h : Ascending lss.flatten) (hcl : lss[i]? = some cl) :
    (∀ block ∈ lss.take i, ∀ x ∈ block, ∀ y ∈ cl, x.1 < y.1) ∧
      (∀ block ∈ lss.drop (i + 1), ∀ x ∈ block, ∀ y ∈ cl, y.1 < x.1) := by
  obtain ⟨hi, rfl⟩ := List.getElem?_eq_some_iff.mp hcl
  rw [flatten_split lss i hi] at h
  obtain ⟨-, hright, hleft⟩ := pairwise_append.mp h
  refine ⟨fun block hblock x hx y hy => ?_, fun block hblock x hx y hy => ?_⟩
  · exact hleft x (mem_flatten.mpr ⟨block, hblock, hx⟩) y (mem_append_left _ hy)
  · exact (pairwise_append.mp hright).2.2 y hy x (mem_flatten.mpr ⟨block, hblock, hx⟩)

/-- Forward seeking in a concatenation: skip the blocks below the target. -/
theorem Ascending.target_forward_flatten (h : Ascending lss.flatten) (hcl : lss[i]? = some cl)
    (hbefore : ∀ block ∈ lss.take i, ∀ x ∈ block, x.1 < t)
    (hm : Direction.forward.target cl t = some m) :
    Direction.forward.target lss.flatten t = some (offsetOf lss i + m) := by
  have hblocks := (h.lt_of_blocks hcl).2
  obtain ⟨hi, rfl⟩ := List.getElem?_eq_some_iff.mp hcl
  simp only [Direction.target, Option.ite_none_right_eq_some, Option.some.injEq] at hm ⊢
  obtain ⟨hlt, rfl⟩ := hm
  have hy : ∃ y ∈ lss[i], ¬ y.1 < t := by
    by_contra hall
    push Not at hall
    have hfull : lss[i].countP (fun entry => decide (entry.1 < t)) = lss[i].length :=
      countP_eq_length.mpr (fun y hy => decide_eq_true (hall y hy))
    omega
  obtain ⟨y, hy, hyt⟩ := hy
  have hcount := countP_flatten_block (fun entry => decide (entry.1 < t)) lss i hi
    (fun block hblock x hx => decide_eq_true (hbefore block hblock x hx))
    (fun block hblock x hx => decide_eq_false (fun hxt =>
      hyt ((hblocks block hblock x hx y hy).trans hxt)))
  have hbound := offsetOf_add_lt lss i _ hi hlt
  rw [hcount]
  exact ⟨hbound, rfl⟩

/-- Reverse seeking in a concatenation: skip the blocks above the target. -/
theorem Ascending.target_reverse_flatten (h : Ascending lss.flatten) (hcl : lss[i]? = some cl)
    (hafter : ∀ block ∈ lss.drop (i + 1), ∀ x ∈ block, t < x.1)
    (hm : Direction.reverse.target cl t = some m) :
    Direction.reverse.target lss.flatten t = some (offsetOf lss i + m) := by
  have hblocks := (h.lt_of_blocks hcl).1
  obtain ⟨hi, rfl⟩ := List.getElem?_eq_some_iff.mp hcl
  simp only [Direction.target, Option.ite_none_left_eq_some, Option.some.injEq] at hm ⊢
  obtain ⟨hne, rfl⟩ := hm
  obtain ⟨y, hy, hyt⟩ := countP_pos_iff.mp (Nat.pos_of_ne_zero hne)
  rw [decide_eq_true_iff] at hyt
  have hcount := countP_flatten_block (fun entry => decide (entry.1 ≤ t)) lss i hi
    (fun block hblock x hx => decide_eq_true ((hblocks block hblock x hx y hy).le.trans hyt))
    (fun block hblock x hx => decide_eq_false (not_le.mpr (hafter block hblock x hx)))
  rw [hcount]
  omega

end Flatten

theorem Direction.target_forward_eq_none {l : List (κ × ν)} {t : κ} :
    Direction.forward.target l t = none ↔ ∀ entry ∈ l, entry.1 < t := by
  have hle : l.countP (fun entry => decide (entry.1 < t)) ≤ l.length := countP_le_length
  simp only [Direction.target, ite_eq_right_iff, reduceCtorEq, imp_false, not_lt]
  rw [hle.ge_iff_eq, countP_eq_length]
  simp

theorem Direction.target_reverse_eq_none {l : List (κ × ν)} {t : κ} :
    Direction.reverse.target l t = none ↔ ∀ entry ∈ l, t < entry.1 := by
  simp only [Direction.target, ite_eq_left_iff, reduceCtorEq, imp_false, not_not,
    countP_eq_zero]
  simp

/-- The last key of an ascending list is its largest. -/
theorem Ascending.le_getLast {l : List (κ × ν)} (h : Ascending l) {last : κ × ν}
    (hlast : l.getLast? = some last) : ∀ entry ∈ l, entry.1 ≤ last.1 := by
  intro entry hentry
  obtain ⟨init, rfl⟩ := getLast?_eq_some_iff.mp hlast
  rcases mem_append.mp hentry with hinit | hsingle
  · exact ((pairwise_append.mp h).2.2 entry hinit last (by simp)).le
  · rw [mem_singleton.mp hsingle]

end Sorted

end Todb.Library

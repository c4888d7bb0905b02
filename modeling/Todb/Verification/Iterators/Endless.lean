import Todb.Verification.Iterators.Merge
import Todb.Verification.Iterators.TwoMerge
import Todb.Verification.Storage.Files

/-! # Merges over a source that never ends

A merge with a source that is valid after every step that succeeds is itself valid after every
step that succeeds. -/

namespace Todb

open Library

namespace MergeIter

variable {ι κ ν ε : Type} [Cursor ι κ ν ε] {d : Direction} {P : ι → Prop} {s s' : MergeIter ι}

/-- A heap in direction `d` with such a source. -/
def Has (d : Direction) (P : ι → Prop) (s : MergeIter ι) : Prop :=
  s.active = d ∧ ∃ w ∈ s.heap, P w.iter

/-- A source that is moved keeps its place. -/
theorem mem_moveAll {move : ι → Ran ε ι} {ws ws' : List (HeapWrap ι)}
    (h : HeapWrap.moveAll move ws = .ok ws') {w : HeapWrap ι} (hw : w ∈ ws) :
    ∃ iter, move w.iter = .ok iter ∧ { w with iter } ∈ ws' := by
  induction ws generalizing ws' with
  | nil => cases hw
  | cons v ws ih =>
      obtain ⟨moved, hmoved, hrest⟩ := Ran.bind_eq_ok.mp h
      obtain ⟨iter, hiter, -⟩ := Ran.map_eq_ok.mp hmoved
      obtain ⟨later, hlater, rfl⟩ := Ran.map_eq_ok.mp hrest
      rcases List.mem_cons.mp hw with rfl | hw
      · exact ⟨iter, hiter, by simp [hiter, Ran.ok]⟩
      · obtain ⟨iter', hiter', hmem⟩ := ih hlater hw
        exact ⟨iter', hiter', List.mem_cons_of_mem _ hmem⟩

/-- Positioning puts a source that is valid then into the heap. -/
theorem has_place {move : ι → Ran ε ι} {w : HeapWrap ι} (hw : w ∈ s.items ++ s.heap)
    (hP : ∀ {iter}, move w.iter = .ok iter → P iter)
    (hvalid : ∀ {iter : ι}, P iter → Cursor.valid iter = true)
    (h : s.place d move = .ok s') : Has d P s' := by
  rw [place, drainToItems] at h
  obtain ⟨t, ht, hbuild⟩ := Ran.bind_eq_ok.mp h
  obtain ⟨ws, hws, rfl⟩ := Ran.map_eq_ok.mp ht
  obtain rfl := Ran.ok_inj.mp hbuild
  obtain ⟨iter, hiter, hmem⟩ := mem_moveAll hws hw
  exact ⟨rfl, _, List.mem_filter.mpr ⟨hmem, hvalid (hP hiter)⟩, hP hiter⟩

variable [LinearOrder κ]

theorem exists_pop_of_mem (d : Direction) {ws : List (HeapWrap ι)} {w : HeapWrap ι} (h : w ∈ ws) :
    ∃ best rest, pop d ws = some (best, rest) := by
  cases ws with
  | nil => cases h
  | cons v ws =>
      rw [pop]
      split
      · exact ⟨_, _, rfl⟩
      · split <;> exact ⟨_, _, rfl⟩

theorem endless (h : Cursor.Endless d P) : Cursor.Endless d (Has d P : MergeIter ι → Prop) where
  valid := by
    rintro s ⟨rfl, w, hw, -⟩
    obtain ⟨best, rest, hpop⟩ := exists_pop_of_mem s.active hw
    simp [Cursor.valid, peek, hpop]
  next := by
    rintro s s' ⟨hactive, w, hw, hP⟩ hnext
    obtain ⟨best, rest, hpop⟩ := exists_pop_of_mem d hw
    change MergeIter.next d s = .ok s' at hnext
    rw [MergeIter.next, if_pos hactive, hpop] at hnext
    cases hmove : Cursor.next d best.iter with
    | mk result iter =>
        cases result with
        | error e => simp [hmove, Ran.chain, Ran.fail, Ran.ok] at hnext
        | ok =>
            have hmove : Cursor.next d best.iter = .ok iter := hmove
            simp only [hmove, Ran.chain_ok] at hnext
            -- The source stays in the heap, also if it is the one that was stepped.
            rcases List.mem_cons.mp ((pop_perm hpop).mem_iff.mpr hw) with rfl | hw
            · have hP' := h.next hP hmove
              rw [if_pos (h.valid hP')] at hnext
              obtain rfl := Ran.ok_inj.mp hnext
              exact ⟨hactive, _, List.mem_append_right _ (List.mem_singleton_self _), hP'⟩
            · split at hnext
              · obtain rfl := Ran.ok_inj.mp hnext
                exact ⟨hactive, w, List.mem_append_left _ hw, hP⟩
              · obtain rfl := Ran.ok_inj.mp hnext
                exact ⟨hactive, w, hw, hP⟩

end MergeIter

namespace TwoMergeIter

variable {α β κ ν : Type} [LinearOrder κ] [Cursor α κ ν Fault] [Cursor β κ ν Fault] {fuel : ℕ}
  {d : Direction} {PA : α → Prop} {PB : β → Prop} {s s' : TwoMergeIter fuel α β}

/-- One of the sides never ends, and a side is current. -/
def Has (PA : α → Prop) (PB : β → Prop) (s : TwoMergeIter fuel α β) : Prop :=
  (PA s.a ∨ PB s.b) ∧ s.current.isSome

section Sides

variable (hA : Cursor.Endless d PA) (hB : Cursor.Endless d PB)

include hA hB

/-- With a valid side one is chosen. -/
theorem has_of_choose (h : PA s.a ∨ PB s.b) (hchoose : TwoMergeIter.choose d s = .ok s.current) :
    Has PA PB s := by
  refine ⟨h, ?_⟩
  rw [TwoMergeIter.choose] at hchoose
  split at hchoose
  · rename_i ha hb
    rcases h with h | h
    · simp [hA.valid h] at ha
    · simp [hB.valid h] at hb
  · rw [← Except.ok.inj hchoose]
    rfl
  · rw [← Except.ok.inj hchoose]
    rfl
  · obtain ⟨ak, -, hchoose⟩ := bind_eq_ok.mp hchoose
    obtain ⟨bk, -, hchoose⟩ := bind_eq_ok.mp hchoose
    rw [← Except.ok.inj hchoose]
    rfl

theorem endless : Cursor.Endless d (Has PA PB : TwoMergeIter fuel α β → Prop) where
  valid h := h.2
  next h hnext := by
    obtain ⟨hkept, hchoose⟩ := kept_next (R := fun a b => PA a ∨ PB b)
      (fun h hb => h.imp_right fun h => hB.next h hb)
      (fun h ha => h.imp_left fun h => hA.next h ha) h.1 hnext
    exact has_of_choose hA hB hkept (hchoose h.2)

theorem has_place {moveA : α → Ran Fault α} {moveB : β → Ran Fault β}
    (h : ∀ {a b}, moveA s.a = .ok a → moveB s.b = .ok b → PA a ∨ PB b)
    (hs' : TwoMergeIter.place d moveA moveB s = .ok s') : Has PA PB s' := by
  obtain ⟨hkept, hchoose⟩ := kept_place (R := fun a b => PA a ∨ PB b)
    (fun h hb => h.imp_right fun h => hB.next h hb) h hs'
  exact has_of_choose hA hB hkept hchoose

end Sides

end TwoMergeIter

end Todb

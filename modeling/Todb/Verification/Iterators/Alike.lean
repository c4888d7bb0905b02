import Todb.Library.Bisimulation
import Todb.Model.Iterators.Merge

/-! # Merges of cursors that go on alike -/

namespace Todb

open Library List

section Merge

variable {ι κ ν ε : Type} [LinearOrder κ] [Cursor ι κ ν ε] {d : Direction} {R : ι → ι → Prop}

/-- Sources of one level that go on alike. -/
def HeapWrap.Rel (R : ι → ι → Prop) (w w' : HeapWrap ι) : Prop :=
  w.level = w'.level ∧ R w.iter w'.iter

omit [LinearOrder κ] [Cursor ι κ ν ε] in
theorem HeapWrap.Rel.set {w w' : HeapWrap ι} (h : HeapWrap.Rel R w w') {s t : ι} (hst : R s t) :
    HeapWrap.Rel R { w with iter := s } { w' with iter := t } :=
  ⟨h.1, hst⟩

theorem HeapWrap.precedes_congr (hR : Cursor.Bisimulation d R) (d' : Direction)
    {a a' b b' : HeapWrap ι} (ha : HeapWrap.Rel R a a') (hb : HeapWrap.Rel R b b') :
    a.precedes d' b = a'.precedes d' b' := by
  simp only [HeapWrap.precedes, HeapWrap.key?, hR.key ha.2, hR.key hb.2, ha.1, hb.1]

/-- What `pop` takes out of related heaps. -/
def PopRel (R : ι → ι → Prop) :
    Option (HeapWrap ι × List (HeapWrap ι)) → Option (HeapWrap ι × List (HeapWrap ι)) → Prop
  | some p, some p' => HeapWrap.Rel R p.1 p'.1 ∧ Forall₂ (HeapWrap.Rel R) p.2 p'.2
  | none, none => True
  | _, _ => False

theorem MergeIter.pop_rel (hR : Cursor.Bisimulation d R) (d' : Direction)
    {heap heap' : List (HeapWrap ι)} (h : Forall₂ (HeapWrap.Rel R) heap heap') :
    PopRel R (MergeIter.pop d' heap) (MergeIter.pop d' heap') := by
  induction h with
  | nil => trivial
  | @cons w w' ws ws' hw hws ih =>
      rw [MergeIter.pop, MergeIter.pop]
      cases hp : MergeIter.pop d' ws with
      | none =>
          cases hp' : MergeIter.pop d' ws' with
          | none => exact ⟨hw, .nil⟩
          | some p' => simp [hp, hp', PopRel] at ih
      | some p =>
          cases hp' : MergeIter.pop d' ws' with
          | none => simp [hp, hp', PopRel] at ih
          | some p' =>
              obtain ⟨best, rest⟩ := p
              obtain ⟨best', rest'⟩ := p'
              simp only [hp, hp', PopRel] at ih
              simp only [HeapWrap.precedes_congr hR d' hw ih.1]
              split
              · exact ⟨hw, hws⟩
              · exact ⟨ih.1, .cons hw ih.2⟩

structure MergeIter.Rel (R : ι → ι → Prop) (m m' : MergeIter ι) : Prop where
  active : m.active = m'.active
  items : Forall₂ (HeapWrap.Rel R) m.items m'.items
  heap : Forall₂ (HeapWrap.Rel R) m.heap m'.heap

/-- Related merges have related sources on top. -/
theorem MergeIter.Rel.peek_congr (hR : Cursor.Bisimulation d R) {m m' : MergeIter ι}
    (h : MergeIter.Rel R m m') {γ : Type} (f : ι → γ)
    (hf : ∀ {s t}, R s t → f s = f t) :
    (m.peek.map fun w => f w.iter) = m'.peek.map fun w => f w.iter := by
  have hpop := pop_rel hR m.active h.heap
  simp only [MergeIter.peek, ← h.active]
  cases hp : pop m.active m.heap with
  | none =>
      cases hp' : pop m.active m'.heap with
      | none => rfl
      | some p' => simp [hp, hp', PopRel] at hpop
  | some p =>
      cases hp' : pop m.active m'.heap with
      | none => simp [hp, hp', PopRel] at hpop
      | some p' =>
          rw [hp, hp'] at hpop
          simp [hf hpop.1.2]

/-- Merges of sources that go on alike go on alike. -/
theorem MergeIter.bisimulation (hR : Cursor.Bisimulation d R) :
    Cursor.Bisimulation d (MergeIter.Rel R : MergeIter ι → _ → Prop) := by
  refine ⟨?_, ?_, ?_, ?_⟩
  · intro m m' h
    have hpeek := congrArg Option.isSome (h.peek_congr hR (fun _ => ()) fun _ => rfl)
    change m.peek.isSome = m'.peek.isSome
    simpa using hpeek
  · intro m m' h
    exact congrArg (·.getD (.ok none)) (h.peek_congr hR Cursor.key hR.key)
  · intro m m' h
    exact congrArg (·.getD (.ok none)) (h.peek_congr hR Cursor.value hR.value)
  · intro m m' h
    have hpop := pop_rel hR d h.heap
    change Ran.Rel _ (MergeIter.next d m) (MergeIter.next d m')
    rw [MergeIter.next, MergeIter.next, h.active]
    split
    · cases hp : pop d m.heap with
      | none =>
          cases hp' : pop d m'.heap with
          | none => exact .ok h
          | some p' => simp [hp, hp', PopRel] at hpop
      | some p =>
          cases hp' : pop d m'.heap with
          | none => simp [hp, hp', PopRel] at hpop
          | some p' =>
              rw [hp, hp'] at hpop
              obtain ⟨hw, hrest⟩ := hpop
              refine (hR.next hw.2).chain (fun _ => ⟨rfl, h.items, hrest⟩) ?_
              intro s t hst
              have hadd := rel_append hrest (.cons (hw.set hst) .nil)
              simp only [hR.valid hst]
              split
              · exact .ok ⟨rfl, h.items, hadd⟩
              · exact .ok ⟨rfl, rel_append h.items (.cons (hw.set hst) .nil), hrest⟩
    · exact .ok h

end Merge

/-! ## Two sides -/

section TwoMerge

variable {α β κ ν : Type} [LinearOrder κ] [Cursor α κ ν Fault] [Cursor β κ ν Fault] {fuel : ℕ}
  {d : Direction} {R : α → α → Prop} {S : β → β → Prop}

structure TwoMergeIter.Rel (R : α → α → Prop) (S : β → β → Prop)
    (m m' : TwoMergeIter fuel α β) : Prop where
  a : R m.a m'.a
  b : S m.b m'.b
  current : m.current = m'.current

namespace TwoMergeIter

variable (hR : Cursor.Bisimulation d R) (hS : Cursor.Bisimulation d S)

include hR hS

theorem skipB_rel (n : ℕ) {m m' : TwoMergeIter fuel α β} (h : Rel R S m m') :
    Ran.Rel (Rel R S) (skipB d n m) (skipB d n m') := by
  induction n generalizing m m' with
  | zero => exact .fail _ h
  | succ n ih =>
      rw [skipB, skipB, hR.valid h.a, hS.valid h.b, hR.key h.a, hS.key h.b]
      split
      · refine .read h fun ak => .read h fun bk => ?_
        split
        · refine .bind ((hS.next h.b).map ?_) ih
          intro s t hst
          exact ⟨h.a, hst, h.current⟩
        · exact .ok h
      · exact .ok h

theorem choose_congr {m m' : TwoMergeIter fuel α β} (h : Rel R S m m') :
    choose d m = choose d m' := by
  simp only [choose, unwrapKey, hR.valid h.a, hS.valid h.b, hR.key h.a, hS.key h.b]

theorem settle_rel {m m' : TwoMergeIter fuel α β} (h : Rel R S m m') :
    Ran.Rel (Rel R S) (settle d m) (settle d m') := by
  refine (skipB_rel hR hS fuel h).bind ?_
  intro s t hst
  rw [choose_congr hR hS hst]
  exact .read hst fun current => .ok ⟨hst.a, hst.b, rfl⟩

theorem bisimulation : Cursor.Bisimulation d (Rel R S : TwoMergeIter fuel α β → _ → Prop) := by
  refine ⟨?_, ?_, ?_, ?_⟩
  · intro m m' h
    exact congrArg Option.isSome h.current
  · intro m m' h
    obtain ⟨a, b, current⟩ := m
    obtain ⟨a', b', current'⟩ := m'
    obtain rfl : current = current' := h.current
    rcases current with - | - | -
    · rfl
    · exact hR.key h.a
    · exact hS.key h.b
  · intro m m' h
    obtain ⟨a, b, current⟩ := m
    obtain ⟨a', b', current'⟩ := m'
    obtain rfl : current = current' := h.current
    rcases current with - | - | -
    · rfl
    · exact hR.value h.a
    · exact hS.value h.b
  · intro m m' h
    change Ran.Rel _ (TwoMergeIter.next d m) (TwoMergeIter.next d m')
    rw [TwoMergeIter.next, TwoMergeIter.next, h.current]
    split
    · refine ((hR.next h.a).map ?_).bind (settle_rel hR hS)
      intro s t hst
      exact ⟨hst, h.b, rfl⟩
    · refine ((hS.next h.b).map ?_).bind (settle_rel hR hS)
      intro s t hst
      exact ⟨h.a, hst, rfl⟩
    · exact .ok h

end TwoMergeIter

end TwoMerge

end Todb

import Mathlib

/-! # Spans

Ranges of numbers given by start and length, and the end of the last of several ranges. -/

namespace Todb.Library

/-! ## The end of the last span -/

theorem le_foldl_max {α : Type*} (f : α → ℕ) (xs : List α) (init : ℕ) :
    init ≤ xs.foldl (fun stop x => max stop (f x)) init ∧
      ∀ x ∈ xs, f x ≤ xs.foldl (fun stop x => max stop (f x)) init := by
  induction xs generalizing init with
  | nil => simp
  | cons x xs ih =>
      obtain ⟨hinit, hrest⟩ := ih (max init (f x))
      refine ⟨(le_max_left _ _).trans hinit, List.forall_mem_cons.mpr ⟨?_, hrest⟩⟩
      exact (le_max_right _ _).trans hinit

theorem foldl_max_le {α : Type*} {f : α → ℕ} {xs : List α} {init stop : ℕ} (hinit : init ≤ stop)
    (h : ∀ x ∈ xs, f x ≤ stop) : xs.foldl (fun stop x => max stop (f x)) init ≤ stop := by
  induction xs generalizing init with
  | nil => exact hinit
  | cons x xs ih =>
      obtain ⟨hhead, hrest⟩ := List.forall_mem_cons.mp h
      exact ih (max_le hinit hhead) hrest

/-! ## Tilings -/

/-- Two spans do not overlap. -/
def Apart (f g : ℕ × ℕ) : Prop := f.1 + f.2 ≤ g.1 ∨ g.1 + g.2 ≤ f.1

instance (f g : ℕ × ℕ) : Decidable (Apart f g) := inferInstanceAs (Decidable (_ ∨ _))

theorem Apart.symm {f g : ℕ × ℕ} (h : Apart f g) : Apart g f := Or.symm h

theorem Apart.shift {f g : ℕ × ℕ} (h : Apart f g) (base : ℕ) :
    Apart (base + f.1, f.2) (base + g.1, g.2) := by
  unfold Apart at *
  simp only
  omega

/-- The spans follow each other from `start` to `stop`. -/
def Follows : ℕ → List (ℕ × ℕ) → ℕ → Prop
  | start, [], stop => start = stop
  | start, f :: fs, stop => f.1 = start ∧ Follows (start + f.2) fs stop

/-- In some order the spans follow each other from 0 to `stop`. -/
def Tiles (spans : List (ℕ × ℕ)) (stop : ℕ) : Prop :=
  ∃ order : List (ℕ × ℕ), order.Perm spans ∧ Follows 0 order stop

section Spans

variable {start stop : ℕ} {spans : List (ℕ × ℕ)}

theorem Follows.sum_eq (h : Follows start spans stop) :
    start + (spans.map Prod.snd).sum = stop := by
  induction spans generalizing start with
  | nil => exact h
  | cons f fs ih =>
      have hrest := ih h.2
      simp only [List.map_cons, List.sum_cons]
      omega

theorem Follows.concat {f : ℕ × ℕ} (h : Follows start spans stop) (hf : f.1 = stop) :
    Follows start (spans ++ [f]) (stop + f.2) := by
  induction spans generalizing start with
  | nil => exact ⟨hf.trans h.symm, by rw [show start = stop from h]; rfl⟩
  | cons g gs ih => exact ⟨h.1, ih h.2⟩

/-- What is laid out without gaps is the concatenation. -/
theorem Follows.take_eq {β : Type*} {image : List β} {items : List (ℕ × List β)}
    (h : Follows start (items.map fun f => (f.1, f.2.length)) stop)
    (hitems : ∀ f ∈ items, (image.drop f.1).take f.2.length = f.2) :
    (image.drop start).take (stop - start) = items.flatMap Prod.snd := by
  induction items generalizing start with
  | nil =>
      rw [show start = stop from h]
      simp
  | cons f fs ih =>
      obtain ⟨hstart, hrest⟩ := h
      obtain ⟨hf, hfs⟩ := List.forall_mem_cons.mp hitems
      have hsum := hrest.sum_eq
      simp only at hstart hsum
      have hsplit : stop - start = f.2.length + (stop - (start + f.2.length)) := by omega
      rw [hsplit, List.take_add, List.drop_drop, ih hrest hfs, List.flatMap_cons, ← hstart, hf]

theorem Follows.inside (h : Follows start spans stop) :
    ∀ f ∈ spans, start ≤ f.1 ∧ f.1 + f.2 ≤ stop := by
  induction spans generalizing start with
  | nil => simp
  | cons f fs ih =>
      intro g hg
      have hsum := h.2.sum_eq
      have hstart := h.1
      rcases List.mem_cons.mp hg with rfl | hg
      · omega
      · have := ih h.2 g hg
        omega

theorem Follows.apart (h : Follows start spans stop) : spans.Pairwise Apart := by
  induction spans generalizing start with
  | nil => exact .nil
  | cons f fs ih =>
      refine .cons (fun g hg => .inl ?_) (ih h.2)
      have hstart := h.1
      have := h.2.inside g hg
      omega

theorem Tiles.sum_eq (h : Tiles spans stop) : (spans.map Prod.snd).sum = stop := by
  obtain ⟨order, hperm, hfollows⟩ := h
  rw [← (hperm.map Prod.snd).sum_eq, ← hfollows.sum_eq, Nat.zero_add]

theorem Tiles.inside (h : Tiles spans stop) : ∀ f ∈ spans, f.1 + f.2 ≤ stop := by
  obtain ⟨order, hperm, hfollows⟩ := h
  exact fun f hf => (hfollows.inside f (hperm.mem_iff.mpr hf)).2

theorem Tiles.apart (h : Tiles spans stop) : spans.Pairwise Apart := by
  obtain ⟨order, hperm, hfollows⟩ := h
  exact hperm.pairwise hfollows.apart fun hfg => hfg.symm

end Spans

end Todb.Library

import Todb.Verification.Iterators.Merge
import Todb.Model.Sst.Builder

/-! # Sources that a merge loses

`next` takes a source out of the heap before it advances it. If that fails the source is gone
with the error, so a merge owns all its sources exactly as long as no source it takes out has
failed. Positioning keeps every source, also when it fails half-way. -/

namespace Todb

open Library

variable {ι κ ν ε : Type} [LinearOrder κ] [Cursor ι κ ν ε]

theorem HeapWrap.moveAll_levels (move : ι → Ran ε ι) (ws : List (HeapWrap ι)) :
    (moveAll move ws).state.map level = ws.map level := by
  induction ws with
  | nil => rfl
  | cons w ws ih =>
      rw [moveAll]
      rcases hmove : move w.iter with ⟨e | ⟨⟩, iter⟩
      · simp [Ran.map, Ran.bind, Ran.fail]
      · simpa [Ran.map, Ran.bind, hmove] using ih

namespace MergeIter

variable {s : MergeIter ι} {n : ℕ} {d : Direction}

/-- The levels of the sources that the merge still owns. -/
def levels (self : MergeIter ι) : List ℕ := (self.items ++ self.heap).map HeapWrap.level

/-- All of `n` sources are owned. -/
def Owns (n : ℕ) (self : MergeIter ι) : Prop := self.levels.Perm (List.range n)

/-- The source that `next` would take out of the heap does not fail. -/
def Spares (self : MergeIter ι) : Cursor.Call κ → Prop
  | .next d => self.active = d → ∀ w rest, pop d self.heap = some (w, rest) →
      (Cursor.next d w.iter).result = .ok ()
  | _ => True

/-- No call of the history finds a source that fails when it is taken out. -/
def SparesAll : List (Cursor.Call κ) → MergeIter ι → Prop
  | [], _ => True
  | c :: history, self => self.Spares c ∧ SparesAll history (Cursor.call self c).state

/-! ## One call -/

omit [LinearOrder κ] in
theorem levels_buildHeap (d : Direction) (self : MergeIter ι) (hheap : self.heap = []) :
    (self.buildHeap d).levels.Perm self.levels := by
  have hperm : (self.items.filter (fun w => !Cursor.valid w.iter) ++
      self.items.filter fun w => Cursor.valid w.iter).Perm self.items :=
    List.perm_append_comm.trans (List.filter_append_perm _ _)
  simpa [levels, buildHeap, hheap] using hperm.map HeapWrap.level

omit [LinearOrder κ] in
/-- Positioning keeps every source. -/
theorem levels_place (d : Direction) (move : ι → Ran ε ι) (self : MergeIter ι) :
    (self.place d move).state.levels.Perm self.levels := by
  have hmoved := HeapWrap.moveAll_levels move (self.items ++ self.heap)
  rw [place, drainToItems]
  rcases hrun : HeapWrap.moveAll move (self.items ++ self.heap) with ⟨e | ⟨⟩, items⟩
  · rw [hrun] at hmoved
    simpa [Ran.map, Ran.bind, Ran.fail, levels] using List.Perm.of_eq hmoved
  · rw [hrun] at hmoved
    simp only [Ran.map, Ran.bind, Ran.ok]
    refine (levels_buildHeap d _ rfl).trans (.of_eq ?_)
    simpa [levels] using hmoved

/-- `next` keeps every source unless the one it takes out fails, which it loses. -/
theorem levels_next (d : Direction) (self : MergeIter ι) :
    (self.Spares (.next d) ∧ (self.next d).state.levels.Perm self.levels) ∨
      (¬self.Spares (.next d) ∧ (self.next d).state.levels.length + 1 = self.levels.length) := by
  rw [next]
  split
  · rename_i hactive
    rcases hpop : pop d self.heap with - | ⟨w, rest⟩
    · refine .inl ⟨fun _ w rest hw => ?_, .refl _⟩
      rw [hpop] at hw
      cases hw
    · have hperm : ((self.items ++ w :: rest).map HeapWrap.level).Perm self.levels :=
        ((pop_perm hpop).append_left _).map _
      rcases hmove : Cursor.next d w.iter with ⟨e | ⟨⟩, iter⟩
      · refine .inr ⟨fun hspares => ?_, ?_⟩
        · have hok := hspares hactive w rest hpop
          rw [hmove] at hok
          cases hok
        · have hlength := hperm.length_eq
          simp only [levels, List.length_map, List.length_append, List.length_cons] at hlength
          simp only [hmove, Ran.chain, Ran.fail, levels, List.length_map, List.length_append]
          omega
      · refine .inl ⟨?_, ?_⟩
        · intro _ w' rest' hw
          obtain ⟨rfl, rfl⟩ := Prod.mk.inj (Option.some.inj (hpop.symm.trans hw))
          rw [hmove]
        · refine List.Perm.trans ?_ hperm
          simp only [hmove, Ran.chain]
          split
          · simp only [Ran.ok, levels, List.map_append]
            exact (List.perm_append_singleton _ _).append_left _
          · simp [Ran.ok, levels]
  · rename_i hactive
    exact .inl ⟨fun h => absurd h hactive, .refl _⟩

theorem levels_call (self : MergeIter ι) (c : Cursor.Call κ) :
    (self.Spares c ∧ (Cursor.call self c).state.levels.Perm self.levels) ∨
      (¬self.Spares c ∧ (Cursor.call self c).state.levels.length + 1 = self.levels.length) := by
  cases c with
  | seekToFirst d => exact .inl ⟨trivial, levels_place d _ self⟩
  | seek d target => exact .inl ⟨trivial, levels_place d _ self⟩
  | next d => exact levels_next d self

/-! ## A history of calls -/

theorem levels_after (history : List (Cursor.Call κ)) (self : MergeIter ι) :
    (SparesAll history self ∧ (Cursor.after history self).levels.Perm self.levels) ∨
      (¬SparesAll history self ∧
        (Cursor.after history self).levels.length < self.levels.length) := by
  induction history generalizing self with
  | nil => exact .inl ⟨trivial, .refl _⟩
  | cons c history ih =>
      change (_ ∧ (Cursor.after history (Cursor.call self c).state).levels.Perm _) ∨
        (_ ∧ (Cursor.after history (Cursor.call self c).state).levels.length < _)
      rcases levels_call self c with ⟨hspares, hperm⟩ | ⟨hfails, hlength⟩
      · rcases ih (Cursor.call self c).state with ⟨hall, hrest⟩ | ⟨hnot, hlt⟩
        · exact .inl ⟨⟨hspares, hall⟩, hrest.trans hperm⟩
        · exact .inr ⟨fun h => hnot h.2, hperm.length_eq ▸ hlt⟩
      · refine .inr ⟨fun h => hfails h.1, ?_⟩
        rcases ih (Cursor.call self c).state with ⟨-, hrest⟩ | ⟨-, hlt⟩
        · have := hrest.length_eq
          omega
        · omega

omit [LinearOrder κ] [Cursor ι κ ν ε] in
theorem levels_new (iters : List ι) : (new iters).levels = List.range iters.length := by
  simp only [levels, new, List.append_nil]
  exact List.ext_getElem (by simp) fun i hi hi' => by simp

theorem owns_after_iff (iters : List ι) (history : List (Cursor.Call κ)) :
    Owns iters.length (Cursor.after history (new iters)) ↔ SparesAll history (new iters) := by
  rw [Owns, ← levels_new]
  rcases levels_after history (new iters) with ⟨hall, hperm⟩ | ⟨hnot, hlt⟩
  · exact ⟨fun _ => hall, fun _ => hperm⟩
  · exact ⟨fun h => absurd h.length_eq hlt.ne, fun h => absurd h hnot⟩

end MergeIter

/-- After any calls, of which any may have failed, a merge owns all its sources exactly if none of
those that `next` took out failed. As long as it does, and its sources work from then on, any
positioning enumerates the entries of every source. -/
theorem merge_owns_iff (iters : List ι) (history : List (Cursor.Call κ)) :
    (MergeIter.Owns iters.length (Cursor.after history (MergeIter.new iters)) ↔
      MergeIter.SparesAll history (MergeIter.new iters)) ∧
    (MergeIter.SparesAll history (MergeIter.new iters) →
      ∀ (seqs : ℕ → Direction → List (κ × ν)) (merged : Direction → List (κ × ν)),
        (∀ (i : ℕ) (d : Direction), d.Strict (seqs i d)) →
        (∀ d, Merges d ((List.range iters.length).map fun i => (i, seqs i d)) (merged d)) →
        (∀ w ∈ (Cursor.after history (MergeIter.new iters)).items ++
            (Cursor.after history (MergeIter.new iters)).heap,
          Cursor.Iterates (seqs w.level) w.iter) →
        Cursor.Iterates merged (Cursor.after history (MergeIter.new iters))) := by
  refine ⟨MergeIter.owns_after_iff iters history, ?_⟩
  intro hall seqs merged hstrict hmerged hiterates
  have howns := (MergeIter.owns_after_iff iters history).mpr hall
  exact (MergeIter.simulation hstrict hmerged).iterates ⟨howns, hiterates⟩

/-- The entries of two blocks, the second one of the first block with an unknown kind. -/
def corruptSources : Outcome (List (DataEntryDecodeIter NormalBlockIter)) := do
  let a ← NormalBlockIter.new (finishBlock 64 [([1], [1, 0, 7]), ([3], [1, 2, 9])])
  let b ← NormalBlockIter.new (finishBlock 64 [([2], [1, 0, 8])])
  return [.new a, .new b]

/-- `next` fails on the first source. That source can still be positioned, but the merge is left
with the second one only and is positioned without an error. -/
theorem merge_loses_source :
    ∃ a b, corruptSources = .ok [a, b] ∧
      let m := (Cursor.seekToFirst .forward (MergeIter.new [a, b])).state
      let lost := (Cursor.next .forward m).state
      let again := Cursor.seekToFirst .forward lost
      Cursor.key m = .ok (some [1]) ∧
      (Cursor.next .forward m).result = .error (.err (.invalidValue "invalid entry kind: 2")) ∧
      lost.levels = [1] ∧ (Cursor.seekToFirst .forward a).result = .ok () ∧
      again.result = .ok () ∧ Cursor.collect .forward 4 again.state = .ok [([2], .put [8])] := by
  refine ⟨_, _, rfl, ?_⟩
  decide +kernel

end Todb

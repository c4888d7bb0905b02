import Mathlib
import Todb.Library.Run

/-! # Two-way cursors over key/value sequences

A cursor is positioned by `seekToFirst` or `seek` and advanced by `next`, in either
direction. `Iterates` says what it means for a cursor to run through a given
sequence in each direction from every state it can be brought into. -/

namespace Todb.Library

/-- The direction of a scan: towards larger or towards smaller keys. -/
inductive Direction
  | forward
  | reverse
deriving DecidableEq, Repr

/-- The operations of a cursor. A read may fail, and a failed move leaves a state. -/
class Cursor (ι : Type) (κ ν ε : outParam Type) where
  valid : ι → Bool
  key : ι → Except ε (Option κ)
  value : ι → Except ε (Option ν)
  seekToFirst : Direction → ι → Ran ε ι
  seek : Direction → ι → κ → Ran ε ι
  next : Direction → ι → Ran ε ι

namespace Cursor

variable {ι κ ν ε : Type} [Cursor ι κ ν ε]

/-- Reading and stepping until the cursor is invalid. -/
def collect (d : Direction) : ℕ → ι → Except ε (List (κ × ν))
  | 0, _ => .ok []
  | fuel + 1, s =>
      if valid s then do
        let k ← key s
        let v ← value s
        let rest ← collect d fuel (← (next d s).outcome)
        return (k.toList.zip v.toList) ++ rest
      else .ok []

/-- Repeated stepping. -/
def nexts (d : Direction) : ℕ → ι → Ran ε ι
  | 0, s => .ok s
  | n + 1, s => (next d s).bind (nexts d n)

/-- However often the cursor is stepped, it reads the corresponding entry of `l`, and
nothing once `l` is used up. -/
def Yields (d : Direction) (s : ι) (l : List (κ × ν)) : Prop :=
  ∀ n, ∃ s', nexts d n s = .ok s' ∧ valid s' = decide (n < l.length) ∧
    key s' = .ok (l[n]?.map Prod.fst) ∧ value s' = .ok (l[n]?.map Prod.snd)

/-- What a cursor yields is determined by its state. -/
theorem Yields.unique {d : Direction} {s : ι} {l l' : List (κ × ν)} (h : Yields d s l)
    (h' : Yields d s l') : l = l' := by
  refine List.ext_getElem? (fun n => ?_)
  obtain ⟨s₁, hs₁, -, hkey, hvalue⟩ := h n
  obtain ⟨s₂, hs₂, -, hkey', hvalue'⟩ := h' n
  obtain rfl := Ran.ok_inj.mp (hs₁.symm.trans hs₂)
  have hk := Except.ok.inj (hkey.symm.trans hkey')
  have hv := Except.ok.inj (hvalue.symm.trans hvalue')
  cases hl : l[n]? with
  | none =>
      rw [hl] at hk
      simpa using hk
  | some e =>
      cases hl' : l'[n]? with
      | none =>
          rw [hl, hl'] at hk
          cases hk
      | some e' =>
          rw [hl, hl'] at hk hv
          simp only [Option.map_some, Option.some.injEq] at hk hv
          rw [Prod.ext hk hv]

/-- Stepping in the given directions, one after the other. -/
def steps : List Direction → ι → Ran ε ι
  | [], s => .ok s
  | d :: ds, s => (next d s).bind (steps ds)

/-- However the two cursors are stepped, all steps succeed and they read the same. -/
def Agree (s s' : ι) : Prop :=
  ∀ ds, ∃ t t', steps ds s = .ok t ∧ steps ds s' = .ok t' ∧ valid t = valid t' ∧
    key t = key t' ∧ value t = value t'

/-- Cursors that read the same now and after every step agree. -/
theorem Agree.of_bisimulation {R : ι → ι → Prop}
    (hread : ∀ {s s'}, R s s' → valid s = valid s' ∧ key s = key s' ∧ value s = value s')
    (hnext : ∀ {s s'} d, R s s' → ∃ t t', next d s = .ok t ∧ next d s' = .ok t' ∧ R t t')
    {s s' : ι} (hR : R s s') : Agree s s' := by
  intro ds
  induction ds generalizing s s' with
  | nil => exact ⟨s, s', rfl, rfl, hread hR⟩
  | cons d ds ih =>
      obtain ⟨t, t', ht, ht', hR'⟩ := hnext d hR
      obtain ⟨u, u', hu, hu', hsame⟩ := ih hR'
      exact ⟨u, u', by simpa [steps, ht] using hu, by simpa [steps, ht'] using hu', hsame⟩

/-- `at' d s l` says that `s` stands before `l`, and stepping preserves this. -/
structure Stepping (at' : Direction → ι → List (κ × ν) → Prop) : Prop where
  read : ∀ {d s l}, at' d s l → valid s = !l.isEmpty ∧
    key s = .ok (l.head?.map Prod.fst) ∧ value s = .ok (l.head?.map Prod.snd)
  next : ∀ {d s l}, at' d s l → ∃ s', Cursor.next d s = .ok s' ∧ at' d s' l.tail

theorem Stepping.yields {at' : Direction → ι → List (κ × ν) → Prop} (h : Stepping at')
    {d : Direction} {s : ι} {l : List (κ × ν)} (hat : at' d s l) : Yields d s l := by
  intro n
  induction n generalizing s l with
  | zero =>
      obtain ⟨hvalid, hkey, hvalue⟩ := h.read hat
      cases l with
      | nil => exact ⟨s, rfl, by simpa using hvalid, by simpa using hkey, by simpa using hvalue⟩
      | cons => exact ⟨s, rfl, by simpa using hvalid, by simpa using hkey, by simpa using hvalue⟩
  | succ n ih =>
      obtain ⟨s₁, hnext, hat₁⟩ := h.next hat
      obtain ⟨s', hnexts, hvalid, hkey, hvalue⟩ := ih hat₁
      have hiff : (n < l.length - 1) ↔ (n + 1 < l.length) := by omega
      exact ⟨s', by simpa [nexts, hnext] using hnexts, by simpa [hiff] using hvalid,
        by simpa using hkey, by simpa using hvalue⟩

/-- States that a cursor never leaves by steps that succeed, and in all of which it is valid. -/
structure Endless (d : Direction) (P : ι → Prop) : Prop where
  valid : ∀ {s}, P s → Cursor.valid s = true
  next : ∀ {s s'}, P s → Cursor.next d s = .ok s' → P s'

theorem endless_false (d : Direction) : Endless d fun _ : ι => False :=
  ⟨False.elim, fun h _ => h⟩

/-- Entries a positioned scan leaves behind: smaller keys forward, larger keys in reverse. -/
def before [LinearOrder κ] (d : Direction) (target : κ) (entry : κ × ν) : Bool :=
  match d with
  | .forward => decide (entry.1 < target)
  | .reverse => decide (target < entry.1)

/-- A call that moves a cursor. -/
inductive Call (κ : Type)
  | seekToFirst (d : Direction)
  | seek (d : Direction) (target : κ)
  | next (d : Direction)

def call (s : ι) : Call κ → Ran ε ι
  | .seekToFirst d => seekToFirst d s
  | .seek d target => seek d s target
  | .next d => next d s

/-- A history of calls. -/
def calls : List (Call κ) → ι → Ran ε ι
  | [], s => .ok s
  | c :: history, s => (call s c).bind (calls history)

theorem calls_append (history later : List (Call κ)) (s : ι) :
    calls (history ++ later) s = (calls history s).bind (calls later) := by
  induction history generalizing s with
  | nil => rfl
  | cons c history ih =>
      simp only [List.cons_append, calls]
      cases hc : call s c with
      | mk result t =>
          cases result with
          | ok => exact ih t
          | error e => rfl

/-- The state that a history of calls leaves, of which any may fail. -/
def after (history : List (Call κ)) (s : ι) : ι := history.foldl (fun s c => (call s c).state) s

@[simp] theorem after_nil (s : ι) : after [] s = s := rfl

@[simp] theorem after_concat (history : List (Call κ)) (c : Call κ) (s : ι) :
    after (history ++ [c]) s = (call (after history s) c).state := by
  simp [after]

variable [LinearOrder κ]

/-- The cursor runs through `seqs` in each direction: whatever calls come first, it can be
positioned at the start, or at a target, and then yields the entries from there on. -/
def Iterates (seqs : Direction → List (κ × ν)) (s : ι) : Prop :=
  ∀ history s', calls history s = .ok s' → ∀ d,
    (∃ t, seekToFirst d s' = .ok t ∧ Yields d t (seqs d)) ∧
      ∀ target, ∃ t, seek d s' target = .ok t ∧
        Yields d t ((seqs d).filter fun e => !before d target e)

/-- `inv` and `at'` witness that a cursor iterates `seqs`: every state in `inv` can be
repositioned, and `at' d s l` says that stepping in direction `d` yields `l`. -/
structure Simulation (seqs : Direction → List (κ × ν)) (inv : ι → Prop)
    (at' : Direction → ι → List (κ × ν) → Prop) : Prop extends Stepping at' where
  inv_of_at : ∀ {d s l}, at' d s l → inv s
  seekToFirst : ∀ {s} d, inv s → ∃ s', Cursor.seekToFirst d s = .ok s' ∧ at' d s' (seqs d)
  seek : ∀ {s} d target, inv s → ∃ s', Cursor.seek d s target = .ok s' ∧
    at' d s' ((seqs d).filter fun e => !before d target e)
  next_inv : ∀ {s s'} d, inv s → Cursor.next d s = .ok s' → inv s'

variable {seqs : Direction → List (κ × ν)} {inv : ι → Prop}
  {at' : Direction → ι → List (κ × ν) → Prop} {d : Direction} {s s' : ι} {l : List (κ × ν)}

theorem Simulation.inv_calls (h : Simulation seqs inv at') {history : List (Call κ)} (hs : inv s)
    (hcalls : calls history s = .ok s') : inv s' := by
  induction history generalizing s with
  | nil => exact Ran.ok_inj.mp hcalls ▸ hs
  | cons c history ih =>
      obtain ⟨t, ht, hrest⟩ := Ran.bind_eq_ok.mp hcalls
      refine ih ?_ hrest
      cases c with
      | seekToFirst d =>
          obtain ⟨u, hu, hat⟩ := h.seekToFirst d hs
          exact Ran.ok_inj.mp (hu.symm.trans ht) ▸ h.inv_of_at hat
      | seek d target =>
          obtain ⟨u, hu, hat⟩ := h.seek d target hs
          exact Ran.ok_inj.mp (hu.symm.trans ht) ▸ h.inv_of_at hat
      | next d => exact h.next_inv d hs ht

theorem Simulation.iterates (h : Simulation seqs inv at') (hs : inv s) : Iterates seqs s := by
  intro history s' hcalls d
  have hs' := h.inv_calls hs hcalls
  refine ⟨?_, fun target => ?_⟩
  · obtain ⟨t, ht, hat⟩ := h.seekToFirst d hs'
    exact ⟨t, ht, h.yields hat⟩
  · obtain ⟨t, ht, hat⟩ := h.seek d target hs'
    exact ⟨t, ht, h.yields hat⟩

omit [LinearOrder κ] in
theorem Yields.read (h : Yields d s l) : valid s = !l.isEmpty ∧
    key s = .ok (l.head?.map Prod.fst) ∧ value s = .ok (l.head?.map Prod.snd) := by
  obtain ⟨t, ht, hvalid, hkey, hvalue⟩ := h 0
  obtain rfl := Ran.ok_inj.mp ht
  rw [List.head?_eq_getElem?]
  refine ⟨hvalid.trans ?_, hkey, hvalue⟩
  cases l <;> rfl

omit [LinearOrder κ] in
theorem Yields.next (h : Yields d s l) : ∃ s', Cursor.next d s = .ok s' ∧ Yields d s' l.tail := by
  obtain ⟨s', hs', -⟩ := h 1
  obtain ⟨t, ht, hrefl⟩ := Ran.bind_eq_ok.mp hs'
  obtain rfl := Ran.ok_inj.mp hrefl
  refine ⟨t, ht, fun n => ?_⟩
  obtain ⟨u, hu, hvalid, hkey, hvalue⟩ := h (n + 1)
  have hiff : (n < l.length - 1) ↔ (n + 1 < l.length) := by omega
  exact ⟨u, by simpa [nexts, ht] using hu, by simpa [hiff] using hvalid, by simpa using hkey,
    by simpa using hvalue⟩

theorem Iterates.call (h : Iterates seqs s) {c : Call κ} (hc : Cursor.call s c = .ok s') :
    Iterates seqs s' := by
  intro history t ht
  exact h (c :: history) t (by rw [calls, hc]; exact ht)

/-- An iterating cursor that stands before `l` in direction `d`. -/
structure StandsAt (seqs : Direction → List (κ × ν)) (d : Direction) (s : ι)
    (l : List (κ × ν)) : Prop where
  iterates : Iterates seqs s
  yields : Yields d s l

/-- Iterating cursors simulate their sequences. -/
theorem simulation_iterates : Simulation (ι := ι) seqs (Iterates seqs) (StandsAt seqs) where
  inv_of_at hat := hat.iterates
  read hat := hat.yields.read
  next hat := by
    obtain ⟨s', hs', hyields⟩ := hat.yields.next
    exact ⟨s', hs', hat.iterates.call (c := .next _) hs', hyields⟩
  seekToFirst d hs := by
    obtain ⟨t, ht, hyields⟩ := (hs [] _ rfl d).1
    exact ⟨t, ht, hs.call (c := .seekToFirst d) ht, hyields⟩
  seek d target hs := by
    obtain ⟨t, ht, hyields⟩ := (hs [] _ rfl d).2 target
    exact ⟨t, ht, hs.call (c := .seek d target) ht, hyields⟩
  next_inv d hs hnext := hs.call (c := .next d) hnext

end Cursor

end Todb.Library

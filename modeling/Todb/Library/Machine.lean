import Mathlib.Logic.Relation
import Mathlib.Algebra.BigOperators.Group.Finset.Basic
import Mathlib.Tactic

/-! # Labelled machines

A machine takes a step for a label when it is enabled. A run is disciplined when every step
meets a condition on the state it starts from. -/

namespace Todb.Library

variable {σ ℓ : Type*}

-- Runs of one or two threads number them by literals of `Fin 1` and `Fin 2`.
instance neZeroOne : NeZero 1 := ⟨Nat.one_ne_zero⟩

instance neZeroTwo : NeZero 2 := ⟨by decide⟩

/-- States reached by steps that all meet `ok`. -/
inductive Reaches (step : σ → ℓ → Option σ) (ok : σ → ℓ → Prop) (init : σ) : σ → Prop
  | start : Reaches step ok init init
  | next {s s' : σ} {l : ℓ} (h : Reaches step ok init s) (hok : ok s l)
      (hstep : step s l = some s') : Reaches step ok init s'

/-- The state after a sequence of labels, if every one of them is enabled. -/
def execute (step : σ → ℓ → Option σ) : List ℓ → σ → Option σ
  | [], s => some s
  | l :: ls, s => (step s l).bind (execute step ls)

/-- What every step keeps holds at the end of a run. -/
theorem execute_invariant {step : σ → ℓ → Option σ} {I : σ → Prop}
    (hinv : ∀ {s l s'}, I s → step s l = some s' → I s') {ls : List ℓ} {s t : σ} (hI : I s)
    (h : execute step ls s = some t) : I t := by
  induction ls generalizing s with
  | nil => exact Option.some.inj h ▸ hI
  | cons l ls ih =>
      obtain ⟨mid, hmid, hrest⟩ := Option.bind_eq_some_iff.mp h
      exact ih (hinv hI hmid) hrest

/-- Repeating one label leads to one halted state at most. -/
theorem execute_replicate_unique {step : σ → ℓ → Option σ} {l : ℓ} {s a b : σ} {m n : ℕ}
    (ha : execute step (List.replicate m l) s = some a) (hhalt : step a l = none)
    (hb : execute step (List.replicate n l) s = some b) (hhalt' : step b l = none) : a = b := by
  induction m generalizing s n with
  | zero =>
      obtain rfl := Option.some.inj ha
      cases n with
      | zero => exact Option.some.inj hb
      | succ n => simp [execute, List.replicate_succ, hhalt] at hb
  | succ m ih =>
      obtain ⟨mid, hmid, ha⟩ := Option.bind_eq_some_iff.mp ha
      cases n with
      | zero =>
          obtain rfl := Option.some.inj hb
          simp [hhalt'] at hmid
      | succ n =>
          obtain ⟨mid', hmid', hb⟩ := Option.bind_eq_some_iff.mp hb
          obtain rfl := Option.some.inj (hmid.symm.trans hmid')
          exact ih ha hb

/-- Every step of the run that the labels lead through meets `ok`. -/
def Disciplined (step : σ → ℓ → Option σ) (ok : σ → ℓ → Prop) : List ℓ → σ → Prop
  | [], _ => True
  | l :: ls, s => ok s l ∧ ∀ s' ∈ step s l, Disciplined step ok ls s'

instance Disciplined.instDecidable (step : σ → ℓ → Option σ) (ok : σ → ℓ → Prop)
    [∀ s l, Decidable (ok s l)] (ls : List ℓ) (s : σ) : Decidable (Disciplined step ok ls s) :=
  match ls with
  | [] => .isTrue trivial
  | l :: ls =>
      match h : step s l with
      | none => decidable_of_iff (ok s l) (by simp [Disciplined, h])
      | some s' =>
          have := Disciplined.instDecidable step ok ls s'
          decidable_of_iff (ok s l ∧ Disciplined step ok ls s') (by simp [Disciplined, h])

theorem Disciplined.mono {step : σ → ℓ → Option σ} {ok ok' : σ → ℓ → Prop}
    (hsub : ∀ {s l}, ok s l → ok' s l) {ls : List ℓ} {s : σ} (h : Disciplined step ok ls s) :
    Disciplined step ok' ls s := by
  induction ls generalizing s with
  | nil => trivial
  | cons l ls ih => exact ⟨hsub h.1, fun s' hs' => ih (h.2 s' hs')⟩

/-- A run in two parts. -/
theorem Disciplined.append {step : σ → ℓ → Option σ} {ok : σ → ℓ → Prop} {ls ls' : List ℓ}
    {s t u : σ} (h : Disciplined step ok (ls ++ ls') s) (hmid : execute step ls s = some t)
    (hexec : execute step (ls ++ ls') s = some u) :
    Disciplined step ok ls s ∧ Disciplined step ok ls' t ∧ execute step ls' t = some u := by
  induction ls generalizing s with
  | nil =>
      obtain rfl := Option.some.inj hmid
      exact ⟨trivial, h, hexec⟩
  | cons l ls ih =>
      obtain ⟨s', hs', hmid⟩ := Option.bind_eq_some_iff.mp hmid
      obtain ⟨s'', hs'', hexec⟩ := Option.bind_eq_some_iff.mp hexec
      obtain rfl := Option.some.inj (hs'.symm.trans hs'')
      obtain ⟨hfirst, hsecond⟩ := ih (h.2 s' hs') hmid hexec
      refine ⟨⟨h.1, fun mid hmid => ?_⟩, hsecond⟩
      obtain rfl := Option.some.inj (hs'.symm.trans hmid)
      exact hfirst

/-- Every state that the labels lead through has `P`. -/
def Throughout (step : σ → ℓ → Option σ) (P : σ → Prop) : List ℓ → σ → Prop
  | [], s => P s
  | l :: ls, s => P s ∧ ∀ s' ∈ step s l, Throughout step P ls s'

theorem Throughout.head {step : σ → ℓ → Option σ} {P : σ → Prop} {ls : List ℓ} {s : σ}
    (h : Throughout step P ls s) : P s := by
  cases ls with
  | nil => exact h
  | cons l ls => exact h.1

/-- If a step between two states of `I` keeps `P` exactly when it meets `ok`, then a run keeps
`P` exactly when it is disciplined. -/
theorem throughout_iff_disciplined {step : σ → ℓ → Option σ} {ok : σ → ℓ → Prop} {I P : σ → Prop}
    (hinv : ∀ {s l s'}, I s → step s l = some s' → I s')
    (hstep : ∀ {s l s'}, I s → P s → step s l = some s' → (P s' ↔ ok s l))
    {ls : List ℓ} {s t : σ} (hI : I s) (hP : P s) (hexec : execute step ls s = some t) :
    Throughout step P ls s ↔ Disciplined step ok ls s := by
  induction ls generalizing s with
  | nil => exact iff_of_true hP trivial
  | cons l ls ih =>
      obtain ⟨mid, hmid, hrest⟩ := Option.bind_eq_some_iff.mp hexec
      simp only [Throughout, Disciplined, hmid, Option.mem_some_iff, forall_eq', hP, true_and]
      constructor
      · intro hlater
        have hmidP := hlater.head
        exact ⟨(hstep hI hP hmid).mp hmidP, (ih (hinv hI hmid) hmidP hrest).mp hlater⟩
      · rintro ⟨hok, hlater⟩
        exact (ih (hinv hI hmid) ((hstep hI hP hmid).mpr hok) hrest).mpr hlater

namespace Reaches

variable {step : σ → ℓ → Option σ} {ok ok' : σ → ℓ → Prop} {init s s' : σ}

/-- The invariant rule. -/
theorem invariant {P : σ → Prop} (hinit : P init)
    (hstep : ∀ {s l s'}, P s → ok s l → step s l = some s' → P s')
    (h : Reaches step ok init s) : P s := by
  induction h with
  | start => exact hinit
  | next _ hok hs ih => exact hstep ih hok hs

theorem of_execute {ls : List ℓ} (h : Reaches step ok init s) (hok : Disciplined step ok ls s)
    (hexec : execute step ls s = some s') : Reaches step ok init s' := by
  induction ls generalizing s with
  | nil => exact Option.some.inj hexec ▸ h
  | cons l ls ih =>
      obtain ⟨mid, hmid, hrest⟩ := Option.bind_eq_some_iff.mp hexec
      exact ih (h.next hok.1 hmid) (hok.2 mid hmid) hrest

/-- A state that a sequence of labels leads to, described by what is observed of it. -/
theorem exists_of_execute {α : Type*} (ls : List ℓ) (f : σ → α) (a : α)
    (hok : Disciplined step ok ls init) (hexec : (execute step ls init).map f = some a) :
    ∃ s, Reaches step ok init s ∧ f s = a := by
  obtain ⟨s, hs, hf⟩ := Option.map_eq_some_iff.mp hexec
  exact ⟨s, start.of_execute hok hs, hf⟩

theorem mono (hsub : ∀ {s l}, ok s l → ok' s l) (h : Reaches step ok init s) :
    Reaches step ok' init s := by
  induction h with
  | start => exact .start
  | next _ hok hs ih => exact ih.next (hsub hok) hs

end Reaches

/-! ## Threads -/

/-- What a thread's new program counter says about it, and the others' as before. -/
theorem update_cases {ι π α : Type*} [DecidableEq ι] {f : ι → π} {t u : ι} {a : π}
    {role : π → Option α} {x : α} (h : role (Function.update f t a u) = some x) :
    u = t ∧ role a = some x ∨ u ≠ t ∧ role (f u) = some x := by
  by_cases hu : u = t
  · subst hu
    exact .inl ⟨rfl, by simpa using h⟩
  · exact .inr ⟨hu, by simpa [hu] using h⟩


/-- Changing one thread changes a sum over all threads by that thread's share. -/
theorem sum_update {ι π M : Type*} [Fintype ι] [DecidableEq ι] [AddCommMonoid M]
    (f : ι → π) (t : ι) (a : π) (w : π → M) :
    (∑ u, w (Function.update f t a u)) + w (f t) = (∑ u, w (f u)) + w a := by
  have hupdate := Finset.sum_update_of_mem (Finset.mem_univ t) (fun u => w (f u)) (w a)
  have hsplit := Finset.add_sum_erase Finset.univ (fun u => w (f u)) (Finset.mem_univ t)
  have hcongr : ∀ u, w (Function.update f t a u) =
      Function.update (fun u => w (f u)) t (w a) u := by
    intro u
    by_cases hu : u = t
    · subst hu
      simp
    · simp [hu]
  rw [Finset.sum_congr rfl fun u _ => hcongr u, hupdate, ← hsplit, Finset.sdiff_singleton_eq_erase]
  abel

end Todb.Library

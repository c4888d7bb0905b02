import Mathlib.Data.List.Basic

/-! # Results of calls that update their receiver

A method that takes its receiver by mutable reference leaves a state behind even
when it fails, so its result pairs the returned value with that state. -/

namespace Todb.Library

/-- What a mutating call returned and the state it left behind. -/
structure Ran (ε σ : Type*) where
  result : Except ε Unit
  state : σ
deriving DecidableEq

namespace Ran

variable {ε σ τ α : Type*}

def ok (s : σ) : Ran ε σ := ⟨.ok (), s⟩

def fail (e : ε) (s : σ) : Ran ε σ := ⟨.error e, s⟩

/-- Sequencing: a failed call stops, keeping the state it reached. -/
def bind (r : Ran ε σ) (f : σ → Ran ε σ) : Ran ε σ :=
  match r.result with
  | .ok () => f r.state
  | .error e => fail e r.state

/-- Sequencing into a different state type; `g` projects the state of a failed call. -/
def chain (r : Ran ε σ) (g : σ → τ) (f : σ → Ran ε τ) : Ran ε τ :=
  match r.result with
  | .ok () => f r.state
  | .error e => fail e (g r.state)

/-- A call on a component, seen as a call on the whole. -/
def map (f : σ → τ) (r : Ran ε σ) : Ran ε τ := ⟨r.result, f r.state⟩

/-- Continue with a value that is computed without changing the state. -/
def read (r : Except ε α) (s : σ) (f : α → Ran ε σ) : Ran ε σ :=
  match r with
  | .ok a => f a
  | .error e => fail e s

/-- The final state of a call whose receiver is dropped on failure. -/
def outcome (r : Ran ε σ) : Except ε σ :=
  match r.result with
  | .ok () => .ok r.state
  | .error e => .error e

@[simp] theorem bind_ok (s : σ) (f : σ → Ran ε σ) : (ok s).bind f = f s := rfl

@[simp] theorem bind_fail (e : ε) (s : σ) (f : σ → Ran ε σ) :
    (fail e s).bind f = fail e s := rfl

@[simp] theorem chain_ok (s : σ) (g : σ → τ) (f : σ → Ran ε τ) : (ok s).chain g f = f s := rfl

@[simp] theorem chain_fail (e : ε) (s : σ) (g : σ → τ) (f : σ → Ran ε τ) :
    (fail e s).chain g f = fail e (g s) := rfl

@[simp] theorem map_ok (f : σ → τ) (s : σ) : (ok s : Ran ε σ).map f = ok (f s) := rfl

@[simp] theorem map_fail (f : σ → τ) (e : ε) (s : σ) : (fail e s).map f = fail e (f s) := rfl

@[simp] theorem read_ok (a : α) (s : σ) (f : α → Ran ε σ) :
    read (.ok a) s f = f a := rfl

@[simp] theorem read_error (e : ε) (s : σ) (f : α → Ran ε σ) :
    read (.error e) s f = fail e s := rfl

@[simp] theorem outcome_ok (s : σ) : (ok s : Ran ε σ).outcome = .ok s := rfl

@[simp] theorem outcome_fail (e : ε) (s : σ) : (fail e s).outcome = .error e := rfl

@[simp] theorem ok_inj {s t : σ} : (ok s : Ran ε σ) = ok t ↔ s = t := by
  simp [ok]

theorem bind_eq_ok {r : Ran ε σ} {f : σ → Ran ε σ} {t : σ} :
    r.bind f = ok t ↔ ∃ s, r = ok s ∧ f s = ok t := by
  obtain ⟨result, s⟩ := r
  cases result with
  | ok => exact ⟨fun h => ⟨s, rfl, h⟩, fun ⟨_, hs, ht⟩ => ok_inj.mp hs ▸ ht⟩
  | error e => simp [bind, ok, fail]

theorem map_eq_ok {r : Ran ε σ} {f : σ → τ} {t : τ} :
    r.map f = ok t ↔ ∃ s, r = ok s ∧ f s = t := by
  obtain ⟨result, s⟩ := r
  cases result with
  | ok => exact ⟨fun h => ⟨s, rfl, ok_inj.mp h⟩, fun ⟨_, hs, ht⟩ => by
      obtain rfl := ok_inj.mp hs
      exact ok_inj.mpr ht⟩
  | error e => simp [map, ok]

theorem outcome_eq_ok {r : Ran ε σ} {t : σ} : r.outcome = .ok t ↔ r = ok t := by
  obtain ⟨result, s⟩ := r
  cases result with
  | ok => simp [outcome, ok]
  | error e => simp [outcome, ok]

theorem read_eq_ok {r : Except ε α} {s t : σ} {f : α → Ran ε σ} :
    read r s f = ok t ↔ ∃ a, r = .ok a ∧ f a = ok t := by
  cases r with
  | ok a => simp
  | error e => simp [read, fail, ok]

@[simp] theorem fail_ne_ok (e : ε) (s t : σ) : fail e s ≠ ok t := by
  simp [fail, ok]

/-- What holds of the state whether a call fails or not. -/
theorem bind_state {P : σ → Prop} {r : Ran ε σ} {f : σ → Ran ε σ} (hr : P r.state)
    (hf : ∀ s, P s → P (f s).state) : P (r.bind f).state := by
  unfold bind
  split
  · exact hf _ hr
  · exact hr

theorem read_state {P : σ → Prop} {r : Except ε α} {s : σ} {f : α → Ran ε σ} (hs : P s)
    (hf : ∀ a, P (f a).state) : P (read r s f).state := by
  cases r with
  | ok a => exact hf a
  | error e => exact hs

end Ran

/-! ## Specifications of fallible calls -/

section Meets

universe u

variable {ε : Type*} {α β : Type u}

/-- The call returns a value with `P`, or fails for a reason that is admitted. -/
def Meets (admits : ε → Prop) (P : α → Prop) : Except ε α → Prop
  | .ok a => P a
  | .error e => admits e

variable {admits : ε → Prop} {P : α → Prop} {Q : β → Prop}

@[simp] theorem meets_ok {a : α} : Meets admits P (.ok a) ↔ P a := .rfl

@[simp] theorem meets_error {e : ε} : Meets admits P (.error e : Except ε α) ↔ admits e := .rfl

theorem Meets.bind {x : Except ε α} {f : α → Except ε β} (h : Meets admits P x)
    (hf : ∀ a, P a → Meets admits Q (f a)) : Meets admits Q (x >>= f) := by
  cases x with
  | ok a => exact hf a h
  | error e => exact h

theorem Meets.mono {x : Except ε α} {P' : α → Prop} (h : Meets admits P x)
    (hP : ∀ a, P a → P' a) : Meets admits P' x := by
  cases x with
  | ok a => exact hP a h
  | error e => exact h

theorem Meets.weaken {x : Except ε α} {admits' : ε → Prop} (h : Meets admits P x)
    (hsub : ∀ e, admits e → admits' e) : Meets admits' P x := by
  cases x with
  | ok a => exact h
  | error e => exact hsub e h

theorem Meets.ite {c : Prop} [Decidable c] {x y : Except ε α} (hx : c → Meets admits P x)
    (hy : ¬ c → Meets admits P y) : Meets admits P (if c then x else y) := by
  split
  · exact hx ‹_›
  · exact hy ‹_›

theorem Meets.exists_ok {x : Except ε α} (h : Meets admits P x)
    (hx : ∀ e, admits e → x ≠ .error e) : ∃ a, x = .ok a ∧ P a := by
  cases x with
  | ok a => exact ⟨a, rfl, h⟩
  | error e => exact absurd rfl (hx e h)

end Meets

end Todb.Library

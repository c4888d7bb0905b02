import Todb.Library.Cursor

/-! # Cursors that go on alike

Two states of a cursor are alike in a direction when they read the same and stepping keeps
them alike, whether or not the steps succeed. -/

namespace Todb.Library

namespace Ran

variable {ε σ τ : Type}

/-- The same result, in related states. -/
def Rel (R : σ → τ → Prop) (r : Ran ε σ) (r' : Ran ε τ) : Prop :=
  r.result = r'.result ∧ R r.state r'.state

theorem Rel.ok {R : σ → τ → Prop} {s : σ} {t : τ} (h : R s t) :
    Rel R (.ok s : Ran ε σ) (.ok t) := ⟨rfl, h⟩

theorem Rel.fail {R : σ → τ → Prop} {s : σ} {t : τ} (e : ε) (h : R s t) :
    Rel R (.fail e s) (.fail e t) := ⟨rfl, h⟩

theorem Rel.map {R : σ → σ → Prop} {R' : τ → τ → Prop} {r r' : Ran ε σ} {f f' : σ → τ}
    (h : Rel R r r') (hf : ∀ {s t}, R s t → R' (f s) (f' t)) : Rel R' (r.map f) (r'.map f') :=
  ⟨h.1, hf h.2⟩

theorem Rel.chain {R : σ → σ → Prop} {R' : τ → τ → Prop} {r r' : Ran ε σ} {g g' : σ → τ}
    {f f' : σ → Ran ε τ} (h : Rel R r r') (hg : ∀ {s t}, R s t → R' (g s) (g' t))
    (hf : ∀ {s t}, R s t → Rel R' (f s) (f' t)) : Rel R' (r.chain g f) (r'.chain g' f') := by
  obtain ⟨result, s⟩ := r
  obtain ⟨result', s'⟩ := r'
  obtain ⟨hresult, hstate⟩ := h
  obtain rfl : result = result' := hresult
  cases result with
  | ok => exact hf hstate
  | error e => exact .fail e (hg hstate)

theorem Rel.bind {R : σ → σ → Prop} {r r' : Ran ε σ} {f f' : σ → Ran ε σ} (h : Rel R r r')
    (hf : ∀ {s t}, R s t → Rel R (f s) (f' t)) : Rel R (r.bind f) (r'.bind f') :=
  h.chain (fun hst => hst) hf

theorem Rel.read {α : Type} {R : σ → σ → Prop} {a : Except ε α} {s t : σ} {f f' : α → Ran ε σ}
    (h : R s t) (hf : ∀ x, Rel R (f x) (f' x)) : Rel R (Ran.read a s f) (Ran.read a t f') := by
  cases a with
  | ok x => exact hf x
  | error e => exact .fail e h

end Ran

namespace Cursor

variable {ι κ ν ε : Type} [Cursor ι κ ν ε]

/-- Related states read the same and step alike in direction `d`. -/
structure Bisimulation (d : Direction) (R : ι → ι → Prop) : Prop where
  valid : ∀ {s t}, R s t → Cursor.valid s = Cursor.valid t
  key : ∀ {s t}, R s t → Cursor.key s = Cursor.key t
  value : ∀ {s t}, R s t → Cursor.value s = Cursor.value t
  next : ∀ {s t}, R s t → Ran.Rel R (Cursor.next d s) (Cursor.next d t)

theorem bisimulation_eq (d : Direction) : Bisimulation d (Eq : ι → ι → Prop) where
  valid h := by rw [h]
  key h := by rw [h]
  value h := by rw [h]
  next h := by
    subst h
    exact ⟨rfl, rfl⟩

end Cursor

end Todb.Library

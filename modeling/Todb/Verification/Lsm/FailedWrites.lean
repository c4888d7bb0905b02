import Todb.Model.Lsm.Scan
import Todb.Verification.Lsm.Flushable
import Todb.Verification.Lsm.Steps

/-! # Writes that fail

A `write` can fail before it has put anything, when `wal.append` fails, and after it has put its
whole batch, when the flush that it is forced into fails. In the first case the run is the one
without the call; in the second the batch stays in the memtables. -/

namespace Todb.Lsm

open Library

variable {ι : Type} [DecidableEq ι] {opt : LsmTableOption} {s s' s₀ s₁ s₂ : Store ι} {t u : ι}
  {l : Label ι} {pc pc' : Pc} {batch : WriteBatch}

/-! ## Threads do not see each other's calls -/

theorem goto_pcs_of_ne (hne : u ≠ t) (s : Store ι) (pc : Pc) : (s.goto t pc).pcs u = s.pcs u := by
  simp [Store.goto, hne]

theorem goto_comm (hne : u ≠ t) (s : Store ι) (pc pc' : Pc) :
    (s.goto t pc).goto u pc' = (s.goto u pc').goto t pc := by
  simp only [Store.goto, Function.update_comm hne]

theorem call_goto (hne : u ≠ t) (s : Store ι) (pc pc' : Pc) :
    (s.goto t pc).call u pc' = (s.call u pc').map (·.goto t pc) := by
  rw [Store.call, Store.call, goto_pcs_of_ne hne]
  split
  · rw [goto_comm hne, Option.map_some]
  · rfl

theorem failing_goto (hne : u ≠ t) (s : Store ι) (pc : Pc) :
    (s.goto t pc).failing u = (s.failing u).map (·.goto t pc) := by
  have hgoto := fun pc' => goto_comm hne s pc pc'
  rw [Store.failing, Store.failing, goto_pcs_of_ne hne]
  split <;> simp_all [Store.flushFails, Store.goto]

theorem advance_goto (hne : u ≠ t) (s : Store ι) (pc : Pc) :
    (s.goto t pc).advance opt u = (s.advance opt u).map (·.goto t pc) := by
  have hcomm := fun pc' => Function.update_comm hne pc' pc s.pcs
  rw [Store.advance, Store.advance, goto_pcs_of_ne hne]
  split
  all_goals simp only [Store.goto, Store.ack, Store.applyEntry, Store.switchMemtable,
    Store.flushFails]
  case h_4 =>
    split
    · simp [hcomm]
    · split <;> rename_i hsize <;> simp [hsize, hcomm]
  case h_5 | h_6 | h_7 | h_12 | h_13 => split <;> rename_i hcase <;> simp [hcase, hcomm]
  case h_8 => split <;> rename_i hlock <;> simp [hlock, hcomm]
  case h_9 caller _ =>
    split <;> cases caller <;> simp [Store.flushReturns, Store.ack, Store.goto, hcomm]
  case h_14 caller _ _ _ => cases caller <;> simp [Store.flushReturns, Store.ack, Store.goto, hcomm]
  all_goals simp [hcomm]

theorem step_goto (hne : l.thread ≠ t) (s : Store ι) (pc : Pc) :
    (s.goto t pc).step opt l = (s.step opt l).map (·.goto t pc) := by
  cases l with
  | write u batch => exact call_goto hne s pc _
  | switch u => exact call_goto hne s pc _
  | flush u => exact call_goto hne s pc _
  | step u => exact advance_goto hne s pc
  | fail u => exact failing_goto hne s pc

/-- A step of another thread leaves a thread where it is. -/
theorem step_pcs_of_ne (hne : l.thread ≠ t) (hstep : s.step opt l = some s') :
    s'.pcs t = s.pcs t := by
  have hself : s.goto t (s.pcs t) = s := by simp [Store.goto]
  have hmap := @step_goto ι _ opt t l hne s (s.pcs t)
  rw [hself, hstep, Option.map_some] at hmap
  have hpcs := congrArg (fun s : Store ι => s.pcs t) (Option.some.inj hmap)
  rwa [goto_pcs] at hpcs

/-! ## A call past its append -/

/-- A `write` that has appended to the log. -/
def Pc.appended : Pc → Bool
  | .snapshot _ | .apply _ _ | .switch (some _) | .backlog _ => true
  | .lock caller | .choose caller | .create caller _ | .seek caller _ _
  | .build caller _ _ _ _ | .publish caller _ _ => caller.call?.isSome
  | _ => false

/-- The flush that a `write` is forced into does not fail in this step: neither the I/O nor the
builder does. -/
def keepsForcedFlush (s : Store ι) : Label ι → Bool
  | .fail t => match s.pcs t with
      | .create (.write _) _ | .build (.write _) _ _ _ _ => false
      | _ => true
  | .step t => match s.pcs t with
      | .build (.write _) _ builder (some (key, entry)) _ => (builder.add key entry).toBool
      | .build (.write _) _ builder none _ => builder.finish.toBool
      | _ => true
  | _ => true

def KeepsForcedFlush (s : Store ι) (l : Label ι) : Prop := keepsForcedFlush s l = true

instance (s : Store ι) (l : Label ι) : Decidable (KeepsForcedFlush s l) :=
  inferInstanceAs (Decidable (_ = _))

/-- Past its append, a `write` goes on or returns `Ok`. -/
theorem advance_appended (happended : (s.pcs t).appended = true)
    (hok : KeepsForcedFlush s (.step t)) (hstep : s.advance opt t = some s') :
    (s'.pcs t).appended = true ∨ ∃ call, s'.pcs t = .idle ∧ s'.acked = call :: s.acked := by
  -- A flush that returns to its caller returns to a `write`.
  have hreturns : ∀ (s : Store ι) (caller : Caller), caller.call?.isSome = true →
      ∃ call, (s.flushReturns t caller).pcs t = .idle ∧
        (s.flushReturns t caller).acked = call :: s.acked := by
    intro s caller hcaller
    cases caller with
    | write call => exact ⟨call, by simp [Store.flushReturns, Store.ack, Store.goto], rfl⟩
    | scheduler => simp [Caller.call?] at hcaller
  rw [Store.advance] at hstep
  split at hstep
  case h_1 hpc | h_2 hpc | h_6 hpc => simp [hpc, Pc.appended] at happended
  case h_3 => exact .inl (by simp [← Option.some.inj hstep, Pc.appended])
  case h_4 call _ =>
    split at hstep
    · exact .inl (by simp [← Option.some.inj hstep, Pc.appended])
    · split at hstep
      · exact .inr ⟨call, by simp [← Option.some.inj hstep, Store.ack, Store.goto]⟩
      · exact .inl (by simp [← Option.some.inj hstep, Pc.appended])
  case h_5 => exact .inl (by simp [← Option.some.inj hstep, Pc.appended])
  case h_7 call _ =>
    split at hstep
    · exact .inr ⟨call, by simp [← Option.some.inj hstep, Store.ack, Store.goto]⟩
    · exact .inl (by simp [← Option.some.inj hstep, Pc.appended, Caller.call?])
  case h_8 hpc =>
    rw [hpc] at happended
    split at hstep
    · simp at hstep
    · exact .inl (by rw [← Option.some.inj hstep]; simpa [Store.goto, Pc.appended] using happended)
  case h_9 hpc =>
    rw [hpc] at happended
    split at hstep
    · exact .inr (Option.some.inj hstep ▸ hreturns s _ happended)
    · exact .inl (by rw [← Option.some.inj hstep]; simpa [Store.goto, Pc.appended] using happended)
  case h_10 hpc | h_11 hpc =>
    rw [hpc] at happended
    exact .inl (by rw [← Option.some.inj hstep]; simpa [Store.goto, Pc.appended] using happended)
  case h_12 caller _ _ _ _ _ hpc =>
    rw [hpc] at happended
    cases caller with
    | scheduler => simp [Pc.appended, Caller.call?] at happended
    | write call =>
        simp only [KeepsForcedFlush, keepsForcedFlush, hpc] at hok
        split at hstep
        · exact .inl (by simp [← Option.some.inj hstep, Pc.appended, Caller.call?])
        · rename_i hadd
          rw [hadd] at hok
          cases hok
  case h_13 caller _ _ _ hpc =>
    rw [hpc] at happended
    cases caller with
    | scheduler => simp [Pc.appended, Caller.call?] at happended
    | write call =>
        simp only [KeepsForcedFlush, keepsForcedFlush, hpc] at hok
        split at hstep
        · exact .inl (by simp [← Option.some.inj hstep, Store.goto, Pc.appended, Caller.call?])
        · rename_i hfinish
          rw [hfinish] at hok
          cases hok
  case h_14 hpc =>
    rw [hpc] at happended
    exact .inr (Option.some.inj hstep ▸ hreturns _ _ happended)

theorem not_failing_of_appended (happended : (s.pcs t).appended = true)
    (hok : KeepsForcedFlush s (.fail t)) : s.failing t = none := by
  rw [Store.failing]
  split
  case h_1 hpc => simp [hpc, Pc.appended] at happended
  case h_2 caller _ hpc | h_3 caller _ _ _ _ hpc =>
    cases caller with
    | scheduler => simp [hpc, Pc.appended, Caller.call?] at happended
    | write call => simp [KeepsForcedFlush, keepsForcedFlush, hpc] at hok
  case h_4 => rfl

/-! ## A call that fails -/

/-- The thread has appended, or has returned. -/
def PastAppend (s : Store ι) (t : ι) : Prop := (s.pcs t).appended = true ∨ s.pcs t = .idle

theorem step_idle (hidle : s.pcs t = .idle) (hl : l = .step t ∨ l = .fail t) :
    s.step opt l = none := by
  rcases hl with rfl | rfl
  · simp [Store.step, Store.advance, hidle]
  · simp [Store.step, Store.failing, hidle]

theorem PastAppend.step (h : PastAppend s t) (hl : l.thread = t → l = .step t ∨ l = .fail t)
    (hok : KeepsForcedFlush s l) (hstep : s.step opt l = some s') : PastAppend s' t := by
  by_cases hthread : l.thread = t
  · rcases h with happended | hidle
    · rcases hl hthread with rfl | rfl
      · rcases advance_appended happended hok hstep with h' | ⟨_, hidle, -⟩
        · exact .inl h'
        · exact .inr hidle
      · have hnone := not_failing_of_appended happended hok
        simp [Store.step, hnone] at hstep
    · rw [step_idle hidle (hl hthread)] at hstep
      cases hstep
  · rw [PastAppend, step_pcs_of_ne hthread hstep]
    exact h

theorem PastAppend.execute {labels : List (Label ι)} (h : PastAppend s t)
    (hlabels : ∀ l ∈ labels, l.thread = t → l = .step t ∨ l = .fail t)
    (hok : Disciplined (Store.step opt) KeepsForcedFlush (labels ++ [l]) s)
    (hrun : Library.execute (Store.step opt) labels s = some s') :
    PastAppend s' t ∧ KeepsForcedFlush s' l := by
  induction labels generalizing s with
  | nil =>
      obtain rfl := Option.some.inj hrun
      exact ⟨h, hok.1⟩
  | cons label labels ih =>
      obtain ⟨mid, hmid, hrest⟩ := Option.bind_eq_some_iff.mp hrun
      obtain ⟨hlabel, hlabels⟩ := List.forall_mem_cons.mp hlabels
      exact ih (h.step hlabel hok.1 hmid) hlabels (hok.2 mid hmid) hrest

/-- A `write` of thread `t` that is called in `s₀` and whose last step, from `s₁` to `s₂`, returns
an error. The other threads' steps are between its own. -/
structure FailedWrite (opt : LsmTableOption) (t : ι) (batch : WriteBatch) (during : List (Label ι))
    (last : Label ι) (s₀ s₁ s₂ : Store ι) : Prop where
  idle : s₀.pcs t = .idle
  run : execute (Store.step opt) during (s₀.goto t (.append batch)) = some s₁
  mine : ∀ l ∈ during, l.thread = t → l = .step t ∨ l = .fail t
  lastMine : last = .step t ∨ last = .fail t
  returns : s₁.step opt last = some s₂
  err : s₂.pcs t = .idle ∧ s₂.acked = s₁.acked

/-- A call past its append does not fail. -/
theorem PastAppend.not_err {labels : List (Label ι)} {last : Label ι} (h : PastAppend s t)
    (hlabels : ∀ l ∈ labels, l.thread = t → l = .step t ∨ l = .fail t)
    (hlast : last = .step t ∨ last = .fail t)
    (hok : Disciplined (Store.step opt) KeepsForcedFlush (labels ++ [last]) s)
    (hrun : Library.execute (Store.step opt) labels s = some s₁)
    (hreturns : s₁.step opt last = some s₂) (herr : s₂.pcs t = .idle ∧ s₂.acked = s₁.acked) :
    False := by
  obtain ⟨happended | hidle, hkeeps⟩ := h.execute hlabels hok hrun
  · rcases hlast with rfl | rfl
    · rcases advance_appended happended hkeeps hreturns with h' | ⟨call, -, hacked⟩
      · rw [herr.1] at h'
        cases h'
      · rw [herr.2] at hacked
        exact List.cons_ne_self _ _ hacked.symm
    · have hnone := not_failing_of_appended happended hkeeps
      simp [Store.step, hnone] at hreturns
  · rw [step_idle hidle hlast] at hreturns
    cases hreturns

/-- A write that returns an error, in a run in which the flushes that writes are forced into do not
fail, has no effect: the steps of the other threads alone lead to the same store. -/
theorem failed_write_no_effect {during : List (Label ι)} {last : Label ι}
    (h : FailedWrite opt t batch during last s₀ s₁ s₂)
    (hok : Disciplined (Store.step opt) KeepsForcedFlush (during ++ [last])
      (s₀.goto t (.append batch))) :
    execute (Store.step opt) (during.filter fun l => l.thread ≠ t) s₀ = some s₂ := by
  obtain ⟨hidle, hrun, hmine, hlast, hreturns, herr⟩ := h
  have hpc : (s₀.goto t (.append batch)).pcs t = .append batch := goto_pcs _ _ _
  induction during generalizing s₀ with
  | nil =>
      obtain rfl := Option.some.inj hrun
      rcases hlast with rfl | rfl
      · simp only [Store.step, Store.advance, hpc, Option.some.injEq] at hreturns
        rw [← hreturns, goto_pcs] at herr
        cases herr.1
      · simp only [Store.step, Store.failing, hpc, goto_goto, Option.some.injEq] at hreturns
        rw [← hreturns]
        simp [execute, Store.goto, ← hidle]
  | cons label during ih =>
      obtain ⟨mid, hmid, hrest⟩ := Option.bind_eq_some_iff.mp hrun
      obtain ⟨hlabel, hmine⟩ := List.forall_mem_cons.mp hmine
      by_cases hthread : label.thread = t
      · -- The call's own step takes it past its append.
        have hpast : PastAppend mid t := by
          rcases hlabel hthread with rfl | rfl
          · simp only [Store.step, Store.advance, hpc, Option.some.injEq] at hmid
            exact .inl (by simp [← hmid, Pc.appended])
          · simp only [Store.step, Store.failing, hpc, Option.some.injEq] at hmid
            exact .inr (by simp [← hmid])
        exact (hpast.not_err hmine hlast (hok.2 mid hmid) hrest hreturns herr).elim
      · rw [step_goto hthread, Option.map_eq_some_iff] at hmid
        obtain ⟨mid₀, hmid₀, rfl⟩ := hmid
        have hidle' : mid₀.pcs t = .idle := by rw [step_pcs_of_ne hthread hmid₀, hidle]
        have hmid : (s₀.goto t (.append batch)).step opt label =
            some (mid₀.goto t (.append batch)) := by
          rw [step_goto hthread, hmid₀, Option.map_some]
        rw [List.filter_cons_of_pos (by simpa using hthread), execute, hmid₀, Option.bind_some]
        exact ih (hok.2 _ hmid) hidle' hrest hmine (goto_pcs _ _ _)

/-- A failed write, described by what is observed of the store it leaves. -/
theorem FailedWrite.exists_of_execute {during : List (Label ι)} {last : Label ι}
    (observe : Store ι → Bool) (hidle : (s₀.pcs t).isIdle = true)
    (hmine : ∀ l ∈ during, l.thread = t → l = .step t ∨ l = .fail t)
    (hlast : last = .step t ∨ last = .fail t)
    (hrun : ((execute (Store.step opt) during (s₀.goto t (.append batch))).any fun s₁ =>
      (s₁.step opt last).any fun s₂ =>
        (s₂.pcs t).isIdle && s₂.acked == s₁.acked && observe s₂) = true) :
    ∃ s₁ s₂, FailedWrite opt t batch during last s₀ s₁ s₂ ∧ observe s₂ = true := by
  obtain ⟨s₁, hs₁, hrest⟩ := (Option.any_eq_true _ _).mp hrun
  obtain ⟨s₂, hs₂, hobs⟩ := (Option.any_eq_true _ _).mp hrest
  obtain ⟨herr, hobs⟩ := Bool.and_eq_true_iff.mp hobs
  obtain ⟨hidle', hacked⟩ := Bool.and_eq_true_iff.mp herr
  exact ⟨s₁, s₂, ⟨Pc.eq_idle hidle, hs₁, hmine, hlast, hs₂, Pc.eq_idle hidle', eq_of_beq hacked⟩,
    hobs⟩

/-- What thread 1 does while the append of thread 0 fails. -/
def besideWrite : List (Label (Fin 2)) := .write 1 [.put [2] [2]] :: List.replicate 4 (.step 1)

theorem failed_write_beside_another : ∃ s₁ s₂ : Store (Fin 2),
    FailedWrite ⟨100, 4⟩ 0 [.put [1] [1]] besideWrite (.fail 0) (.new 64) s₁ s₂ ∧
      execute (Store.step ⟨100, 4⟩) (besideWrite.filter fun l => l.thread ≠ 0) (.new 64) =
        some s₂ := by
  obtain ⟨s₁, s₂, hfailed, -⟩ := @FailedWrite.exists_of_execute (Fin 2) _ ⟨100, 4⟩ (.new 64) 0
    [.put [1] [1]] besideWrite (.fail 0) (fun _ => true) rfl (by decide) (.inr rfl)
    (by decide +kernel)
  exact ⟨s₁, s₂, hfailed, failed_write_no_effect hfailed (by decide +kernel)⟩

/-- A forward scan of a whole store. -/
def Store.wholeQuery (store : Store ι) : Query :=
  ⟨store.state, ⟨.unbounded, .unbounded⟩, .forward, store.disk⟩

/-- The memtable is full and no immutable one is allowed: the flush cannot create its file, the
write returns an error, and its entry is scanned nevertheless. -/
theorem failed_write_visible : ∃ s₁ s₂ : Store Unit,
    FailedWrite ⟨1, 1⟩ () [.put [1] [1]] (List.replicate 8 (.step ())) (.fail ()) (.new 64) s₁ s₂ ∧
      (Scanner.static s₂.wholeQuery s₂.mems 1 : Scanner 8).outcome =
        ⟨[([1], .put [1])], .finished⟩ ∧
      (Scanner.static (Store.new 64 : Store Unit).wholeQuery (Store.new 64 : Store Unit).mems 1 :
        Scanner 8).outcome = ⟨[], .finished⟩ := by
  obtain ⟨s₁, s₂, hfailed, hscan⟩ := @FailedWrite.exists_of_execute Unit _ ⟨1, 1⟩ (.new 64) ()
    [.put [1] [1]] (List.replicate 8 (.step ())) (.fail ())
    (fun s => (Scanner.static s.wholeQuery s.mems 1 : Scanner 8).outcome ==
      ⟨[([1], .put [1])], .finished⟩) rfl (by decide) (.inr rfl) (by decide +kernel)
  exact ⟨s₁, s₂, hfailed, eq_of_beq hscan, rfl⟩

end Todb.Lsm

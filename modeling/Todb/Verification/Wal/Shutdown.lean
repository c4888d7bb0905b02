import Todb.Verification.Wal.Barrier
import Todb.Verification.Wal.Conservation

/-! # `close` drains the log

When `close` takes the sender of the flush queue, what was returned before its call has been
handed over, unless a swapper stands between its compare-exchange and its send. The flush
thread stops only after it has published all that was handed over. -/

namespace Todb.Wal

open Library

variable {ι : Type}

/-! ## On the way to the flush thread -/

/-- Won by a swapper and not yet handed over. -/
def Phase.Swapping (phase : Phase) : Prop := phase = .draining ∨ phase = .frozen

/-- From one state to the next LSNs only get closer to the flush thread. -/
structure HandsOver (s s' : System ι) : Prop where
  issued : s.shared.issued.length ≤ s'.shared.issued.length
  unsent : s.shared.unsentFrom ≤ s'.shared.unsentFrom
  sent : sentEnd s.shared.toCore s.flush.pc ≤ sentEnd s'.shared.toCore s'.flush.pc
  active : s.shared.phase ≠ .sent → s'.shared.active = s.shared.active
  swapping : s.shared.phase.Swapping → s'.shared.phase.Swapping ∨ s'.shared.phase = .sent

section Callers

variable {crc32 : Bytes → UInt32} {cfg : WalConfig} {sh sh' : Shared} {pc pc' : Pc}

/-- Only a swapper adds to the flush queue, and only while it is open. -/
theorem Effect.flushQueue_append (heff : Effect crc32 cfg sh pc sh' pc') :
    ∃ more, sh'.flushQueue = sh.flushQueue ++ more ∧ (sh.flushTx = false → more = []) := by
  have hnone : sh'.flushQueue = sh.flushQueue →
      ∃ more, sh'.flushQueue = sh.flushQueue ++ more ∧ (sh.flushTx = false → more = []) :=
    fun h => ⟨[], by rw [h, List.append_nil], fun _ => rfl⟩
  cases heff with
  | outside _ _ hcore => exact hnone (by rw [hcore])
  | @send _ old =>
      by_cases htx : sh.flushTx = true
      · exact ⟨[old], by simp [htx], fun h => by simp [htx] at h⟩
      · exact hnone (by simp [htx])
  | overflow | claimBytes | claimSlot | exhausted | loadLsn | enter | copy | store | leave | cas
  | spin | drained | loadCount | storeCount | loadMinLsn | pop | giveUp | reset | install =>
      exact hnone rfl

variable [Fintype ι] {pcs : ι → Pc} {fpc : FlushPc} {t : ι}

theorem Ownership.unsentFrom_le (own : Ownership cfg sh.toCore pcs fpc)
    (num : Numbering cfg sh.toCore pcs) (hpc : pcs t = pc)
    (heff : Effect crc32 cfg sh pc sh' pc') (hok : StepOrderly cfg sh.toCore pcs pc) :
    sh.unsentFrom ≤ sh'.unsentFrom := by
  have hcritical := hpc ▸ own.critical t
  have hat := hpc ▸ own.swapAt t
  have hlsn := hpc ▸ num.swapLsn t
  cases heff with
  | outside _ _ hcore => rw [hcore]
  | claimSlot =>
      obtain ⟨-, haccept⟩ := hcritical _ rfl
      simp [Core.unsentFrom, haccept.ne_sent, Shared.claimSlot]
  | cas hstate => simp [Core.unsentFrom, (hok hstate).2]
  | drained => simp [Core.unsentFrom, (hat _ rfl).2]
  | send =>
      have hphase : sh.phase ≠ .sent := by simp [(hat _ rfl).2]
      have hnext := num.next hphase
      simp only [Core.unsentFrom, hphase, ite_false, ite_true]
      omega
  | reset =>
      have hsent := (hat _ rfl).2.1
      simp [Core.unsentFrom, hsent]
  | install =>
      obtain ⟨-, hsent, -⟩ := hat _ rfl
      have hto : ResetTo _ _ _ := hlsn _ rfl
      simp [Core.unsentFrom, hsent, hto.minLsn (by decide)]
  | overflow | claimBytes | exhausted | loadLsn | enter | copy | store | leave | spin | loadCount
  | storeCount | loadMinLsn | pop | giveUp =>
      simp [Core.unsentFrom, Shared.claimBytes, Shared.claimSlot]

theorem Ownership.sentEnd_le (own : Ownership cfg sh.toCore pcs fpc) (hpc : pcs t = pc)
    (heff : Effect crc32 cfg sh pc sh' pc') (hok : StepOrderly cfg sh.toCore pcs pc) :
    sentEnd sh.toCore fpc ≤ sentEnd sh'.toCore fpc := by
  obtain ⟨more, hqueue, -⟩ := heff.flushQueue_append
  have hsame : ∀ b ∈ pending sh.toCore fpc, SameSlots (sh.buffers b) (sh'.buffers b) := by
    intro b hb
    obtain ⟨writePos, h⟩ := own.handed_keeps hpc heff hok (handed_of_pending hb)
    exact h ▸ ⟨rfl, rfl, rfl⟩
  have hpending : pending sh'.toCore fpc = pending sh.toCore fpc ++ more := by
    rw [pending, pending, hqueue, List.append_assoc]
  rw [sentEnd, sentEnd, hpending, heff.published_eq.1, slots, slots, List.map_append,
    List.sum_append, ← slots, ← slots, slots_frame hsame]
  omega

theorem Ownership.phase_thread (own : Ownership cfg sh.toCore pcs fpc) (hpc : pcs t = pc)
    (heff : Effect crc32 cfg sh pc sh' pc') (hok : StepOrderly cfg sh.toCore pcs pc) :
    (sh.phase ≠ .sent → sh'.active = sh.active) ∧
      (sh.phase.Swapping → sh'.phase.Swapping ∨ sh'.phase = .sent) := by
  have hat := hpc ▸ own.swapAt t
  cases heff with
  | outside _ _ hcore => rw [hcore]; exact ⟨fun _ => rfl, .inl⟩
  | cas => exact ⟨fun _ => rfl, fun _ => .inl (.inl rfl)⟩
  | drained => exact ⟨fun _ => rfl, fun _ => .inl (.inr rfl)⟩
  | send => exact ⟨fun _ => rfl, fun _ => .inr rfl⟩
  | install =>
      obtain ⟨-, hsent, -⟩ := hat _ rfl
      exact ⟨fun h => absurd hsent h, fun h => by simp [Phase.Swapping, hsent] at h⟩
  | overflow | claimBytes | claimSlot | exhausted | loadLsn | enter | copy | store | leave | spin
  | loadCount | storeCount | loadMinLsn | pop | giveUp | reset => exact ⟨fun _ => rfl, .inl⟩

end Callers

section Steps

variable [Fintype ι] [DecidableEq ι] {crc32 : Bytes → UInt32} {cfg : WalConfig} {s s' : System ι}
  {l : Label ι}

theorem handsOver_step (own : Owned cfg s) (num : Numbered cfg s) (ch : ChainedUp s)
    (hmove : Move cfg crc32 s l s') : HandsOver s s' := by
  have hissued := (advances_step own num ch hmove).issued
  cases hmove with
  | thread hpc heff hok =>
      obtain ⟨hactive, hswapping⟩ := own.phase_thread hpc heff hok
      exact ⟨hissued, own.unsentFrom_le num hpc heff hok, own.sentEnd_le hpc heff hok, hactive,
        hswapping⟩
  | flush hstep =>
      have heff := stepFlush_effect hstep
      refine ⟨hissued, (own.unsentFrom_flush heff).ge, (heff.sentEnd_eq own ch).ge,
        fun _ => heff.active_eq, fun h => .inl ?_⟩
      rwa [show _ = s.shared.phase from heff.phase_eq]

end Steps

/-! ## The call of `close` -/

/-- The LSNs returned before the call of `close` a thread is in. -/
def Pc.closeBefore? : Pc → Option (List ℕ)
  | .close before _ | .swap (.close before) _ _ => some before
  | _ => none

/-- What a `close` knows about an LSN that was returned before its call. Before its
compare-exchange the LSN is handed over or in the buffer `close` has loaded; afterwards that
buffer is being swapped, by whoever won. -/
def CloseKnows (s : System ι) (lsn : ℕ) : Pc → Prop
  | .swap _ old .cas =>
      lsn < s.shared.unsentFrom ∨ s.shared.active = old ∧ s.shared.phase ≠ .sent
  | .close _ .takeTx => lsn < s.shared.unsentFrom ∨ s.shared.phase.Swapping
  | .close _ .join => lsn < sentEnd s.shared.toCore s.flush.pc
  | _ => True

/-- The handle is locked during `close`, and only it gives up the sender. -/
def HandleAt (sh : Shared) : Pc → Prop
  | .close _ .lock => sh.flushHandle = .present ∧ sh.flushTx = true
  | .close _ .join => sh.flushHandle = .locked
  | .close _ _ | .swap (.close _) _ _ => sh.flushHandle = .locked ∧ sh.flushTx = true
  | _ => True

/-- The flush thread has found the queue closed. -/
def FlushPc.stopping : FlushPc → Bool
  | .sealIdx none | .sealMeta none | .done => true
  | _ => false

/-- All that holds of the call of `close`. -/
structure Closes (s : System ι) : Prop where
  single : ∀ t u, (s.pcs t).closing = true → (s.pcs u).closing = true → t = u
  handle : s.shared.flushHandle = .present → s.shared.flushTx = true
  handleAt : ∀ t, HandleAt s.shared (s.pcs t)
  closeAt : ∀ t before, (s.pcs t).closeBefore? = some before → ∀ lsn ∈ before,
    lsn < s.shared.issued.length ∧ CloseKnows s lsn (s.pcs t)
  stopping : s.flush.pc.stopping = true → s.shared.flushTx = false ∧ s.shared.flushQueue = []
  returned : ∀ before ∈ s.shared.closes, s.flush.pc = .done ∧
    ∀ lsn ∈ before, lsn < s.shared.published

theorem HandsOver.closeKnows {s s' : System ι} (h : HandsOver s s') {lsn : ℕ} {pc : Pc}
    (hlsn : lsn < s.shared.issued.length) (hknows : CloseKnows s lsn pc) : CloseKnows s' lsn pc := by
  have hlsn' := hlsn.trans_le h.issued
  -- once the buffer is sent, everything issued has been handed over
  have hsent : s'.shared.phase = .sent → lsn < s'.shared.unsentFrom := by
    intro hphase
    rwa [Core.unsentFrom, if_pos hphase]
  cases pc with
  | swap caller old pc =>
      cases pc with
      | cas =>
          rcases hknows with hlt | ⟨hactive, hphase⟩
          · exact .inl (hlt.trans_le h.unsent)
          · by_cases hphase' : s'.shared.phase = .sent
            · exact .inl (hsent hphase')
            · exact .inr ⟨(h.active hphase).trans hactive, hphase'⟩
      | barrier | loadCount | storeCount | loadMinLsn | send | pop | reset | install => trivial
  | close before pc =>
      cases pc with
      | takeTx =>
          rcases hknows with hlt | hswapping
          · exact .inl (hlt.trans_le h.unsent)
          · exact (h.swapping hswapping).symm.imp_left hsent
      | join => exact hknows.trans_le h.sent
      | lock | storeStop | loadActive => trivial
  | idle | append | claimed | holding | sync | panicked => trivial

theorem FlushThread.stopped_eq_some_true (fl : FlushThread) :
    fl.stopped = some true ↔ fl.pc = .done := by
  unfold FlushThread.stopped
  cases fl.pc <;> simp

section Close

variable [Fintype ι] {crc32 : Bytes → UInt32} {cfg : WalConfig} {s : System ι} {t : ι}
  {before : List ℕ} {sh' : Shared} {pc' : Pc}

/-- When `close` takes the sender, no swapper is between its compare-exchange and its send, or
what it swaps was not returned before the call. -/
def TakesAfterSend (s : System ι) : Label ι → Prop
  | .thread t =>
      match s.pcs t with
      | .close before .takeTx =>
          s.shared.phase = .open ∨ s.shared.phase = .sent ∨
            ∀ lsn ∈ before, lsn < (s.shared.buffers s.shared.active).minLsn
      | _ => True
  | _ => True

omit [Fintype ι] in
theorem Closes.takeTx (h : Closes s) (ch : ChainedUp s) (hpc : s.pcs t = .close before .takeTx)
    (hok : TakesAfterSend s (.thread t)) {lsn : ℕ} (hlsn : lsn ∈ before) :
    lsn < sentEnd s.shared.toCore s.flush.pc := by
  have hhandle := h.handleAt t
  obtain ⟨-, hknows⟩ := h.closeAt t before (by rw [hpc]; rfl) lsn hlsn
  rw [hpc] at hhandle hknows
  rw [ch.sentEnd_eq hhandle.2]
  rcases hknows with hlt | hswapping
  · exact hlt
  · simp only [TakesAfterSend, hpc] at hok
    rcases hswapping with hphase | hphase <;> simp only [hphase, reduceCtorEq, false_or] at hok
    all_goals
      rw [Core.unsentFrom, if_neg (by simp [hphase])]
      exact hok lsn hlsn

/-- A step of `close`, in terms of the state it starts from. -/
theorem Closes.closeKnows_step (h : Closes s) (own : Owned cfg s) (ch : ChainedUp s) {pc : Pc}
    (hpc : s.pcs t = pc) (hbefore : pc.closeBefore? = some before)
    (hok : TakesAfterSend s (.thread t))
    (hstep : stepThread crc32 cfg s.shared s.flush.stopped pc = some (sh', pc')) {lsn : ℕ}
    (hlsn : lsn ∈ before) : CloseKnows s lsn pc' := by
  obtain ⟨hissued, hknows⟩ := h.closeAt t before (by rw [hpc]; exact hbefore) lsn hlsn
  rw [hpc] at hknows
  have hsent : s.shared.phase = .sent → lsn < s.shared.unsentFrom := by
    intro hphase
    rwa [Core.unsentFrom, if_pos hphase]
  cases pc with
  | close before' pc =>
      obtain rfl := Option.some.inj hbefore
      cases pc with
      | lock =>
          simp only [stepThread, stepClose] at hstep
          split at hstep <;> cases hstep <;> trivial
      | storeStop =>
          cases hstep
          trivial
      | loadActive =>
          cases hstep
          by_cases hphase : s.shared.phase = .sent
          · exact .inl (hsent hphase)
          · exact .inr ⟨rfl, hphase⟩
      | takeTx =>
          cases hstep
          exact h.takeTx ch hpc hok hlsn
      | join =>
          simp only [stepThread, stepClose] at hstep
          split at hstep <;> cases hstep <;> trivial
  | swap caller old pc =>
      have hat := own.swapAt t
      rw [hpc] at hat
      cases caller with
      | append | sync => cases hbefore
      | close before' =>
          cases pc <;> simp only [stepThread, stepSwap] at hstep
          case cas =>
            split at hstep <;> cases hstep
            · trivial
            · -- the loaded buffer is full: if it is still active, somebody swaps it
              rename_i hfull
              rcases hknows with hlt | ⟨rfl, hphase⟩
              · exact .inl hlt
              · refine .inr ?_
                have hopen : s.shared.phase ≠ .open := fun hopen => by
                  have := own.open_state hopen
                  rw [this] at hfull
                  cases hfull
                cases hp : s.shared.phase with
                | «open» => exact absurd hp hopen
                | sent => exact absurd hp hphase
                | draining => exact .inl rfl
                | frozen => exact .inr rfl
          case barrier => split at hstep <;> cases hstep <;> trivial
          case pop =>
            split at hstep
            · cases hstep
              trivial
            · split at hstep <;> cases hstep
              exact .inl (hsent (hat _ rfl).2)
          case install =>
            cases hstep
            exact .inl (hsent (hat _ rfl).2.1)
          case reset =>
            cases hstep
            split <;> trivial
          all_goals
            cases hstep
            trivial
  | idle | append | claimed | holding | sync | panicked => cases hbefore

/-- Only `close` touches the handle and the sender, and only it is recorded. -/
theorem stepThread_handle {sh : Shared} {stopped : Option Bool} {pc : Pc}
    (hstep : stepThread crc32 cfg sh stopped pc = some (sh', pc')) :
    sh'.closes = sh.closes ∧ sh'.flushHandle = sh.flushHandle ∧ sh'.flushTx = sh.flushTx ∨
      ∃ before pc', pc = .close before pc' := by
  cases pc with
  | idle | panicked => cases hstep
  | append payload pc => cases pc <;> cases hstep <;> exact .inl ⟨rfl, rfl, rfl⟩
  | claimed claim =>
      simp only [stepThread, stepClaimed, Option.some.injEq] at hstep
      split at hstep <;> cases hstep <;> exact .inl ⟨rfl, rfl, rfl⟩
  | holding held pc => cases pc <;> cases hstep <;> exact .inl ⟨rfl, rfl, rfl⟩
  | swap caller old pc =>
      cases pc <;> simp only [stepThread, stepSwap] at hstep
      case cas | barrier => split at hstep <;> cases hstep <;> exact .inl ⟨rfl, rfl, rfl⟩
      case pop =>
        split at hstep
        · cases hstep
          exact .inl ⟨rfl, rfl, rfl⟩
        · split at hstep <;> cases hstep
          exact .inl ⟨rfl, rfl, rfl⟩
      all_goals
        cases hstep
        exact .inl ⟨rfl, rfl, rfl⟩
  | sync before pc => cases pc <;> cases hstep <;> exact .inl ⟨rfl, rfl, rfl⟩
  | close before pc => exact .inr ⟨before, pc, rfl⟩

theorem HandleAt.congr {sh : Shared} {pc : Pc} (h : HandleAt sh pc)
    (hhandle : sh'.flushHandle = sh.flushHandle) (htx : sh'.flushTx = sh.flushTx) :
    HandleAt sh' pc := by
  cases pc with
  | close before pc => cases pc <;> simpa only [HandleAt, hhandle, htx] using h
  | swap caller old pc =>
      cases caller with
      | close => simpa only [HandleAt, hhandle, htx] using h
      | append | sync => trivial
  | idle | append | claimed | holding | sync | panicked => trivial

theorem handleAt_of_running {sh : Shared} {pc : Pc} (h : pc.closing = false) : HandleAt sh pc := by
  cases pc with
  | close => cases h
  | swap caller =>
      cases caller with
      | close => cases h
      | append | sync => trivial
  | idle | append | claimed | holding | sync | panicked => trivial

theorem closeBefore?_of_running {pc : Pc} (h : pc.closing = false) : pc.closeBefore? = none := by
  cases pc with
  | close => cases h
  | swap caller =>
      cases caller with
      | close => cases h
      | append | sync => rfl
  | idle | append | claimed | holding | sync | panicked => rfl

omit [Fintype ι] in
/-- A step inside `close` around its swap. -/
theorem Closes.handle_stepClose (h : Closes s) {pc : ClosePc} (hpc : s.pcs t = .close before pc)
    (hstep : stepClose s.shared before s.flush.stopped pc = some (sh', pc')) :
    (sh'.flushHandle = .present → sh'.flushTx = true) ∧ HandleAt sh' pc' ∧
      (sh'.closes = s.shared.closes ∨
        pc = .join ∧ s.flush.stopped = some true ∧ sh'.closes = s.shared.closes ++ [before]) := by
  have hat := h.handleAt t
  rw [hpc] at hat
  cases pc with
  | lock =>
      rw [stepClose, hat.1] at hstep
      cases hstep
      exact ⟨by rintro ⟨⟩, ⟨rfl, hat.2⟩, .inl rfl⟩
  | storeStop | loadActive =>
      cases hstep
      exact ⟨h.handle, hat, .inl rfl⟩
  | takeTx =>
      cases hstep
      exact ⟨fun hpresent => absurd (hat.1.symm.trans hpresent) (by rintro ⟨⟩), hat.1, .inl rfl⟩
  | join =>
      simp only [stepClose] at hstep
      split at hstep <;> cases hstep
      · rename_i hstopped
        exact ⟨by rintro ⟨⟩, trivial, .inr ⟨rfl, hstopped, rfl⟩⟩
      · exact ⟨by rintro ⟨⟩, trivial, .inl rfl⟩

omit [Fintype ι] in
/-- The handle and the record of the calls after a caller's step. -/
theorem Closes.handle_step (h : Closes s)
    (hstep : stepThread crc32 cfg s.shared s.flush.stopped (s.pcs t) = some (sh', pc')) :
    (sh'.flushHandle = .present → sh'.flushTx = true) ∧ HandleAt sh' pc' ∧
      (sh'.closes = s.shared.closes ∨ ∃ before, s.pcs t = .close before .join ∧
        s.flush.stopped = some true ∧ sh'.closes = s.shared.closes ++ [before]) := by
  generalize hpc : s.pcs t = pc at hstep
  rcases stepThread_handle hstep with ⟨hcloses, hhandle, htx⟩ | ⟨before, pc, rfl⟩
  · refine ⟨by rw [hhandle, htx]; exact h.handle, ?_, .inl hcloses⟩
    have hat := h.handleAt t
    rw [hpc] at hat
    cases hclosing : pc.closing with
    | false => exact handleAt_of_running (stepThread_open hstep hclosing).2.2
    | true =>
        -- the swap of `close`
        cases pc with
        | swap caller old pc =>
            cases caller with
            | append | sync => cases hclosing
            | close before =>
                have hat' : sh'.flushHandle = .locked ∧ sh'.flushTx = true := by
                  rw [hhandle, htx]
                  exact hat
                rcases stepSwap_pc hstep with ⟨next, rfl⟩ | rfl <;> exact hat'
        | close before pc => exact (h.handle_stepClose hpc hstep).2.1
        | idle | append | claimed | holding | sync | panicked => cases hclosing
  · obtain ⟨hpresent, hat, hcloses⟩ := h.handle_stepClose hpc hstep
    refine ⟨hpresent, hat, hcloses.imp_right ?_⟩
    rintro ⟨rfl, hstopped, hcloses⟩
    exact ⟨before, rfl, hstopped, hcloses⟩

theorem stepThread_closeBefore? {sh : Shared} {stopped : Option Bool} {pc : Pc}
    (hstep : stepThread crc32 cfg sh stopped pc = some (sh', pc'))
    (hbefore : pc'.closeBefore? = some before) : pc.closeBefore? = some before := by
  cases hclosing : pc.closing with
  | false =>
      rw [closeBefore?_of_running (stepThread_open hstep hclosing).2.2] at hbefore
      cases hbefore
  | true =>
      cases pc with
      | swap caller old pc =>
          cases caller with
          | append | sync => cases hclosing
          | close => rcases stepSwap_pc hstep with ⟨next, rfl⟩ | rfl <;> exact hbefore
      | close before' pc =>
          cases pc <;> simp only [stepThread, stepClose] at hstep
          case lock | join =>
            split at hstep <;> cases hstep
            all_goals first | exact hbefore | cases hbefore
          all_goals
            cases hstep
            exact hbefore
      | idle | append | claimed | holding | sync | panicked => cases hclosing

theorem Effect.flushTx_mono {sh : Shared} {pc : Pc} (heff : Effect crc32 cfg sh pc sh' pc')
    (h : sh.flushTx = false) : sh'.flushTx = false := by
  cases heff with
  | outside _ _ _ hclosing =>
      cases htx : sh'.flushTx with
      | false => rfl
      | true => exact (hclosing.flushTx htx).symm.trans h
  | overflow | claimBytes | claimSlot | exhausted | loadLsn | enter | copy | store | leave | cas
  | spin | drained | loadCount | storeCount | loadMinLsn | send | pop | giveUp | reset | install =>
      exact h

/-- The flush thread finds the queue closed only when it is empty, and takes nothing from it
afterwards. -/
theorem FlushStep.stopping {sh : Shared} {fl fl' : FlushThread}
    (hstep : FlushStep cfg sh fl sh' fl')
    (h : fl.pc.stopping = true → sh.flushTx = false ∧ sh.flushQueue = [])
    (hstopping : fl'.pc.stopping = true) : sh'.flushTx = false ∧ sh'.flushQueue = [] := by
  cases hstep with
  | disconnected _ hqueue htx => exact ⟨htx, hqueue⟩
  | @sealEmpty job hpc | @sealIdx job _ hpc | @sealMeta job _ hpc =>
      cases job with
      | none => exact h (by rw [hpc]; rfl)
      | some job => cases hstopping
  | scan | put | reset =>
      simp only [FlushThread.goto] at hstopping
      split at hstopping <;> cases hstopping
  | recv | loadCount | empty | loadMinLsn | scanPanics | rollOver | stay | sealPanics
  | createSegment | reopenSegment | initMeta | keepMeta | installSegment | pad | pwrite
  | pwritePanics | fdatasync | publish | drop | recycle | push => cases hstopping

theorem FlushStep.handle_eq {sh : Shared} {fl fl' : FlushThread}
    (hstep : FlushStep cfg sh fl sh' fl') :
    sh'.flushHandle = sh.flushHandle ∧ sh'.flushTx = sh.flushTx ∧ sh'.closes = sh.closes := by
  cases hstep <;> exact ⟨rfl, rfl, rfl⟩

end Close

/-! ## Runs -/

section Runs

variable [Fintype ι] [DecidableEq ι] {crc32 : Bytes → UInt32} {cfg : WalConfig} {s s' : System ι}
  {l : Label ι}

/-- `close` is called once. -/
def ClosedOnce (s : System ι) : Label ι → Prop
  | .call _ .close => s.shared.flushHandle = .present ∧ ∀ u, (s.pcs u).closing = false
  | _ => True

/-- Orderly and fresh steps, with one call of `close` that takes the sender after the send of
every swap it depends on. -/
def ClosesOrderly (cfg : WalConfig) (s : System ι) (l : Label ι) : Prop :=
  FreshOrderly cfg s l ∧ ClosedOnce s l ∧ TakesAfterSend s l

omit [Fintype ι] [DecidableEq ι] in
theorem Closes.init (cfg : WalConfig) (memory : BufId → ℕ → UInt8) :
    Closes (System.init cfg memory : System ι) where
  single _ _ h := by cases h
  handle _ := rfl
  handleAt _ := trivial
  closeAt _ _ h := by cases h
  stopping h := by cases h
  returned _ h := by cases h

omit [Fintype ι] in
/-- A caller moves; what it knows is stated of the state before. -/
theorem Closes.move (h : Closes s) (hhands : HandsOver s s') {t : ι} {pc' : Pc}
    (hpcs : s'.pcs = Function.update s.pcs t pc') (hflush : s'.flush = s.flush)
    (hsingle : pc'.closing = true → ∀ u ≠ t, (s.pcs u).closing = false)
    (hhandle : s'.shared.flushHandle = .present → s'.shared.flushTx = true)
    (hself : HandleAt s'.shared pc') (hother : ∀ u ≠ t, HandleAt s'.shared (s.pcs u))
    (hknows : ∀ before, pc'.closeBefore? = some before → ∀ lsn ∈ before,
      lsn < s.shared.issued.length ∧ CloseKnows s lsn pc')
    (hstopping : s.shared.flushTx = false ∧ s.shared.flushQueue = [] →
      s'.shared.flushTx = false ∧ s'.shared.flushQueue = [])
    (hreturned : ∀ before ∈ s'.shared.closes, s.flush.pc = .done ∧
      ∀ lsn ∈ before, lsn < s'.shared.published) : Closes s' := by
  have hrest : ∀ u ≠ t, s'.pcs u = s.pcs u := fun u hu => by rw [hpcs, Function.update_of_ne hu]
  have hat : s'.pcs t = pc' := by rw [hpcs, Function.update_self]
  refine
    { single := fun u v hu hv => ?_
      handle := hhandle
      handleAt := fun u => ?_
      closeAt := fun u before hbefore lsn hlsn => ?_
      stopping := fun hstop => hstopping (h.stopping (hflush ▸ hstop))
      returned := hflush ▸ hreturned }
  · by_cases hut : u = t <;> by_cases hvt : v = t
    · rw [hut, hvt]
    · rw [hut, hat] at hu
      rw [hrest v hvt, hsingle hu v hvt] at hv
      cases hv
    · rw [hvt, hat] at hv
      rw [hrest u hut, hsingle hv u hut] at hu
      cases hu
    · rw [hrest u hut] at hu
      rw [hrest v hvt] at hv
      exact h.single u v hu hv
  · by_cases hut : u = t
    · rw [hut, hat]
      exact hself
    · rw [hrest u hut]
      exact hother u hut
  · obtain ⟨hissued, hknows⟩ : lsn < s.shared.issued.length ∧ CloseKnows s lsn (s'.pcs u) := by
      by_cases hut : u = t
      · rw [hut, hat] at hbefore ⊢
        exact hknows before hbefore lsn hlsn
      · rw [hrest u hut] at hbefore ⊢
        exact h.closeAt u before hbefore lsn hlsn
    exact ⟨hissued.trans_le hhands.issued, hhands.closeKnows hissued hknows⟩

omit [Fintype ι] [DecidableEq ι] in
/-- Once the flush thread has stopped, all that was handed over is published. -/
theorem Closes.published_of_done (h : Closes s) (hdone : s.flush.pc = .done) {lsn : ℕ}
    (hlsn : lsn < sentEnd s.shared.toCore s.flush.pc) : lsn < s.shared.published := by
  have hqueue := (h.stopping (by rw [hdone]; rfl)).2
  rw [sentEnd, pending, hdone, hqueue] at hlsn
  simpa [slots, FlushPc.pending?, FlushPc.buf?] using hlsn

theorem Closes.step (kept : WellKept crc32 cfg s) (h : Closes s) (hok : ClosesOrderly cfg s l)
    (hstep : s.step crc32 cfg l = some s') : Closes s' := by
  have hmove := System.step_move hstep hok.1.1.1
  have hhands := handsOver_step kept.own kept.num kept.chained hmove
  have hpublished := (advances_step kept.own kept.num kept.chained hmove).published
  have hreturned : ∀ before ∈ s.shared.closes, s.flush.pc = .done ∧
      ∀ lsn ∈ before, lsn < s'.shared.published := fun before hbefore =>
    (h.returned before hbefore).imp_right fun hlsns lsn hlsn => (hlsns lsn hlsn).trans_le hpublished
  cases System.step_effect hstep with
  | @call t call hidle =>
      cases call with
      | append | sync =>
          exact h.move hhands rfl rfl nofun h.handle trivial (fun u _ => h.handleAt u)
            (fun _ hbefore => by cases hbefore) id hreturned
      | close =>
          obtain ⟨hpresent, hrunning⟩ : _ ∧ _ := hok.2.1
          refine h.move hhands rfl rfl (fun _ u _ => hrunning u) h.handle
            ⟨hpresent, h.handle hpresent⟩ (fun u _ => h.handleAt u) ?_ id hreturned
          intro before hbefore lsn hlsn
          obtain rfl := Option.some.inj hbefore
          exact ⟨kept.num.returned_lt hlsn, trivial⟩
  | @thread t sh' pc' hthread =>
      obtain ⟨hhandle, hself, hcloses⟩ := h.handle_step hthread
      have heff := stepThread_effect hthread
      refine h.move hhands rfl rfl ?_ hhandle hself ?_ ?_ ?_ ?_
      · intro hclosing u hu
        have hold : (s.pcs t).closing = true := by
          by_contra hold
          rw [(stepThread_open hthread (by simpa using hold)).2.2] at hclosing
          cases hclosing
        by_contra hother
        exact hu (h.single u t (by simpa using hother) hold)
      · intro u hu
        cases hclosing : (s.pcs t).closing with
        | true =>
            refine handleAt_of_running ?_
            by_contra hother
            exact hu (h.single u t (by simpa using hother) hclosing)
        | false =>
            rcases stepThread_handle hthread with ⟨-, hsame, htx⟩ | ⟨before, pc, hpc⟩
            · exact (h.handleAt u).congr hsame htx
            · rw [hpc] at hclosing
              cases hclosing
      · intro before hbefore lsn hlsn
        have hold := stepThread_closeBefore? hthread hbefore
        exact ⟨(h.closeAt t before hold lsn hlsn).1,
          h.closeKnows_step kept.own kept.chained rfl hold hok.2.2 hthread hlsn⟩
      · rintro ⟨htx, hqueue⟩
        obtain ⟨more, happend, hmore⟩ := heff.flushQueue_append
        exact ⟨heff.flushTx_mono htx, happend.trans (by rw [hqueue, hmore htx]; rfl)⟩
      · rcases hcloses with hsame | ⟨before, hpc, hstopped, hcloses⟩
        · exact hsame ▸ hreturned
        · have hdone := s.flush.stopped_eq_some_true.mp hstopped
          change ∀ before ∈ sh'.closes, _
          rw [hcloses]
          refine List.forall_mem_append.mpr ⟨hreturned, ?_⟩
          simp only [List.mem_singleton, forall_eq]
          refine ⟨hdone, fun lsn hlsn => ?_⟩
          obtain ⟨-, hknows⟩ := h.closeAt t before (by rw [hpc]; rfl) lsn hlsn
          rw [hpc] at hknows
          exact (h.published_of_done hdone hknows).trans_le hpublished
  | @timeout t before target hpc =>
      exact h.move hhands rfl rfl nofun h.handle trivial (fun u _ => h.handleAt u)
        (fun _ hbefore => by cases hbefore) id hreturned
  | @flush sh' fl' hflush =>
      have hfine := stepFlush_step hflush
      obtain ⟨hhandle, htx, hcloses⟩ := hfine.handle_eq
      refine
        { single := h.single
          handle := by rw [hhandle, htx]; exact h.handle
          handleAt := fun u => (h.handleAt u).congr hhandle htx
          closeAt := fun u before hbefore lsn hlsn => ?_
          stopping := hfine.stopping h.stopping
          returned := ?_ }
      · obtain ⟨hissued, hknows⟩ := h.closeAt u before hbefore lsn hlsn
        exact ⟨hissued.trans_le hhands.issued, hhands.closeKnows hissued hknows⟩
      · intro before hbefore
        rw [hcloses] at hbefore
        have hdone := (h.returned before hbefore).1
        simp [stepFlush, hdone] at hflush

omit [Fintype ι] [DecidableEq ι] in
/-- When the flush thread is done every segment has its index in its `.idx` file. -/
theorem OnDisk.idxHolds_of_done {frames : ℕ → Placement} {core : Core} {fl : FlushThread}
    (h : OnDisk frames cfg core fl) (hdone : fl.pc = .done) {seg : ℕ} (hseg : seg ≤ fl.curSeg) :
    ∃ files, fl.disk seg = some files ∧ IdxHolds cfg files (indexOf frames fl.flushed seg) := by
  rcases Nat.lt_or_eq_of_le hseg with hlt | rfl
  · exact h.sealed seg hlt
  · obtain ⟨files, hfiles, -⟩ := h.current
    have hat := h.diskAt
    have hmem := h.mem
    simp only [DiskAt, hdone] at hat
    simp only [inProgress, hdone, List.append_nil] at hmem
    exact ⟨files, hfiles, hmem ▸ hat.2 files hfiles⟩

/-- The frame of an LSN is in the log of a segment, written and synced, and the sealed `.idx`
file of that segment says where. -/
def Drained (crc32 : Bytes → UInt32) (cfg : WalConfig) (s : System ι) (lsn : ℕ) : Prop :=
  ∃ issue seg files offset file mem, s.shared.issued[lsn]? = some issue ∧
    s.flush.disk seg = some files ∧
    HoldsAt files.log offset (encode crc32 lsn issue.payload) ∧
    HoldsAt files.synced offset (encode crc32 lsn issue.payload) ∧
    files.idx = some file ∧ sealIdx cfg.blockSize mem none = .ok file ∧
    indexEntry lsn offset (frameLen issue.payload) ∈ mem.entries ∧
    (cfg.blockSize < 2 ^ 32 →
      ∃ footer, WellFormedSst (⟨file, cfg.blockSize⟩ : FileBlockReader) footer mem.entries)

omit [DecidableEq ι] in
theorem Stored.drained (h : Stored crc32 cfg s) (hvalid : cfg.Valid) (hdone : s.flush.pc = .done)
    {lsn : ℕ} (hlsn : lsn < s.shared.published) : Drained crc32 cfg s lsn := by
  obtain ⟨r, hr, hmem⟩ : ∃ r ∈ s.flush.flushed, lsn ∈ r.lsns := by
    rw [← List.mem_flatMap, h.disk.lsns, List.mem_range]
    exact hlsn
  obtain ⟨files, hfiles, hlog, hsynced⟩ := h.disk.stored r hr
  obtain ⟨issue, hissue⟩ : ∃ issue, s.shared.issued[lsn]? = some issue :=
    ⟨_, List.getElem?_eq_getElem (hlsn.trans_le h.kept.published_le)⟩
  have hcomplete := h.disk.complete r hr
  have hinside := hcomplete.inside lsn hmem
  have hbytes := hcomplete.bytes lsn hmem
  have hentry : entryAt (issuedFrames crc32 s.shared.issued) r.base lsn ∈
      indexOf (issuedFrames crc32 s.shared.issued) s.flush.flushed r.seg :=
    List.mem_flatMap.mpr ⟨r, List.mem_filter.mpr ⟨hr, by simp⟩, List.mem_map_of_mem hmem⟩
  rw [issuedFrames_of_some hissue] at hinside hbytes
  rw [entryAt, issuedFrames_of_some hissue, length_encode] at hentry
  obtain ⟨files', hfiles', hidx⟩ := h.disk.idxHolds_of_done hdone (h.disk.seg_le hr)
  obtain rfl := Option.some.inj (hfiles.symm.trans hfiles')
  obtain ⟨mem, file, hfile, hseal, hentries⟩ := hidx.resolve_left fun hempty => by
    rw [hempty.1] at hentry
    cases hentry
  refine ⟨issue, r.seg, files, r.base + issue.pos, file, mem, hissue, hfiles, ?_, ?_, hfile, hseal,
    hentries ▸ hentry, fun hblock => ?_⟩
  · have hpart := hlog.part hinside
    rwa [hbytes] at hpart
  · have hpart := hsynced.part hinside
    rwa [hbytes] at hpart
  · exact sealIdx_wellFormed hvalid.blockSize_ge (hentries ▸ plainIndex_indexOf _ _) (.inl hblock)
      hseal

/-- In every run of such steps, whatever was returned before `close` was called is, once `close`
has returned, written and synced and in the sealed index of its segment. -/
theorem close_drains (hvalid : cfg.validate = .ok ()) (husize : cfg.segmentSize < 2 ^ 64)
    {memory : BufId → ℕ → UInt8}
    (h : Reaches (System.step crc32 cfg) (ClosesOrderly cfg) (System.init cfg memory) s)
    {before : List ℕ} {lsn : ℕ} (hclose : before ∈ s.shared.closes) (hlsn : lsn ∈ before) :
    Drained crc32 cfg s lsn := by
  have hvalid := WalConfig.validate_eq_ok.mp hvalid
  obtain ⟨hstored, hcloses⟩ : Stored crc32 cfg s ∧ Closes s := by
    refine h.invariant (P := fun s => Stored crc32 cfg s ∧ Closes s)
      ⟨.init crc32 cfg memory, .init cfg memory⟩ ?_
    intro s l s' hs hok hstep
    exact ⟨hs.1.step hvalid husize hok.1 hstep, hs.2.step hs.1.kept hok hstep⟩
  obtain ⟨hdone, hpublished⟩ := hcloses.returned before hclose
  exact hstored.drained hvalid hdone (hpublished lsn hlsn)

instance (s : System ι) (l : Label ι) : Decidable (ClosedOnce s l) := by
  induction l using Label.casesOn with
  | call t call => induction call using Call.casesOn <;> unfold ClosedOnce <;> infer_instance
  | _ =>
      unfold ClosedOnce
      infer_instance

omit [Fintype ι] [DecidableEq ι] in
instance (s : System ι) (l : Label ι) : Decidable (TakesAfterSend s l) := by
  induction l using Label.casesOn with
  | thread t =>
      dsimp only [TakesAfterSend]
      induction s.pcs t using Pc.casesOn with
      | close before pc => induction pc using ClosePc.casesOn <;> infer_instance
      | _ => infer_instance
  | _ =>
      unfold TakesAfterSend
      infer_instance

instance (cfg : WalConfig) (s : System ι) (l : Label ι) : Decidable (FreshOrderly cfg s l) :=
  inferInstanceAs (Decidable (OrderlyPacked cfg s l ∧ (l = .flush → FreshStep s.flush)))

instance (cfg : WalConfig) (s : System ι) (l : Label ι) : Decidable (ClosesOrderly cfg s l) :=
  inferInstanceAs (Decidable (FreshOrderly cfg s l ∧ _ ∧ _))

end Runs

/-- An append, then `close` while the flush thread works. -/
theorem close_drains_first :
    ∃ s : System (Fin 1), s.shared.closes = [[0]] ∧ Drained (fun _ => 0) oneBlockConfig s 0 := by
  obtain ⟨s, hreach, hs⟩ :
      ∃ s : System (Fin 1), Reaches stepOneBlock (ClosesOrderly oneBlockConfig) (freshWal 1) s ∧
        s.shared.closes = [[0]] :=
    Reaches.exists_of_execute
      ([.call 0 (.append [7])] ++ turns 0 25 ++ [.call 0 .close] ++ turns 0 18 ++
        List.replicate 14 .flush ++ turns 0 1) _ _ (by decide +kernel) (by decide +kernel)
  exact ⟨s, hs, close_drains (by decide) (by decide) hreach (by rw [hs]; exact List.mem_singleton_self _)
    (List.mem_singleton_self 0)⟩

/-- A `sync` wins the compare-exchange and pauses; `close` finds the buffer full, takes the sender
and joins the flush thread, which has nothing to do. The append is lost, although every step is
orderly. -/
theorem close_does_not_drain :
    ∃ s : System (Fin 2),
      Reaches stepOneBlock (fun s l => FreshOrderly oneBlockConfig s l ∧ ClosedOnce s l) (freshWal 2) s ∧
        s.shared.closes = [[0]] ∧ ¬ Drained (fun _ => 0) oneBlockConfig s 0 := by
  obtain ⟨s, hreach, hs⟩ :
      ∃ s : System (Fin 2),
        Reaches stepOneBlock (fun s l => FreshOrderly oneBlockConfig s l ∧ ClosedOnce s l)
          (freshWal 2) s ∧
        (s.shared.closes, s.flush.pc, s.flush.curSeg, (s.flush.disk 0).map (·.synced)) =
          ([[0]], .done, 0, some []) :=
    Reaches.exists_of_execute
      ([.call 0 (.append [7])] ++ turns 0 25 ++ [.call 0 .sync] ++ turns 0 5 ++
        [.call 1 .close] ++ turns 1 5 ++ List.replicate 3 .flush ++ turns 1 1) _ _
      (by decide +kernel) (by decide +kernel)
  simp only [Prod.mk.injEq] at hs
  obtain ⟨hcloses, hdone, hcurSeg, hsynced⟩ := hs
  refine ⟨s, hreach, hcloses, ?_⟩
  rintro ⟨issue, seg, files, offset, file, mem, -, hfiles, -, hholds, -⟩
  -- there is one segment, and nothing in it is synced
  have hstored := stored_of_freshOrderly (WalConfig.validate_eq_ok.mp (by decide)) (by decide)
    (hreach.mono fun h => h.1)
  have hat := hstored.disk.diskAt
  simp only [DiskAt, hdone] at hat
  have hseg : seg = 0 := by
    by_contra hne
    rw [hat.1.fresh seg (by rw [hcurSeg]; omega)] at hfiles
    cases hfiles
  rw [hseg] at hfiles
  rw [hfiles] at hsynced
  have hempty : files.synced = [] := Option.some.inj hsynced
  have hinside := hholds.inside
  rw [hempty, length_encode] at hinside
  simp [frameLen, headerLen] at hinside

end Todb.Wal

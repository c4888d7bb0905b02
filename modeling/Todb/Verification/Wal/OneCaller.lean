import Todb.Verification.Wal.Shutdown
import Todb.Verification.Wal.Solo

/-! # One caller, up to `close`

A WAL that only one thread calls meets the conditions of the protocol by itself: nobody else can
hold a handle that has become stale. What is left are conditions on the flush thread and on the
number of LSNs. -/

namespace Todb.Wal

open Library

/-! ## Where the caller is -/

/-- What `close` knows of a WAL with no other caller. -/
def ClosingAt (sh : Shared) : Pc → Prop
  | .close _ .lock | .close _ .storeStop => sh.phase = .open
  | .close _ .loadActive => sh.phase = .open ∧ sh.stopFlag = true
  | .swap (.close _) old .cas => (sh.active = old ∧ sh.phase = .open) ∧ sh.stopFlag = true
  | .swap (.close _) _ _ => sh.stopFlag = true
  | .close _ .takeTx => (sh.phase = .open ∨ sh.phase = .sent) ∧ sh.stopFlag = true
  | .close _ .join => sh.flushTx = false ∧ sh.stopFlag = true
  | _ => True

/-- The only caller is at `pc`. Until it calls `close`, nothing is shut down. -/
structure AloneAt (cfg : WalConfig) (sh : Shared) (fpc : FlushPc) (pc : Pc) : Prop where
  running : sh.stopFlag = false → pc.closing = false →
    Solo cfg sh fpc pc ∧ (pc.swap? = none → sh.phase = .open)
  closing : ClosingAt sh pc
  stopped : sh.stopFlag = true → pc.closing = true ∨ pc = .idle ∨ pc = .panicked
  unlocked : sh.stopFlag = false → (∀ before, pc ≠ .close before .storeStop) →
    sh.flushHandle = .present

variable {cfg : WalConfig} {crc32 : Bytes → UInt32} {sh sh' : Shared} {fpc fpc' : FlushPc}
  {pc pc' : Pc}

theorem closingAt_of_running (h : pc.closing = false) : ClosingAt sh pc := by
  cases pc with
  | close => cases h
  | swap caller =>
      cases caller with
      | close => cases h
      | append | sync => trivial
  | idle | append | claimed | holding | sync | panicked => trivial

/-- What `close` knows is about flags and phases. -/
theorem ClosingAt.congr (h : ClosingAt sh pc) (hphase : sh'.phase = sh.phase)
    (hactive : sh'.active = sh.active) (hstop : sh'.stopFlag = sh.stopFlag)
    (htx : sh'.flushTx = sh.flushTx) : ClosingAt sh' pc := by
  cases pc with
  | close before pc => cases pc <;> simpa only [ClosingAt, hphase, hstop, htx] using h
  | swap caller old pc =>
      cases caller with
      | close => cases pc <;> simpa only [ClosingAt, hphase, hactive, hstop] using h
      | append | sync => trivial
  | idle | append | claimed | holding | sync | panicked => trivial

/-- A WAL that is not closed is not closed by a step outside `close`. -/
theorem AloneAt.not_stopped (h : AloneAt cfg sh fpc pc) (hclosing : pc.closing = false)
    (hidle : pc ≠ .idle) (hpanic : pc ≠ .panicked) : sh.stopFlag = false := by
  by_contra hstop
  rcases h.stopped (by simpa using hstop) with h | h | h
  · rw [hclosing] at h
    cases h
  · exact hidle h
  · exact hpanic h

/-- Between two swaps of a WAL that is not closed its active buffer is open. -/
theorem Effect.phase_open (heff : Effect crc32 cfg sh pc sh' pc') (hstop : sh.stopFlag = false)
    (hopen : pc.swap? = none → sh.phase = .open) (hswap : pc'.swap? = none) :
    sh'.phase = .open := by
  cases heff with
  | outside hpc _ hcore =>
      rw [hcore]
      exact hopen hpc.swap?_eq
  | overflow | claimBytes | claimSlot | exhausted | loadLsn | enter | copy | store | leave =>
      exact hopen rfl
  | cas | spin | drained | loadCount | storeCount | loadMinLsn | send | pop => cases hswap
  | giveUp _ hstopped =>
      rw [hstop] at hstopped
      cases hstopped
  | reset =>
      split at hswap <;> cases hswap
  | install => rfl

/-- A step outside `close`. -/
theorem AloneAt.thread {stopped : Option Bool} (h : AloneAt cfg sh fpc pc)
    (hclosing : pc.closing = false)
    (hstep : stepThread crc32 cfg sh stopped pc = some (sh', pc')) : AloneAt cfg sh' fpc pc' := by
  obtain ⟨hstop, htx, hclosing'⟩ := stepThread_open hstep hclosing
  have hrunning : sh.stopFlag = false :=
    h.not_stopped hclosing (by rintro rfl; cases hstep) (by rintro rfl; cases hstep)
  obtain ⟨hsolo, hphase⟩ := h.running hrunning hclosing
  have hhandle : sh'.flushHandle = sh.flushHandle := by
    rcases stepThread_handle hstep with ⟨-, hhandle, -⟩ | ⟨before, pc, rfl⟩
    · exact hhandle
    · cases hclosing
  refine
    { running := fun _ _ =>
        ⟨hsolo.thread hstep, (stepThread_effect hstep).phase_open hrunning hphase⟩
      closing := closingAt_of_running hclosing'
      stopped := fun hstop' => ?_
      unlocked := fun _ _ => ?_ }
  · rw [hstop, hrunning] at hstop'
    cases hstop'
  · rw [hhandle]
    exact h.unlocked hrunning fun before => by
      rintro rfl
      cases hclosing

/-- A state of `close` once the flag is set. -/
theorem aloneAt_of_stopped (hstop : sh.stopFlag = true) (hclosing : ClosingAt sh pc)
    (hpc : pc.closing = true ∨ pc = .idle ∨ pc = .panicked) : AloneAt cfg sh fpc pc where
  running h := by simp [hstop] at h
  closing := hclosing
  stopped _ := hpc
  unlocked h := by simp [hstop] at h

/-- A step of the swap of `close`. -/
theorem AloneAt.swap {before : List ℕ} {old : BufId} {spc : SwapPc}
    (h : AloneAt cfg sh fpc (.swap (.close before) old spc))
    (hstate : sh.phase = .open → (sh.buffers sh.active).state = .active)
    (hsent : ∀ p, (Pc.swap (.close before) old spc).swap? = some p → SwapAt sh.toCore p.1 p.2)
    (hstep : stepSwap sh (.close before) old spc = some (sh', pc')) :
    AloneAt cfg sh' fpc pc' := by
  have hat := h.closing
  have hstop : sh.stopFlag = true := by
    cases spc <;> first | exact hat | exact hat.2
  cases spc <;> simp only [stepSwap] at hstep
  case cas =>
    obtain ⟨⟨rfl, hphase⟩, -⟩ := hat
    rw [hstate hphase] at hstep
    cases hstep
    exact aloneAt_of_stopped hstop hstop (.inl rfl)
  case barrier =>
    split at hstep <;> cases hstep <;> exact aloneAt_of_stopped hstop hstop (.inl rfl)
  case pop =>
    split at hstep
    · cases hstep
      exact aloneAt_of_stopped hstop hstop (.inl rfl)
    · rw [if_pos hstop] at hstep
      cases hstep
      exact aloneAt_of_stopped hstop ⟨.inr (hsent _ rfl).2, hstop⟩ (.inl rfl)
  case reset =>
    cases hstep
    split <;> exact aloneAt_of_stopped hstop hstop (.inl rfl)
  case install =>
    cases hstep
    exact aloneAt_of_stopped hstop ⟨.inl rfl, hstop⟩ (.inl rfl)
  all_goals
    cases hstep
    exact aloneAt_of_stopped hstop hstop (.inl rfl)

/-- A step of `close` around its swap. -/
theorem AloneAt.close {before : List ℕ} {cpc : ClosePc} {stopped : Option Bool}
    (h : AloneAt cfg sh fpc (.close before cpc)) (hhandle : HandleAt sh (.close before cpc))
    (hstep : stepClose sh before stopped cpc = some (sh', pc')) : AloneAt cfg sh' fpc pc' := by
  have hat := h.closing
  cases cpc with
  | lock =>
      rw [stepClose, hhandle.1] at hstep
      cases hstep
      exact
        { running := fun _ hclosing => by cases hclosing
          closing := hat
          stopped := fun _ => .inl rfl
          unlocked := fun _ hne => absurd rfl (hne before) }
  | storeStop =>
      cases hstep
      exact aloneAt_of_stopped rfl ⟨hat, rfl⟩ (.inl rfl)
  | loadActive =>
      cases hstep
      exact aloneAt_of_stopped hat.2 ⟨⟨rfl, hat.1⟩, hat.2⟩ (.inl rfl)
  | takeTx =>
      cases hstep
      exact aloneAt_of_stopped hat.2 ⟨rfl, hat.2⟩ (.inl rfl)
  | join =>
      simp only [stepClose] at hstep
      split at hstep <;> cases hstep
      · exact aloneAt_of_stopped hat.2 trivial (.inr (.inl rfl))
      · exact aloneAt_of_stopped hat.2 trivial (.inr (.inr rfl))

/-- A step of the flush thread. -/
theorem AloneAt.flush (h : AloneAt cfg sh fpc pc) (heff : FlushEffect cfg sh fpc sh' fpc')
    (hstop : sh'.stopFlag = sh.stopFlag) (hhandle : sh'.flushHandle = sh.flushHandle)
    (htx : sh'.flushTx = sh.flushTx) : AloneAt cfg sh' fpc' pc where
  running hrunning hclosing := by
    obtain ⟨hsolo, hphase⟩ := h.running (hstop ▸ hrunning) hclosing
    exact ⟨hsolo.flush heff, fun hswap => heff.phase_eq.trans (hphase hswap)⟩
  closing := h.closing.congr heff.phase_eq heff.active_eq hstop htx
  stopped hstopped := h.stopped (hstop ▸ hstopped)
  unlocked hrunning hpc := hhandle.trans (h.unlocked (hstop ▸ hrunning) hpc)

/-! ## Runs of one caller -/

section Runs

variable {ι : Type} {t : ι} {s s' : System ι} {l : Label ι}

/-- Only `t` calls, with payloads that fit a buffer, and nothing once it has closed the WAL. -/
def ByOne (cfg : WalConfig) (t : ι) (s : System ι) : Label ι → Prop
  | .call u call =>
      u = t ∧ s.shared.stopFlag = false ∧
        match call with
        | .append payload => frameLen payload ≤ cfg.bufferSize
        | _ => True
  | .thread u | .timeout u => u = t
  | .flush => True

/-- A slot claim leaves an LSN for the next one. -/
def LsnLeft (s : System ι) : Label ι → Prop
  | .thread u =>
      match s.pcs u with
      | .claimed _ => s.shared.issued.length + 1 < 2 ^ 64
      | _ => True
  | _ => True

/-- The steps of one caller, and of a flush thread that loses no segment. -/
def OneOrderly (cfg : WalConfig) (t : ι) (s : System ι) (l : Label ι) : Prop :=
  ByOne cfg t s l ∧ LsnLeft s l ∧ (l = .flush → FreshStep s.flush)

/-- The state of a WAL that only `t` calls. -/
structure Alone (cfg : WalConfig) (t : ι) (s : System ι) : Prop where
  others : ∀ u ≠ t, s.pcs u = .idle
  self : AloneAt cfg s.shared s.flush.pc (s.pcs t)

theorem Alone.init (cfg : WalConfig) (t : ι) (memory : BufId → ℕ → UInt8) :
    Alone cfg t (System.init cfg memory) where
  others _ _ := rfl
  self :=
    { running := fun _ _ => ⟨solo_init memory, fun _ => rfl⟩
      closing := trivial
      stopped := fun h => by cases h
      unlocked := fun _ _ => rfl }

variable [DecidableEq ι]

theorem Alone.move (h : Alone cfg t s) (hself : AloneAt cfg sh' s.flush.pc pc') :
    Alone cfg t ({ s with shared := sh' }.setPc t pc') where
  others u hu := by
    simp only [System.setPc, Function.update_of_ne hu]
    exact h.others u hu
  self := by simpa [System.setPc] using hself

/-- A call, of a WAL that is not closed. -/
theorem AloneAt.call {call : Call} (h : AloneAt cfg sh fpc .idle) (hstop : sh.stopFlag = false) :
    AloneAt cfg sh fpc (call.start sh) := by
  obtain ⟨hsolo, hphase⟩ := h.running hstop rfl
  have hhandle := h.unlocked hstop nofun
  cases call with
  | append | sync =>
      exact
        { running := fun _ _ =>
            ⟨hsolo.stay rfl rfl rfl rfl rfl rfl hsolo.at_pc, fun _ => hphase rfl⟩
          closing := trivial
          stopped := fun hstop' => by simp [hstop] at hstop'
          unlocked := fun _ _ => hhandle }
  | close =>
      exact
        { running := fun _ hclosing => by cases hclosing
          closing := hphase rfl
          stopped := fun _ => .inl rfl
          unlocked := fun _ _ => hhandle }

variable [Fintype ι]

theorem Alone.step (kept : WellKept crc32 cfg s) (hcloses : Closes s) (h : Alone cfg t s)
    (hok : ByOne cfg t s l) (hstep : s.step crc32 cfg l = some s') : Alone cfg t s' := by
  cases System.step_effect hstep with
  | @call u call hidle =>
      obtain ⟨rfl, hstop, -⟩ := hok
      have hself := h.self
      rw [hidle] at hself
      exact h.move (hself.call hstop)
  | @thread u sh' pc' hthread =>
      obtain rfl : u = t := hok
      refine h.move ?_
      have hself := h.self
      have hhandle := hcloses.handleAt u
      have hat := kept.own.swapAt u
      generalize s.pcs u = pc at hthread hself hhandle hat
      cases hclosing : pc.closing with
      | false => exact hself.thread hclosing hthread
      | true =>
          cases pc with
          | close before pc => exact hself.close hhandle hthread
          | swap caller old pc =>
              cases caller with
              | close before => exact hself.swap kept.own.open_state hat hthread
              | append | sync => cases hclosing
          | idle | append | claimed | holding | sync | panicked => cases hclosing
  | @timeout u before target hpc =>
      obtain rfl : u = t := hok
      refine h.move ?_
      have hself := h.self
      rw [hpc] at hself
      have hstop := hself.not_stopped rfl nofun nofun
      obtain ⟨hsolo, hphase⟩ := hself.running hstop rfl
      exact
        { running := fun _ _ =>
            ⟨hsolo.stay rfl rfl rfl rfl rfl rfl hsolo.at_pc, fun _ => hphase rfl⟩
          closing := trivial
          stopped := fun _ => .inr (.inl rfl)
          unlocked := fun _ _ => hself.unlocked hstop nofun }
  | @flush sh' fl' hflush =>
      have hfine := stepFlush_step hflush
      obtain ⟨hhandle, htx, -⟩ := hfine.handle_eq
      exact ⟨h.others, h.self.flush (stepFlush_effect hflush) hfine.stopFlag_eq hhandle htx⟩

omit [DecidableEq ι] in
/-- The only caller's own steps are orderly. -/
theorem Alone.stepOrderly (own : Owned cfg s) (h : Alone cfg t s)
    (hbuffer : cfg.bufferSize < 2 ^ 32) (hlsn : LsnLeft s (.thread t)) :
    StepOrderly cfg s.shared.toCore s.pcs (s.pcs t) := by
  have hself := h.self
  have hrunning := fun hclosing hidle hpanic =>
    hself.running (hself.not_stopped hclosing hidle hpanic) hclosing
  simp only [LsnLeft] at hlsn
  cases hpc : s.pcs t with
  | append payload pc =>
      rw [hpc] at hrunning
      obtain ⟨hsolo, hphase⟩ := hrunning rfl (by rintro ⟨⟩) (by rintro ⟨⟩)
      cases pc with
      | claimBytes buf =>
          obtain ⟨rfl, hready⟩ := hsolo.at_pc
          have hroom := hready.room
          have hfit := own.fitting t payload (by rw [hpc]; rfl)
          exact ⟨by omega, fun _ => ⟨rfl, .inl (hphase rfl)⟩⟩
      | checkStop | loadActive | waitActive | waitStop => trivial
  | claimed claim => simpa only [hpc, StepOrderly] using hlsn
  | holding held pc =>
      rw [hpc] at hrunning
      obtain ⟨hbuf, -, hflight, -⟩ := (hrunning rfl (by rintro ⟨⟩) (by rintro ⟨⟩)).1.at_pc
      cases pc with
      | enter =>
          simp only [StepOrderly]
          rw [hbuf, hflight]
          simp [Pc.registered]
      | loadMinLsn | copy | store | leave => trivial
  | swap caller old pc =>
      cases pc with
      | cas =>
          intro _
          cases caller with
          | close before =>
              have hat := hself.closing
              rw [hpc] at hat
              exact hat.1
          | append | sync =>
              rw [hpc] at hrunning
              obtain ⟨hsolo, hphase⟩ := hrunning rfl (by rintro ⟨⟩) (by rintro ⟨⟩)
              exact ⟨hsolo.at_pc.2.1, hphase rfl⟩
      | barrier =>
          intro _ u
          by_cases hu : u = t
          · rw [hu, hpc]
            rfl
          · rw [h.others u hu]
            rfl
      | loadCount | storeCount | loadMinLsn | send | pop | reset | install => trivial
  | idle | sync | close | panicked => trivial

/-- So are those of the whole system. -/
theorem Alone.orderly (kept : WellKept crc32 cfg s) (h : Alone cfg t s)
    (hbuffer : cfg.bufferSize < 2 ^ 32) (hok : OneOrderly cfg t s l)
    (hstep : s.step crc32 cfg l = some s') : ClosesOrderly cfg s l := by
  obtain ⟨hone, hlsn, hfresh⟩ := hok
  cases l with
  | call u call =>
      obtain ⟨rfl, hstop, hfits⟩ := hone
      refine ⟨⟨⟨?_, trivial⟩, by rintro ⟨⟩⟩, ?_, trivial⟩
      · cases call with
        | append => exact hfits
        | sync | close => trivial
      · cases call with
        | append | sync => trivial
        | close =>
            cases System.step_effect hstep with
            | call hidle =>
                refine ⟨h.self.unlocked hstop (by rw [hidle]; rintro _ ⟨⟩), fun v => ?_⟩
                by_cases hv : v = u
                · rw [hv, hidle]
                  rfl
                · rw [h.others v hv]
                  rfl
  | thread u =>
      obtain rfl : u = t := hone
      refine ⟨⟨⟨h.stepOrderly kept.own hbuffer hlsn, ?_⟩, by rintro ⟨⟩⟩, trivial, ?_⟩
      · simp only [StorePackable]
        split
        · rename_i held hpc
          have hstop := (kept.ranges.claim_stop u held.toClaim (by rw [hpc]; rfl)).2
          simp only [Claim.stop] at hstop
          exact ⟨by omega, by omega⟩
        · trivial
      · simp only [TakesAfterSend]
        split
        · rename_i before hpc
          have hat := h.self.closing
          rw [hpc] at hat
          exact hat.1.imp_right .inl
        · trivial
  | timeout u => exact ⟨⟨⟨trivial, trivial⟩, by rintro ⟨⟩⟩, trivial, trivial⟩
  | flush => exact ⟨⟨⟨trivial, trivial⟩, hfresh⟩, trivial, trivial⟩

end Runs

end Todb.Wal

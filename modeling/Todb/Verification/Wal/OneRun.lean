import Todb.Verification.Wal.AppendOrder
import Todb.Verification.Wal.FlushProgress
import Todb.Verification.Wal.Padding

/-! # Runs of one caller

All that holds along the runs of a WAL with one caller, and that its calls return: as long as
swaps take fresh buffers, an append ends after a bounded number of steps of both threads. -/

namespace Todb.Wal

open Library

variable {ι : Type} {crc32 : Bytes → UInt32} {cfg : WalConfig} {s s' : System ι} {t : ι}
  {l : Label ι} {payloads : List Bytes}

/-! ## Flushed buffers and slots -/

/-- The frames of a flushed buffer were in its slots, in order. -/
def Slotted (s : System ι) : Prop :=
  ∀ r ∈ s.flush.flushed, ∀ i < r.count, ∃ issue,
    s.shared.issued[r.minLsn + i]? = some issue ∧ issue.slot = i

/-- Only the publication of a buffer adds to the record of flushed buffers. -/
theorem FlushStep.flushed_cases {sh sh' : Shared} {fl fl' : FlushThread}
    (hstep : FlushStep cfg sh fl sh' fl') :
    fl'.flushed = fl.flushed ∨ ∃ job image, fl.pc.job? = some job ∧
      fl'.flushed = fl.flushed ++ [⟨fl.curSeg, fl.segWritten, job.minLsn, job.count, image⟩] := by
  cases hstep with
  | publish hpc => exact .inr ⟨_, _, by rw [hpc]; rfl, rfl⟩
  | recv | disconnected | loadCount | empty | loadMinLsn | scan | scanPanics | rollOver | stay
  | sealEmpty | sealIdx | sealPanics | sealMeta | createSegment | reopenSegment | initMeta
  | keepMeta | installSegment | pad | pwrite | pwritePanics | fdatasync | put | drop | recycle
  | reset | push => exact .inl rfl

variable [Fintype ι] [DecidableEq ι]

theorem Slotted.step (kept : WellKept crc32 cfg s) (h : Slotted s) (hok : Orderly cfg s l)
    (hstep : s.step crc32 cfg l = some s') : Slotted s' := by
  cases System.step_move hstep hok with
  | thread hpc heff =>
      intro r hr i hi
      obtain ⟨issue, hissue, hslot⟩ := h r hr i hi
      obtain ⟨more, hissued⟩ := heff.issued_append
      refine ⟨issue, ?_, hslot⟩
      simp only [System.setPc]
      rw [hissued, List.getElem?_append_left (List.getElem?_eq_some_iff.mp hissue).1, hissue]
  | flush hflush =>
      have hissued := (stepFlush_effect hflush).issued_eq
      have hold : ∀ r ∈ s.flush.flushed, ∀ i < r.count, ∃ issue,
          s.shared.issued[r.minLsn + i]? = some issue ∧ issue.slot = i := h
      rw [← hissued] at hold
      rcases (stepFlush_step hflush).flushed_cases with hsame | ⟨job, image, hjob, hflushed⟩
      · intro r hr
        exact hold r (hsame ▸ hr)
      · intro r hr i hi
        rcases List.mem_append.mp (hflushed ▸ hr) with hr | hr
        · exact hold r hr i hi
        · obtain rfl := List.mem_singleton.mp hr
          obtain ⟨issue, hissue, hslot, -⟩ := kept.job_filled hjob i hi
          exact ⟨issue, hissued ▸ hissue, hslot⟩

/-! ## The call of `close` -/

/-- What `close` finds returned are the LSNs of all appends. -/
structure ClosedWith (payloads : List Bytes) (sh : Shared) (pc : Pc) : Prop where
  before : ∀ before, pc.closeBefore? = some before → before = List.range payloads.length
  closes : ∀ before ∈ sh.closes, before = List.range payloads.length
  stopped : sh.closes ≠ [] → sh.stopFlag = true

omit [Fintype ι] [DecidableEq ι] in
theorem Effect.stopFlag_mono {sh sh' : Shared} {pc pc' : Pc}
    (heff : Effect crc32 cfg sh pc sh' pc') (h : sh.stopFlag = true) : sh'.stopFlag = true := by
  cases heff with
  | outside _ _ _ hclosing => exact hclosing.stopFlag h
  | overflow | claimBytes | claimSlot | exhausted | loadLsn | enter | copy | store | leave | cas
  | spin | drained | loadCount | storeCount | loadMinLsn | send | pop | giveUp | reset | install =>
      exact h

omit [Fintype ι] [DecidableEq ι] in
theorem TracksAt.length_eq {core : Core} {pc : Pc} (h : TracksAt payloads core pc)
    (hpc : pc.unissued? = none) : core.issued.length = payloads.length := by
  rw [← h.issued, hpc]
  simp

/-- The payload of a call of `append`. -/
def Label.payload? : Label ι → Option Bytes
  | .call _ (.append payload) => some payload
  | _ => none

omit [Fintype ι] [DecidableEq ι] in
theorem ByOne.payload_le (h : ByOne cfg t s l) :
    ∀ payload ∈ l.payload?.toList, frameLen payload ≤ cfg.bufferSize := by
  cases l with
  | call u call =>
      cases call with
      | append payload => simpa [Label.payload?] using h.2.2
      | sync | close => nofun
  | thread | timeout | flush => nofun

omit [Fintype ι] in
theorem ClosedWith.step (halone : Alone cfg t s) (hcloses : Closes s)
    (htracks : TracksAt payloads s.shared.toCore (s.pcs t))
    (h : ClosedWith payloads s.shared (s.pcs t)) (hok : ByOne cfg t s l)
    (hstep : s.step crc32 cfg l = some s') :
    ClosedWith (payloads ++ l.payload?.toList) s'.shared (s'.pcs t) := by
  cases System.step_effect hstep with
  | @call u call hidle =>
      obtain ⟨rfl, hstop, -⟩ := hok
      have hnone : s.shared.closes = [] := by
        by_contra hne
        rw [h.stopped hne] at hstop
        cases hstop
      refine ⟨?_, ?_, ?_⟩
      · simp only [System.setPc, Function.update_self]
        cases call with
        | append | sync => rintro _ ⟨⟩
        | close =>
            rintro before ⟨⟩
            rw [hidle] at htracks
            rw [htracks.returned]
            simp [Pc.lsn?, Pc.held?, Label.payload?, htracks.length_eq rfl]
      · intro before hbefore
        rw [show (s.setPc u _).shared.closes = [] from hnone] at hbefore
        cases hbefore
      · exact fun hne => absurd hnone hne
  | @thread u sh' pc' hthread =>
      obtain rfl : u = t := hok
      simp only [Label.payload?, Option.toList_none, List.append_nil, System.setPc,
        Function.update_self]
      obtain ⟨-, -, hsame⟩ := hcloses.handle_step hthread
      refine ⟨fun before hbefore => h.before before (stepThread_closeBefore? hthread hbefore),
        ?_, ?_⟩
      · rcases hsame with hsame | ⟨before, hpc, -, hmore⟩
        · exact hsame ▸ h.closes
        · rw [hmore]
          refine List.forall_mem_append.mpr ⟨h.closes, ?_⟩
          simp only [List.mem_singleton, forall_eq]
          exact h.before before (by rw [hpc]; rfl)
      · intro hne
        refine (stepThread_effect hthread).stopFlag_mono ?_
        rcases hsame with hsame | ⟨before, hpc, -, -⟩
        · exact h.stopped (hsame ▸ hne)
        · have hat := halone.self.closing
          rw [hpc] at hat
          exact hat.2
  | @timeout u before target hpc =>
      obtain rfl : u = t := hok
      simp only [Label.payload?, Option.toList_none, List.append_nil]
      refine ⟨?_, h.closes, h.stopped⟩
      simp only [System.setPc, Function.update_self]
      rintro _ ⟨⟩
  | @flush sh' fl' hflush =>
      have hfine := stepFlush_step hflush
      obtain ⟨-, -, hcloses⟩ := hfine.handle_eq
      simp only [Label.payload?, Option.toList_none, List.append_nil]
      exact ⟨h.before, hcloses ▸ h.closes, by rw [hcloses, hfine.stopFlag_eq]; exact h.stopped⟩

/-! ## The invariant -/

/-- The flush thread finds room for its index files. -/
def OneSealed (cfg : WalConfig) (t : ι) (s : System ι) (l : Label ι) : Prop :=
  OneOrderly cfg t s l ∧ (l = .flush → IndexFits cfg s.flush)

/-- All that holds of a WAL with one caller, which has appended `payloads`. -/
structure OneRun (crc32 : Bytes → UInt32) (cfg : WalConfig) (t : ι) (payloads : List Bytes)
    (s : System ι) : Prop where
  stored : Stored crc32 cfg s
  closes : Closes s
  padded : PaddedUp crc32 cfg s
  slotted : Slotted s
  alone : Alone cfg t s
  fitting : ∀ payload ∈ payloads, frameLen payload ≤ cfg.bufferSize
  tracks : TracksAt payloads s.shared.toCore (s.pcs t)
  gapless : Gapless s.shared (s.pcs t)
  closed : ClosedWith payloads s.shared (s.pcs t)
  unpanicked : s.pcs t ≠ .panicked ∧ ∀ buf, s.flush.pc ≠ .panicked buf

omit [DecidableEq ι] in
theorem OneRun.init (crc32 : Bytes → UInt32) (cfg : WalConfig) (t : ι)
    (memory : BufId → ℕ → UInt8) : OneRun crc32 cfg t [] (System.init cfg memory) where
  stored := .init crc32 cfg memory
  closes := .init cfg memory
  padded := .init crc32 cfg memory
  slotted := nofun
  alone := .init cfg t memory
  fitting := nofun
  tracks := ⟨rfl, nofun, rfl⟩
  gapless := ⟨⟨nofun, nofun⟩, fun _ => rfl⟩
  closed := ⟨nofun, nofun, nofun⟩
  unpanicked := ⟨nofun, nofun⟩

/-- The LSNs and payloads after a step of any thread. -/
theorem OneRun.tracks_step (h : OneRun crc32 cfg t payloads s) (hok : ByOne cfg t s l)
    (hstep : s.step crc32 cfg l = some s') :
    TracksAt (payloads ++ l.payload?.toList) s'.shared.toCore (s'.pcs t) := by
  have htracks := h.tracks
  cases System.step_effect hstep with
  | @call u call hidle =>
      obtain ⟨rfl, -, -⟩ := hok
      rw [hidle] at htracks
      simp only [System.setPc, Function.update_self]
      have hissued : s.shared.issued.map Issue.payload = payloads := by
        simpa [Pc.unissued?] using htracks.issued
      cases call with
      | append payload => exact ⟨by rw [hissued]; rfl, by rintro _ ⟨⟩, htracks.returned⟩
      | sync | close => exact ⟨by rw [hissued]; rfl, by rintro _ ⟨⟩, htracks.returned⟩
  | @thread u sh' pc' hthread =>
      obtain rfl : u = t := hok
      simp only [Label.payload?, Option.toList_none, List.append_nil, System.setPc,
        Function.update_self]
      refine htracks.thread h.alone.self (fun held hpc heq => ?_) hthread
      exact Numbering.loadLsn_eq h.stored.kept.own h.stored.kept.num heq
  | @timeout u before target hpc =>
      obtain rfl : u = t := hok
      simp only [Label.payload?, Option.toList_none, List.append_nil, System.setPc,
        Function.update_self]
      rw [hpc] at htracks
      exact htracks.stay rfl rfl rfl rfl
  | @flush sh' fl' hflush =>
      have heff := stepFlush_effect hflush
      simp only [Label.payload?, Option.toList_none, List.append_nil]
      exact htracks.stay heff.issued_eq heff.returned_eq rfl rfl

theorem OneRun.gapless_step (h : OneRun crc32 cfg t payloads s) (hbuffer : cfg.bufferSize < 2 ^ 32)
    (hok : ByOne cfg t s l) (hstep : s.step crc32 cfg l = some s')
    (halone' : Alone cfg t s') : Gapless s'.shared (s'.pcs t) := by
  have hgapless := h.gapless
  cases System.step_effect hstep with
  | @call u call hidle =>
      obtain ⟨rfl, -, -⟩ := hok
      rw [hidle] at hgapless
      simp only [System.setPc, Function.update_self]
      refine hgapless.stay rfl fun hstop => ?_
      have hfill := hgapless.fill hstop
      cases call with
      | append | sync => exact hfill
      | close => trivial
  | @thread u sh' pc' hthread =>
      obtain rfl : u = t := hok
      have hself := halone'.self
      simp only [System.setPc, Function.update_self] at hself ⊢
      exact hgapless.thread hbuffer h.alone.self hthread hself
  | @timeout u before target hpc =>
      obtain rfl : u = t := hok
      simp only [System.setPc, Function.update_self]
      rw [hpc] at hgapless
      exact hgapless.stay rfl fun hstop => hgapless.fill hstop
  | @flush sh' fl' hflush =>
      exact hgapless.flush h.alone.self (stepFlush_effect hflush) (stepFlush_step hflush).stopFlag_eq

omit [Fintype ι] [DecidableEq ι] in
/-- The only caller panics only if the flush thread has. -/
theorem AloneAt.not_panicked {sh sh' : Shared} {fl : FlushThread} {pc pc' : Pc}
    (h : AloneAt cfg sh fl.pc pc) (hflush : ∀ buf, fl.pc ≠ .panicked buf)
    (hstep : stepThread crc32 cfg sh fl.stopped pc = some (sh', pc')) : pc' ≠ .panicked := by
  rintro rfl
  cases hclosing : pc.closing with
  | false =>
      have hstop := h.not_stopped hclosing (by rintro rfl; cases hstep) (by rintro rfl; cases hstep)
      exact ((h.running hstop hclosing).1.thread hstep).at_pc
  | true =>
      cases pc with
      | swap caller old spc =>
          rcases stepSwap_pc hstep with ⟨next, hpc⟩ | hpc
          · cases hpc
          · cases caller <;> cases hpc
      | close before cpc =>
          cases cpc <;> simp only [stepThread, stepClose] at hstep
          case join =>
            split at hstep <;> cases hstep
            rename_i hstopped
            unfold FlushThread.stopped at hstopped
            split at hstopped <;> cases hstopped
            exact hflush _ ‹_›
          case lock => split at hstep <;> cases hstep
          all_goals cases hstep
      | idle | append | claimed | holding | sync | panicked => cases hclosing

/-- Neither thread panics. -/
theorem OneRun.unpanicked_step (h : OneRun crc32 cfg t payloads s) (hvalid : cfg.Valid)
    (husize : cfg.segmentSize < 2 ^ 64) (hok : OneSealed cfg t s l)
    (hstep : s.step crc32 cfg l = some s') :
    s'.pcs t ≠ .panicked ∧ ∀ buf, s'.flush.pc ≠ .panicked buf := by
  obtain ⟨hcaller, hflush⟩ := h.unpanicked
  cases System.step_effect hstep with
  | @call u call hidle =>
      obtain ⟨⟨rfl, -, -⟩, -⟩ := hok.1
      refine ⟨?_, hflush⟩
      simp only [System.setPc, Function.update_self]
      cases call <;> rintro ⟨⟩
  | @thread u sh' pc' hthread =>
      obtain ⟨rfl : u = t, -⟩ := hok.1
      refine ⟨?_, hflush⟩
      simp only [System.setPc, Function.update_self]
      exact h.alone.self.not_panicked hflush hthread
  | @timeout u before target hpc =>
      obtain ⟨rfl : u = t, -⟩ := hok.1
      refine ⟨?_, hflush⟩
      simp [System.setPc]
  | @flush sh' fl' hfl =>
      exact ⟨hcaller, h.stored.not_panicked hvalid husize (hok.2 rfl) (stepFlush_step hfl)⟩

theorem OneRun.step (hvalid : cfg.Valid) (husize : cfg.segmentSize < 2 ^ 64)
    (hbuffer : cfg.bufferSize < 2 ^ 32) (h : OneRun crc32 cfg t payloads s)
    (hok : OneSealed cfg t s l) (hstep : s.step crc32 cfg l = some s') :
    OneRun crc32 cfg t (payloads ++ l.payload?.toList) s' := by
  have horderly := h.alone.orderly h.stored.kept hbuffer hok.1 hstep
  have halone' := h.alone.step h.stored.kept h.closes hok.1.1 hstep
  exact
    { stored := h.stored.step hvalid husize horderly.1 hstep
      closes := h.closes.step h.stored.kept horderly hstep
      padded := h.padded.step hvalid husize h.stored horderly.1 hstep
      slotted := h.slotted.step h.stored.kept horderly.1.1.1 hstep
      alone := halone'
      fitting := List.forall_mem_append.mpr ⟨h.fitting, hok.1.1.payload_le⟩
      tracks := h.tracks_step hok.1.1 hstep
      gapless := h.gapless_step hbuffer hok.1.1 hstep halone'
      closed := h.closed.step h.alone h.closes h.tracks hok.1.1 hstep
      unpanicked := h.unpanicked_step hvalid husize hok hstep }

/-- The payloads that are appended in a run, in order. -/
def appended (ls : List (Label ι)) : List Bytes := ls.filterMap Label.payload?

/-- The invariant of a whole run. -/
theorem OneRun.execute (hvalid : cfg.Valid) (husize : cfg.segmentSize < 2 ^ 64)
    (hbuffer : cfg.bufferSize < 2 ^ 32) {ls : List (Label ι)} (h : OneRun crc32 cfg t payloads s)
    (hls : Disciplined (System.step crc32 cfg) (OneSealed cfg t) ls s)
    (hexec : Library.execute (System.step crc32 cfg) ls s = some s') :
    OneRun crc32 cfg t (payloads ++ appended ls) s' := by
  induction ls generalizing s payloads with
  | nil =>
      obtain rfl := Option.some.inj hexec
      simpa [appended] using h
  | cons l ls ih =>
      obtain ⟨mid, hmid, hrest⟩ := Option.bind_eq_some_iff.mp hexec
      have hstep := h.step hvalid husize hbuffer hls.1 hmid
      have hend := ih hstep (hls.2 mid hmid) hrest
      rw [List.append_assoc] at hend
      have hsplit : appended (l :: ls) = l.payload?.toList ++ appended ls := by
        rw [appended, List.filterMap_cons]
        cases l.payload? <;> rfl
      rwa [hsplit]

/-! ## Calls return -/

omit [Fintype ι] [DecidableEq ι] in
/-- Once the flag is set a swap never waits. -/
theorem stepSwap_isSome {sh : Shared} (hstop : sh.stopFlag = true) (caller : Caller) (old : BufId)
    (spc : SwapPc) : (stepSwap sh caller old spc).isSome := by
  cases spc with
  | pop =>
      simp only [stepSwap]
      split
      · rfl
      · rw [if_pos hstop]
        rfl
  | cas | barrier =>
      simp only [stepSwap]
      split <;> rfl
  | loadCount | storeCount | loadMinLsn | send | reset | install => rfl

/-- While the caller is inside a call, one of the two threads can take a step. -/
theorem OneRun.progress (h : OneRun crc32 cfg t payloads s) :
    s.pcs t = .idle ∨ (s.step crc32 cfg (.thread t)).isSome ∨ (s.step crc32 cfg .flush).isSome := by
  have hflush := h.unpanicked.2
  have hstopping := h.closes.stopping
  have hself := h.alone.self
  cases hclosing : (s.pcs t).closing with
  | false =>
      cases hstop : s.shared.stopFlag with
      | true =>
          rcases hself.stopped hstop with hpc | hpc | hpc
          · rw [hclosing] at hpc
            cases hpc
          · exact .inl hpc
          · exact absurd hpc h.unpanicked.1
      | false =>
          have hsolo := (hself.running hstop hclosing).1
          refine hsolo.progress.imp_right (Or.imp_right fun hfull => ?_)
          simp only [System.step, Option.isSome_map]
          refine stepFlush_isSome (fun hdone => ?_) hflush fun hrecv => .inl ?_
          · have htx := (hstopping (by rw [hdone]; rfl)).1
            rw [hsolo.sending] at htx
            cases htx
          · rintro hnil
            simp [hrecv, hnil, FlushPc.buf?] at hfull
  | true =>
      right
      simp only [System.step, Option.isSome_map]
      have hat := hself.closing
      have hhandle := h.closes.handleAt t
      cases hpc : s.pcs t with
      | swap caller old spc =>
          rw [hpc] at hclosing hat
          refine .inl (stepSwap_isSome ?_ caller old spc)
          cases caller with
          | close before => cases spc <;> first | exact hat | exact hat.2
          | append | sync => cases hclosing
      | close before cpc =>
          rw [hpc] at hat hhandle
          cases cpc with
          | lock =>
              refine .inl ?_
              simp [stepThread, stepClose, hhandle.1]
          | join =>
              by_cases hdone : s.flush.pc = .done
              · refine .inl ?_
                simp [stepThread, stepClose, FlushThread.stopped, hdone]
              · exact .inr (stepFlush_isSome hdone hflush fun _ => .inr hat.1)
          | storeStop | loadActive | takeTx => exact .inl rfl
      | idle | append | claimed | holding | sync | panicked =>
          rw [hpc] at hclosing
          cases hclosing

omit [Fintype ι] [DecidableEq ι] in
theorem Effect.length_flushQueue_le {sh sh' : Shared} {pc pc' : Pc}
    (heff : Effect crc32 cfg sh pc sh' pc') :
    sh'.flushQueue.length ≤ sh.flushQueue.length + 1 := by
  cases heff with
  | outside _ _ hcore => rw [hcore]; exact Nat.le_succ _
  | send =>
      simp only
      split <;> simp
  | overflow | claimBytes | claimSlot | exhausted | loadLsn | enter | copy | store | leave | cas
  | spin | drained | loadCount | storeCount | loadMinLsn | pop | giveUp | reset | install =>
      exact Nat.le_succ _

/-- The steps that both threads have left until an append returns. -/
def budget (cfg : WalConfig) (t : ι) (s : System ι) : ℕ :=
  stepsLeft cfg s.shared.toCore (s.pcs t) * (flushSteps cfg + 1) + workLeft cfg s.shared s.flush.pc

theorem budget_step (kept : WellKept crc32 cfg s) (h : Appending cfg t s) (hl : Working t l)
    (hfresh : SwapsFresh cfg s l) (hstep : s.step crc32 cfg l = some s') :
    budget cfg t s' < budget cfg t s := by
  obtain ⟨-, hleft⟩ := h.step hl hfresh hstep
  rcases hl with rfl | rfl
  · have hwork : workLeft cfg s'.shared s'.flush.pc ≤
        workLeft cfg s.shared s.flush.pc + flushSteps cfg := by
      cases System.step_effect hstep with
      | thread hthread =>
          have hmul := Nat.mul_le_mul_left (flushSteps cfg)
            (stepThread_effect hthread).length_flushQueue_le
          simp only [System.setPc, workLeft]
          rw [Nat.mul_add, Nat.mul_one] at hmul
          omega
    have hmul := Nat.mul_le_mul_right (flushSteps cfg + 1) hleft
    simp only [List.count_singleton_self, Nat.add_mul, Nat.one_mul] at hmul
    simp only [budget]
    omega
  · have hwork : workLeft cfg s'.shared s'.flush.pc < workLeft cfg s.shared s.flush.pc := by
      cases System.step_effect hstep with
      | flush hflush => exact workLeft_flush kept (stepFlush_step hflush)
    have hmul := Nat.mul_le_mul_right (flushSteps cfg + 1) (Nat.le_of_add_right_le hleft)
    simp only [budget]
    omega

/-- The condition under which the calls of one caller return: its swaps take fresh buffers. -/
def SoloOrderly (cfg : WalConfig) (t : ι) (s : System ι) (l : Label ι) : Prop :=
  OneSealed cfg t s l ∧ SwapsFresh cfg s l

/-- A run of both threads after the call of `append` is bounded. -/
theorem OneRun.append_bounded (hvalid : cfg.Valid) (husize : cfg.segmentSize < 2 ^ 64)
    (hbuffer : cfg.bufferSize < 2 ^ 32) {work : List (Label ι)}
    (h : OneRun crc32 cfg t payloads s) (happending : Appending cfg t s)
    (hwork : ∀ l ∈ work, Working t l)
    (hls : Disciplined (System.step crc32 cfg) (SoloOrderly cfg t) work s)
    (hexec : Library.execute (System.step crc32 cfg) work s = some s') :
    work.length + budget cfg t s' ≤ budget cfg t s := by
  induction work generalizing s payloads with
  | nil =>
      obtain rfl := Option.some.inj hexec
      simp
  | cons l work ih =>
      obtain ⟨mid, hmid, hrest⟩ := Option.bind_eq_some_iff.mp hexec
      obtain ⟨hl, hwork⟩ := List.forall_mem_cons.mp hwork
      obtain ⟨⟨hok, hfresh⟩, hlater⟩ := hls
      have hlt := budget_step h.stored.kept happending hl hfresh hmid
      have hlength := ih (h.step hvalid husize hbuffer hok hmid)
        (happending.step hl hfresh hmid).1 hwork (hlater mid hmid) hrest
      rw [List.length_cons]
      omega

/-- The call of `append` starts with a budget that its payload and the flush thread's work
determine. -/
theorem OneRun.call_append (h : OneRun crc32 cfg t payloads s) {payload : Bytes}
    (hok : ByOne cfg t s (.call t (.append payload)))
    (hstep : s.step crc32 cfg (.call t (.append payload)) = some s') :
    Appending cfg t s' ∧ budget cfg t s' ≤
      (frameLen payload + 26) * (flushSteps cfg + 1) + workLeft cfg s.shared s.flush.pc := by
  have halone' := h.alone.step h.stored.kept h.closes hok hstep
  obtain ⟨-, hstop, -⟩ := hok
  cases System.step_effect hstep with
  | call hidle =>
      have hself := halone'.self
      simp only [System.setPc, Function.update_self] at hself
      obtain ⟨hsolo, -⟩ := hself.running hstop rfl
      refine ⟨⟨?_, ?_⟩, ?_⟩
      · simpa only [System.setPc, Function.update_self] using hsolo
      · simp [System.setPc, Call.start, Heading]
      · have hleft : stepsLeft cfg s.shared.toCore (.append payload .checkStop) ≤
            frameLen payload + 26 := by
          simp only [stepsLeft]
          split <;> omega
        simp only [budget, System.setPc, Function.update_self, Call.start]
        have := Nat.mul_le_mul_right (flushSteps cfg + 1) hleft
        omega

end Todb.Wal

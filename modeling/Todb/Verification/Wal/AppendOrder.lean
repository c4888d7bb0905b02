import Todb.Verification.Wal.OneCaller
import Todb.Verification.Wal.Termination

/-! # The order of one caller's appends

The payloads of a single caller get the LSNs 0, 1, 2, ... in the order of its calls, and in each
buffer their frames lie one behind the other, from the start of the buffer on. -/

namespace Todb.Wal

open Library

/-! ## Payloads and LSNs -/

/-- The payload of an append that has no LSN yet. -/
def Pc.unissued? : Pc → Option Bytes
  | .append payload _ | .swap (.append payload) _ _ => some payload
  | .claimed claim => some claim.payload
  | _ => none

/-- The LSN of an append that has not returned. -/
def Pc.lsn? (pc : Pc) : Option ℕ := pc.held?.map (·.1.lsn)

/-- The caller has appended `payloads`, and is at `pc` with the last of them. -/
structure TracksAt (payloads : List Bytes) (core : Core) (pc : Pc) : Prop where
  issued : core.issued.map Issue.payload ++ pc.unissued?.toList = payloads
  lsn : ∀ lsn, pc.lsn? = some lsn → lsn + 1 = core.issued.length
  returned : core.returned = List.range (pc.lsn?.getD core.issued.length)

variable {cfg : WalConfig} {crc32 : Bytes → UInt32} {sh sh' : Shared} {fpc fpc' : FlushPc}
  {pc pc' : Pc} {core core' : Core} {payloads : List Bytes}

/-- A step that neither claims a slot nor returns an LSN. -/
theorem TracksAt.stay (h : TracksAt payloads core pc) (hissued : core'.issued = core.issued)
    (hreturned : core'.returned = core.returned) (hpayload : pc'.unissued? = pc.unissued?)
    (hlsn : pc'.lsn? = pc.lsn?) : TracksAt payloads core' pc' where
  issued := by rw [hissued, hpayload, h.issued]
  lsn := by
    rw [hissued, hlsn]
    exact h.lsn
  returned := by rw [hissued, hreturned, hlsn, h.returned]

theorem TracksAt.stepAppend {payload : Bytes} {apc : AppendPc} (hstop : sh.stopFlag = false)
    (h : TracksAt payloads sh.toCore (.append payload apc))
    (hstep : stepAppend cfg sh payload apc = (sh', pc')) : TracksAt payloads sh'.toCore pc' := by
  cases apc <;> obtain ⟨rfl, rfl⟩ := Prod.mk.inj hstep
  case checkStop =>
    rw [hstop]
    exact h.stay rfl rfl rfl rfl
  case claimBytes => exact h.stay rfl rfl (by split <;> rfl) (by split <;> rfl)
  all_goals exact h.stay rfl rfl rfl rfl

theorem TracksAt.stepClaimed {claim : Claim} (h : TracksAt payloads sh.toCore (.claimed claim))
    (hpanic : pc' ≠ .panicked) (hstep : stepClaimed cfg sh claim = (sh', pc')) :
    TracksAt payloads sh'.toCore pc' := by
  rw [Wal.stepClaimed] at hstep
  split at hstep <;> obtain ⟨rfl, rfl⟩ := Prod.mk.inj hstep
  · refine ⟨?_, ?_, h.returned⟩
    · rw [← h.issued]
      simp [Pc.unissued?]
    · rintro lsn ⟨⟩
      simp
  · exact absurd rfl hpanic

theorem TracksAt.stepHolding {held : Held} {hpc : HoldPc}
    (h : TracksAt payloads sh.toCore (.holding held hpc))
    (hlsn : ((sh.buffers held.buf).minLsn + held.slot) % 2 ^ 64 = held.lsn)
    (hstep : stepHolding crc32 sh held hpc = (sh', pc')) : TracksAt payloads sh'.toCore pc' := by
  cases hpc <;> obtain ⟨rfl, rfl⟩ := Prod.mk.inj hstep
  case loadMinLsn => exact h.stay rfl rfl rfl (congrArg some hlsn)
  case leave =>
    refine ⟨h.issued, nofun, ?_⟩
    have hreturned : sh.returned = List.range held.lsn := h.returned
    have hlast := h.lsn held.lsn rfl
    change sh.returned ++ [held.lsn] = List.range sh.issued.length
    rw [hreturned, ← List.range_succ, ← hlast]
  all_goals exact h.stay rfl rfl rfl rfl

theorem TracksAt.stepSwap {caller : Caller} {old : BufId} {spc : SwapPc}
    (h : TracksAt payloads sh.toCore (.swap caller old spc))
    (hstep : stepSwap sh caller old spc = some (sh', pc')) : TracksAt payloads sh'.toCore pc' := by
  have hresume : (caller.resume old).unissued? = (Pc.swap caller old spc).unissued? := by
    cases caller <;> rfl
  have hlsn : (caller.resume old).lsn? = none := by
    cases caller <;> rfl
  cases spc <;> simp only [Wal.stepSwap] at hstep
  case cas =>
    split at hstep <;> cases hstep
    · exact h.stay rfl rfl (by cases caller <;> rfl) rfl
    · exact h.stay rfl rfl hresume hlsn
  case barrier =>
    split at hstep <;> cases hstep <;> exact h.stay rfl rfl (by cases caller <;> rfl) rfl
  case pop =>
    split at hstep
    · cases hstep
      exact h.stay rfl rfl (by cases caller <;> rfl) rfl
    · split at hstep <;> cases hstep
      exact h.stay rfl rfl hresume hlsn
  case install =>
    cases hstep
    exact h.stay rfl rfl hresume hlsn
  all_goals
    cases hstep
    exact h.stay rfl rfl (by cases caller <;> rfl) rfl

theorem TracksAt.stepSync {before : List ℕ} {spc : SyncPc}
    (h : TracksAt payloads sh.toCore (.sync before spc))
    (hstep : stepSync sh before spc = (sh', pc')) : TracksAt payloads sh'.toCore pc' := by
  cases spc <;> obtain ⟨rfl, rfl⟩ := Prod.mk.inj hstep
  case checkStop | pollStop => exact h.stay rfl rfl (by split <;> rfl) (by split <;> rfl)
  all_goals exact h.stay rfl rfl rfl rfl

theorem TracksAt.stepClose {before : List ℕ} {cpc : ClosePc} {stopped : Option Bool}
    (h : TracksAt payloads sh.toCore (.close before cpc))
    (hstep : stepClose sh before stopped cpc = some (sh', pc')) :
    TracksAt payloads sh'.toCore pc' := by
  cases cpc <;> simp only [Wal.stepClose] at hstep
  case lock | join => split at hstep <;> cases hstep <;> exact h.stay rfl rfl rfl rfl
  all_goals
    cases hstep
    exact h.stay rfl rfl rfl rfl

/-- A step of the only caller. -/
theorem TracksAt.thread {stopped : Option Bool} (h : TracksAt payloads sh.toCore pc)
    (halone : AloneAt cfg sh fpc pc)
    (hlsn : ∀ held hpc, pc = .holding held hpc →
      ((sh.buffers held.buf).minLsn + held.slot) % 2 ^ 64 = held.lsn)
    (hstep : stepThread crc32 cfg sh stopped pc = some (sh', pc')) :
    TracksAt payloads sh'.toCore pc' := by
  cases pc with
  | idle | panicked => cases hstep
  | append payload apc =>
      exact h.stepAppend (halone.not_stopped rfl nofun nofun) (Option.some.inj hstep)
  | claimed claim =>
      refine h.stepClaimed ?_ (Option.some.inj hstep)
      rintro rfl
      have hstop := halone.not_stopped rfl nofun nofun
      exact ((halone.running hstop rfl).1.thread hstep).at_pc
  | holding held hpc => exact h.stepHolding (hlsn held hpc rfl) (Option.some.inj hstep)
  | swap caller old spc => exact h.stepSwap hstep
  | sync before spc => exact h.stepSync (Option.some.inj hstep)
  | close before cpc => exact h.stepClose hstep

/-! ## Positions -/

/-- Where the frames in the active buffer end. -/
def Core.filled (core : Core) : ℕ :=
  if (core.buffers core.active).entriesAllocated = 0 then 0
  else (core.issued.getLast?.map (·.claim.stop)).getD 0

/-- Claimed bytes are frames, up to the claim that has no slot yet. -/
def FillAt (core : Core) : Pc → Prop
  | .idle | .append _ _ | .holding _ _ | .sync _ _ =>
      (core.buffers core.active).writePos = core.filled
  | .claimed claim => claim.pos = core.filled
  | _ => True

/-- The first frame of a buffer is at its start, and each of the others behind the one before. -/
structure Abutting (issued : List Issue) : Prop where
  first : ∀ (n : ℕ) (issue : Issue), issued[n]? = some issue → issue.slot = 0 → issue.pos = 0
  next : ∀ (n : ℕ) (a b : Issue), issued[n]? = some a → issued[n + 1]? = some b → b.slot ≠ 0 →
    b.pos = a.claim.stop

theorem Abutting.concat {issued : List Issue} {issue : Issue} (h : Abutting issued)
    (hfirst : issue.slot = 0 → issue.pos = 0)
    (hnext : ∀ a, issued.getLast? = some a → issue.slot ≠ 0 → issue.pos = a.claim.stop) :
    Abutting (issued ++ [issue]) where
  first n b hb hzero := by
    rw [List.getElem?_append] at hb
    split at hb
    · exact h.first n b hb hzero
    · obtain rfl := List.mem_singleton.mp (List.mem_of_getElem? hb)
      exact hfirst hzero
  next n a b ha hb hne := by
    have hn := (List.getElem?_eq_some_iff.mp hb).1
    rw [List.length_append, List.length_singleton] at hn
    rw [List.getElem?_append_left (by omega)] at ha
    rw [List.getElem?_append] at hb
    split at hb
    · exact h.next n a b ha hb hne
    · obtain ⟨hindex, rfl⟩ := List.getElem?_eq_some_iff.mp hb
      simp only [List.length_singleton, Nat.lt_one_iff] at hindex
      simp only [hindex, List.getElem_cons_zero] at hne ⊢
      refine hnext a ?_ hne
      rw [List.getLast?_eq_getElem?, ← ha]
      congr 1
      omega

theorem FillAt.congr (h : FillAt core pc) (hactive : core'.active = core.active)
    (hissued : core'.issued = core.issued)
    (hpos : (core'.buffers core.active).writePos = (core.buffers core.active).writePos)
    (halloc : (core'.buffers core.active).entriesAllocated =
      (core.buffers core.active).entriesAllocated) : FillAt core' pc := by
  have hfilled : core'.filled = core.filled := by
    simp only [Core.filled, hactive, halloc, hissued]
  cases pc with
  | idle | append | claimed | holding | sync =>
      simpa only [FillAt, hactive, hpos, hfilled] using h
  | swap | close | panicked => trivial

theorem FillAt.stepAppend {payload : Bytes} {apc : AppendPc}
    (hsolo : Solo cfg sh fpc (.append payload apc)) (h : FillAt sh.toCore (.append payload apc))
    (hstep : stepAppend cfg sh payload apc = (sh', pc')) : FillAt sh'.toCore pc' := by
  have hat := hsolo.at_pc
  cases apc <;> obtain ⟨rfl, rfl⟩ := Prod.mk.inj hstep
  case checkStop =>
    rw [hsolo.running]
    exact h
  case claimBytes buf =>
    obtain ⟨rfl, -⟩ := hat
    split
    · change (sh.buffers sh.active).writePos = _
      rw [show (sh.buffers sh.active).writePos = sh.filled from h]
      simp [Core.filled]
    · trivial
  all_goals exact h

/-- The frame of a slot claim starts where the buffer was filled, and it is filled to its end. -/
theorem FillAt.stepClaimed {claim : Claim} (hbuffer : cfg.bufferSize < 2 ^ 32)
    (hsolo : Solo cfg sh fpc (.claimed claim)) (hissued : Abutting sh.issued)
    (h : FillAt sh.toCore (.claimed claim))
    (hstep : stepClaimed cfg sh claim = (sh', pc')) :
    FillAt sh'.toCore pc' ∧ Abutting sh'.issued := by
  have hpanic := (hsolo.stepClaimed hstep).at_pc
  obtain ⟨hbuf, hclaimed⟩ := hsolo.at_pc
  have hwrite := hclaimed.writePos
  have hpos : claim.pos = sh.filled := h
  rw [Wal.stepClaimed] at hstep
  split at hstep <;> obtain ⟨rfl, rfl⟩ := Prod.mk.inj hstep
  · rename_i hslot
    rw [hbuf] at hslot
    have hmod : ((sh.buffers sh.active).entriesAllocated + 1) % 2 ^ 64 ≠ 0 := by
      simp only [headerLen] at hslot
      omega
    refine ⟨?_, hissued.concat ?_ ?_⟩
    · simp only [FillAt, hbuf, Core.filled, Shared.toCore_modify, Core.modify_active,
        Core.modify_self, hmod, if_false, List.getLast?_append, List.getLast?_singleton]
      simpa [Issue.claim, Claim.stop] using hwrite
    · intro hzero
      simp only [hbuf] at hzero
      simp [hpos, Core.filled, hzero]
    · intro a ha hne
      simp only [hbuf] at hne
      simp [hpos, Core.filled, hne, ha]
  · exact hpanic.elim

theorem FillAt.stepHolding {held : Held} {hpc : HoldPc}
    (h : FillAt sh.toCore (.holding held hpc))
    (hstep : stepHolding crc32 sh held hpc = (sh', pc')) : FillAt sh'.toCore pc' := by
  have hidle : FillAt sh.toCore .idle := h
  have hstay : ∀ held' hpc', FillAt sh.toCore (.holding held' hpc') := fun _ _ => h
  cases hpc <;> obtain ⟨rfl, rfl⟩ := Prod.mk.inj hstep
  case loadMinLsn => exact hstay _ _
  case leave => exact hidle.congr rfl rfl (by simp) (by simp)
  all_goals exact (hstay _ _).congr rfl rfl (by simp) (by simp)

/-- A swap ends with an empty buffer. -/
theorem FillAt.stepSwap {caller : Caller} {old : BufId} {spc : SwapPc}
    (hsolo : Solo cfg sh fpc (.swap caller old spc))
    (hstep : stepSwap sh caller old spc = some (sh', pc')) : FillAt sh'.toCore pc' := by
  obtain ⟨hclose, rfl, hswap⟩ := hsolo.at_pc
  cases spc <;> simp only [Wal.stepSwap] at hstep
  case cas =>
    rw [hswap.1] at hstep
    cases hstep
    trivial
  case barrier => split at hstep <;> cases hstep <;> trivial
  case pop =>
    split at hstep
    · cases hstep
      trivial
    · simp [hsolo.running] at hstep
  case install new =>
    obtain ⟨nextMinLsn, hto⟩ := hswap
    cases hstep
    have hempty : (sh.buffers new).writePos = 0 ∧ (sh.buffers new).entriesAllocated = 0 :=
      ⟨hto.writePos (by decide), hto.entriesAllocated (by decide)⟩
    cases caller with
    | append | sync => simp [Caller.resume, FillAt, Core.filled, hempty]
    | close => trivial
  all_goals
    cases hstep
    trivial

theorem FillAt.stepSync {before : List ℕ} {spc : SyncPc} (h : FillAt sh.toCore (.sync before spc))
    (hstep : stepSync sh before spc = (sh', pc')) : FillAt sh'.toCore pc' := by
  cases spc <;> obtain ⟨rfl, rfl⟩ := Prod.mk.inj hstep
  case checkStop | pollStop => split <;> exact h
  case loadAllocated => trivial
  all_goals exact h

/-- The frames of the only caller have no gaps between them. -/
structure Gapless (sh : Shared) (pc : Pc) : Prop where
  issued : Abutting sh.issued
  fill : sh.stopFlag = false → FillAt sh.toCore pc

theorem Gapless.stay (h : Gapless sh pc) (hissued : sh'.issued = sh.issued)
    (hfill : sh'.stopFlag = false → FillAt sh'.toCore pc') : Gapless sh' pc' :=
  ⟨hissued ▸ h.issued, hfill⟩

/-- Only a slot claim adds to the record. -/
theorem Effect.issued_eq (heff : Effect crc32 cfg sh pc sh' pc') (hpc : ∀ claim, pc ≠ .claimed claim) :
    sh'.issued = sh.issued := by
  cases heff with
  | outside _ _ hcore => rw [hcore]
  | claimSlot => exact absurd rfl (hpc _)
  | overflow | claimBytes | exhausted | loadLsn | enter | copy | store | leave | cas | spin
  | drained | loadCount | storeCount | loadMinLsn | send | pop | giveUp | reset | install => rfl

theorem fillAt_of_closing (h : pc.closing = true) : FillAt core pc := by
  cases pc with
  | close | swap => trivial
  | idle | append | claimed | holding | sync | panicked => cases h

/-- A step of the only caller outside `close`. -/
theorem Gapless.running {stopped : Option Bool} (hbuffer : cfg.bufferSize < 2 ^ 32)
    (hsolo : Solo cfg sh fpc pc) (h : Gapless sh pc)
    (hstep : stepThread crc32 cfg sh stopped pc = some (sh', pc')) : Gapless sh' pc' := by
  have hfill := h.fill hsolo.running
  have hissued := (stepThread_effect hstep).issued_eq
  cases pc with
  | idle | close | panicked => first | cases hstep | exact hsolo.at_pc.elim
  | append payload apc =>
      exact h.stay (hissued nofun) fun _ => hfill.stepAppend hsolo (Option.some.inj hstep)
  | claimed claim =>
      obtain ⟨hfill', hissued⟩ := hfill.stepClaimed hbuffer hsolo h.issued (Option.some.inj hstep)
      exact ⟨hissued, fun _ => hfill'⟩
  | holding held hpc =>
      exact h.stay (hissued nofun) fun _ => hfill.stepHolding (Option.some.inj hstep)
  | swap caller old spc => exact h.stay (hissued nofun) fun _ => .stepSwap hsolo hstep
  | sync before spc =>
      exact h.stay (hissued nofun) fun _ => hfill.stepSync (Option.some.inj hstep)

theorem Gapless.thread {stopped : Option Bool} (hbuffer : cfg.bufferSize < 2 ^ 32)
    (halone : AloneAt cfg sh fpc pc) (h : Gapless sh pc)
    (hstep : stepThread crc32 cfg sh stopped pc = some (sh', pc'))
    (halone' : AloneAt cfg sh' fpc pc') : Gapless sh' pc' := by
  cases hclosing : pc.closing with
  | false =>
      have hstop := halone.not_stopped hclosing (by rintro rfl; cases hstep)
        (by rintro rfl; cases hstep)
      exact h.running hbuffer (halone.running hstop hclosing).1 hstep
  | true =>
      refine h.stay ((stepThread_effect hstep).issued_eq (by rintro claim rfl; cases hclosing))
        fun hstop => ?_
      cases hclosing' : pc'.closing with
      | true => exact fillAt_of_closing hclosing'
      | false =>
          -- `close` returns with the handle taken
          have hpresent := halone'.unlocked hstop (by rintro before rfl; cases hclosing')
          cases pc with
          | swap caller old spc =>
              cases caller with
              | close =>
                  rcases stepSwap_pc hstep with ⟨next, rfl⟩ | rfl <;> cases hclosing'
              | append | sync => cases hclosing
          | close before cpc =>
              cases cpc <;> simp only [stepThread, Wal.stepClose] at hstep
              case lock =>
                split at hstep <;> cases hstep
                · cases hclosing'
                · rename_i htaken
                  rw [htaken] at hpresent
                  cases hpresent
              case join => split at hstep <;> cases hstep <;> cases hpresent
              all_goals
                cases hstep
                cases hclosing'
          | idle | append | claimed | holding | sync | panicked => cases hclosing

/-- A step of the flush thread does not touch the caller's buffer. -/
theorem Gapless.flush (halone : AloneAt cfg sh fpc pc) (h : Gapless sh pc)
    (heff : FlushEffect cfg sh fpc sh' fpc') (hstop : sh'.stopFlag = sh.stopFlag) :
    Gapless sh' pc := by
  refine h.stay heff.issued_eq fun hrunning => ?_
  rw [hstop] at hrunning
  have hfill := h.fill hrunning
  cases hclosing : pc.closing with
  | true => exact fillAt_of_closing hclosing
  | false =>
      have hsolo := (halone.running hrunning hclosing).1
      have hframe := hsolo.active_frame heff
      cases pc with
      | swap | close | panicked => trivial
      | idle | append | claimed | holding | sync =>
          have hbuffer := hframe List.mem_cons_self
          exact hfill.congr heff.active_eq heff.issued_eq (by rw [hbuffer]) (by rw [hbuffer])

end Todb.Wal

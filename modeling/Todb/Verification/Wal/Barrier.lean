import Todb.Verification.Wal.Stored

/-! # `sync` as a durability barrier

`sync` derives its target from the counters of the buffer that was active when it looked.
Until that buffer is recycled its counters cover every LSN returned before the call, and it is
recycled only after it has been published. -/

namespace Todb.Wal

open Library

/-! ## Buffers that keep their counters -/

/-- The buffer a swapper prepares to become active. -/
def Pc.prepared? (pc : Pc) : Option BufId :=
  match pc.swap? with
  | some (_, .reset new _ _) | some (_, .install new) => some new
  | _ => none

variable {ι : Type}

/-- Past its flush and not active again: being recycled, free, or prepared by a swapper. -/
def Recycled (core : Core) (pcs : ι → Pc) (fpc : FlushPc) (b : BufId) : Prop :=
  (fpc.buf? = some b ∧ fpc.pending? = none) ∨ b ∈ core.freePool ∨ ∃ t, (pcs t).prepared? = some b

/-- The LSN after the last slot of a buffer. -/
def WalBuffer.endLsn (self : WalBuffer) : ℕ := self.minLsn + self.entriesAllocated

/-- From one state to the next nothing is unpublished or unissued, and the counters of a buffer
go on counting until it has been published. -/
structure Advances (s s' : System ι) : Prop where
  published : s.shared.published ≤ s'.shared.published
  issued : s.shared.issued.length ≤ s'.shared.issued.length
  counters : ∀ b, ¬ Recycled s.shared.toCore s.pcs s.flush.pc b →
    (s.shared.buffers b).endLsn ≤ s'.shared.published ∨
      ¬ Recycled s'.shared.toCore s'.pcs s'.flush.pc b ∧
      (s'.shared.buffers b).minLsn = (s.shared.buffers b).minLsn ∧
      (s.shared.buffers b).endLsn ≤ (s'.shared.buffers b).endLsn ∧
      ((s.shared.buffers b).endLsn ≤ s.shared.issued.length →
        (s'.shared.buffers b).endLsn ≤ s'.shared.issued.length)

section Callers

variable {crc32 : Bytes → UInt32} {cfg : WalConfig} {sh sh' : Shared} {pc pc' : Pc} {b : BufId}

theorem Pc.Outside.prepared?_eq (h : pc.Outside) : pc.prepared? = none := by
  rw [Pc.prepared?, h.swap?_eq]

/-- A swapper takes the buffer it prepares from the free pool. -/
theorem Effect.prepared?_cases (heff : Effect crc32 cfg sh pc sh' pc')
    (h : pc'.prepared? = some b) : pc.prepared? = some b ∨ b ∈ sh.freePool := by
  cases heff with
  | outside _ hout' => rw [hout'.prepared?_eq] at h; cases h
  | giveUp | install => rw [(Pc.Outside.resume _ _).prepared?_eq] at h; cases h
  | pop hfree =>
      obtain rfl := Option.some.inj h
      exact .inr (by rw [hfree]; exact List.mem_cons_self)
  | @reset _ _ new =>
      refine .inl (Eq.trans ?_ h)
      split <;> rfl
  | overflow | claimBytes | claimSlot | exhausted | loadLsn | enter | copy | store | leave | cas
  | spin | drained | loadCount | storeCount | loadMinLsn | send => cases h

theorem Effect.freePool_subset (heff : Effect crc32 cfg sh pc sh' pc') (h : b ∈ sh'.freePool) :
    b ∈ sh.freePool := by
  cases heff with
  | outside _ _ hcore => rwa [hcore] at h
  | pop hfree => exact hfree ▸ List.mem_cons_of_mem _ h
  | overflow | claimBytes | claimSlot | exhausted | loadLsn | enter | copy | store | leave | cas
  | spin | drained | loadCount | storeCount | loadMinLsn | send | giveUp | reset | install => exact h

/-- Only a slot claim and a reset touch the counters that number a buffer's slots. -/
theorem Effect.counters_cases (heff : Effect crc32 cfg sh pc sh' pc') (b : BufId) :
    pc.prepared? = some b ∨ (∃ claim, pc = .claimed claim ∧ claim.buf = b) ∨
      (sh'.buffers b).minLsn = (sh.buffers b).minLsn ∧
        (sh'.buffers b).entriesAllocated = (sh.buffers b).entriesAllocated := by
  cases heff with
  | outside _ _ hcore => rw [hcore]; exact .inr (.inr ⟨rfl, rfl⟩)
  | @claimSlot claim | @exhausted claim =>
      by_cases hb : claim.buf = b
      · exact .inr (.inl ⟨claim, rfl, hb⟩)
      · exact .inr (.inr (by simp [Shared.claimSlot, Ne.symm hb]))
  | @reset _ _ new nextMinLsn stage =>
      by_cases hb : new = b
      · exact .inl (congrArg some hb)
      · exact .inr (.inr (by simp [Ne.symm hb]))
  | overflow | claimBytes | enter | copy | store | leave | cas | storeCount =>
      refine .inr (.inr ⟨?_, ?_⟩) <;> simp [Shared.claimBytes]
  | loadLsn | spin | drained | loadCount | loadMinLsn | send | pop | giveUp | install =>
      exact .inr (.inr ⟨rfl, rfl⟩)

end Callers

section Steps

variable [Fintype ι] {crc32 : Bytes → UInt32} {cfg : WalConfig} {s : System ι} {b : BufId}

/-- A slot claim counts in the buffer and in the issued LSNs. -/
theorem Effect.endLsn_claimed {t : ι} {claim : Claim} {sh' : Shared} {pc' : Pc}
    (own : Owned cfg s) (num : Numbered cfg s) (hpc : s.pcs t = .claimed claim)
    (heff : Effect crc32 cfg s.shared (.claimed claim) sh' pc')
    (hok : StepOrderly cfg s.shared.toCore s.pcs (.claimed claim)) :
    (sh'.buffers claim.buf).minLsn = (s.shared.buffers claim.buf).minLsn ∧
      (sh'.buffers claim.buf).endLsn = (s.shared.buffers claim.buf).endLsn + 1 ∧
      sh'.issued.length = s.shared.issued.length + 1 := by
  obtain ⟨hbuf, haccept⟩ := own.critical t claim (by rw [hpc]; rfl)
  have hnext := num.next haccept.ne_sent
  have hlt : s.shared.issued.length + 1 < 2 ^ 64 := hok
  cases heff with
  | outside hout => cases hout.claim?_eq
  | claimSlot hslot =>
      rw [← hbuf] at hnext
      simp only [WalBuffer.endLsn, Shared.claimSlot, Shared.toCore_modify, Core.modify_self,
        List.length_append, List.length_singleton, true_and, and_true]
      rw [Nat.mod_eq_of_lt (by omega)]
      rfl
  | exhausted hfull => exact absurd (num.not_exhausted own hpc) (not_lt.mpr hfull)

theorem advances_thread [DecidableEq ι] {t : ι} {pc pc' : Pc} {sh' : Shared} (own : Owned cfg s)
    (num : Numbered cfg s) (hpc : s.pcs t = pc) (heff : Effect crc32 cfg s.shared pc sh' pc')
    (hok : StepOrderly cfg s.shared.toCore s.pcs pc) :
    Advances s ({ s with shared := sh' }.setPc t pc') := by
  have hissued : s.shared.issued.length ≤ sh'.issued.length := by
    obtain ⟨more, hissued⟩ := heff.issued_append
    rw [hissued, List.length_append]
    exact Nat.le_add_right _ _
  refine ⟨heff.published_eq.1.ge, hissued, fun b hb => .inr ⟨?_, ?_⟩⟩
  · rintro (hflush | hfree | ⟨u, hu⟩)
    · exact hb (.inl hflush)
    · exact hb (.inr (.inl (heff.freePool_subset hfree)))
    · rcases update_cases hu with ⟨-, hu⟩ | ⟨-, hu⟩
      · rcases heff.prepared?_cases hu with hprepared | hfree
        · exact hb (.inr (.inr ⟨t, hpc ▸ hprepared⟩))
        · exact hb (.inr (.inl hfree))
      · exact hb (.inr (.inr ⟨u, hu⟩))
  · change (sh'.buffers b).minLsn = _ ∧ _ ≤ (sh'.buffers b).endLsn ∧
      (_ → (sh'.buffers b).endLsn ≤ sh'.issued.length)
    rcases heff.counters_cases b with hprepared | ⟨claim, rfl, rfl⟩ | ⟨hmin, halloc⟩
    · exact absurd (.inr (.inr ⟨t, hpc ▸ hprepared⟩)) hb
    · obtain ⟨hmin, hend, hlength⟩ := Effect.endLsn_claimed own num hpc heff hok
      exact ⟨hmin, by omega, by omega⟩
    · have hend : (sh'.buffers b).endLsn = (s.shared.buffers b).endLsn := by
        rw [WalBuffer.endLsn, WalBuffer.endLsn, hmin, halloc]
      exact ⟨hmin, hend.ge, fun hle => hend.trans_le (hle.trans hissued)⟩

omit [Fintype ι] in
/-- A buffer the flush thread is about to publish or to drop. -/
theorem ChainedUp.head (ch : ChainedUp s) (hb : s.flush.pc.pending? = some b) :
    (s.shared.buffers b).minLsn = s.shared.published := by
  have hchain := ch.chain
  rw [pending, hb] at hchain
  exact hchain.1

omit [Fintype ι] in
theorem advances_flush {sh' : Shared} {fl' : FlushThread} (ch : ChainedUp s)
    (hstep : stepFlush cfg s.shared s.flush = some (sh', fl')) :
    Advances s { s with shared := sh', flush := fl' } := by
  have heff := stepFlush_effect hstep
  -- A step that leaves the published LSNs and the recycled buffers as they are.
  have hkeep : sh'.published = s.shared.published → sh'.issued = s.shared.issued →
      (∀ b, ¬ Recycled s.shared.toCore s.pcs s.flush.pc b →
        ¬ Recycled sh'.toCore s.pcs fl'.pc b ∧ SameSlots (s.shared.buffers b) (sh'.buffers b)) →
      Advances s { s with shared := sh', flush := fl' } := by
    intro hpublished hissued hsame
    refine ⟨hpublished.ge, (congrArg List.length hissued).ge, fun b hb => .inr ?_⟩
    obtain ⟨hb', hslots⟩ := hsame b hb
    have hend : (sh'.buffers b).endLsn = (s.shared.buffers b).endLsn := by
      rw [WalBuffer.endLsn, WalBuffer.endLsn, hslots.minLsn, hslots.entriesAllocated]
    exact ⟨hb', hslots.minLsn, hend.ge, fun hle => hend.trans_le (hle.trans (by rw [hissued]))⟩
  -- A step after which the flush thread's buffer is published.
  have hretire : ∀ buf, sh'.buffers = s.shared.buffers → sh'.issued = s.shared.issued →
      sh'.freePool = s.shared.freePool → s.shared.published ≤ sh'.published →
      (s.shared.buffers buf).endLsn ≤ sh'.published → fl'.pc = .recycle buf →
      Advances s { s with shared := sh', flush := fl' } := by
    intro buf hbuffers hissued hfree hpublished hend hrecycle
    refine ⟨hpublished, (congrArg List.length hissued).ge, fun b hb => ?_⟩
    by_cases heq : b = buf
    · exact .inl (heq ▸ hend)
    · refine .inr ⟨?_, by rw [hbuffers], by rw [hbuffers], by rw [hbuffers, hissued]; exact id⟩
      rintro (⟨hbuf, -⟩ | hrest)
      · rw [hrecycle] at hbuf
        exact heq (Option.some.inj hbuf).symm
      · rw [hfree] at hrest
        exact hb (.inr hrest)
  generalize hpc : s.flush.pc = fpc at heff
  generalize hpc' : fl'.pc = fpc' at heff
  cases heff with
  | recv =>
      refine hkeep rfl rfl fun b hb => ⟨?_, .refl _⟩
      rintro (⟨-, hpending⟩ | hrest)
      · rw [hpc'] at hpending
        cases hpending
      · exact hb (.inr hrest)
  | work hbuf hpending =>
      refine hkeep rfl rfl fun b hb => ⟨fun hb' => hb ?_, .refl _⟩
      rw [Recycled, hpc', hbuf, hpending, ← hpc] at hb'
      exact hb'
  | drop =>
      refine hkeep rfl rfl fun b hb => ⟨?_, .refl _⟩
      rintro (⟨hbuf, -⟩ | hrest)
      · rw [hpc'] at hbuf
        cases hbuf
      · exact hb (.inr hrest)
  | @pad job =>
      refine hkeep rfl rfl fun b hb => ⟨?_, ?_⟩
      · rintro (⟨-, hpending⟩ | hrest)
        · rw [hpc'] at hpending
          cases hpending
        · exact hb (.inr hrest)
      · exact ⟨by simp [WalBuffer.zeroTail], by simp [WalBuffer.zeroTail],
          by simp [WalBuffer.zeroTail]⟩
  | @reset buf stage _ hbuf hpending =>
      refine hkeep rfl rfl fun b hb => ?_
      have hne : b ≠ buf := fun heq => hb (.inl (by rw [hpc, heq]; exact ⟨rfl, rfl⟩))
      refine ⟨?_, by simp [hne, SameSlots.refl]⟩
      rintro (⟨hbuf', -⟩ | hrest)
      · rw [hpc', hbuf] at hbuf'
        exact hne (Option.some.inj hbuf').symm
      · exact hb (.inr hrest)
  | @push buf =>
      refine hkeep rfl rfl fun b hb => ⟨?_, .refl _⟩
      have hne : b ≠ buf := fun heq => hb (.inl (by rw [hpc, heq]; exact ⟨rfl, rfl⟩))
      rintro (⟨hbuf, -⟩ | hfree | hprepared)
      · rw [hpc'] at hbuf
        cases hbuf
      · rcases List.mem_cons.mp hfree with heq | hfree
        · exact hne heq
        · exact hb (.inr (.inl hfree))
      · exact hb (.inr (.inr hprepared))
  | @empty buf =>
      have hhead := ch.head (b := buf) (by rw [hpc]; rfl)
      have hzero := ch.flushAt.loaded buf 0 hpc
      refine hretire buf rfl rfl rfl le_rfl ?_ hpc'
      rw [WalBuffer.endLsn, ← hzero, hhead]
      exact le_rfl
  | @publish job =>
      have hhead := ch.head (b := job.buf) (by rw [hpc]; rfl)
      have hread := ch.flushAt.job job (by rw [hpc]; rfl)
      have hmin := hread.minLsn_eq
      refine hretire job.buf rfl rfl rfl ?_ ?_ hpc'
      · change _ ≤ job.minLsn + job.count
        omega
      · exact (congrArg₂ (· + ·) hmin hread.count_eq).ge

/-! ## What a buffer's counters cover -/

/-- The first `n` LSNs are published, or in a buffer that is not recycled or before it. -/
def Covers (s : System ι) (b : BufId) (n : ℕ) : Prop :=
  n ≤ s.shared.published ∨
    ¬ Recycled s.shared.toCore s.pcs s.flush.pc b ∧ n ≤ (s.shared.buffers b).endLsn ∧
      (s.shared.buffers b).endLsn ≤ s.shared.issued.length

omit [Fintype ι] in
theorem Advances.covers {s' : System ι} {n : ℕ} (h : Advances s s') (hcovers : Covers s b n) :
    Covers s' b n := by
  rcases hcovers with hpublished | ⟨hb, hn, hissued⟩
  · exact .inl (hpublished.trans h.published)
  · rcases h.counters b hb with hpublished | ⟨hb', -, hend, hbound⟩
    · exact .inl (hn.trans hpublished)
    · exact .inr ⟨hb', hn.trans hend, hbound hissued⟩

omit [Fintype ι] in
theorem Covers.mono {m n : ℕ} (h : Covers s b n) (hle : m ≤ n) : Covers s b m :=
  h.imp hle.trans fun ⟨hb, hn, hissued⟩ => ⟨hb, hle.trans hn, hissued⟩

theorem Owned.active_not_recycled (own : Owned cfg s) (hphase : s.shared.phase ≠ .sent) :
    ¬ Recycled s.shared.toCore s.pcs s.flush.pc s.shared.active := by
  obtain ⟨-, hflush, hfree⟩ := own.inHand_apart (own.active_mem hphase)
  rintro (⟨hbuf, -⟩ | hmem | ⟨t, ht⟩)
  · exact hflush hbuf
  · exact hfree hmem
  · rw [Pc.prepared?] at ht
    split at ht
    · rename_i hswap
      exact hphase (own.swapAt t _ hswap).2.1
    · rename_i hswap
      exact hphase (own.swapAt t _ hswap).2.1
    · cases ht

/-- Before it is handed over the active buffer holds the last LSN. -/
theorem covers_active (own : Owned cfg s) (num : Numbered cfg s) (hphase : s.shared.phase ≠ .sent) :
    Covers s s.shared.active s.shared.issued.length :=
  .inr ⟨own.active_not_recycled hphase, (num.next hphase).ge, (num.next hphase).le⟩

/-- Between the handover and the next buffer's installation nothing is issued. -/
theorem Effect.active_of_sent {t : ι} {pc pc' : Pc} {sh' : Shared} (own : Owned cfg s)
    (hpc : s.pcs t = pc) (heff : Effect crc32 cfg s.shared pc sh' pc') (hsent : sh'.phase = .sent) :
    sh'.active = s.shared.active ∧ sh'.issued = s.shared.issued := by
  cases heff with
  | outside _ _ hcore => rw [hcore]; exact ⟨rfl, rfl⟩
  | @claimSlot claim =>
      have haccept := (own.critical t claim (by rw [hpc]; rfl)).2
      exact absurd hsent haccept.ne_sent
  | install => cases hsent
  | overflow | claimBytes | exhausted | loadLsn | enter | copy | store | leave | cas | spin | drained
  | loadCount | storeCount | loadMinLsn | send | pop | giveUp | reset => exact ⟨rfl, rfl⟩

theorem advances_step [DecidableEq ι] {s' : System ι} {l : Label ι} (own : Owned cfg s)
    (num : Numbered cfg s) (ch : ChainedUp s) (hmove : Move cfg crc32 s l s') : Advances s s' := by
  cases hmove with
  | thread hpc heff hok => exact advances_thread own num hpc heff hok
  | flush hstep => exact advances_flush ch hstep

theorem covers_active_step [DecidableEq ι] {s' : System ι} {l : Label ι}
    (own : Owned cfg s) (num : Numbered cfg s) (ch : ChainedUp s) (hmove : Move cfg crc32 s l s')
    (h : Covers s s.shared.active s.shared.issued.length) :
    Covers s' s'.shared.active s'.shared.issued.length := by
  by_cases hphase : s'.shared.phase = .sent
  · have hcovers := (advances_step own num ch hmove).covers h
    have hsame : s'.shared.active = s.shared.active ∧ s'.shared.issued = s.shared.issued := by
      cases hmove with
      | thread hpc heff => exact heff.active_of_sent own hpc hphase
      | flush hstep =>
          exact ⟨(stepFlush_effect hstep).active_eq, (stepFlush_effect hstep).issued_eq⟩
    rwa [hsame.1, hsame.2]
  · exact covers_active (own.step hmove) (num.step own hmove) hphase

/-! ## `sync` -/

/-- What a `sync` knows about an LSN that was returned before its call. -/
def SyncKnows (s : System ι) (lsn : ℕ) : SyncPc → Prop
  | .checkStop | .loadActive => lsn < s.shared.issued.length
  | .loadMinLsn b => Covers s b (lsn + 1)
  | .loadAllocated b minLsn => Covers s b (lsn + 1) ∧
      (lsn < s.shared.published ∨ minLsn = (s.shared.buffers b).minLsn)
  | .poll target | .pollStop target | .sleep target => lsn < s.shared.published ∨ lsn ≤ target
  | .finish => lsn < s.shared.published

/-- The target of a `sync` reaches as far as the LSNs returned before its call. -/
def SyncAt (s : System ι) : Pc → Prop
  | .sync before pc => ∀ lsn ∈ before, SyncKnows s lsn pc
  | .swap (.sync before target) _ _ => ∀ lsn ∈ before, lsn < s.shared.published ∨ lsn ≤ target
  | _ => True

omit [Fintype ι] in
theorem Advances.syncKnows {s' : System ι} {lsn : ℕ} {pc : SyncPc} (h : Advances s s')
    (hknows : SyncKnows s lsn pc) : SyncKnows s' lsn pc := by
  cases pc with
  | checkStop | loadActive => exact hknows.trans_le h.issued
  | loadMinLsn b => exact h.covers hknows
  | loadAllocated b minLsn =>
      obtain ⟨hcovers, hmin⟩ := hknows
      refine ⟨h.covers hcovers, ?_⟩
      rcases hcovers with hpublished | ⟨hb, hlt, -⟩
      · exact .inl (lt_of_lt_of_le hpublished h.published)
      · rcases hmin with hpublished | hmin
        · exact .inl (hpublished.trans_le h.published)
        · rcases h.counters b hb with hend | ⟨-, hmin', -⟩
          · exact .inl (lt_of_lt_of_le hlt hend)
          · exact .inr (hmin.trans hmin'.symm)
  | poll | pollStop | sleep => exact hknows.imp_left fun hlt => hlt.trans_le h.published
  | finish => exact hknows.trans_le h.published

omit [Fintype ι] in
theorem Advances.syncAt {s' : System ι} {pc : Pc} (h : Advances s s') (hat : SyncAt s pc) :
    SyncAt s' pc := by
  cases pc with
  | sync before pc => exact fun lsn hlsn => h.syncKnows (hat lsn hlsn)
  | swap caller old pc =>
      cases caller with
      | sync before target =>
          exact fun lsn hlsn => (hat lsn hlsn).imp_left fun hlt => hlt.trans_le h.published
      | append | close => trivial
  | idle | append | claimed | holding | close | panicked => trivial

/-- The target reaches every LSN that the loaded counters cover. -/
theorem target_covers {minLsn allocated lsn bound : ℕ} (hlsn : lsn < minLsn + allocated)
    (hle : minLsn + allocated ≤ bound) (hbound : bound < 2 ^ 64) :
    lsn ≤ if 0 < allocated then (minLsn + allocated - 1) % 2 ^ 64 else minLsn - 1 := by
  split
  · rw [Nat.mod_eq_of_lt (by omega)]
    omega
  · omega

/-- A `sync` leaves its loop when something has been published, or owes nothing. -/
def PollsPublished (s : System ι) : Label ι → Prop
  | .thread t =>
      match s.pcs t with
      | .sync before (.poll target) =>
          target ≤ s.shared.durableLsn → 0 < s.shared.published ∨ before = []
      | _ => True
  | _ => True

/-- All that holds of the calls of `sync`. -/
structure SyncsCover (s : System ι) : Prop where
  active : Covers s s.shared.active s.shared.issued.length
  syncAt : ∀ t, SyncAt s (s.pcs t)
  returned : ∀ p ∈ s.shared.syncs, ∀ lsn ∈ p.1, lsn < s.shared.published ∧ lsn ≤ p.2

theorem SyncsCover.stepSync (h : SyncsCover s) (num : Numbered cfg s)
    (hdurable : s.shared.durableLsn = s.shared.published - 1) {t : ι} {before : List ℕ}
    {pc : SyncPc} {sh' : Shared} {pc' : Pc} (hpc : s.pcs t = .sync before pc)
    (hok : PollsPublished s (.thread t)) (hstep : stepSync s.shared before pc = (sh', pc')) :
    SyncAt s pc' := by
  have hat : ∀ lsn ∈ before, SyncKnows s lsn pc := by
    have hsync := h.syncAt t
    rwa [hpc] at hsync
  cases pc with
  | checkStop | pollStop =>
      obtain ⟨-, rfl⟩ := Prod.mk.inj hstep
      split
      · trivial
      · exact hat
  | loadActive =>
      obtain ⟨-, rfl⟩ := Prod.mk.inj hstep
      exact fun lsn hlsn => h.active.mono (hat lsn hlsn)
  | loadMinLsn b =>
      obtain ⟨-, rfl⟩ := Prod.mk.inj hstep
      exact fun lsn hlsn => ⟨hat lsn hlsn, .inr rfl⟩
  | loadAllocated b minLsn =>
      obtain ⟨-, rfl⟩ := Prod.mk.inj hstep
      intro lsn hlsn
      obtain ⟨hcovers, hmin⟩ := hat lsn hlsn
      rcases hcovers with hpublished | ⟨-, hlt, hissued⟩
      · exact .inl hpublished
      · rcases hmin with hpublished | rfl
        · exact .inl hpublished
        · exact .inr (target_covers hlt hissued num.issued_lt)
  | poll target =>
      obtain ⟨-, rfl⟩ := Prod.mk.inj hstep
      intro lsn hlsn
      split
      · exact hat lsn hlsn
      · rename_i hdone
        -- The loop is left with a published LSN that is not below the target.
        rcases hat lsn hlsn with hlt | hle
        · exact hlt
        · simp only [PollsPublished, hpc] at hok
          rcases hok (not_lt.mp hdone) with hpos | hnil
          · change lsn < s.shared.published
            omega
          · rw [hnil] at hlsn
            cases hlsn
  | sleep target =>
      obtain ⟨-, rfl⟩ := Prod.mk.inj hstep
      exact hat
  | finish =>
      obtain ⟨-, rfl⟩ := Prod.mk.inj hstep
      trivial

/-- A caller's step keeps what its `sync` knows. -/
theorem SyncsCover.stepThread (h : SyncsCover s) (num : Numbered cfg s)
    (hdurable : s.shared.durableLsn = s.shared.published - 1) {t : ι} {stopped : Option Bool}
    {pc : Pc} {sh' : Shared} {pc' : Pc} (hpc : s.pcs t = pc)
    (hok : PollsPublished s (.thread t))
    (hstep : Wal.stepThread crc32 cfg s.shared stopped pc = some (sh', pc')) : SyncAt s pc' := by
  cases pc with
  | idle | panicked => cases hstep
  | append payload pc =>
      cases pc with
      | checkStop | claimBytes =>
          cases hstep
          split <;> trivial
      | loadActive | waitActive | waitStop =>
          cases hstep
          trivial
  | claimed claim =>
      simp only [Wal.stepThread, stepClaimed, Option.some.injEq] at hstep
      split at hstep <;> cases hstep <;> trivial
  | holding held pc => cases pc <;> cases hstep <;> trivial
  | swap caller old pc =>
      have hat := h.syncAt t
      rw [hpc] at hat
      rcases stepSwap_pc hstep with ⟨next, rfl⟩ | rfl <;> cases caller <;> exact hat
  | sync before pc => exact h.stepSync num hdurable hpc hok (Option.some.inj hstep)
  | close before pc =>
      cases pc <;> simp only [Wal.stepThread, stepClose] at hstep
      case lock | join => split at hstep <;> cases hstep <;> trivial
      all_goals
        cases hstep
        trivial

theorem FlushStep.syncs_eq {sh sh' : Shared} {fl fl' : FlushThread}
    (hstep : FlushStep cfg sh fl sh' fl') : sh'.syncs = sh.syncs := by
  cases hstep <;> rfl

/-- Only a returning `sync` is recorded. -/
theorem stepThread_syncs {sh sh' : Shared} {stopped : Option Bool} {pc pc' : Pc}
    (hstep : Wal.stepThread crc32 cfg sh stopped pc = some (sh', pc')) :
    sh'.syncs = sh.syncs ∨
      ∃ before, pc = .sync before .finish ∧ sh'.syncs = sh.syncs ++ [(before, sh.durableLsn)] := by
  cases pc with
  | idle | panicked => cases hstep
  | append payload pc => cases pc <;> cases hstep <;> exact .inl rfl
  | claimed claim =>
      simp only [Wal.stepThread, stepClaimed, Option.some.injEq] at hstep
      split at hstep <;> cases hstep <;> exact .inl rfl
  | holding held pc => cases pc <;> cases hstep <;> exact .inl rfl
  | swap caller old pc =>
      cases pc <;> simp only [Wal.stepThread, stepSwap] at hstep
      case cas | barrier => split at hstep <;> cases hstep <;> exact .inl rfl
      case pop =>
        split at hstep
        · cases hstep
          exact .inl rfl
        · split at hstep <;> cases hstep
          exact .inl rfl
      all_goals
        cases hstep
        exact .inl rfl
  | sync before pc =>
      cases pc with
      | finish =>
          cases hstep
          exact .inr ⟨before, rfl, rfl⟩
      | checkStop | loadActive | loadMinLsn | loadAllocated | poll | pollStop | sleep =>
          cases hstep
          exact .inl rfl
  | close before pc =>
      cases pc <;> simp only [Wal.stepThread, stepClose] at hstep
      case lock | join => split at hstep <;> cases hstep <;> exact .inl rfl
      all_goals
        cases hstep
        exact .inl rfl

end Steps

/-! ## Runs -/

section Runs

variable [Fintype ι] [DecidableEq ι] {crc32 : Bytes → UInt32} {cfg : WalConfig} {s s' : System ι}
  {l : Label ι}

/-- Orderly and fresh steps, in which no `sync` leaves its loop before the first flush. -/
def SyncsOrderly (cfg : WalConfig) (s : System ι) (l : Label ι) : Prop :=
  FreshOrderly cfg s l ∧ PollsPublished s l

instance (s : System ι) (l : Label ι) : Decidable (PollsPublished s l) := by
  induction l using Label.casesOn with
  | thread t =>
      dsimp only [PollsPublished]
      induction s.pcs t using Pc.casesOn with
      | sync before pc => induction pc using SyncPc.casesOn <;> infer_instance
      | _ => infer_instance
  | _ =>
      unfold PollsPublished
      infer_instance

theorem SyncsCover.step (hstored : Stored crc32 cfg s) (h : SyncsCover s)
    (hok : SyncsOrderly cfg s l) (hstep : s.step crc32 cfg l = some s') : SyncsCover s' := by
  have hmove := System.step_move hstep hok.1.1.1
  have hadvances := advances_step hstored.kept.own hstored.kept.num hstored.kept.chained hmove
  have hactive := covers_active_step hstored.kept.own hstored.kept.num hstored.kept.chained hmove
    h.active
  have hreturned : ∀ p ∈ s.shared.syncs, ∀ lsn ∈ p.1, lsn < s'.shared.published ∧ lsn ≤ p.2 :=
    fun p hp lsn hlsn => (h.returned p hp lsn hlsn).imp_left fun hlt =>
      hlt.trans_le hadvances.published
  have hother : ∀ {t : ι} {pc' : Pc}, s'.pcs = Function.update s.pcs t pc' → SyncAt s pc' →
      ∀ u, SyncAt s' (s'.pcs u) := by
    intro t pc' hpcs hpc' u
    rw [hpcs]
    by_cases hu : u = t
    · rw [hu, Function.update_self]
      exact hadvances.syncAt hpc'
    · rw [Function.update_of_ne hu]
      exact hadvances.syncAt (h.syncAt u)
  cases System.step_effect hstep with
  | @call t call hidle =>
      refine ⟨hactive, hother rfl ?_, hreturned⟩
      cases call with
      | sync => exact fun lsn hlsn => hstored.kept.num.returned_lt hlsn
      | append | close => trivial
  | @thread t sh' pc' hthread =>
      refine ⟨hactive, hother rfl (h.stepThread hstored.kept.num hstored.durable rfl hok.2 hthread), ?_⟩
      rcases stepThread_syncs hthread with hsame | ⟨before, hpc, hsyncs⟩
      · change ∀ p ∈ sh'.syncs, _
        rw [hsame]
        exact hreturned
      · change ∀ p ∈ sh'.syncs, _
        rw [hsyncs]
        refine List.forall_mem_append.mpr ⟨hreturned, ?_⟩
        have hat := h.syncAt t
        rw [hpc] at hat
        have hdurable := hstored.durable
        simp only [List.mem_singleton, forall_eq]
        intro lsn hlsn
        have hlt : lsn < s.shared.published := hat lsn hlsn
        exact ⟨hlt.trans_le hadvances.published, by omega⟩
  | timeout hpc => exact ⟨hactive, hother rfl trivial, hreturned⟩
  | flush hflush =>
      refine ⟨hactive, fun t => hadvances.syncAt (h.syncAt t), ?_⟩
      rw [show _ = s.shared.syncs from (stepFlush_step hflush).syncs_eq]
      exact hreturned

omit [Fintype ι] [DecidableEq ι] in
theorem SyncsCover.init (cfg : WalConfig) (memory : BufId → ℕ → UInt8) :
    SyncsCover (System.init cfg memory : System ι) where
  active := .inl (Nat.le_refl 0)
  syncAt _ := trivial
  returned p hp := by cases hp

/-- The frame of an LSN is in a segment's log, written and synced. -/
def FrameSynced (crc32 : Bytes → UInt32) (s : System ι) (lsn : ℕ) : Prop :=
  ∃ issue seg files offset, s.shared.issued[lsn]? = some issue ∧ s.flush.disk seg = some files ∧
    HoldsAt files.log offset (encode crc32 lsn issue.payload) ∧
    HoldsAt files.synced offset (encode crc32 lsn issue.payload)

omit [DecidableEq ι] in
/-- What has been published is in a log, written and synced. -/
theorem Stored.frameSynced (h : Stored crc32 cfg s) {lsn : ℕ} (hlsn : lsn < s.shared.published) :
    FrameSynced crc32 s lsn := by
  obtain ⟨r, hr, hmem⟩ : ∃ r ∈ s.flush.flushed, lsn ∈ r.lsns := by
    rw [← List.mem_flatMap, h.disk.lsns, List.mem_range]
    exact hlsn
  obtain ⟨files, hfiles, hlog, hsynced⟩ := h.disk.stored r hr
  obtain ⟨issue, hissue⟩ : ∃ issue, s.shared.issued[lsn]? = some issue :=
    ⟨_, List.getElem?_eq_getElem (hlsn.trans_le h.kept.published_le)⟩
  have hcomplete := h.disk.complete r hr
  have hinside := hcomplete.inside lsn hmem
  have hbytes := hcomplete.bytes lsn hmem
  rw [issuedFrames_of_some hissue] at hinside hbytes
  refine ⟨issue, r.seg, files, r.base + issue.pos, hissue, hfiles, ?_, ?_⟩
  · have hpart := hlog.part hinside
    rwa [hbytes] at hpart
  · have hpart := hsynced.part hinside
    rwa [hbytes] at hpart

/-- In every run of such steps, whatever a `sync` found returned before its call is written and
synced once the `sync` has returned, and not above its result. -/
theorem sync_durable (hvalid : cfg.validate = .ok ()) (husize : cfg.segmentSize < 2 ^ 64)
    {memory : BufId → ℕ → UInt8}
    (h : Reaches (System.step crc32 cfg) (SyncsOrderly cfg) (System.init cfg memory) s)
    {before : List ℕ} {durable lsn : ℕ} (hsync : (before, durable) ∈ s.shared.syncs)
    (hlsn : lsn ∈ before) : lsn ≤ durable ∧ FrameSynced crc32 s lsn := by
  obtain ⟨hstored, hcover⟩ : Stored crc32 cfg s ∧ SyncsCover s := by
    refine h.invariant (P := fun s => Stored crc32 cfg s ∧ SyncsCover s)
      ⟨.init crc32 cfg memory, .init cfg memory⟩ ?_
    intro s l s' hs hok hstep
    exact ⟨hs.1.step (WalConfig.validate_eq_ok.mp hvalid) husize hok.1 hstep, hs.2.step hs.1 hok hstep⟩
  obtain ⟨hpublished, hle⟩ := hcover.returned _ hsync lsn hlsn
  exact ⟨hle, hstored.frameSynced hpublished⟩

instance (cfg : WalConfig) (s : System ι) (l : Label ι) : Decidable (SyncsOrderly cfg s l) :=
  inferInstanceAs (Decidable ((OrderlyPacked cfg s l ∧ (l = .flush → FreshStep s.flush)) ∧ _))

end Runs

/-- An append, and a `sync` that waits for the flush. -/
theorem sync_durable_first :
    ∃ s : System (Fin 1), s.shared.syncs = [([0], 0)] ∧ FrameSynced (fun _ => 0) s 0 := by
  obtain ⟨s, hreach, hs⟩ :
      ∃ s : System (Fin 1), Reaches stepOneBlock (SyncsOrderly oneBlockConfig) (freshWal 1) s ∧
        s.shared.syncs = [([0], 0)] :=
    Reaches.exists_of_execute
      ([.call 0 (.append [7])] ++ turns 0 25 ++ [.call 0 .sync] ++ turns 0 18 ++
        List.replicate 18 .flush ++ turns 0 2) _ _ (by decide +kernel) (by decide +kernel)
  refine ⟨s, hs, ?_⟩
  exact (sync_durable (by decide) (by decide) hreach (by rw [hs]; exact List.mem_singleton_self _)
    (List.mem_singleton_self 0)).2

/-- A run in which the flush thread does not move leaves the disk alone. -/
theorem execute_flush_eq [DecidableEq ι] {crc32 : Bytes → UInt32} {cfg : WalConfig}
    {s s' : System ι} {ls : List (Label ι)} (hls : .flush ∉ ls)
    (hexec : execute (System.step crc32 cfg) ls s = some s') : s'.flush = s.flush := by
  induction ls generalizing s with
  | nil => rw [← Option.some.inj hexec]
  | cons l ls ih =>
      obtain ⟨mid, hmid, hrest⟩ := Option.bind_eq_some_iff.mp hexec
      obtain ⟨hl, hls⟩ := not_or.mp (List.mem_cons.not.mp hls)
      rw [ih hls hrest]
      cases System.step_effect hmid with
      | call | thread | timeout => rfl
      | flush => exact absurd rfl hl

/-- The first append returns LSN 0, which is also the initial `durable_lsn`: the `sync` after it
returns at once, and nothing has been synced. -/
theorem sync_not_durable :
    ∃ s : System (Fin 1), Reaches stepOneBlock (Admissible oneBlockConfig) (freshWal 1) s ∧
      s.shared.syncs = [([0], 0)] ∧ ¬ FrameSynced (fun _ => 0) s 0 := by
  let run : List (Label (Fin 1)) :=
    [.call 0 (.append [7])] ++ turns 0 25 ++ [.call 0 .sync] ++ turns 0 20
  have hsyncs : (execute stepOneBlock run (freshWal 1)).map (·.shared.syncs) = some [([0], 0)] := by
    decide +kernel
  obtain ⟨s, hexec, hs⟩ := Option.map_eq_some_iff.mp hsyncs
  refine ⟨s, Reaches.start.of_execute (by decide +kernel) hexec, hs, ?_⟩
  rintro ⟨issue, seg, files, offset, -, hfiles, -, hsynced⟩
  rw [execute_flush_eq (by decide) hexec] at hfiles
  -- The only segment is the one created on opening.
  have hempty : files.synced = [] := by
    by_cases hseg : seg = 0
    · subst hseg
      obtain rfl : _ = files := by simpa [freshWal, System.init, FlushThread.init] using hfiles
      rfl
    · simp [freshWal, System.init, FlushThread.init, hseg] at hfiles
  have hinside := hsynced.inside
  rw [hempty, length_encode] at hinside
  simp [frameLen, headerLen] at hinside

end Todb.Wal

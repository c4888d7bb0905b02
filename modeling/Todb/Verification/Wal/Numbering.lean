import Todb.Verification.Wal.Ownership

/-! # LSNs

Each slot claim takes the next LSN: the active buffer's `min_lsn` and its slot count always
add up to the number of claims made so far. -/

namespace Todb.Wal

open Library

variable {ι : Type}

namespace Pc

/-- Has claimed bytes but no slot. -/
def unslotted : Pc → Bool
  | .claimed _ => true
  | _ => false

/-- One if the thread holds the slot of LSN `x`. -/
def holds (x : ℕ) (pc : Pc) : ℕ :=
  match pc.held? with
  | some (held, _) => if held.lsn = x then 1 else 0
  | none => 0

theorem Outside.holds_eq {pc : Pc} (h : pc.Outside) (x : ℕ) : pc.holds x = 0 := by
  rw [holds, h.held?_eq]

theorem unslotted_of_claim? {pc : Pc} (h : pc.claim? = none) : pc.unslotted = false := by
  cases pc with
  | claimed => cases h
  | idle | append | holding | swap | sync | close | panicked => rfl

end Pc

/-- The issue a slot claim records. -/
def Held.issue (held : Held) : Issue := ⟨held.buf, held.slot, held.pos, held.payload⟩

/-- What a swapper has read: the slots of the old buffer, and where the next one starts. -/
def SwapLsn (core : Core) (old : BufId) : SwapPc → Prop
  | .storeCount count => count = (core.buffers old).entriesAllocated
  | .loadMinLsn count =>
      count = (core.buffers old).entriesAllocated ∧
        (core.buffers old).count = (core.buffers old).entriesAllocated
  | .send nextMinLsn =>
      nextMinLsn = core.issued.length ∧
        (core.buffers old).count = (core.buffers old).entriesAllocated
  | .pop nextMinLsn | .reset _ nextMinLsn _ => nextMinLsn = core.issued.length
  | .install new => ResetTo core.issued.length WalBuffer.resetStores (core.buffers new)
  | .cas | .barrier | .loadCount => True

/-- The LSN discipline. -/
structure Numbering [Fintype ι] (cfg : WalConfig) (core : Core) (pcs : ι → Pc) : Prop where
  issued_lt : core.issued.length < 2 ^ 64
  next : core.phase ≠ .sent →
    (core.buffers core.active).minLsn + (core.buffers core.active).entriesAllocated =
      core.issued.length
  held : ∀ t p, (pcs t).held? = some p →
    (core.buffers core.active).minLsn + p.1.slot = p.1.lsn ∧
      core.issued[p.1.lsn]? = some p.1.issue
  swapLsn : ∀ t p, (pcs t).swap? = some p → SwapLsn core p.1 p.2
  room : core.phase ≠ .sent →
    headerLen * ((core.buffers core.active).entriesAllocated + ∑ t, (pcs t).unslotted.toNat) ≤
      min (core.buffers core.active).writePos cfg.bufferSize
  counts : ∀ x, core.returned.count x + ∑ t, (pcs t).holds x = if x < core.issued.length then 1 else 0

section Threads

variable [Fintype ι] {cfg : WalConfig} {crc32 : Bytes → UInt32}
  {sh sh' : Shared} {pcs : ι → Pc} {fpc : FlushPc} {t u : ι} {pc pc' : Pc}

theorem Pc.claim?_of_held? {p : Held × HoldPc} (h : pc.held? = some p) :
    pc.claim? = some p.1.toClaim := by
  cases pc with
  | holding => obtain rfl := Option.some.inj h; rfl
  | idle | append | claimed | swap | sync | close | panicked => cases h

/-- The slot a thread is about to claim exists. -/
theorem Numbering.slot_room (num : Numbering cfg sh.toCore pcs) (hphase : sh.phase ≠ .sent)
    {claim : Claim} (hpc : pcs t = .claimed claim) :
    (sh.buffers sh.active).entriesAllocated < cfg.bufferSize / headerLen := by
  have hroom := num.room hphase
  have hone : (pcs t).unslotted.toNat ≤ ∑ u, (pcs u).unslotted.toNat :=
    Finset.single_le_sum (f := fun u => (pcs u).unslotted.toNat) (fun _ _ => Nat.zero_le _)
      (Finset.mem_univ t)
  rw [hpc] at hone
  change 1 ≤ _ at hone
  rw [Nat.lt_div_iff_mul_lt (by decide)]
  simp only [headerLen] at *
  omega

/-- No slot claim fails its assertion. -/
theorem Numbering.not_exhausted (own : Ownership cfg sh.toCore pcs fpc)
    (num : Numbering cfg sh.toCore pcs) {claim : Claim} (hpc : pcs t = .claimed claim) :
    (sh.buffers claim.buf).entriesAllocated < cfg.bufferSize / headerLen := by
  obtain ⟨hbuf, haccept⟩ := own.critical t claim (by rw [hpc]; rfl)
  rw [hbuf]
  exact num.slot_room haccept.ne_sent hpc

theorem Numbering.issued_lt_step (num : Numbering cfg sh.toCore pcs)
    (heff : Effect crc32 cfg sh pc sh' pc') (hok : StepOrderly cfg sh.toCore pcs pc) :
    sh'.issued.length < 2 ^ 64 := by
  have hlt := num.issued_lt
  cases heff with
  | outside _ _ hcore => rwa [hcore]
  | claimSlot =>
      rw [List.length_append]
      exact hok
  | overflow | claimBytes | exhausted | loadLsn | enter | copy | store | leave | cas | spin | drained
  | loadCount | storeCount | loadMinLsn | send | pop | giveUp | reset | install => exact hlt

theorem Numbering.next_step (own : Ownership cfg sh.toCore pcs fpc)
    (num : Numbering cfg sh.toCore pcs) (hpc : pcs t = pc) (heff : Effect crc32 cfg sh pc sh' pc')
    (hok : StepOrderly cfg sh.toCore pcs pc) (hphase : sh'.phase ≠ .sent) :
    (sh'.buffers sh'.active).minLsn + (sh'.buffers sh'.active).entriesAllocated =
      sh'.issued.length := by
  have hnext := num.next
  have hat := hpc ▸ own.swapAt t
  have hlsn := hpc ▸ num.swapLsn t
  have hcritical := hpc ▸ own.critical t
  cases heff with
  | outside _ _ hcore =>
      rw [hcore] at hphase ⊢
      exact hnext hphase
  | claimSlot =>
      obtain ⟨hbuf, haccept⟩ := hcritical _ rfl
      have heq := hnext hphase
      simp only [StepOrderly] at hok
      simp only [Shared.claimSlot, Shared.toCore_modify, Core.modify_active, hbuf, Core.modify_self,
        List.length_append, List.length_singleton]
      omega
  | exhausted hfull => exact absurd (num.not_exhausted own hpc) (not_lt.mpr hfull)
  | cas hstate => simpa using hnext (by simp [(hok hstate).2])
  | drained => exact hnext (by simp [(hat _ rfl).2])
  | send => exact absurd rfl hphase
  | reset => exact absurd (hat _ rfl).2.1 hphase
  | install =>
      have hto : ResetTo _ _ _ := hlsn _ rfl
      change (sh.buffers _).minLsn + (sh.buffers _).entriesAllocated = sh.issued.length
      rw [hto.minLsn (by decide), hto.entriesAllocated (by decide), add_zero]
  | overflow | claimBytes | loadLsn | enter | copy | store | leave | spin | loadCount | storeCount
  | loadMinLsn | pop | giveUp => simpa [Shared.claimBytes] using hnext hphase

/-- The LSN an append computes is the one its slot claim stands for. -/
theorem Numbering.loadLsn_eq (own : Ownership cfg sh.toCore pcs fpc)
    (num : Numbering cfg sh.toCore pcs) {held : Held} {hpc' : HoldPc}
    (hpc : pcs t = .holding held hpc') :
    ((sh.buffers held.buf).minLsn + held.slot) % 2 ^ 64 = held.lsn := by
  have hbuf := (own.critical t held.toClaim (by rw [hpc]; rfl)).1
  obtain ⟨hlsn, hissue⟩ := num.held t (held, hpc') (by rw [hpc]; rfl)
  have hlt := (List.getElem?_eq_some_iff.mp hissue).1
  rw [hbuf, hlsn]
  exact Nat.mod_eq_of_lt (lt_trans hlt num.issued_lt)

theorem Numbering.held_self (own : Ownership cfg sh.toCore pcs fpc)
    (num : Numbering cfg sh.toCore pcs) (hpc : pcs t = pc) (heff : Effect crc32 cfg sh pc sh' pc')
    {p : Held × HoldPc} (hp : pc'.held? = some p) :
    (sh'.buffers sh'.active).minLsn + p.1.slot = p.1.lsn ∧ sh'.issued[p.1.lsn]? = some p.1.issue := by
  have hheld := hpc ▸ num.held t
  have hcritical := hpc ▸ own.critical t
  cases heff with
  | outside _ hout' => exact absurd hp (by simp [hout'.held?_eq])
  | claimSlot hslot =>
      obtain rfl := Option.some.inj hp
      obtain ⟨hbuf, haccept⟩ := hcritical _ rfl
      have hnext := num.next haccept.ne_sent
      rw [hbuf] at hslot
      refine ⟨?_, by simp [Held.issue]⟩
      simp only [Shared.claimSlot, Shared.toCore_modify, Core.modify_active, hbuf, Core.modify_self]
      omega
  | @loadLsn held =>
      obtain rfl := Option.some.inj hp
      rw [num.loadLsn_eq own hpc]
      exact hheld (held, .loadMinLsn) rfl
  | enter | copy | store =>
      obtain rfl := Option.some.inj hp
      simpa using hheld _ rfl
  | giveUp | install => exact absurd hp (by simp [(Pc.Outside.resume _ _).held?_eq])
  | overflow | claimBytes | exhausted | leave | cas | spin | drained | loadCount | storeCount
  | loadMinLsn | send | pop | reset => cases hp

/-- Claims made by others only add to what has been issued. -/
theorem Numbering.held_other (own : Ownership cfg sh.toCore pcs fpc)
    (num : Numbering cfg sh.toCore pcs) (hpc : pcs t = pc) (heff : Effect crc32 cfg sh pc sh' pc')
    {p : Held × HoldPc} (hp : (pcs u).held? = some p) :
    (sh'.buffers sh'.active).minLsn + p.1.slot = p.1.lsn ∧ sh'.issued[p.1.lsn]? = some p.1.issue := by
  have hheld := num.held u p hp
  have hat := hpc ▸ own.swapAt t
  have haccept := (own.critical u _ (Pc.claim?_of_held? hp)).2
  cases heff with
  | outside _ _ hcore => rwa [hcore]
  | claimSlot =>
      obtain ⟨hlsn, hissue⟩ := hheld
      have hlt := (List.getElem?_eq_some_iff.mp hissue).1
      refine ⟨by simpa [Shared.claimSlot] using hlsn, ?_⟩
      rwa [List.getElem?_append_left hlt]
  | send | pop | giveUp => simp [Phase.Accepting, (hat _ rfl).2] at haccept
  | reset | install => simp [Phase.Accepting, (hat _ rfl).2.1] at haccept
  | overflow | claimBytes | exhausted | loadLsn | enter | copy | store | leave | cas | spin | drained
  | loadCount | storeCount | loadMinLsn =>
      simpa [Shared.claimBytes, Shared.claimSlot] using hheld

theorem Numbering.swapLsn_self (own : Ownership cfg sh.toCore pcs fpc)
    (num : Numbering cfg sh.toCore pcs) (hpc : pcs t = pc) (heff : Effect crc32 cfg sh pc sh' pc')
    {p : BufId × SwapPc} (hp : pc'.swap? = some p) : SwapLsn sh'.toCore p.1 p.2 := by
  have hlsn := hpc ▸ num.swapLsn t
  have hat := hpc ▸ own.swapAt t
  cases heff with
  | outside _ hout' => exact absurd hp (by simp [hout'.swap?_eq])
  | overflow | claimBytes | claimSlot | exhausted | loadLsn | enter | copy | store | leave =>
      cases hp
  | giveUp | install => exact absurd hp (by simp [(Pc.Outside.resume _ _).swap?_eq])
  | cas | spin | drained =>
      obtain rfl := Option.some.inj hp
      trivial
  | loadCount =>
      obtain rfl := Option.some.inj hp
      rfl
  | storeCount =>
      obtain rfl := Option.some.inj hp
      have hcount : _ = _ := hlsn _ rfl
      simp [SwapLsn, hcount]
  | loadMinLsn =>
      obtain rfl := Option.some.inj hp
      obtain ⟨hactive, hphase⟩ := hat _ rfl
      obtain ⟨hcount, hstored⟩ := hlsn _ rfl
      have hnext := num.next (by simp [hphase])
      rw [hactive] at hnext
      refine ⟨?_, hstored⟩
      rw [hcount, hnext]
      exact Nat.mod_eq_of_lt num.issued_lt
  | send =>
      obtain rfl := Option.some.inj hp
      exact (hlsn _ rfl).1
  | pop =>
      obtain rfl := Option.some.inj hp
      exact hlsn _ rfl
  | @reset _ _ new nextMinLsn stage =>
      obtain ⟨hactive, hphase, hstage, hreset⟩ := hat _ rfl
      have hnext : nextMinLsn = sh.issued.length := hlsn _ rfl
      by_cases hmore : stage + 1 < WalBuffer.resetStores
      · rw [if_pos hmore] at hp
        obtain rfl := Option.some.inj hp
        exact hnext
      · rw [if_neg hmore] at hp
        obtain rfl := Option.some.inj hp
        have hto := hreset.next hstage
        rw [show stage + 1 = WalBuffer.resetStores by omega, hnext] at hto
        simpa [SwapLsn, hnext] using hto

theorem Numbering.swapLsn_other (own : Ownership cfg sh.toCore pcs fpc)
    (num : Numbering cfg sh.toCore pcs) (hpc : pcs t = pc) (heff : Effect crc32 cfg sh pc sh' pc')
    (hok : StepOrderly cfg sh.toCore pcs pc) (hu : u ≠ t) {p : BufId × SwapPc}
    (hp : (pcs u).swap? = some p) : SwapLsn sh'.toCore p.1 p.2 := by
  have hlsn := num.swapLsn u p hp
  have hat := own.swapAt u p hp
  have hcritical := hpc ▸ own.critical t
  have hsingle : ∀ q, pc.swap? ≠ some q := fun q hq => hu (own.unique u t p q hp (hpc ▸ hq))
  -- a claim is made before the barrier is passed, when a swapper has read nothing yet
  have hbarrier : ∀ {core' : Core}, sh.phase.Accepting → SwapLsn core' p.1 p.2 := by
    intro core' haccept
    obtain ⟨old, pc⟩ := p
    cases pc with
    | cas | barrier | loadCount => trivial
    | storeCount | loadMinLsn | send | pop => simp [Phase.Accepting, hat.2] at haccept
    | reset | install => simp [Phase.Accepting, hat.2.1] at haccept
  cases heff with
  | outside _ _ hcore => rwa [hcore]
  | overflow hfull =>
      have hsmall := own.fitting t _ (by rw [hpc]; rfl)
      obtain ⟨old, pc⟩ := p
      cases pc with
      | install => exact ResetTo.overflow hlsn hfull hsmall hok.1
      | storeCount | loadMinLsn | send => simpa [SwapLsn, Shared.claimBytes] using hlsn
      | cas | barrier | loadCount | pop | reset => exact hlsn
  | claimBytes hfits => exact hbarrier (hok.2 hfits).2
  | claimSlot | exhausted | loadLsn | enter | copy | store | leave =>
      exact hbarrier (hcritical _ rfl).2
  | cas hstate => exact absurd (hok hstate).2 (own.not_open hp)
  | spin | drained | loadCount | storeCount | loadMinLsn | send | pop | giveUp | reset | install =>
      exact (hsingle _ rfl).elim

variable [DecidableEq ι]

theorem Numbering.room_step (own : Ownership cfg sh.toCore pcs fpc)
    (num : Numbering cfg sh.toCore pcs) (hpc : pcs t = pc) (heff : Effect crc32 cfg sh pc sh' pc')
    (hok : StepOrderly cfg sh.toCore pcs pc) (hphase' : sh'.phase ≠ .sent) :
    headerLen * ((sh'.buffers sh'.active).entriesAllocated +
        ∑ u, (Function.update pcs t pc' u).unslotted.toNat) ≤
      min (sh'.buffers sh'.active).writePos cfg.bufferSize := by
  have hat := hpc ▸ own.swapAt t
  have hcritical := hpc ▸ own.critical t
  have hsum := sum_update pcs t pc' fun pc => pc.unslotted.toNat
  rw [hpc] at hsum
  -- steps that neither claim nor change the counters
  have hsame : sh.phase ≠ .sent → pc'.unslotted = pc.unslotted →
      headerLen * ((sh.buffers sh.active).entriesAllocated +
        ∑ u, (Function.update pcs t pc' u).unslotted.toNat) ≤
      min (sh.buffers sh.active).writePos cfg.bufferSize := by
    intro hphase hunslotted
    rw [hunslotted] at hsum
    rw [add_right_cancel hsum]
    exact num.room hphase
  cases heff with
  | outside hout hout' hcore =>
      rw [hcore] at hphase' ⊢
      exact hsame hphase' (by
        rw [Pc.unslotted_of_claim? hout.claim?_eq, Pc.unslotted_of_claim? hout'.claim?_eq])
  | @overflow payload buf hfull =>
      have hroom := hsame hphase' rfl
      by_cases hbuf : sh.active = buf
      · simp only [StepOrderly, hbuf] at hok
        simp only [hbuf] at hroom
        simp only [Shared.claimBytes, Shared.toCore_modify, Core.modify_active, hbuf,
          Core.modify_self]
        omega
      · simpa [Shared.claimBytes, hbuf] using hroom
  | @claimBytes payload buf hfits =>
      obtain ⟨hbuf, haccept⟩ := hok.2 hfits
      have hroom := num.room haccept.ne_sent
      change _ + 0 = _ + 1 at hsum
      rw [add_zero] at hsum
      simp only [Shared.claimBytes, Shared.toCore_modify, Core.modify_active, hbuf,
        Core.modify_self]
      simp only [hbuf] at hroom
      obtain ⟨hwrap, hend⟩ := hfits
      simp only [frameLen, headerLen] at *
      omega
  | @claimSlot claim slot hslot =>
      obtain ⟨hbuf, haccept⟩ := hcritical _ rfl
      have hroom := num.room haccept.ne_sent
      have hnext := num.next haccept.ne_sent
      change _ + 1 = _ + 0 at hsum
      simp only [StepOrderly] at hok
      simp only [Shared.claimSlot, Shared.toCore_modify, Core.modify_active, hbuf, Core.modify_self]
      simp only [headerLen] at *
      omega
  | exhausted hfull => exact absurd (num.not_exhausted own hpc) (not_lt.mpr hfull)
  | cas hstate => simpa using hsame (by simp [(hok hstate).2]) rfl
  | loadLsn | enter | copy | store | leave | spin | loadCount | storeCount | loadMinLsn | pop =>
      simpa using hsame hphase' rfl
  | drained => exact hsame (by simp [(hat _ rfl).2]) rfl
  | send => exact absurd rfl hphase'
  | giveUp => exact absurd (hat _ rfl).2 hphase'
  | reset => exact absurd (hat _ rfl).2.1 hphase'
  | install =>
      obtain ⟨-, hsent, nextMinLsn, hto⟩ := hat _ rfl
      have hnone : ∑ u, (pcs u).unslotted.toNat = 0 := by
        refine Finset.sum_eq_zero fun u _ => ?_
        rw [Pc.unslotted_of_claim? (own.no_claim (by simp [Phase.Accepting, hsent]) u)]
        rfl
      rw [hnone, Pc.unslotted_of_claim? (Pc.Outside.resume _ _).claim?_eq] at hsum
      change _ + 0 = 0 + 0 at hsum
      rw [add_zero, add_zero] at hsum
      simp [hsum, hto.entriesAllocated (by decide)]

theorem Numbering.counts_step (own : Ownership cfg sh.toCore pcs fpc)
    (num : Numbering cfg sh.toCore pcs) (hpc : pcs t = pc) (heff : Effect crc32 cfg sh pc sh' pc')
    (x : ℕ) :
    sh'.returned.count x + ∑ u, (Function.update pcs t pc' u).holds x =
      if x < sh'.issued.length then 1 else 0 := by
  have hcounts := num.counts x
  have hsum := sum_update pcs t pc' fun pc => pc.holds x
  rw [hpc] at hsum
  have hsame : pc'.holds x = pc.holds x →
      sh.returned.count x + ∑ u, (Function.update pcs t pc' u).holds x =
        if x < sh.issued.length then 1 else 0 := by
    intro hholds
    rw [hholds] at hsum
    rw [add_right_cancel hsum]
    exact hcounts
  cases heff with
  | outside hout hout' hcore =>
      rw [hcore]
      exact hsame (by rw [hout.holds_eq, hout'.holds_eq])
  | claimSlot =>
      change _ + 0 = _ + (if sh.issued.length = x then 1 else 0) at hsum
      simp only [List.length_append, List.length_singleton]
      change sh.returned.count x + _ = _
      by_cases hx : sh.issued.length = x
      · simp only [hx, if_true] at hsum
        simp only [hx, lt_irrefl, if_false] at hcounts
        simp only [hx, show x < x + 1 by omega, if_true]
        omega
      · simp only [hx, if_false] at hsum
        by_cases hlt : x < sh.issued.length
        · simp only [hlt, if_true] at hcounts
          simp only [show x < sh.issued.length + 1 by omega, if_true]
          omega
        · simp only [hlt, if_false] at hcounts
          simp only [show ¬ x < sh.issued.length + 1 by omega, if_false]
          omega
  | @loadLsn held =>
      rw [num.loadLsn_eq own hpc] at hsame ⊢
      exact hsame rfl
  | @leave held =>
      change _ + (if held.lsn = x then 1 else 0) = _ + 0 at hsum
      simp only [List.count_append, List.count_singleton]
      change _ = if x < sh.issued.length then 1 else 0
      by_cases hx : held.lsn = x
      · simp only [hx, if_true] at hsum
        simp only [hx, beq_self_eq_true, if_true]
        omega
      · simp only [hx, if_false] at hsum
        simp only [beq_eq_false_iff_ne.mpr hx, Bool.false_eq_true, if_false]
        omega
  | giveUp | install => exact hsame (by rw [(Pc.Outside.resume _ _).holds_eq]; rfl)
  | overflow | claimBytes | exhausted | enter | copy | store | cas | spin | drained | loadCount
  | storeCount | loadMinLsn | send | pop => exact hsame rfl
  | reset => exact hsame (by split <;> rfl)

theorem Numbering.thread_step (own : Ownership cfg sh.toCore pcs fpc)
    (num : Numbering cfg sh.toCore pcs) (hpc : pcs t = pc) (heff : Effect crc32 cfg sh pc sh' pc')
    (hok : StepOrderly cfg sh.toCore pcs pc) :
    Numbering cfg sh'.toCore (Function.update pcs t pc') where
  issued_lt := num.issued_lt_step heff hok
  next := num.next_step own hpc heff hok
  held u p hp := by
    rcases update_cases hp with ⟨-, h⟩ | ⟨-, h⟩
    · exact num.held_self own hpc heff h
    · exact num.held_other own hpc heff h
  swapLsn u p hp := by
    rcases update_cases hp with ⟨-, h⟩ | ⟨hu, h⟩
    · exact num.swapLsn_self own hpc heff h
    · exact num.swapLsn_other own hpc heff hok hu h
  room := num.room_step own hpc heff hok
  counts := num.counts_step own hpc heff

end Threads

section Flush

variable [Fintype ι] {cfg : WalConfig} {sh sh' : Shared} {pcs : ι → Pc} {fpc fpc' : FlushPc}

theorem FlushEffect.issued_eq (heff : FlushEffect cfg sh fpc sh' fpc') :
    sh'.issued = sh.issued := by
  cases heff <;> rfl

theorem FlushEffect.returned_eq (heff : FlushEffect cfg sh fpc sh' fpc') :
    sh'.returned = sh.returned := by
  cases heff <;> rfl

theorem Numbering.flush_step (own : Ownership cfg sh.toCore pcs fpc)
    (num : Numbering cfg sh.toCore pcs) (heff : FlushEffect cfg sh fpc sh' fpc') :
    Numbering cfg sh'.toCore pcs where
  issued_lt := heff.issued_eq ▸ num.issued_lt
  next hphase := by
    rw [heff.phase_eq] at hphase
    rw [own.flush_active heff hphase, heff.issued_eq]
    exact num.next hphase
  held t p hp := by
    have haccept := (own.critical t _ (Pc.claim?_of_held? hp)).2
    rw [own.flush_active heff haccept.ne_sent, heff.issued_eq]
    exact num.held t p hp
  swapLsn t p hp := by
    have hlsn := num.swapLsn t p hp
    have hat := own.swapAt t p hp
    have hkeeps : ∀ b ∈ (pcs t).owned, sh'.buffers b = sh.buffers b := fun b hb =>
      heff.keeps (own.inHand_apart (owned_mem hb)).2.1
    rw [Pc.owned, hp] at hkeeps
    obtain ⟨old, pc⟩ := p
    cases pc with
    | cas | barrier | loadCount => trivial
    | storeCount | loadMinLsn =>
        simpa only [SwapLsn, hkeeps old (Multiset.mem_singleton_self old)] using hlsn
    | send =>
        simpa only [SwapLsn, heff.issued_eq, hkeeps old (Multiset.mem_singleton_self old)] using hlsn
    | pop | reset => simpa only [SwapLsn, heff.issued_eq] using hlsn
    | install new =>
        simpa only [SwapLsn, heff.issued_eq, hkeeps new (Multiset.mem_singleton_self new)] using hlsn
  room hphase := by
    rw [heff.phase_eq] at hphase
    rw [own.flush_active heff hphase]
    exact num.room hphase
  counts x := by
    rw [heff.returned_eq, heff.issued_eq]
    exact num.counts x

end Flush

/-! ## Runs -/

section Runs

variable [DecidableEq ι] [Fintype ι] {cfg : WalConfig} {crc32 : Bytes → UInt32} {s s' : System ι}
  {l : Label ι}

def Numbered (cfg : WalConfig) (s : System ι) : Prop := Numbering cfg s.shared.toCore s.pcs

theorem Numbered.step (own : Owned cfg s) (num : Numbered cfg s) (hmove : Move cfg crc32 s l s') :
    Numbered cfg s' := by
  cases hmove with
  | thread hpc heff hok => exact num.thread_step own hpc heff hok
  | flush hstep => exact num.flush_step own (stepFlush_effect hstep)

omit [DecidableEq ι] in
theorem Numbered.init (cfg : WalConfig) (memory : BufId → ℕ → UInt8) :
    Numbered cfg (System.init cfg memory : System ι) where
  issued_lt := by simp [System.init]
  next _ := by simp [System.init, WalBuffer.new]
  held _ _ h := by cases h
  swapLsn _ _ h := by cases h
  room _ := by simp [System.init, WalBuffer.new, Pc.unslotted]
  counts x := by simp [System.init, Pc.holds, Pc.held?]

theorem numbered_of_orderly {memory : BufId → ℕ → UInt8}
    (h : Reaches (System.step crc32 cfg) (Orderly cfg) (System.init cfg memory) s) :
    Owned cfg s ∧ Numbered cfg s := by
  refine h.invariant (P := fun s => Owned cfg s ∧ Numbered cfg s)
    ⟨.init cfg memory, .init cfg memory⟩ ?_
  rintro s l s' ⟨own, num⟩ hok hstep
  have hmove := System.step_move hstep hok
  exact ⟨own.step hmove, num.step own hmove⟩

omit [DecidableEq ι] in
theorem Numbered.returned_nodup (num : Numbered cfg s) : s.shared.returned.Nodup := by
  refine List.nodup_iff_count_le_one.mpr fun x => ?_
  have hcounts := num.counts x
  split at hcounts <;> omega

omit [DecidableEq ι] in
theorem Numbered.returned_lt (num : Numbered cfg s) {x : ℕ} (hx : x ∈ s.shared.returned) :
    x < s.shared.issued.length := by
  have hcount := List.count_pos_iff.mpr hx
  have hcounts := num.counts x
  by_contra hlt
  rw [if_neg hlt] at hcounts
  omega

theorem Pc.holds_of_payload? {pc : Pc} (h : pc.payload? = none) (x : ℕ) : pc.holds x = 0 := by
  cases pc with
  | holding => cases h
  | idle | append | claimed | swap | sync | close | panicked => rfl

omit [DecidableEq ι] in
/-- With no append in progress, every issued LSN has been returned. -/
theorem Numbered.returned_perm (num : Numbered cfg s) (hquiet : ∀ t, (s.pcs t).payload? = none) :
    s.shared.returned.Perm (List.range s.shared.issued.length) := by
  refine List.perm_iff_count.mpr fun x => ?_
  have hcounts := num.counts x
  rw [Finset.sum_eq_zero fun t _ => Pc.holds_of_payload? (hquiet t) x, add_zero] at hcounts
  rw [hcounts, List.nodup_range.count]
  simp only [List.mem_range]

/-- LSNs are unique, and dense whenever no append is in progress. -/
theorem append_lsns_unique_dense (crc32 : Bytes → UInt32) (cfg : WalConfig)
    (memory : BufId → ℕ → UInt8) (s : System ι)
    (h : Reaches (System.step crc32 cfg) (Orderly cfg) (System.init cfg memory) s) :
    s.shared.returned.Nodup ∧
      ((∀ t, (s.pcs t).payload? = none) →
        ∀ x, x ∈ s.shared.returned ↔ x < s.shared.returned.length) := by
  obtain ⟨-, num⟩ := numbered_of_orderly h
  refine ⟨num.returned_nodup, fun hquiet x => ?_⟩
  have hperm := num.returned_perm hquiet
  rw [hperm.mem_iff, hperm.length_eq, List.length_range, List.mem_range]

end Runs

/-- Two appends, one after the other. -/
theorem append_lsns_unique_dense_two :
    ∃ s : System (Fin 1), s.shared.returned = [0, 1] ∧ s.shared.returned.Nodup ∧
      ∀ x, x ∈ s.shared.returned ↔ x < s.shared.returned.length := by
  obtain ⟨s, hreach, hs⟩ :
      ∃ s : System (Fin 1), Reaches stepOneBlock (Orderly oneBlockConfig) (freshWal 1) s ∧
        (s.shared.returned, s.pcs 0) = ([0, 1], .idle) :=
    Reaches.exists_of_execute
      ([.call 0 (.append [7])] ++ turns 0 25 ++ [.call 0 (.append [8])] ++ turns 0 25) _ _
      (by decide +kernel) (by decide +kernel)
  obtain ⟨hreturned, hidle⟩ := Prod.mk.inj hs
  obtain ⟨hnodup, hdense⟩ := append_lsns_unique_dense _ _ _ s hreach
  refine ⟨s, hreturned, hnodup, hdense fun t => ?_⟩
  rw [Subsingleton.elim t 0, hidle]
  rfl

/-- An append that has claimed bytes but no slot is overtaken by a `sync`: the buffer is swapped
as empty, and the next buffer starts at the same LSN. -/
theorem append_lsns_not_unique :
    ∃ s : System (Fin 2), Reaches stepOneBlock (Admissible oneBlockConfig) (freshWal 2) s ∧
      s.shared.returned = [0, 0] :=
  Reaches.exists_of_execute
    ([.call 0 (.append [7])] ++ turns 0 3 ++ [.call 1 .sync] ++ turns 1 20 ++ turns 0 22 ++
      [.call 1 (.append [8])] ++ turns 1 25) _ _ (by decide +kernel) (by decide +kernel)

end Todb.Wal

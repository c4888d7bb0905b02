import Todb.Verification.Wal.Effects

/-! # Who owns a buffer

The condition under which the protocol works: no append or swap acts on a buffer it found in
`active` before the buffer was swapped out. Under it every buffer is in one place. -/

namespace Todb.Wal

open Library

/-- The active buffer takes claims until its swapper has passed the barrier. -/
def Phase.Accepting (phase : Phase) : Prop := phase = .open ∨ phase = .draining

instance (phase : Phase) : Decidable phase.Accepting := inferInstanceAs (Decidable (_ ∨ _))

theorem Phase.Accepting.ne_sent {phase : Phase} (h : phase.Accepting) : phase ≠ .sent := by
  rintro rfl
  simp [Phase.Accepting] at h

namespace Pc

/-- Inside the `in_flight` bracket of `append`. -/
def registered : Pc → Bool
  | .holding _ (.copy _) | .holding _ .store | .holding _ .leave => true
  | _ => false

/-- Between the byte claim of `append` and its `in_flight` increment. -/
def unregistered : Pc → Bool
  | .claimed _ | .holding _ .loadMinLsn | .holding _ .enter => true
  | _ => false

end Pc

variable {ι : Type}

/-- The condition on a step of a caller inside a call. Counters do not wrap, and no step acts on
a handle that has become stale: a byte claim that fits is made on the active buffer before its
swapper has passed the barrier, a compare-exchange succeeds on the active buffer only, and a
swapper passes the barrier only when every claimed range is registered. -/
def StepOrderly (cfg : WalConfig) (core : Core) (pcs : ι → Pc) : Pc → Prop
  | .append payload (.claimBytes buf) =>
      (core.buffers buf).writePos + frameLen payload < 2 ^ 64 ∧
        (fits cfg (core.buffers buf).writePos (frameLen payload) →
          core.active = buf ∧ core.phase.Accepting)
  | .claimed _ => core.issued.length + 1 < 2 ^ 64
  | .holding held .enter => (core.buffers held.buf).inFlight + 1 < 2 ^ 32
  | .swap _ old .cas =>
      (core.buffers old).state = .active → core.active = old ∧ core.phase = .open
  | .swap _ old .barrier =>
      (core.buffers old).inFlight = 0 → ∀ u, (pcs u).unregistered = false
  | _ => True

/-- Payloads fit a buffer, and every step of a caller is orderly. -/
def Orderly (cfg : WalConfig) (s : System ι) : Label ι → Prop
  | .call _ (.append payload) => frameLen payload ≤ cfg.bufferSize
  | .thread t => StepOrderly cfg s.shared.toCore s.pcs (s.pcs t)
  | _ => True

instance [Fintype ι] (cfg : WalConfig) (core : Core) (pcs : ι → Pc) (pc : Pc) :
    Decidable (StepOrderly cfg core pcs pc) := by
  unfold StepOrderly
  split <;> infer_instance

instance [Fintype ι] (cfg : WalConfig) (s : System ι) (l : Label ι) :
    Decidable (Orderly cfg s l) := by
  unfold Orderly
  split <;> infer_instance

/-! ## Places -/

/-- What a swapper holds: the old buffer until it is sent, then the new one. -/
def SwapPc.owned (old : BufId) : SwapPc → Multiset BufId
  | .pop _ => 0
  | .reset new _ _ | .install new => {new}
  | _ => {old}

def Pc.owned (pc : Pc) : Multiset BufId :=
  match pc.swap? with
  | some (old, swapPc) => swapPc.owned old
  | none => 0

/-- The active buffer, as long as no swapper has won it. -/
def Core.openBuffer (core : Core) : Multiset BufId :=
  if core.phase = .open then {core.active} else 0

/-- The buffers that are active or owned by a swapper. -/
def inHand [Fintype ι] (core : Core) (pcs : ι → Pc) : Multiset BufId :=
  core.openBuffer + ∑ t, (pcs t).owned

/-- The places a buffer can be in: active, owned by a swapper, queued or being flushed, free. -/
def places [Fintype ι] (core : Core) (pcs : ι → Pc) (fpc : FlushPc) : Multiset BufId :=
  inHand core pcs + core.flushQueue + fpc.buf?.toList + core.freePool

/-- How far `reset` has come. -/
structure ResetTo (nextMinLsn stage : ℕ) (b : WalBuffer) : Prop where
  writePos : 0 < stage → b.writePos = 0
  entriesAllocated : 1 < stage → b.entriesAllocated = 0
  inFlight : 2 < stage → b.inFlight = 0
  minLsn : 4 < stage → b.minLsn = nextMinLsn
  state : 5 < stage → b.state = .active

/-- What a swapper knows at each point. -/
def SwapAt (core : Core) (old : BufId) : SwapPc → Prop
  | .cas => False
  | .barrier => core.active = old ∧ core.phase = .draining
  | .loadCount | .storeCount _ | .loadMinLsn _ | .send _ => core.active = old ∧ core.phase = .frozen
  | .pop _ => core.active = old ∧ core.phase = .sent
  | .reset new nextMinLsn stage =>
      core.active = old ∧ core.phase = .sent ∧ stage < WalBuffer.resetStores ∧
        ResetTo nextMinLsn stage (core.buffers new)
  | .install new =>
      core.active = old ∧ core.phase = .sent ∧
        ∃ nextMinLsn, ResetTo nextMinLsn WalBuffer.resetStores (core.buffers new)

/-- The ownership discipline. -/
structure Ownership [Fintype ι] (cfg : WalConfig) (core : Core) (pcs : ι → Pc) (fpc : FlushPc) :
    Prop where
  fitting : ∀ t payload, (pcs t).payload? = some payload → frameLen payload ≤ cfg.bufferSize
  swapAt : ∀ t p, (pcs t).swap? = some p → SwapAt core p.1 p.2
  unique : ∀ t u p q, (pcs t).swap? = some p → (pcs u).swap? = some q → t = u
  swapping : core.phase = .draining ∨ core.phase = .frozen → ∃ t p, (pcs t).swap? = some p
  critical : ∀ t claim, (pcs t).claim? = some claim →
    claim.buf = core.active ∧ core.phase.Accepting
  open_state : core.phase = .open → (core.buffers core.active).state = .active
  inFlight_lt : ∀ b, (core.buffers b).inFlight < 2 ^ 32
  inFlight_eq : core.phase.Accepting →
    (core.buffers core.active).inFlight = ∑ t, (pcs t).registered.toNat
  nodup : (places core pcs fpc).Nodup

/-! ## How places change -/

section Places

variable [Fintype ι] [DecidableEq ι] {cfg : WalConfig} {crc32 : Bytes → UInt32}
  {sh sh' : Shared} {pcs : ι → Pc} {fpc fpc' : FlushPc} {t : ι} {pc' : Pc}

theorem Pc.Outside.owned_eq {pc : Pc} (h : pc.Outside) : pc.owned = 0 := by
  rw [Pc.owned, h.swap?_eq]

theorem places_update (core : Core) (pcs : ι → Pc) (fpc : FlushPc) (t : ι) (pc' : Pc) :
    places core (Function.update pcs t pc') fpc + (pcs t).owned =
      places core pcs fpc + pc'.owned := by
  have hsum := sum_update pcs t pc' Pc.owned
  simp only [places, inHand]
  calc core.openBuffer + (∑ u, (Function.update pcs t pc' u).owned) + core.flushQueue +
        fpc.buf?.toList + core.freePool + (pcs t).owned
      = core.openBuffer + ((∑ u, (Function.update pcs t pc' u).owned) + (pcs t).owned) +
          core.flushQueue + fpc.buf?.toList + core.freePool := by abel
    _ = core.openBuffer + ((∑ u, (pcs u).owned) + pc'.owned) + core.flushQueue +
          fpc.buf?.toList + core.freePool := by rw [hsum]
    _ = _ := by abel

/-- Moving a buffer between a caller and the shared places. -/
theorem places_move {core core' : Core} {lost : Multiset BufId}
    (h : core'.openBuffer + core'.flushQueue + core'.freePool + pc'.owned + lost =
      core.openBuffer + core.flushQueue + core.freePool + (pcs t).owned) :
    places core' (Function.update pcs t pc') fpc + lost = places core pcs fpc := by
  have hupdate := places_update core' pcs fpc t pc'
  refine add_right_cancel (b := (pcs t).owned) ?_
  calc places core' (Function.update pcs t pc') fpc + lost + (pcs t).owned
      = places core' (Function.update pcs t pc') fpc + (pcs t).owned + lost := by abel
    _ = places core' pcs fpc + pc'.owned + lost := by rw [hupdate]
    _ = (∑ u, (pcs u).owned) + fpc.buf?.toList +
          (core'.openBuffer + core'.flushQueue + core'.freePool + pc'.owned + lost) := by
        simp only [places, inHand]
        abel
    _ = (∑ u, (pcs u).owned) + fpc.buf?.toList +
          (core.openBuffer + core.flushQueue + core.freePool + (pcs t).owned) := by rw [h]
    _ = places core pcs fpc + (pcs t).owned := by
        simp only [places, inHand]
        abel

/-- A step that moves no buffer. -/
theorem places_stay {core core' : Core} (hactive : core'.active = core.active)
    (hopen : core'.phase = .open ↔ core.phase = .open) (hqueue : core'.flushQueue = core.flushQueue)
    (hfree : core'.freePool = core.freePool) (howned : pc'.owned = (pcs t).owned) :
    places core' (Function.update pcs t pc') fpc = places core pcs fpc := by
  have hopen' : core'.openBuffer = core.openBuffer := by
    simp only [Core.openBuffer, hactive, hopen]
  have h : places core' (Function.update pcs t pc') fpc + 0 = places core pcs fpc :=
    places_move (by rw [hopen', hqueue, hfree, howned, add_zero])
  rwa [add_zero] at h

variable (fpc) in
/-- What a caller's step does to the places: it loses a buffer only when the flush thread
cannot be reached any more. -/
theorem places_step {pc : Pc} (heff : Effect crc32 cfg sh pc sh' pc') (hpc : pcs t = pc)
    (hat : ∀ p, pc.swap? = some p → SwapAt sh.toCore p.1 p.2)
    (hok : StepOrderly cfg sh.toCore pcs pc) :
    ∃ lost, places sh'.toCore (Function.update pcs t pc') fpc + lost = places sh.toCore pcs fpc ∧
      (sh.flushTx = true → lost = 0) := by
  have hstay : ∀ {core' : Core} {pc' : Pc}, core'.active = sh.active →
      (core'.phase = .open ↔ sh.phase = .open) → core'.flushQueue = sh.flushQueue →
      core'.freePool = sh.freePool → pc'.owned = pc.owned →
      ∃ lost, places core' (Function.update pcs t pc') fpc + lost = places sh.toCore pcs fpc ∧
        (sh.flushTx = true → lost = 0) := by
    intro core' pc' hactive hopen hqueue hfree howned
    rw [← hpc] at howned
    exact ⟨0, by rw [add_zero, places_stay hactive hopen hqueue hfree howned], fun _ => rfl⟩
  cases heff with
  | outside hout hout' hcore =>
      refine hstay ?_ ?_ ?_ ?_ ?_
      all_goals first | rw [hcore] | rw [hout.owned_eq, hout'.owned_eq]
  | overflow | claimBytes | claimSlot | exhausted | loadLsn | enter | copy | store | leave | spin
  | loadCount | storeCount | loadMinLsn => exact hstay rfl Iff.rfl rfl rfl rfl
  | cas hstate =>
      obtain ⟨hactive, hphase⟩ := hok hstate
      refine ⟨0, places_move ?_, fun _ => rfl⟩
      simp only [Core.openBuffer, hphase, hpc, hactive, Pc.owned, Pc.swap?, SwapPc.owned,
        Shared.modify, Core.modify, reduceCtorEq, if_false, if_true]
      abel
  | drained =>
      obtain ⟨-, hphase⟩ := hat _ rfl
      exact hstay rfl (by simp [hphase]) rfl rfl rfl
  | @send _ old nextMinLsn =>
      obtain ⟨-, hphase⟩ := hat _ rfl
      cases htx : sh.flushTx with
      | true =>
          refine ⟨0, places_move ?_, fun _ => rfl⟩
          simp only [Core.openBuffer, hphase, hpc, Pc.owned, Pc.swap?, SwapPc.owned, reduceCtorEq,
            if_false, if_true, ← Multiset.coe_add, Multiset.coe_singleton]
          abel
      | false =>
          refine ⟨{old}, places_move ?_, fun h => by cases h⟩
          simp only [Core.openBuffer, hphase, hpc, Pc.owned, Pc.swap?, SwapPc.owned, reduceCtorEq,
            if_false, Bool.false_eq_true]
          abel
  | pop hfree =>
      refine ⟨0, places_move ?_, fun _ => rfl⟩
      simp only [Core.openBuffer, hfree, hpc, Pc.owned, Pc.swap?, SwapPc.owned,
        ← Multiset.cons_coe, ← Multiset.singleton_add]
      abel
  | giveUp => exact hstay rfl Iff.rfl rfl rfl (Pc.Outside.resume _ _).owned_eq
  | reset =>
      refine hstay rfl Iff.rfl rfl rfl ?_
      split <;> rfl
  | install =>
      obtain ⟨-, hphase, -⟩ := hat _ rfl
      refine ⟨0, places_move ?_, fun _ => rfl⟩
      rw [(Pc.Outside.resume _ _).owned_eq, hpc]
      simp only [Core.openBuffer, hphase, Pc.owned, Pc.swap?, SwapPc.owned, reduceCtorEq,
        if_false, if_true]
      abel

omit [DecidableEq ι] in
variable (pcs) in
/-- A step of the flush thread loses a buffer only while stopping. -/
theorem places_flush (heff : FlushEffect cfg sh fpc sh' fpc') :
    ∃ lost, places sh'.toCore pcs fpc' + lost = places sh.toCore pcs fpc ∧
      (sh.stopFlag = false → lost = 0) := by
  cases heff with
  | recv hqueue =>
      refine ⟨0, ?_, fun _ => rfl⟩
      simp only [places, inHand, Core.openBuffer, hqueue, FlushPc.buf?, Option.toList, ← Multiset.cons_coe,
        ← Multiset.singleton_add, Multiset.coe_nil]
      abel
  | work hbuf => exact ⟨0, by rw [add_zero, places, places, hbuf], fun _ => rfl⟩
  | empty | pad | publish => exact ⟨0, add_zero _, fun _ => rfl⟩
  | @drop buf hstop =>
      refine ⟨{buf}, ?_, fun h => by simp [hstop] at h⟩
      simp only [places, FlushPc.buf?, Option.toList, Multiset.coe_nil, Multiset.coe_singleton]
      abel
  | reset hbuf => exact ⟨0, by rw [add_zero, places, places, hbuf]; rfl, fun _ => rfl⟩
  | push =>
      refine ⟨0, ?_, fun _ => rfl⟩
      simp only [places, inHand, Core.openBuffer, FlushPc.buf?, Option.toList, ← Multiset.cons_coe,
        ← Multiset.singleton_add, Multiset.coe_nil]
      abel

end Places

/-! ## Roles after a step -/

section Roles

variable {cfg : WalConfig} {crc32 : Bytes → UInt32} {sh sh' : Shared} {pc pc' : Pc}

/-- A thread becomes a swapper by a compare-exchange only. -/
theorem Effect.swap?_eq_some {p : BufId × SwapPc} (heff : Effect crc32 cfg sh pc sh' pc')
    (hp : pc'.swap? = some p) :
    (∃ q, pc.swap? = some q) ∨
      ∃ caller, pc = .swap caller p.1 .cas ∧ (sh.buffers p.1).state = .active := by
  cases heff with
  | outside _ hout' => exact absurd hp (by simp [hout'.swap?_eq])
  | overflow | claimBytes | claimSlot | exhausted | loadLsn | enter | copy | store | leave =>
      cases hp
  | giveUp | install => exact absurd hp (by simp [(Pc.Outside.resume _ _).swap?_eq])
  | cas hstate =>
      obtain rfl := Option.some.inj hp
      exact .inr ⟨_, rfl, hstate⟩
  | spin | drained | loadCount | storeCount | loadMinLsn | send | pop | reset => exact .inl ⟨_, rfl⟩

end Roles

/-! ## Buffers in different places differ -/

section Apart

variable [Fintype ι] {cfg : WalConfig} {core : Core} {pcs : ι → Pc} {fpc : FlushPc} {b : BufId}

theorem Ownership.not_open (own : Ownership cfg core pcs fpc) {t : ι} {p : BufId × SwapPc}
    (hp : (pcs t).swap? = some p) : core.phase ≠ .open := by
  have hat := own.swapAt t p hp
  obtain ⟨old, pc⟩ := p
  cases pc with
  | cas => exact hat.elim
  | barrier | loadCount | storeCount | loadMinLsn | send | pop => simp [hat.2]
  | reset | install => simp [hat.2.1]

theorem Ownership.active_mem (own : Ownership cfg core pcs fpc) (hphase : core.phase ≠ .sent) :
    core.active ∈ inHand core pcs := by
  rw [inHand, Multiset.mem_add]
  by_cases hopen : core.phase = .open
  · exact .inl (by simp [Core.openBuffer, hopen])
  · obtain ⟨t, ⟨old, pc⟩, hp⟩ : ∃ t p, (pcs t).swap? = some p := by
      refine own.swapping ?_
      cases hcore : core.phase <;> simp_all
    have hat := own.swapAt t _ hp
    refine .inr (Multiset.mem_sum.mpr ⟨t, Finset.mem_univ t, ?_⟩)
    rw [Pc.owned, hp]
    cases pc with
    | cas => exact hat.elim
    | barrier | loadCount | storeCount | loadMinLsn | send => simp [SwapPc.owned, hat.1]
    | pop => exact absurd hat.2 hphase
    | reset | install => exact absurd hat.2.1 hphase

theorem owned_mem {core : Core} {pcs : ι → Pc} {t : ι} (hb : b ∈ (pcs t).owned) : b ∈ inHand core pcs :=
  Multiset.mem_add.mpr (.inr (Multiset.mem_sum.mpr ⟨t, Finset.mem_univ t, hb⟩))

theorem Ownership.inHand_apart (own : Ownership cfg core pcs fpc) (hb : b ∈ inHand core pcs) :
    b ∉ core.flushQueue ∧ fpc.buf? ≠ some b ∧ b ∉ core.freePool := by
  have hnodup := own.nodup
  simp only [places, Multiset.nodup_add, Multiset.disjoint_left, Multiset.mem_add,
    Multiset.mem_coe, Option.mem_toList] at hnodup
  obtain ⟨⟨⟨-, -, hqueue⟩, -, hflush⟩, -, hfree⟩ := hnodup
  exact ⟨hqueue hb, hflush (.inl hb), hfree (.inl (.inl hb))⟩

theorem Ownership.queue_apart (own : Ownership cfg core pcs fpc) (hb : b ∈ core.flushQueue) :
    fpc.buf? ≠ some b ∧ b ∉ core.freePool := by
  have hnodup := own.nodup
  simp only [places, Multiset.nodup_add, Multiset.disjoint_left, Multiset.mem_add,
    Multiset.mem_coe, Option.mem_toList] at hnodup
  obtain ⟨⟨-, -, hflush⟩, -, hfree⟩ := hnodup
  exact ⟨hflush (.inr hb), hfree (.inl (.inr hb))⟩

end Apart

/-! ## Callers keep the discipline -/

section Threads

variable [Fintype ι] {cfg : WalConfig} {crc32 : Bytes → UInt32}
  {sh sh' : Shared} {pcs : ι → Pc} {fpc : FlushPc} {t u : ι} {pc pc' : Pc}

theorem ResetTo.next {nextMinLsn stage : ℕ} {b : WalBuffer} (h : ResetTo nextMinLsn stage b)
    (hstage : stage < WalBuffer.resetStores) :
    ResetTo nextMinLsn (stage + 1) (b.resetStore nextMinLsn stage) := by
  simp only [WalBuffer.resetStores] at hstage
  obtain ⟨hpos, halloc, hflight, hmin, -⟩ := h
  interval_cases stage <;>
    exact ⟨by simp_all [WalBuffer.resetStore], by simp_all [WalBuffer.resetStore],
      by simp_all [WalBuffer.resetStore], by simp_all [WalBuffer.resetStore],
      by simp [WalBuffer.resetStore]⟩

/-- An overflowing byte claim is not made on a buffer whose `write_pos` has just been reset. -/
theorem ResetTo.overflow {payload : Bytes} {buf b : BufId} {nextMinLsn stage : ℕ}
    (hto : ResetTo nextMinLsn stage (sh.buffers b))
    (hfull : ¬ fits cfg (sh.buffers buf).writePos (frameLen payload))
    (hsmall : frameLen payload ≤ cfg.bufferSize)
    (hwrap : (sh.buffers buf).writePos + frameLen payload < 2 ^ 64) :
    ResetTo nextMinLsn stage ((sh.claimBytes buf payload).buffers b) := by
  refine ⟨fun hstage => ?_, ?_, ?_, ?_, ?_⟩
  · have hzero := hto.writePos hstage
    by_cases hb : b = buf
    · subst hb
      exact absurd ⟨hwrap, by omega⟩ hfull
    · simpa [Shared.claimBytes, hb] using hzero
  · simpa [Shared.claimBytes] using hto.entriesAllocated
  · simpa [Shared.claimBytes] using hto.inFlight
  · simpa [Shared.claimBytes] using hto.minLsn
  · simpa [Shared.claimBytes] using hto.state

theorem SwapAt.frame {core core' : Core} {old : BufId} {pc : SwapPc} (h : SwapAt core old pc)
    (hactive : core'.active = core.active) (hphase : core'.phase = core.phase)
    (hreset : core.phase = .sent → ∀ new ∈ pc.owned old, ∀ nextMinLsn stage,
      ResetTo nextMinLsn stage (core.buffers new) → ResetTo nextMinLsn stage (core'.buffers new)) :
    SwapAt core' old pc := by
  cases pc with
  | cas => exact h.elim
  | barrier | loadCount | storeCount | loadMinLsn | send | pop =>
      exact ⟨hactive ▸ h.1, hphase ▸ h.2⟩
  | reset new nextMinLsn stage =>
      obtain ⟨hold, hsent, hstage, hto⟩ := h
      exact ⟨hactive ▸ hold, hphase ▸ hsent, hstage,
        hreset hsent new (Multiset.mem_singleton_self new) _ _ hto⟩
  | install new =>
      obtain ⟨hold, hsent, nextMinLsn, hto⟩ := h
      exact ⟨hactive ▸ hold, hphase ▸ hsent, nextMinLsn,
        hreset hsent new (Multiset.mem_singleton_self new) _ _ hto⟩

/-- What the stepping thread knows about its swap afterwards. -/
theorem Ownership.swapAt_self (own : Ownership cfg sh.toCore pcs fpc) (hpc : pcs t = pc)
    (heff : Effect crc32 cfg sh pc sh' pc') (hok : StepOrderly cfg sh.toCore pcs pc)
    {p : BufId × SwapPc} (hp : pc'.swap? = some p) : SwapAt sh'.toCore p.1 p.2 := by
  have hat := hpc ▸ own.swapAt t
  cases heff with
  | outside _ hout' => exact absurd hp (by simp [hout'.swap?_eq])
  | overflow | claimBytes | claimSlot | exhausted | loadLsn | enter | copy | store | leave =>
      cases hp
  | giveUp | install => exact absurd hp (by simp [(Pc.Outside.resume _ _).swap?_eq])
  | cas hstate =>
      obtain rfl := Option.some.inj hp
      exact ⟨(hok hstate).1, rfl⟩
  | drained | send =>
      obtain rfl := Option.some.inj hp
      exact ⟨(hat _ rfl).1, rfl⟩
  | spin | loadCount | storeCount | loadMinLsn =>
      obtain rfl := Option.some.inj hp
      obtain ⟨hactive, hphase⟩ := hat _ rfl
      exact ⟨hactive, hphase⟩
  | pop =>
      obtain rfl := Option.some.inj hp
      obtain ⟨hactive, hphase⟩ := hat _ rfl
      exact ⟨hactive, hphase, by decide, ⟨by omega, by omega, by omega, by omega, by omega⟩⟩
  | @reset _ _ new nextMinLsn stage =>
      obtain ⟨hactive, hphase, hstage, hreset⟩ := hat _ rfl
      have hnext : ResetTo nextMinLsn (stage + 1)
          ((sh.modify new (WalBuffer.resetStore nextMinLsn stage)).buffers new) := by
        simpa using hreset.next hstage
      by_cases hmore : stage + 1 < WalBuffer.resetStores
      · rw [if_pos hmore] at hp
        obtain rfl := Option.some.inj hp
        exact ⟨hactive, hphase, hmore, hnext⟩
      · rw [if_neg hmore] at hp
        obtain rfl := Option.some.inj hp
        exact ⟨hactive, hphase, nextMinLsn, (show stage + 1 = WalBuffer.resetStores by omega) ▸ hnext⟩

/-- A step outside the swap disturbs no swapper: claims are made before the barrier is passed,
and a claim on a buffer that is being installed does not overflow. -/
theorem Ownership.swapAt_other (own : Ownership cfg sh.toCore pcs fpc) (hpc : pcs t = pc)
    (heff : Effect crc32 cfg sh pc sh' pc') (hok : StepOrderly cfg sh.toCore pcs pc)
    (hu : u ≠ t) {p : BufId × SwapPc} (hp : (pcs u).swap? = some p) : SwapAt sh'.toCore p.1 p.2 := by
  have hat := own.swapAt u p hp
  have hcritical := hpc ▸ own.critical t
  have hsingle : ∀ q, pc.swap? ≠ some q := fun q hq => hu (own.unique u t p q hp (hpc ▸ hq))
  have hframe : ∀ {core' : Core}, sh.phase.Accepting → core'.active = sh.active →
      core'.phase = sh.phase → SwapAt core' p.1 p.2 := by
    intro core' haccept hactive hphase
    refine hat.frame hactive hphase fun hsent => ?_
    simp [hsent, Phase.Accepting] at haccept
  cases heff with
  | outside _ _ hcore => rwa [hcore]
  | overflow hfull =>
      have hsmall := own.fitting t _ (by rw [hpc]; rfl)
      exact hat.frame rfl rfl fun _ new _ nextMinLsn stage hto => hto.overflow hfull hsmall hok.1
  | claimBytes hfits => exact hframe (hok.2 hfits).2 rfl rfl
  | claimSlot | exhausted | loadLsn | enter | copy | store | leave =>
      exact hframe (hcritical _ rfl).2 rfl rfl
  | cas hstate => exact absurd (hok hstate).2 (own.not_open hp)
  | spin | drained | loadCount | storeCount | loadMinLsn | send | pop | giveUp | reset | install =>
      exact (hsingle _ rfl).elim

theorem Ownership.unique_step (own : Ownership cfg sh.toCore pcs fpc) (hpc : pcs t = pc)
    (heff : Effect crc32 cfg sh pc sh' pc') (hok : StepOrderly cfg sh.toCore pcs pc)
    (hu : u ≠ t) {p q : BufId × SwapPc} (hp : pc'.swap? = some p) : (pcs u).swap? ≠ some q := by
  intro hq
  rcases heff.swap?_eq_some hp with ⟨p', hp'⟩ | ⟨caller, rfl, hstate⟩
  · exact hu (own.unique u t q p' hq (hpc ▸ hp'))
  · exact own.not_open hq (hok hstate).2

/-- Nobody is in the critical section of `append` once a swapper has passed the barrier. -/
theorem Ownership.no_claim (own : Ownership cfg sh.toCore pcs fpc)
    (hphase : ¬ sh.phase.Accepting) (u : ι) : (pcs u).claim? = none := by
  by_contra hne
  obtain ⟨claim, hclaim⟩ := Option.ne_none_iff_exists'.mp hne
  exact hphase (own.critical u claim hclaim).2

/-- Passing the barrier: nobody is registered, and by the condition nobody is about to be. -/
theorem Ownership.drained (own : Ownership cfg sh.toCore pcs fpc) {caller : Caller} {old : BufId}
    (hpc : pcs t = .swap caller old .barrier) (hzero : (sh.buffers old).inFlight = 0)
    (hok : StepOrderly cfg sh.toCore pcs (.swap caller old .barrier)) (u : ι) :
    (pcs u).claim? = none := by
  have hunregistered := hok hzero u
  have hregistered : (pcs u).registered = false := by
    obtain ⟨hactive, hphase⟩ := own.swapAt t (old, .barrier) (by rw [hpc]; rfl)
    have hsum := own.inFlight_eq (.inr hphase)
    rw [hactive, hzero] at hsum
    have hu := Finset.sum_eq_zero_iff.mp hsum.symm u (Finset.mem_univ u)
    simpa using hu
  cases hu : pcs u with
  | claimed claim => simp [hu, Pc.unregistered] at hunregistered
  | holding held pc =>
      cases pc <;> simp [hu, Pc.unregistered, Pc.registered] at hunregistered hregistered
  | idle | append | swap | sync | close | panicked => rfl

theorem Ownership.critical_self (own : Ownership cfg sh.toCore pcs fpc) (hpc : pcs t = pc)
    (heff : Effect crc32 cfg sh pc sh' pc') (hok : StepOrderly cfg sh.toCore pcs pc)
    {claim : Claim} (hclaim : pc'.claim? = some claim) :
    claim.buf = sh'.active ∧ sh'.phase.Accepting := by
  have hcritical := hpc ▸ own.critical t
  cases heff with
  | outside _ hout' => exact absurd hclaim (by simp [hout'.claim?_eq])
  | claimBytes hfits =>
      obtain rfl := Option.some.inj hclaim
      obtain ⟨hactive, haccept⟩ := hok.2 hfits
      exact ⟨hactive.symm, haccept⟩
  | claimSlot | loadLsn | enter | copy | store =>
      obtain rfl := Option.some.inj hclaim
      exact hcritical _ rfl
  | giveUp | install => exact absurd hclaim (by simp [(Pc.Outside.resume _ _).claim?_eq])
  | overflow | exhausted | leave | cas | spin | drained | loadCount | storeCount | loadMinLsn | send
  | pop | reset => cases hclaim

theorem Ownership.critical_other (own : Ownership cfg sh.toCore pcs fpc) (hpc : pcs t = pc)
    (heff : Effect crc32 cfg sh pc sh' pc') (hok : StepOrderly cfg sh.toCore pcs pc)
    {claim : Claim} (hclaim : (pcs u).claim? = some claim) :
    claim.buf = sh'.active ∧ sh'.phase.Accepting := by
  have hcritical := own.critical u claim hclaim
  have hat := hpc ▸ own.swapAt t
  have hlate : ¬ sh.phase.Accepting → claim.buf = sh'.active ∧ sh'.phase.Accepting :=
    fun h => absurd hcritical.2 h
  cases heff with
  | outside _ _ hcore => rwa [hcore]
  | cas hstate => exact ⟨hcritical.1, .inr rfl⟩
  | drained hzero => exact absurd hclaim (by simp [own.drained hpc hzero hok u])
  | send => exact hlate (by simp [Phase.Accepting, (hat _ rfl).2])
  | install => exact hlate (by simp [Phase.Accepting, (hat _ rfl).2.1])
  | overflow | claimBytes | claimSlot | exhausted | loadLsn | enter | copy | store | leave | spin
  | loadCount | storeCount | loadMinLsn | pop | giveUp | reset => exact hcritical

theorem Ownership.open_state_step (own : Ownership cfg sh.toCore pcs fpc) (hpc : pcs t = pc)
    (heff : Effect crc32 cfg sh pc sh' pc') (hopen : sh'.phase = .open) :
    (sh'.buffers sh'.active).state = .active := by
  have hat := hpc ▸ own.swapAt t
  have hkeep := own.open_state
  cases heff with
  | outside _ _ hcore =>
      rw [hcore] at hopen ⊢
      exact hkeep hopen
  | cas | drained | send => cases hopen
  | install =>
      obtain ⟨-, -, nextMinLsn, hto⟩ := hat _ rfl
      exact hto.state (by decide)
  | reset =>
      obtain ⟨-, hsent, -⟩ := hat _ rfl
      exact absurd hopen (by simp [Shared.modify, Core.modify, hsent])
  | loadLsn | spin | loadCount | loadMinLsn | pop | giveUp => exact hkeep hopen
  | overflow | claimBytes | claimSlot | exhausted | enter | copy | store | leave | storeCount =>
      simpa [Shared.claimBytes, Shared.claimSlot] using hkeep hopen

theorem Pc.registered_of_claim? (h : pc.claim? = none) : pc.registered = false := by
  cases pc with
  | claimed | holding => cases h
  | idle | append | swap | sync | close | panicked => rfl

theorem WalBuffer.inFlight_resetStore_le (b : WalBuffer) (nextMinLsn stage : ℕ) :
    (b.resetStore nextMinLsn stage).inFlight ≤ b.inFlight := by
  unfold resetStore
  split <;> simp

theorem Ownership.inFlight_lt_step (own : Ownership cfg sh.toCore pcs fpc)
    (heff : Effect crc32 cfg sh pc sh' pc') (b : BufId) : (sh'.buffers b).inFlight < 2 ^ 32 := by
  have hlt := own.inFlight_lt b
  cases heff with
  | outside _ _ hcore => rwa [hcore]
  | overflow | claimBytes | claimSlot | exhausted | loadLsn | copy | store | cas | spin | drained
  | loadCount | storeCount | loadMinLsn | send | pop | giveUp | install =>
      simpa [Shared.claimBytes, Shared.claimSlot] using hlt
  | @enter held | @leave held =>
      by_cases hb : b = held.buf
      · subst hb
        simp only [Shared.toCore_modify, Core.modify_self]
        omega
      · simpa [hb] using hlt
  | @reset _ _ new =>
      by_cases hb : b = new
      · subst hb
        simpa using lt_of_le_of_lt (WalBuffer.inFlight_resetStore_le _ _ _) hlt
      · simpa [hb] using hlt

variable [DecidableEq ι]

theorem Ownership.swapping_step (own : Ownership cfg sh.toCore pcs fpc) (hpc : pcs t = pc)
    (heff : Effect crc32 cfg sh pc sh' pc') (hphase : sh'.phase = .draining ∨ sh'.phase = .frozen) :
    ∃ u p, (Function.update pcs t pc' u).swap? = some p := by
  have hat := hpc ▸ own.swapAt t
  have hkeep : pc.swap? = none → (sh.phase = .draining ∨ sh.phase = .frozen) →
      ∃ u p, (Function.update pcs t pc' u).swap? = some p := by
    intro hnone hphase
    obtain ⟨u, p, hp⟩ := own.swapping hphase
    have hu : u ≠ t := by
      rintro rfl
      simp [hpc, hnone] at hp
    exact ⟨u, p, by rwa [Function.update_of_ne hu]⟩
  cases heff with
  | outside hout _ hcore => exact hkeep hout.swap?_eq (by rwa [hcore] at hphase)
  | overflow | claimBytes | claimSlot | exhausted | loadLsn | enter | copy | store | leave =>
      exact hkeep rfl hphase
  | cas | spin | drained | loadCount | storeCount | loadMinLsn | send | pop =>
      exact ⟨t, _, by rw [Function.update_self]; rfl⟩
  | reset =>
      obtain ⟨-, hsent, -⟩ := hat _ rfl
      simp [hsent] at hphase
  | giveUp =>
      obtain ⟨-, hsent⟩ := hat _ rfl
      simp [hsent] at hphase
  | install => simp at hphase

theorem Ownership.inFlight_step (own : Ownership cfg sh.toCore pcs fpc) (hpc : pcs t = pc)
    (heff : Effect crc32 cfg sh pc sh' pc') (hok : StepOrderly cfg sh.toCore pcs pc)
    (haccept : sh'.phase.Accepting) :
    (sh'.buffers sh'.active).inFlight =
      ∑ u, (Function.update pcs t pc' u).registered.toNat := by
  have hat := hpc ▸ own.swapAt t
  have hcritical := hpc ▸ own.critical t
  have hsum := sum_update pcs t pc' fun pc => pc.registered.toNat
  have hlt := own.inFlight_lt sh.active
  rw [hpc] at hsum
  -- the thread's own registration and the counter stay as they are
  have hsame : sh.phase.Accepting → pc'.registered = pc.registered →
      (sh.buffers sh.active).inFlight = ∑ u, (Function.update pcs t pc' u).registered.toNat := by
    intro haccept hreg
    rw [own.inFlight_eq haccept]
    rw [hreg] at hsum
    omega
  cases heff with
  | outside hout hout' hcore =>
      rw [hcore] at haccept ⊢
      exact hsame haccept (by
        rw [Pc.registered_of_claim? hout.claim?_eq, Pc.registered_of_claim? hout'.claim?_eq])
  | overflow | claimBytes | claimSlot | exhausted | loadLsn | store | spin
  | loadCount | storeCount | loadMinLsn | pop =>
      simpa [Shared.claimBytes, Shared.claimSlot] using hsame haccept rfl
  | copy =>
      simp only [Shared.toCore_modify, Core.modify_active]
      simpa using hsame haccept (by split <;> rfl)
  | cas hstate => simpa using hsame (.inl (hok hstate).2) rfl
  | @enter held =>
      obtain ⟨hbuf, haccept⟩ := hcritical _ rfl
      have heq := own.inFlight_eq haccept
      simp only [StepOrderly, hbuf] at hok
      simp only [Shared.toCore_modify, Core.modify_active, hbuf, Core.modify_self]
      change _ + 0 = _ + 1 at hsum
      omega
  | @leave held =>
      obtain ⟨hbuf, haccept⟩ := hcritical _ rfl
      have heq := own.inFlight_eq haccept
      simp only [Shared.toCore_modify, Core.modify_active, hbuf, Core.modify_self]
      change _ + 1 = _ + 0 at hsum
      omega
  | drained | send => simp [Phase.Accepting] at haccept
  | giveUp => simp [Phase.Accepting, (hat _ rfl).2] at haccept
  | reset => simp [Phase.Accepting, (hat _ rfl).2.1] at haccept
  | install =>
      obtain ⟨-, hsent, nextMinLsn, hto⟩ := hat _ rfl
      have hzero := hto.inFlight (by decide)
      have hnone : ∑ u, (pcs u).registered.toNat = 0 := by
        refine Finset.sum_eq_zero fun u _ => ?_
        rw [Pc.registered_of_claim? (own.no_claim (by simp [Phase.Accepting, hsent]) u)]
        rfl
      rw [hnone, Pc.registered_of_claim? (Pc.Outside.resume _ _).claim?_eq] at hsum
      change _ + 0 = 0 + 0 at hsum
      simp only [hzero]
      omega

theorem Ownership.thread_step (own : Ownership cfg sh.toCore pcs fpc) (hpc : pcs t = pc)
    (heff : Effect crc32 cfg sh pc sh' pc') (hok : StepOrderly cfg sh.toCore pcs pc)
    (hfit : ∀ payload, pc'.payload? = some payload → frameLen payload ≤ cfg.bufferSize) :
    Ownership cfg sh'.toCore (Function.update pcs t pc') fpc where
  fitting u payload hpayload := by
    rcases update_cases hpayload with ⟨-, h⟩ | ⟨-, h⟩
    · exact hfit payload h
    · exact own.fitting u payload h
  swapAt u p hp := by
    rcases update_cases hp with ⟨-, h⟩ | ⟨hu, h⟩
    · exact own.swapAt_self hpc heff hok h
    · exact own.swapAt_other hpc heff hok hu h
  unique u v p q hp hq := by
    rcases update_cases hp with ⟨rfl, h⟩ | ⟨hu, h⟩ <;> rcases update_cases hq with ⟨rfl, h'⟩ | ⟨hv, h'⟩
    · rfl
    · exact (own.unique_step hpc heff hok hv h h').elim
    · exact (own.unique_step hpc heff hok hu h' h).elim
    · exact own.unique u v p q h h'
  swapping := own.swapping_step hpc heff
  critical u claim hclaim := by
    rcases update_cases hclaim with ⟨-, h⟩ | ⟨-, h⟩
    · exact own.critical_self hpc heff hok h
    · exact own.critical_other hpc heff hok h
  open_state := own.open_state_step hpc heff
  inFlight_lt := own.inFlight_lt_step heff
  inFlight_eq := own.inFlight_step hpc heff hok
  nodup := by
    obtain ⟨lost, hplaces, -⟩ := places_step fpc heff hpc (hpc ▸ own.swapAt t) hok
    exact Multiset.nodup_of_le (Multiset.le_add_right _ lost) (hplaces ▸ own.nodup)

end Threads

/-! ## The flush thread keeps the discipline -/

section Flush

variable [Fintype ι] {cfg : WalConfig} {sh sh' : Shared} {pcs : ι → Pc} {fpc fpc' : FlushPc}

/-- The flush thread touches nothing of the active buffer, nor of one a swapper prepares. -/
theorem FlushEffect.keeps (heff : FlushEffect cfg sh fpc sh' fpc') {b : BufId}
    (hb : fpc.buf? ≠ some b) : sh'.buffers b = sh.buffers b := by
  cases heff with
  | recv | work | empty | drop | publish | push => rfl
  | pad | reset =>
      rw [Shared.toCore_modify, Core.modify_of_ne]
      exact fun h => hb (congrArg some h.symm)

theorem FlushEffect.active_eq (heff : FlushEffect cfg sh fpc sh' fpc') :
    sh'.active = sh.active := by
  cases heff <;> rfl

theorem FlushEffect.phase_eq (heff : FlushEffect cfg sh fpc sh' fpc') : sh'.phase = sh.phase := by
  cases heff <;> rfl

theorem Ownership.flush_active (own : Ownership cfg sh.toCore pcs fpc)
    (heff : FlushEffect cfg sh fpc sh' fpc') (hphase : sh.phase ≠ .sent) :
    sh'.buffers sh'.active = sh.buffers sh.active := by
  rw [heff.active_eq]
  exact heff.keeps (own.inHand_apart (own.active_mem hphase)).2.1

theorem Ownership.flush_step (own : Ownership cfg sh.toCore pcs fpc)
    (heff : FlushEffect cfg sh fpc sh' fpc') : Ownership cfg sh'.toCore pcs fpc' where
  fitting := own.fitting
  swapAt t p hp := by
    refine (own.swapAt t p hp).frame heff.active_eq heff.phase_eq ?_
    intro _ new hnew nextMinLsn stage hto
    have howned : new ∈ (pcs t).owned := by rwa [Pc.owned, hp]
    rwa [heff.keeps (own.inHand_apart (owned_mem howned)).2.1]
  unique := own.unique
  swapping hphase := own.swapping (by rwa [heff.phase_eq] at hphase)
  critical t claim hclaim := by
    rw [heff.active_eq, heff.phase_eq]
    exact own.critical t claim hclaim
  open_state hopen := by
    rw [heff.phase_eq] at hopen
    rw [own.flush_active heff (by simp [hopen])]
    exact own.open_state hopen
  inFlight_lt b := by
    have hlt := own.inFlight_lt b
    cases heff with
    | recv | work | empty | drop | publish | push => exact hlt
    | pad => simpa [WalBuffer.zeroTail] using hlt
    | @reset buf =>
        by_cases hb : b = buf
        · subst hb
          simpa using lt_of_le_of_lt (WalBuffer.inFlight_resetStore_le _ _ _) hlt
        · simpa [hb] using hlt
  inFlight_eq haccept := by
    rw [heff.phase_eq] at haccept
    rw [own.flush_active heff haccept.ne_sent]
    exact own.inFlight_eq haccept
  nodup := by
    obtain ⟨lost, hplaces, -⟩ := places_flush pcs heff
    exact Multiset.nodup_of_le (Multiset.le_add_right _ lost) (hplaces ▸ own.nodup)

end Flush

/-! ## Runs -/

section Runs

variable [DecidableEq ι] {cfg : WalConfig} {crc32 : Bytes → UInt32} {s s' : System ι} {l : Label ι}

/-- An orderly step is an effect of a caller or a step of the flush thread. -/
inductive Move (cfg : WalConfig) (crc32 : Bytes → UInt32) (s : System ι) (l : Label ι) :
    System ι → Prop
  | thread {t : ι} {pc pc' : Pc} {sh' : Shared} (hpc : s.pcs t = pc)
      (heff : Effect crc32 cfg s.shared pc sh' pc')
      (hok : StepOrderly cfg s.shared.toCore s.pcs pc)
      (hfit : ∀ payload, pc'.payload? = some payload →
        pc.payload? = some payload ∨ frameLen payload ≤ cfg.bufferSize)
      (hlabel : pc.held? = none ∨ l = .thread t) (hne : l ≠ .flush) :
      Move cfg crc32 s l ({ s with shared := sh' }.setPc t pc')
  | flush {sh' : Shared} {fl' : FlushThread}
      (hstep : stepFlush cfg s.shared s.flush = some (sh', fl')) (hlabel : l = .flush) :
      Move cfg crc32 s l { s with shared := sh', flush := fl' }

theorem System.step_move (hstep : s.step crc32 cfg l = some s') (hok : Orderly cfg s l) :
    Move cfg crc32 s l s' := by
  cases System.step_effect hstep with
  | @call t call hidle =>
      refine .thread hidle (.outside .idle (.start _ _) rfl (.refl _)) trivial ?_ (.inl rfl) nofun
      intro payload hpayload
      cases call with
      | append =>
          obtain rfl := Option.some.inj hpayload
          exact .inr hok
      | sync | close => cases hpayload
  | thread hthread =>
      exact .thread rfl (stepThread_effect hthread) hok
        (fun payload hpayload => .inl (stepThread_payload? hthread hpayload)) (.inr rfl) nofun
  | timeout hpc =>
      exact .thread hpc (.outside (.sync _ _) .idle rfl (.refl _)) trivial (fun _ h => by cases h)
        (.inl rfl) nofun
  | flush hflush => exact .flush hflush rfl

variable [Fintype ι]

/-- The discipline, of a state of the system. -/
def Owned (cfg : WalConfig) (s : System ι) : Prop :=
  Ownership cfg s.shared.toCore s.pcs s.flush.pc

theorem Owned.step (own : Owned cfg s) (hmove : Move cfg crc32 s l s') : Owned cfg s' := by
  cases hmove with
  | @thread t pc _ _ hpc heff hok hfit =>
      refine own.thread_step hpc heff hok fun payload hpayload => ?_
      exact (hfit payload hpayload).elim (fun h => own.fitting t payload (hpc ▸ h)) id
  | flush hstep => exact own.flush_step (stepFlush_effect hstep)

omit [DecidableEq ι] in
theorem places_init (cfg : WalConfig) (memory : BufId → ℕ → UInt8) :
    places (System.init cfg memory : System ι).shared.toCore
      (System.init cfg memory : System ι).pcs (System.init cfg memory : System ι).flush.pc =
      Multiset.range (cfg.bufferCount + 1) := by
  have hrange : Multiset.range (cfg.bufferCount + 1) =
      {0} + (((List.range cfg.bufferCount).map (· + 1)).reverse : Multiset ℕ) := by
    rw [Multiset.range, List.range_succ_eq_map, Multiset.singleton_add, Multiset.cons_coe,
      Multiset.coe_eq_coe]
    exact (List.reverse_perm _).symm.cons 0
  rw [hrange]
  simp [places, inHand, Core.openBuffer, System.init, Pc.owned, Pc.swap?, FlushPc.buf?]

omit [DecidableEq ι] in
theorem Owned.init (cfg : WalConfig) (memory : BufId → ℕ → UInt8) :
    Owned cfg (System.init cfg memory : System ι) where
  fitting _ _ h := by cases h
  swapAt _ _ h := by cases h
  unique _ _ _ _ h := by cases h
  swapping h := by simp [System.init] at h
  critical _ _ h := by cases h
  open_state _ := rfl
  inFlight_lt _ := by simp [System.init, WalBuffer.new]
  inFlight_eq _ := by simp [System.init, WalBuffer.new, Pc.registered]
  nodup := by
    rw [places_init]
    exact Multiset.nodup_range _

end Runs

/-! ## Schedules -/

/-- The runs the WAL should handle: appends that fit a buffer, and `sync` calls. -/
def Admissible (cfg : WalConfig) (_ : System ι) : Label ι → Prop
  | .call _ (.append payload) => frameLen payload ≤ cfg.bufferSize
  | .call _ .close => False
  | _ => True

instance (cfg : WalConfig) (s : System ι) (l : Label ι) : Decidable (Admissible cfg s l) := by
  unfold Admissible
  split <;> infer_instance

/-- A thread takes `n` steps in a row. -/
def turns (t : ι) (n : ℕ) : List (Label ι) := List.replicate n (.thread t)

/-- Buffers of one block. -/
def oneBlockConfig : WalConfig := ⟨1024, 512, 512, 2, 1, false⟩

/-- The WAL on a fresh directory, with all buffers zeroed. -/
def freshWal (threads : ℕ) : System (Fin threads) := .init oneBlockConfig fun _ _ => 0

/-- Its steps, with frames that carry no checksum. -/
def stepOneBlock {threads : ℕ} (s : System (Fin threads)) (l : Label (Fin threads)) :
    Option (System (Fin threads)) :=
  s.step (fun _ => 0) oneBlockConfig l

end Todb.Wal

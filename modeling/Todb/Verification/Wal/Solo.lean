import Todb.Verification.Wal.Ownership

/-! # A WAL with one caller

With a single caller and the flush thread, the active buffer is the caller's alone: nobody else
claims in it, and the flush thread holds another one. This needs no condition on the steps. -/

namespace Todb.Wal

open Library

/-! ## The caller's buffer -/

/-- Bytes are claimed before slots, and only while they fit. -/
structure Filling (cfg : WalConfig) (b : WalBuffer) : Prop where
  state : b.state = .active
  slots : headerLen * b.entriesAllocated ≤ b.writePos
  room : b.writePos ≤ cfg.bufferSize

/-- A buffer in which nothing is going on. -/
structure Ready (cfg : WalConfig) (b : WalBuffer) : Prop extends Filling cfg b where
  inFlight : b.inFlight = 0

/-- The bytes of a claim are the last that were claimed, and its slot is still to come. -/
structure Claimed (cfg : WalConfig) (claim : Claim) (b : WalBuffer) : Prop where
  state : b.state = .active
  slots : headerLen * b.entriesAllocated ≤ claim.pos
  writePos : b.writePos = claim.pos + frameLen claim.payload
  room : b.writePos ≤ cfg.bufferSize
  inFlight : b.inFlight = 0

def Caller.isClose : Caller → Bool
  | .close _ => true
  | _ => false

/-- A swap, by the only caller, of the active buffer. -/
def SoloSwap (core : Core) (old : BufId) : SwapPc → Prop
  | .cas => (core.buffers old).state = .active ∧ (core.buffers old).inFlight = 0
  | .pop _ => True
  | .reset new nextMinLsn stage =>
      stage < WalBuffer.resetStores ∧ ResetTo nextMinLsn stage (core.buffers new)
  | .install new => ∃ nextMinLsn, ResetTo nextMinLsn WalBuffer.resetStores (core.buffers new)
  | _ => (core.buffers old).inFlight = 0

/-- Where the only caller of a WAL that is not closed can be. -/
def SoloPc (cfg : WalConfig) (core : Core) : Pc → Prop
  | .append _ (.claimBytes buf) | .sync _ (.loadMinLsn buf) | .sync _ (.loadAllocated buf _) =>
      buf = core.active ∧ Ready cfg (core.buffers core.active)
  | .idle | .append _ _ | .sync _ _ => Ready cfg (core.buffers core.active)
  | .claimed claim =>
      claim.buf = core.active ∧ Claimed cfg claim (core.buffers core.active)
  | .holding held pc =>
      held.buf = core.active ∧ Filling cfg (core.buffers core.active) ∧
        (core.buffers core.active).inFlight = (Pc.holding held pc).registered.toNat ∧
        ∀ k, pc = .copy k → k < frameLen held.payload
  | .swap caller old pc => caller.isClose = false ∧ core.active = old ∧ SoloSwap core old pc
  | .close _ _ | .panicked => False

/-- The buffer that the flush thread has not got. -/
def hand (core : Core) : Pc → List BufId
  | .swap _ _ (.pop _) => []
  | .swap _ _ (.reset new _ _) | .swap _ _ (.install new) => [new]
  | _ => [core.active]

/-- A WAL with one caller, which is at `pc`. -/
structure Solo (cfg : WalConfig) (sh : Shared) (fpc : FlushPc) (pc : Pc) : Prop where
  running : sh.stopFlag = false
  sending : sh.flushTx = true
  places : (hand sh.toCore pc ++ (sh.flushQueue ++ (fpc.buf?.toList ++ sh.freePool))).Perm
    (List.range (cfg.bufferCount + 1))
  at_pc : SoloPc cfg sh.toCore pc

variable {cfg : WalConfig} {crc32 : Bytes → UInt32} {sh sh' : Shared} {fpc fpc' : FlushPc}
  {pc pc' : Pc} {core core' : Core}

/-! ## Steps of the flush thread -/

/-- What the caller knows is about its own buffer. -/
theorem SoloPc.frame (h : SoloPc cfg core pc) (hactive : core'.active = core.active)
    (hbuffers : ∀ b ∈ hand core pc, core'.buffers b = core.buffers b) : SoloPc cfg core' pc := by
  have hown : core.active ∈ hand core pc → core'.buffers core.active = core.buffers core.active :=
    hbuffers _
  cases pc with
  | close | panicked => exact h
  | swap caller old pc =>
      obtain ⟨hclose, rfl, hswap⟩ := h
      refine ⟨hclose, hactive, ?_⟩
      cases pc <;> simp_all [SoloSwap, hand]
  | idle => simpa only [SoloPc, hactive, hown List.mem_cons_self] using h
  | claimed claim => simpa only [SoloPc, hactive, hown List.mem_cons_self] using h
  | holding held pc => simpa only [SoloPc, hactive, hown List.mem_cons_self] using h
  | append payload pc =>
      cases pc <;> simpa only [SoloPc, hactive, hown List.mem_cons_self] using h
  | sync before pc =>
      cases pc <;> simpa only [SoloPc, hactive, hown List.mem_cons_self] using h

theorem hand_congr (hactive : core'.active = core.active) : hand core' pc = hand core pc := by
  simp only [hand, hactive]

/-- The flush thread's buffer is not the caller's. -/
theorem Solo.apart (h : Solo cfg sh fpc pc) {b buf : BufId} (hb : b ∈ hand sh.toCore pc)
    (hbuf : fpc.buf? = some buf) : b ≠ buf := by
  have hnodup := h.places.nodup_iff.mpr List.nodup_range
  have hdisjoint := (List.nodup_append.mp hnodup).2.2
  exact hdisjoint b hb buf (by simp [hbuf])

theorem Solo.modify (h : Solo cfg sh fpc pc) {buf : BufId} (hbuf : fpc.buf? = some buf)
    (f : WalBuffer → WalBuffer) (hbuf' : fpc'.buf? = some buf) :
    Solo cfg (sh.modify buf f) fpc' pc where
  running := h.running
  sending := h.sending
  places := by
    have hplaces := h.places
    rw [hbuf] at hplaces
    rw [hbuf', Shared.toCore_modify, hand_congr (Core.modify_active _ buf f)]
    exact hplaces
  at_pc := h.at_pc.frame rfl fun b hb => Core.modify_of_ne _ _ (h.apart hb hbuf)

theorem Solo.flush (h : Solo cfg sh fpc pc) (heff : FlushEffect cfg sh fpc sh' fpc') :
    Solo cfg sh' fpc' pc := by
  have hplaces := h.places
  cases heff with
  | recv hqueue =>
      refine ⟨h.running, h.sending, ?_, h.at_pc.frame rfl fun _ _ => rfl⟩
      rw [hqueue] at hplaces
      refine .trans (List.Perm.append_left _ ?_) hplaces
      simp [FlushPc.buf?]
  | work hbuf => exact ⟨h.running, h.sending, hbuf ▸ hplaces, h.at_pc⟩
  | empty => exact ⟨h.running, h.sending, hplaces, h.at_pc⟩
  | drop hstop => rw [h.running] at hstop; cases hstop
  | pad => exact h.modify rfl _ rfl
  | publish => exact ⟨h.running, h.sending, hplaces, h.at_pc.frame rfl fun _ _ => rfl⟩
  | reset hbuf => exact h.modify rfl _ hbuf
  | push => exact ⟨h.running, h.sending, hplaces, h.at_pc.frame rfl fun _ _ => rfl⟩

/-! ## Steps of the caller -/

/-- A step that leaves the buffers where they are. -/
theorem Solo.stay (h : Solo cfg sh fpc pc) (hstop : sh'.stopFlag = sh.stopFlag)
    (htx : sh'.flushTx = sh.flushTx) (hactive : sh'.active = sh.active)
    (hqueue : sh'.flushQueue = sh.flushQueue) (hfree : sh'.freePool = sh.freePool)
    (hhand : hand sh.toCore pc' = hand sh.toCore pc) (hat : SoloPc cfg sh'.toCore pc') :
    Solo cfg sh' fpc pc' where
  running := hstop.trans h.running
  sending := htx.trans h.sending
  places := by
    rw [hand_congr hactive, hhand, hqueue, hfree]
    exact h.places
  at_pc := hat

theorem Solo.stepAppend {payload : Bytes} {apc : AppendPc}
    (h : Solo cfg sh fpc (.append payload apc))
    (hstep : stepAppend cfg sh payload apc = (sh', pc')) : Solo cfg sh' fpc pc' := by
  have hat := h.at_pc
  cases apc with
  | checkStop =>
      simp only [Wal.stepAppend, h.running, Bool.false_eq_true, if_false] at hstep
      obtain ⟨rfl, rfl⟩ := Prod.mk.inj hstep
      exact h.stay rfl rfl rfl rfl rfl rfl hat
  | loadActive =>
      obtain ⟨rfl, rfl⟩ := Prod.mk.inj hstep
      exact h.stay rfl rfl rfl rfl rfl rfl ⟨rfl, hat⟩
  | claimBytes buf =>
      obtain ⟨rfl, hready⟩ := hat
      simp only [Wal.stepAppend] at hstep
      split at hstep <;> rename_i hfits <;> obtain ⟨rfl, rfl⟩ := Prod.mk.inj hstep
      · refine h.stay rfl rfl rfl rfl rfl rfl ⟨rfl, ?_⟩
        have hpos : ((sh.buffers sh.active).writePos + frameLen payload) % 2 ^ 64 =
            (sh.buffers sh.active).writePos + frameLen payload := Nat.mod_eq_of_lt hfits.1
        constructor
        · simpa using hready.state
        · simpa using hready.slots
        · simpa using hpos
        · rw [Shared.toCore_modify, Core.modify_active, Core.modify_self]
          exact hpos.trans_le hfits.2
        · simpa using hready.inFlight
      · refine h.stay rfl rfl rfl rfl rfl rfl ⟨rfl, rfl, ?_, ?_⟩
        · simpa using hready.state
        · simpa using hready.inFlight
  | waitActive old =>
      obtain ⟨rfl, rfl⟩ := Prod.mk.inj hstep
      refine h.stay rfl rfl rfl rfl rfl rfl ?_
      split <;> exact hat
  | waitStop old =>
      obtain ⟨rfl, rfl⟩ := Prod.mk.inj hstep
      refine h.stay rfl rfl rfl rfl rfl rfl ?_
      split <;> exact hat

theorem Solo.stepClaimed {claim : Claim} (h : Solo cfg sh fpc (.claimed claim))
    (hstep : stepClaimed cfg sh claim = (sh', pc')) : Solo cfg sh' fpc pc' := by
  obtain ⟨hbuf, hclaimed⟩ := h.at_pc
  have hslot : (sh.buffers claim.buf).entriesAllocated < cfg.bufferSize / headerLen := by
    have hslots := hclaimed.slots
    have hwrite := hclaimed.writePos
    have hroom := hclaimed.room
    rw [hbuf, Nat.lt_div_iff_mul_lt (by decide)]
    simp only [frameLen, headerLen] at *
    omega
  rw [Wal.stepClaimed, if_pos hslot] at hstep
  obtain ⟨rfl, rfl⟩ := Prod.mk.inj hstep
  refine h.stay rfl rfl rfl rfl rfl rfl ⟨hbuf, ?_, ?_, by simp⟩
  · rw [hbuf]
    constructor
    · simpa using hclaimed.state
    · have hslots := hclaimed.slots
      have hwrite := hclaimed.writePos
      have hmod := Nat.mod_le ((sh.buffers sh.active).entriesAllocated + 1) (2 ^ 64)
      rw [Shared.toCore_modify, Core.modify_active, Core.modify_self]
      simp only [frameLen, headerLen] at *
      omega
    · simpa using hclaimed.room
  · rw [hbuf]
    simpa [Pc.registered] using hclaimed.inFlight

theorem Filling.congr {b b' : WalBuffer} (h : Filling cfg b) (hstate : b'.state = b.state)
    (halloc : b'.entriesAllocated = b.entriesAllocated) (hpos : b'.writePos = b.writePos) :
    Filling cfg b' :=
  ⟨hstate.trans h.state, halloc ▸ hpos ▸ h.slots, hpos ▸ h.room⟩

theorem Solo.stepHolding {held : Held} {hpc : HoldPc} (h : Solo cfg sh fpc (.holding held hpc))
    (hstep : stepHolding crc32 sh held hpc = (sh', pc')) : Solo cfg sh' fpc pc' := by
  obtain ⟨hbuf, hfilling, hflight, hcopy⟩ := h.at_pc
  cases hpc <;> obtain ⟨rfl, rfl⟩ := Prod.mk.inj hstep
  case loadMinLsn => exact h.stay rfl rfl rfl rfl rfl rfl ⟨hbuf, hfilling, hflight, by simp⟩
  case enter =>
    refine h.stay rfl rfl rfl rfl rfl rfl ⟨hbuf, ?_, ?_, ?_⟩
    · rw [hbuf]
      exact hfilling.congr (by simp) (by simp) (by simp)
    · rw [hbuf]
      simp [hflight, Pc.registered]
    · rintro k ⟨⟩
      simp [frameLen, headerLen]
  case copy k =>
    refine h.stay rfl rfl rfl rfl rfl ?_ ⟨hbuf, ?_, ?_, ?_⟩
    · rfl
    · rw [hbuf]
      exact hfilling.congr (by simp) (by simp) (by simp)
    · rw [hbuf]
      split <;> simpa [Pc.registered] using hflight
    · rintro j hj
      split at hj
      · rename_i hlt
        exact HoldPc.copy.inj hj ▸ hlt
      · cases hj
  case store =>
    refine h.stay rfl rfl rfl rfl rfl rfl ⟨hbuf, ?_, ?_, by simp⟩
    · rw [hbuf]
      exact hfilling.congr (by simp) (by simp) (by simp)
    · rw [hbuf]
      simpa [Pc.registered] using hflight
  case leave =>
    refine h.stay rfl rfl rfl rfl rfl rfl ⟨?_, ?_⟩
    · rw [hbuf]
      exact hfilling.congr (by simp) (by simp) (by simp)
    · rw [hbuf]
      simp [hflight, Pc.registered]

theorem Solo.stepSync {before : List ℕ} {spc : SyncPc} (h : Solo cfg sh fpc (.sync before spc))
    (hstep : stepSync sh before spc = (sh', pc')) : Solo cfg sh' fpc pc' := by
  have hat := h.at_pc
  cases spc <;> obtain ⟨rfl, rfl⟩ := Prod.mk.inj hstep
  case checkStop | pollStop =>
    rw [h.running]
    exact h.stay rfl rfl rfl rfl rfl rfl hat
  case loadActive => exact h.stay rfl rfl rfl rfl rfl rfl ⟨rfl, hat⟩
  case loadMinLsn buf => exact h.stay rfl rfl rfl rfl rfl rfl hat
  case loadAllocated buf minLsn =>
    obtain ⟨rfl, hready⟩ := hat
    exact h.stay rfl rfl rfl rfl rfl rfl ⟨rfl, rfl, hready.state, hready.inFlight⟩
  case poll target =>
    refine h.stay rfl rfl rfl rfl rfl rfl ?_
    split <;> exact hat
  case sleep target => exact h.stay rfl rfl rfl rfl rfl rfl hat
  case finish => exact h.stay rfl rfl rfl rfl rfl rfl hat

/-- A buffer that `reset` is done with. -/
theorem ResetTo.ready {nextMinLsn : ℕ} {b : WalBuffer}
    (h : ResetTo nextMinLsn WalBuffer.resetStores b) : Ready cfg b where
  state := h.state (by decide)
  slots := by simp [h.entriesAllocated (by decide)]
  room := by simp [h.writePos (by decide)]
  inFlight := h.inFlight (by decide)

/-- Where the swap's caller goes on, the active buffer is ready. -/
theorem SoloPc.resume {caller : Caller} {old : BufId} (hclose : caller.isClose = false)
    (hready : Ready cfg (core.buffers core.active)) : SoloPc cfg core (caller.resume old) := by
  cases caller
  case append | sync => exact hready
  case close => cases hclose

theorem hand_resume {caller : Caller} {old : BufId} :
    hand core (caller.resume old) = [core.active] := by
  cases caller <;> rfl

theorem Solo.stepSwap {caller : Caller} {old : BufId} {spc : SwapPc}
    (h : Solo cfg sh fpc (.swap caller old spc))
    (hstep : stepSwap sh caller old spc = some (sh', pc')) : Solo cfg sh' fpc pc' := by
  obtain ⟨hclose, rfl, hswap⟩ := h.at_pc
  have hplaces := h.places
  cases spc with
  | cas =>
      simp only [Wal.stepSwap, hswap.1] at hstep
      obtain ⟨rfl, rfl⟩ := Prod.mk.inj (Option.some.inj hstep)
      refine h.stay rfl rfl rfl rfl rfl rfl ⟨hclose, rfl, ?_⟩
      simpa [SoloSwap] using hswap.2
  | barrier =>
      simp only [SoloSwap] at hswap
      simp only [Wal.stepSwap, hswap, if_true] at hstep
      obtain ⟨rfl, rfl⟩ := Prod.mk.inj (Option.some.inj hstep)
      exact h.stay rfl rfl rfl rfl rfl rfl ⟨hclose, rfl, hswap⟩
  | loadCount | loadMinLsn count =>
      obtain ⟨rfl, rfl⟩ := Prod.mk.inj (Option.some.inj hstep)
      exact h.stay rfl rfl rfl rfl rfl rfl ⟨hclose, rfl, hswap⟩
  | storeCount count =>
      obtain ⟨rfl, rfl⟩ := Prod.mk.inj (Option.some.inj hstep)
      refine h.stay rfl rfl rfl rfl rfl rfl ⟨hclose, rfl, ?_⟩
      simpa [SoloSwap] using hswap
  | send nextMinLsn =>
      obtain ⟨rfl, rfl⟩ := Prod.mk.inj (Option.some.inj hstep)
      refine ⟨h.running, h.sending, ?_, hclose, rfl, trivial⟩
      refine .trans ?_ hplaces
      simp only [hand, h.sending, if_true, List.nil_append, List.append_assoc]
      exact List.perm_append_comm_assoc ..
  | pop nextMinLsn =>
      simp only [Wal.stepSwap] at hstep
      split at hstep
      · rename_i new freePool hfree
        obtain ⟨rfl, rfl⟩ := Prod.mk.inj (Option.some.inj hstep)
        refine ⟨h.running, h.sending, ?_, hclose, rfl, by decide, ?_⟩
        · refine .trans ?_ hplaces
          rw [hfree]
          simp only [hand, List.nil_append, ← List.append_assoc]
          exact List.perm_middle.symm
        · constructor <;> intro hlt <;> simp at hlt
      · simp [h.running] at hstep
  | reset new nextMinLsn stage =>
      obtain ⟨rfl, rfl⟩ := Prod.mk.inj (Option.some.inj hstep)
      have hnext : ResetTo nextMinLsn (stage + 1)
          ((sh.modify new (WalBuffer.resetStore nextMinLsn stage)).buffers new) := by
        rw [Shared.toCore_modify, Core.modify_self]
        exact hswap.2.next hswap.1
      by_cases hlast : stage + 1 < WalBuffer.resetStores
      · rw [if_pos hlast]
        exact h.stay rfl rfl rfl rfl rfl rfl ⟨hclose, rfl, hlast, hnext⟩
      · rw [if_neg hlast]
        have hstage : stage + 1 = WalBuffer.resetStores := by
          have := hswap.1
          omega
        exact h.stay rfl rfl rfl rfl rfl rfl ⟨hclose, rfl, nextMinLsn, hstage ▸ hnext⟩
  | install new =>
      obtain ⟨nextMinLsn, hto⟩ := hswap
      obtain ⟨rfl, rfl⟩ := Prod.mk.inj (Option.some.inj hstep)
      refine ⟨h.running, h.sending, ?_, .resume hclose hto.ready⟩
      rw [hand_resume]
      exact hplaces

theorem Solo.thread {stopped : Option Bool} (h : Solo cfg sh fpc pc)
    (hstep : stepThread crc32 cfg sh stopped pc = some (sh', pc')) : Solo cfg sh' fpc pc' := by
  cases pc with
  | idle => cases hstep
  | append payload pc => exact h.stepAppend (Option.some.inj hstep)
  | claimed claim => exact h.stepClaimed (Option.some.inj hstep)
  | holding held pc => exact h.stepHolding (Option.some.inj hstep)
  | swap caller old pc => exact h.stepSwap hstep
  | sync before pc => exact h.stepSync (Option.some.inj hstep)
  | close | panicked => exact h.at_pc.elim

/-! ## Runs -/

section Runs

variable {ι : Type} {t : ι}

/-- Only `t` calls, and it does not close the WAL. -/
def OnlyCaller (t : ι) : Label ι → Prop
  | .call u call => u = t ∧ call ≠ .close
  | .thread u | .timeout u => u = t
  | .flush => True

theorem solo_init (memory : BufId → ℕ → UInt8) :
    Solo cfg (System.init cfg memory : System ι).shared .recv .idle where
  running := rfl
  sending := rfl
  places := by
    rw [List.range_succ_eq_map]
    exact (List.reverse_perm _).cons 0
  at_pc := by
    refine ⟨⟨rfl, ?_, ?_⟩, rfl⟩ <;> simp [System.init, WalBuffer.new]

variable [DecidableEq ι]

theorem Solo.system_step {s s' : System ι} {l : Label ι}
    (h : Solo cfg s.shared s.flush.pc (s.pcs t)) (hl : OnlyCaller t l)
    (hstep : s.step crc32 cfg l = some s') : Solo cfg s'.shared s'.flush.pc (s'.pcs t) := by
  cases l with
  | call u call =>
      obtain ⟨rfl, hclose⟩ := hl
      simp only [System.step] at hstep
      split at hstep
      · rename_i hidle
        obtain rfl := Option.some.inj hstep
        rw [hidle] at h
        simp only [System.setPc, Function.update_self]
        cases call with
        | append payload => exact h.stay rfl rfl rfl rfl rfl rfl h.at_pc
        | sync => exact h.stay rfl rfl rfl rfl rfl rfl h.at_pc
        | close => exact absurd rfl hclose
      · cases hstep
  | thread u =>
      obtain rfl := hl
      obtain ⟨⟨sh', pc'⟩, hthread, rfl⟩ := Option.map_eq_some_iff.mp hstep
      simpa [System.setPc] using h.thread hthread
  | timeout u =>
      obtain rfl := hl
      simp only [System.step] at hstep
      split at hstep
      · rename_i hsleep
        obtain rfl := Option.some.inj hstep
        rw [hsleep] at h
        simp only [System.setPc, Function.update_self]
        exact h.stay rfl rfl rfl rfl rfl rfl h.at_pc
      · cases hstep
  | flush =>
      obtain ⟨⟨sh', fl'⟩, hflush, rfl⟩ := Option.map_eq_some_iff.mp hstep
      exact h.flush (stepFlush_effect hflush)

theorem Solo.execute {s s' : System ι} {labels : List (Label ι)}
    (h : Solo cfg s.shared s.flush.pc (s.pcs t)) (hlabels : ∀ l ∈ labels, OnlyCaller t l)
    (hexec : execute (System.step crc32 cfg) labels s = some s') :
    Solo cfg s'.shared s'.flush.pc (s'.pcs t) := by
  induction labels generalizing s with
  | nil => exact Option.some.inj hexec ▸ h
  | cons l labels ih =>
      obtain ⟨mid, hmid, hrest⟩ := Option.bind_eq_some_iff.mp hexec
      obtain ⟨hl, hlabels⟩ := List.forall_mem_cons.mp hlabels
      exact ih (h.system_step hl hmid) hlabels hrest

theorem Solo.of_reaches {memory : BufId → ℕ → UInt8} {s : System ι}
    (h : Reaches (System.step crc32 cfg) (fun _ => OnlyCaller t) (.init cfg memory) s) :
    Solo cfg s.shared s.flush.pc (s.pcs t) :=
  Reaches.invariant (P := fun s : System ι => Solo cfg s.shared s.flush.pc (s.pcs t))
    (solo_init memory) (fun h hl hstep => h.system_step hl hstep) h

end Runs

end Todb.Wal

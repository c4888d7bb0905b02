import Todb.Verification.Wal.Chain

/-! # Byte ranges

The byte ranges claimed in one activation of a buffer do not overlap. -/

namespace Todb.Wal

open Library

variable {ι : Type}

/-- The end of a claimed byte range. -/
def Claim.stop (claim : Claim) : ℕ := claim.pos + frameLen claim.payload

/-- Two byte ranges do not overlap. -/
def Claim.Apart (a b : Claim) : Prop := a.stop ≤ b.pos ∨ b.stop ≤ a.pos

theorem Claim.Apart.symm {a b : Claim} (h : a.Apart b) : b.Apart a := Or.symm h

/-- The byte range of an issued slot. -/
def Issue.claim (issue : Issue) : Claim := ⟨issue.buf, issue.pos, issue.payload⟩

/-- An append that has claimed bytes but no slot. -/
def Pc.unslotted? : Pc → Option Claim
  | .claimed claim => some claim
  | _ => none

theorem Pc.claim?_of_unslotted? {pc : Pc} {claim : Claim} (h : pc.unslotted? = some claim) :
    pc.claim? = some claim := by
  cases pc with
  | claimed => exact h
  | idle | append | holding | swap | sync | close | panicked => cases h

theorem Pc.Outside.unslotted?_eq {pc : Pc} (h : pc.Outside) : pc.unslotted? = none := by
  cases pc with
  | claimed => exact absurd h.claim?_eq (by simp [Pc.claim?])
  | idle | append | holding | swap | sync | close | panicked => rfl

/-- The slots issued in the present activation of the active buffer. -/
def Core.activation (core : Core) : List Issue := core.issued.drop (core.buffers core.active).minLsn

structure Ranges (cfg : WalConfig) (core : Core) (pcs : ι → Pc) : Prop where
  claim_stop : ∀ t claim, (pcs t).claim? = some claim →
    claim.stop ≤ (core.buffers core.active).writePos ∧ claim.stop ≤ cfg.bufferSize
  issued_stop : core.phase.Accepting → ∀ issue ∈ core.activation,
    issue.claim.stop ≤ (core.buffers core.active).writePos
  issued_apart : core.phase.Accepting →
    core.activation.Pairwise fun a b => a.claim.Apart b.claim
  unslotted_issued : ∀ t claim, (pcs t).unslotted? = some claim → ∀ issue ∈ core.activation,
    claim.Apart issue.claim
  unslotted_apart : ∀ t u claim claim', t ≠ u → (pcs t).unslotted? = some claim →
    (pcs u).unslotted? = some claim' → claim.Apart claim'

section Threads

variable [DecidableEq ι] {cfg : WalConfig} {crc32 : Bytes → UInt32}
  {sh sh' : Shared} {pcs : ι → Pc} {fpc : FlushPc} {t : ι} {pc pc' : Pc}

/-- A step that claims nothing. -/
theorem Ranges.frame {core core' : Core} (ranges : Ranges cfg core pcs) (hpc : pcs t = pc)
    (hclaim : ∀ claim, pc'.claim? = some claim → pc.claim? = some claim)
    (hunslotted : ∀ claim, pc'.unslotted? = some claim → pc.unslotted? = some claim)
    (haccept : core'.phase.Accepting → core.phase.Accepting)
    (hkeep : core.phase.Accepting →
      core'.activation = core.activation ∧
        (core.buffers core.active).writePos ≤ (core'.buffers core'.active).writePos)
    (hcritical : ∀ u claim, (pcs u).claim? = some claim → core.phase.Accepting) :
    Ranges cfg core' (Function.update pcs t pc') := by
  have hclaims : ∀ u claim, (Function.update pcs t pc' u).claim? = some claim →
      (pcs u).claim? = some claim := by
    intro u claim h
    rcases update_cases h with ⟨rfl, hnew⟩ | ⟨-, hold⟩
    · exact hpc ▸ hclaim claim hnew
    · exact hold
  have hunslotteds : ∀ u claim, (Function.update pcs t pc' u).unslotted? = some claim →
      (pcs u).unslotted? = some claim := by
    intro u claim h
    rcases update_cases h with ⟨rfl, hnew⟩ | ⟨-, hold⟩
    · exact hpc ▸ hunslotted claim hnew
    · exact hold
  refine ⟨fun u claim h => ?_, fun h issue hissue => ?_, fun h => ?_, fun u claim h issue hissue => ?_,
    fun u v claim claim' hne h h' => ?_⟩
  · obtain ⟨hpos, hsize⟩ := ranges.claim_stop u claim (hclaims u claim h)
    exact ⟨hpos.trans (hkeep (hcritical u claim (hclaims u claim h))).2, hsize⟩
  · obtain ⟨hactivation, hpos⟩ := hkeep (haccept h)
    rw [hactivation] at hissue
    exact (ranges.issued_stop (haccept h) issue hissue).trans hpos
  · rw [(hkeep (haccept h)).1]
    exact ranges.issued_apart (haccept h)
  · have hu := hunslotteds u claim h
    rw [(hkeep (hcritical u claim (Pc.claim?_of_unslotted? hu))).1] at hissue
    exact ranges.unslotted_issued u claim hu issue hissue
  · exact ranges.unslotted_apart u v claim claim' hne (hunslotteds u claim h) (hunslotteds v claim' h')

/-- A byte claim starts where all earlier ones have ended. -/
theorem Ranges.claimBytes {payload : Bytes} {buf : BufId} (ranges : Ranges cfg sh.toCore pcs)
    (hactive : sh.active = buf) (haccept : sh.phase.Accepting)
    (hfits : fits cfg (sh.buffers buf).writePos (frameLen payload)) :
    Ranges cfg (sh.claimBytes buf payload).toCore
      (Function.update pcs t (.claimed ⟨buf, (sh.buffers buf).writePos, payload⟩)) := by
  subst hactive
  obtain ⟨hwrap, hsize⟩ := hfits
  have hpos : ((sh.claimBytes sh.active payload).buffers sh.active).writePos =
      (sh.buffers sh.active).writePos + frameLen payload := by
    simp only [Shared.claimBytes, Shared.toCore_modify, Core.modify_self]
    exact Nat.mod_eq_of_lt hwrap
  have hactivation : (sh.claimBytes sh.active payload).toCore.activation = sh.toCore.activation := by
    simp [Core.activation, Shared.claimBytes]
  refine ⟨fun u claim h => ?_, fun _ issue hissue => ?_, fun _ => ?_, fun u claim h issue hissue => ?_,
    fun u v claim claim' hne h h' => ?_⟩
  · change claim.stop ≤ ((sh.claimBytes sh.active payload).buffers sh.active).writePos ∧ _
    rw [hpos]
    rcases update_cases h with ⟨rfl, hnew⟩ | ⟨-, hold⟩
    · obtain rfl := Option.some.inj hnew
      exact ⟨le_rfl, hsize⟩
    · obtain ⟨hle, hsize⟩ := ranges.claim_stop u claim hold
      exact ⟨by omega, hsize⟩
  · change issue.claim.stop ≤ ((sh.claimBytes sh.active payload).buffers sh.active).writePos
    rw [hactivation] at hissue
    rw [hpos]
    have hle := ranges.issued_stop haccept issue hissue
    omega
  · rw [hactivation]
    exact ranges.issued_apart haccept
  · rw [hactivation] at hissue
    rcases update_cases h with ⟨rfl, hnew⟩ | ⟨-, hold⟩
    · obtain rfl := Option.some.inj hnew
      exact .inr (ranges.issued_stop haccept issue hissue)
    · exact ranges.unslotted_issued u claim hold issue hissue
  · rcases update_cases h with ⟨hu, hnew⟩ | ⟨-, hold⟩ <;>
      rcases update_cases h' with ⟨hv, hnew'⟩ | ⟨-, hold'⟩
    · exact absurd (hu.trans hv.symm) hne
    · obtain rfl := Option.some.inj hnew
      exact .inr (ranges.claim_stop v claim' (Pc.claim?_of_unslotted? hold')).1
    · obtain rfl := Option.some.inj hnew'
      exact .inl (ranges.claim_stop u claim (Pc.claim?_of_unslotted? hold)).1
    · exact ranges.unslotted_apart u v claim claim' hne hold hold'

/-- A slot claim turns a claimed range into an issued one. -/
theorem Ranges.claimSlot {claim : Claim} {held : Held} {core' : Core}
    (ranges : Ranges cfg sh.toCore pcs) (hpc : pcs t = .claimed claim) (hheld : held.toClaim = claim)
    (hphase : core'.phase = sh.phase)
    (hactivation : core'.activation =
      sh.toCore.activation ++ [⟨claim.buf, held.slot, claim.pos, claim.payload⟩])
    (hpos : (core'.buffers core'.active).writePos = (sh.buffers sh.active).writePos) :
    Ranges cfg core' (Function.update pcs t (.holding held .loadMinLsn)) := by
  have hself := ranges.claim_stop t claim (by rw [hpc]; rfl)
  have hmem : ∀ issue ∈ core'.activation, issue ∈ sh.toCore.activation ∨ issue.claim = claim := by
    intro issue hissue
    rw [hactivation, List.mem_append, List.mem_singleton] at hissue
    rcases hissue with hissue | rfl
    · exact .inl hissue
    · exact .inr rfl
  refine ⟨fun u c h => ?_, fun h issue hissue => ?_, fun h => ?_, fun u c h issue hissue => ?_,
    fun u v c c' hne h h' => ?_⟩
  · rw [hpos]
    rcases update_cases h with ⟨-, hnew⟩ | ⟨-, hold⟩
    · obtain rfl := Option.some.inj hnew
      exact hheld ▸ hself
    · exact ranges.claim_stop u c hold
  · rw [hpos]
    rcases hmem issue hissue with hissue | hissue
    · exact ranges.issued_stop (hphase ▸ h) issue hissue
    · exact hissue ▸ hself.1
  · rw [hactivation, List.pairwise_append]
    refine ⟨ranges.issued_apart (hphase ▸ h), List.pairwise_singleton _ _, ?_⟩
    intro issue hissue last hlast
    obtain rfl := List.mem_singleton.mp hlast
    exact (ranges.unslotted_issued t claim (by rw [hpc]; rfl) issue hissue).symm
  · rcases update_cases h with ⟨-, hnew⟩ | ⟨hu, hold⟩
    · cases hnew
    · rcases hmem issue hissue with hissue | hissue
      · exact ranges.unslotted_issued u c hold issue hissue
      · rw [hissue]
        exact ranges.unslotted_apart u t c claim hu hold (by rw [hpc]; rfl)
  · rcases update_cases h with ⟨-, hnew⟩ | ⟨-, hold⟩
    · cases hnew
    · rcases update_cases h' with ⟨-, hnew'⟩ | ⟨-, hold'⟩
      · cases hnew'
      · exact ranges.unslotted_apart u v c c' hne hold hold'

theorem Ranges.thread_step [Fintype ι] (own : Ownership cfg sh.toCore pcs fpc)
    (num : Numbering cfg sh.toCore pcs) (ranges : Ranges cfg sh.toCore pcs) (hpc : pcs t = pc)
    (heff : Effect crc32 cfg sh pc sh' pc') (hok : StepOrderly cfg sh.toCore pcs pc) :
    Ranges cfg sh'.toCore (Function.update pcs t pc') := by
  have hat := hpc ▸ own.swapAt t
  have hcritical := hpc ▸ own.critical t
  have haccepting := fun u claim h => (own.critical u claim h).2
  cases heff with
  | outside _ hout' hcore =>
      refine ranges.frame hpc ?_ ?_ ?_ ?_ haccepting
      · simp [hout'.claim?_eq]
      · simp [hout'.unslotted?_eq]
      · rw [hcore]
        exact id
      · rw [hcore]
        exact fun _ => ⟨rfl, le_rfl⟩
  | @overflow payload buf =>
      have hwrap := hok.1
      refine ranges.frame hpc (by simp [Pc.claim?]) (by simp [Pc.unslotted?]) id
        (fun _ => ⟨by simp [Core.activation, Shared.claimBytes], ?_⟩) haccepting
      simp only [Shared.claimBytes, Shared.toCore_modify, Core.modify_active]
      by_cases hbuf : sh.active = buf
      · rw [hbuf, Core.modify_self]
        simp only
        omega
      · rw [Core.modify_of_ne _ _ hbuf]
  | claimBytes hfits =>
      obtain ⟨hactive, haccept⟩ := hok.2 hfits
      exact ranges.claimBytes hactive haccept hfits
  | claimSlot hslot =>
      obtain ⟨hbuf, haccept⟩ := hcritical _ rfl
      have hnext := num.next haccept.ne_sent
      refine ranges.claimSlot hpc rfl rfl ?_ (by simp [Shared.claimSlot])
      simp only [Core.activation, Shared.claimSlot, Shared.toCore_modify, Core.modify_active]
      rw [Core.modify_minLsn _ _ (by simp), List.drop_append_of_le_length (by omega)]
  | exhausted hfull => exact absurd (num.not_exhausted own hpc) (not_lt.mpr hfull)
  | loadLsn | enter | copy | store =>
      exact ranges.frame hpc (fun _ h => h) (fun _ h => by cases h) id
        (fun _ => ⟨by simp [Core.activation], by simp⟩) haccepting
  | leave | storeCount =>
      exact ranges.frame hpc (fun _ h => by cases h) (fun _ h => by cases h) id
        (fun _ => ⟨by simp [Core.activation], by simp⟩) haccepting
  | cas hstate =>
      exact ranges.frame hpc (fun _ h => by cases h) (fun _ h => by cases h)
        (fun _ => .inl (hok hstate).2) (fun _ => ⟨by simp [Core.activation], by simp⟩) haccepting
  | drained | send =>
      exact ranges.frame hpc (fun _ h => by cases h) (fun _ h => by cases h)
        (fun h => by simp [Phase.Accepting] at h) (fun _ => ⟨rfl, le_rfl⟩) haccepting
  | spin | loadCount | loadMinLsn | pop =>
      exact ranges.frame hpc (fun _ h => by cases h) (fun _ h => by cases h) id
        (fun _ => ⟨rfl, le_rfl⟩) haccepting
  | giveUp =>
      exact ranges.frame hpc (by simp [(Pc.Outside.resume _ _).claim?_eq])
        (by simp [(Pc.Outside.resume _ _).unslotted?_eq]) id (fun _ => ⟨rfl, le_rfl⟩) haccepting
  | reset =>
      have hsent : ¬ sh.phase.Accepting := by simp [Phase.Accepting, (hat _ rfl).2.1]
      exact ranges.frame hpc (fun _ h => by cases h) (fun _ h => by cases h) id
        (fun h => absurd h hsent) haccepting
  | @install caller old new =>
      obtain ⟨-, hsent, -⟩ := hat _ rfl
      have hto : ResetTo _ _ _ := (hpc ▸ num.swapLsn t) _ rfl
      have hnone := fun u => own.no_claim (by simp [Phase.Accepting, hsent]) u
      have hempty : ∀ u, (Function.update pcs t (caller.resume old) u).claim? = none := by
        intro u
        by_cases hu : u = t
        · rw [hu, Function.update_self, (Pc.Outside.resume _ _).claim?_eq]
        · rw [Function.update_of_ne hu, hnone u]
      have hactivation : { sh.toCore with active := new, phase := .open : Core }.activation = [] := by
        simp [Core.activation, hto.minLsn (by decide)]
      have hnone' : ∀ u claim, (Function.update pcs t (caller.resume old) u).unslotted? ≠ some claim :=
        fun u claim h => by simpa [hempty u] using Pc.claim?_of_unslotted? h
      refine ⟨fun u claim h => ?_, fun _ issue hissue => ?_, fun _ => ?_, fun u claim h => ?_,
        fun u v claim claim' _ h => ?_⟩
      · simp [hempty u] at h
      · simp [hactivation] at hissue
      · rw [hactivation]
        exact List.Pairwise.nil
      · exact (hnone' u claim h).elim
      · exact (hnone' u claim h).elim

end Threads

theorem Ranges.flush_step [Fintype ι] {cfg : WalConfig} {sh sh' : Shared} {pcs : ι → Pc}
    {fpc fpc' : FlushPc} (own : Ownership cfg sh.toCore pcs fpc) (ranges : Ranges cfg sh.toCore pcs)
    (heff : FlushEffect cfg sh fpc sh' fpc') : Ranges cfg sh'.toCore pcs := by
  have hkeep := fun haccept : sh.phase.Accepting => own.flush_active heff haccept.ne_sent
  have hactivation : sh.phase.Accepting → sh'.toCore.activation = sh.toCore.activation := by
    intro haccept
    rw [Core.activation, Core.activation, hkeep haccept, heff.issued_eq]
  refine ⟨fun t claim h => ?_, fun h => ?_, fun h => ?_, fun t claim h => ?_, ranges.unslotted_apart⟩
  · rw [hkeep (own.critical t claim h).2]
    exact ranges.claim_stop t claim h
  · rw [heff.phase_eq] at h
    rw [hactivation h, hkeep h]
    exact ranges.issued_stop h
  · rw [heff.phase_eq] at h
    rw [hactivation h]
    exact ranges.issued_apart h
  · rw [hactivation (own.critical t claim (Pc.claim?_of_unslotted? h)).2]
    exact ranges.unslotted_issued t claim h

theorem Ranges.init (cfg : WalConfig) (memory : BufId → ℕ → UInt8) :
    Ranges cfg (System.init cfg memory : System ι).shared.toCore (fun _ : ι => .idle) where
  claim_stop _ _ h := by cases h
  issued_stop _ _ h := by simp [Core.activation, System.init] at h
  issued_apart _ := by simp [Core.activation, System.init]
  unslotted_issued _ _ h := by cases h
  unslotted_apart _ _ _ _ _ h := by cases h

end Todb.Wal

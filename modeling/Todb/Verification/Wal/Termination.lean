import Todb.Verification.Wal.Solo

/-! # When an append returns

An append that finds the active buffer full swaps it and retries. The retry succeeds when the
frame fits an empty buffer and the buffer taken from the pool is not the one just swapped out:
`wait_active_change` compares addresses, so a buffer that came straight back looks unchanged. -/

namespace Todb.Wal

open Library

variable {cfg : WalConfig} {crc32 : Bytes → UInt32} {sh sh' : Shared} {fpc fpc' : FlushPc}
  {pc pc' : Pc} {core core' : Core}

/-! ## The swap of an append -/

/-- What an append's swap must find when it takes a buffer from the pool. -/
def TakesFresh (cfg : WalConfig) (core : Core) : Pc → Prop
  | .swap (.append payload) old (.pop _) =>
      fits cfg 0 (frameLen payload) ∧ core.freePool.head? ≠ some old
  | _ => True

instance (core : Core) (pc : Pc) : Decidable (TakesFresh cfg core pc) := by
  unfold TakesFresh
  split <;> infer_instance

/-- An append that has not gone wrong: what its swap took fits the frame and is not what it
swapped out. -/
def Heading (cfg : WalConfig) (core : Core) : Pc → Prop
  | .append payload (.waitActive old) =>
      core.active ≠ old ∧ fits cfg (core.buffers core.active).writePos (frameLen payload)
  | .append _ (.waitStop _) => False
  | .swap (.append payload) old (.reset new _ _) | .swap (.append payload) old (.install new) =>
      fits cfg 0 (frameLen payload) ∧ new ≠ old
  | .idle | .append _ _ | .claimed _ | .holding _ _ | .swap (.append _) _ _ => True
  | _ => False

/-- An append that cannot return: its frame fits no buffer, or it waits for the buffer that it
has put back itself. -/
def Trapped (cfg : WalConfig) (core : Core) : Pc → Prop
  | .append payload (.waitActive old) | .append payload (.waitStop old) =>
      ¬ fits cfg 0 (frameLen payload) ∨ core.active = old
  | .swap (.append payload) old (.reset new _ _) | .swap (.append payload) old (.install new) =>
      ¬ fits cfg 0 (frameLen payload) ∨ new = old
  | .append payload _ | .swap (.append payload) _ _ => ¬ fits cfg 0 (frameLen payload)
  | _ => False

/-- The steps that an append which is heading for its return still takes, at most. -/
def stepsLeft (cfg : WalConfig) (core : Core) : Pc → ℕ
  | .append payload pc =>
      let retry :=
        if fits cfg (core.buffers core.active).writePos (frameLen payload) then 0 else 18
      frameLen payload + match pc with
        | .checkStop => 8 + retry
        | .loadActive => 7 + retry
        | .claimBytes _ => 6 + retry
        | .waitActive _ | .waitStop _ => 9
  | .claimed claim => frameLen claim.payload + 5
  | .holding held pc =>
      match pc with
      | .loadMinLsn => frameLen held.payload + 4
      | .enter => frameLen held.payload + 3
      | .copy k => frameLen held.payload - k + 2
      | .store => 2
      | .leave => 1
  | .swap (.append payload) _ pc =>
      frameLen payload + match pc with
        | .cas => 23
        | .barrier => 22
        | .loadCount => 21
        | .storeCount _ => 20
        | .loadMinLsn _ => 19
        | .send _ => 18
        | .pop _ => 17
        | .reset _ _ stage => 16 - stage
        | .install _ => 10
  | _ => 0

/-! ## Steps towards the return -/

/-- One step of the caller on its way to the return. -/
def Onward (cfg : WalConfig) (core : Core) (pc : Pc) (core' : Core) (pc' : Pc) : Prop :=
  Heading cfg core' pc' ∧ stepsLeft cfg core' pc' < stepsLeft cfg core pc

theorem onward_append {payload : Bytes} {apc : AppendPc}
    (h : Solo cfg sh fpc (.append payload apc))
    (hheading : Heading cfg sh.toCore (.append payload apc))
    (hstep : stepAppend cfg sh payload apc = (sh', pc')) :
    Onward cfg sh.toCore (.append payload apc) sh'.toCore pc' := by
  cases apc with
  | checkStop =>
      simp only [stepAppend, h.running, Bool.false_eq_true, if_false] at hstep
      obtain ⟨rfl, rfl⟩ := Prod.mk.inj hstep
      exact ⟨trivial, by simp [stepsLeft]⟩
  | loadActive =>
      obtain ⟨rfl, rfl⟩ := Prod.mk.inj hstep
      exact ⟨trivial, by simp [stepsLeft]⟩
  | claimBytes buf =>
      obtain ⟨rfl, -⟩ := h.at_pc
      simp only [stepAppend] at hstep
      split at hstep <;> rename_i hfits <;> obtain ⟨rfl, rfl⟩ := Prod.mk.inj hstep
      · exact ⟨trivial, by simp [stepsLeft, hfits]⟩
      · exact ⟨trivial, by simp [stepsLeft, hfits]⟩
  | waitActive old =>
      obtain ⟨rfl, rfl⟩ := Prod.mk.inj hstep
      rw [if_neg hheading.1]
      exact ⟨trivial, by simp [stepsLeft, hheading.2]⟩
  | waitStop old => exact hheading.elim

theorem onward_claimed {claim : Claim} (h : Solo cfg sh fpc (.claimed claim))
    (hstep : stepClaimed cfg sh claim = (sh', pc')) :
    Onward cfg sh.toCore (.claimed claim) sh'.toCore pc' := by
  have hpanic := (h.stepClaimed hstep).at_pc
  rw [stepClaimed] at hstep
  split at hstep <;> obtain ⟨rfl, rfl⟩ := Prod.mk.inj hstep
  · exact ⟨trivial, by simp [stepsLeft]⟩
  · exact hpanic.elim

theorem onward_holding {held : Held} {hpc : HoldPc} (h : Solo cfg sh fpc (.holding held hpc))
    (hstep : stepHolding crc32 sh held hpc = (sh', pc')) :
    Onward cfg sh.toCore (.holding held hpc) sh'.toCore pc' := by
  cases hpc <;> obtain ⟨rfl, rfl⟩ := Prod.mk.inj hstep
  case copy k =>
    have hk := h.at_pc.2.2.2 k rfl
    refine ⟨trivial, ?_⟩
    split <;> simp only [stepsLeft] <;> omega
  all_goals exact ⟨trivial, by simp [stepsLeft]⟩

theorem onward_swap {payload : Bytes} {old : BufId} {spc : SwapPc}
    (h : Solo cfg sh fpc (.swap (.append payload) old spc))
    (hheading : Heading cfg sh.toCore (.swap (.append payload) old spc))
    (hfresh : TakesFresh cfg sh.toCore (.swap (.append payload) old spc))
    (hstep : stepSwap sh (.append payload) old spc = some (sh', pc')) :
    Onward cfg sh.toCore (.swap (.append payload) old spc) sh'.toCore pc' := by
  obtain ⟨-, rfl, hswap⟩ := h.at_pc
  cases spc with
  | cas =>
      simp only [stepSwap, hswap.1] at hstep
      obtain ⟨rfl, rfl⟩ := Prod.mk.inj (Option.some.inj hstep)
      exact ⟨trivial, by simp [stepsLeft]⟩
  | barrier =>
      simp only [SoloSwap] at hswap
      simp only [stepSwap, hswap, if_true] at hstep
      obtain ⟨rfl, rfl⟩ := Prod.mk.inj (Option.some.inj hstep)
      exact ⟨trivial, by simp [stepsLeft]⟩
  | loadCount | storeCount | loadMinLsn | send =>
      obtain ⟨rfl, rfl⟩ := Prod.mk.inj (Option.some.inj hstep)
      exact ⟨trivial, by simp [stepsLeft]⟩
  | pop nextMinLsn =>
      simp only [stepSwap] at hstep
      split at hstep
      · rename_i new freePool hfree
        obtain ⟨rfl, rfl⟩ := Prod.mk.inj (Option.some.inj hstep)
        refine ⟨⟨hfresh.1, ?_⟩, by simp [stepsLeft]⟩
        rintro rfl
        exact hfresh.2 (by simp [hfree])
      · simp [h.running] at hstep
  | reset new nextMinLsn stage =>
      obtain ⟨rfl, rfl⟩ := Prod.mk.inj (Option.some.inj hstep)
      have hstage : stage < 6 := hswap.1
      split
      · refine ⟨hheading, ?_⟩
        simp only [stepsLeft]
        omega
      · refine ⟨hheading, ?_⟩
        simp only [stepsLeft]
        omega
  | install new =>
      obtain ⟨nextMinLsn, hto⟩ := hswap
      obtain ⟨rfl, rfl⟩ := Prod.mk.inj (Option.some.inj hstep)
      refine ⟨⟨hheading.2, ?_⟩, by simp [stepsLeft, Caller.resume]⟩
      simpa [hto.writePos (by decide)] using hheading.1

theorem onward {stopped : Option Bool} (h : Solo cfg sh fpc pc)
    (hheading : Heading cfg sh.toCore pc) (hfresh : TakesFresh cfg sh.toCore pc)
    (hstep : stepThread crc32 cfg sh stopped pc = some (sh', pc')) :
    Onward cfg sh.toCore pc sh'.toCore pc' := by
  cases pc with
  | idle => cases hstep
  | append payload pc => exact onward_append h hheading (Option.some.inj hstep)
  | claimed claim => exact onward_claimed h (Option.some.inj hstep)
  | holding held pc => exact onward_holding h (Option.some.inj hstep)
  | swap caller old pc =>
      cases caller with
      | append payload => exact onward_swap h hheading hfresh hstep
      | sync | close => exact hheading.elim
  | sync | close | panicked => exact hheading.elim

/-! ## Steps that lead nowhere -/

theorem fits_zero {pos len : ℕ} (h : fits cfg pos len) : fits cfg 0 len := by
  simp only [fits] at h ⊢
  omega

theorem trapped_append {payload : Bytes} {apc : AppendPc}
    (h : Solo cfg sh fpc (.append payload apc))
    (htrapped : Trapped cfg sh.toCore (.append payload apc))
    (hstep : stepAppend cfg sh payload apc = (sh', pc')) : Trapped cfg sh'.toCore pc' := by
  cases apc with
  | checkStop =>
      simp only [stepAppend, h.running, Bool.false_eq_true, if_false] at hstep
      obtain ⟨rfl, rfl⟩ := Prod.mk.inj hstep
      exact htrapped
  | loadActive =>
      obtain ⟨rfl, rfl⟩ := Prod.mk.inj hstep
      exact htrapped
  | claimBytes buf =>
      simp only [stepAppend] at hstep
      split at hstep <;> rename_i hfits <;> obtain ⟨rfl, rfl⟩ := Prod.mk.inj hstep
      · exact absurd (fits_zero hfits) htrapped
      · exact htrapped
  | waitActive old =>
      obtain ⟨rfl, rfl⟩ := Prod.mk.inj hstep
      split
      · exact htrapped
      · rename_i hactive
        exact htrapped.resolve_right hactive
  | waitStop old =>
      simp only [stepAppend, h.running, Bool.false_eq_true, if_false] at hstep
      obtain ⟨rfl, rfl⟩ := Prod.mk.inj hstep
      exact htrapped

theorem trapped_swap {payload : Bytes} {old : BufId} {spc : SwapPc}
    (h : Solo cfg sh fpc (.swap (.append payload) old spc))
    (htrapped : Trapped cfg sh.toCore (.swap (.append payload) old spc))
    (hstep : stepSwap sh (.append payload) old spc = some (sh', pc')) :
    Trapped cfg sh'.toCore pc' := by
  obtain ⟨-, rfl, hswap⟩ := h.at_pc
  cases spc with
  | cas =>
      simp only [stepSwap, hswap.1] at hstep
      obtain ⟨rfl, rfl⟩ := Prod.mk.inj (Option.some.inj hstep)
      exact htrapped
  | barrier =>
      simp only [stepSwap] at hstep
      split at hstep <;> obtain ⟨rfl, rfl⟩ := Prod.mk.inj (Option.some.inj hstep) <;>
        exact htrapped
  | loadCount | storeCount | loadMinLsn | send =>
      obtain ⟨rfl, rfl⟩ := Prod.mk.inj (Option.some.inj hstep)
      exact htrapped
  | pop nextMinLsn =>
      simp only [stepSwap] at hstep
      split at hstep
      · obtain ⟨rfl, rfl⟩ := Prod.mk.inj (Option.some.inj hstep)
        exact .inl htrapped
      · simp [h.running] at hstep
  | reset new nextMinLsn stage =>
      obtain ⟨rfl, rfl⟩ := Prod.mk.inj (Option.some.inj hstep)
      split <;> exact htrapped
  | install new =>
      obtain ⟨rfl, rfl⟩ := Prod.mk.inj (Option.some.inj hstep)
      exact htrapped

theorem Trapped.thread {stopped : Option Bool} (htrapped : Trapped cfg sh.toCore pc)
    (h : Solo cfg sh fpc pc) (hstep : stepThread crc32 cfg sh stopped pc = some (sh', pc')) :
    Trapped cfg sh'.toCore pc' := by
  cases pc with
  | append payload pc => exact trapped_append h htrapped (Option.some.inj hstep)
  | swap caller old pc =>
      cases caller with
      | append payload => exact trapped_swap h htrapped hstep
      | sync | close => exact htrapped.elim
  | idle | claimed | holding | sync | close | panicked => exact htrapped.elim

/-- The step that goes wrong. -/
theorem trapped_of_not_takesFresh {stopped : Option Bool} (h : Solo cfg sh fpc pc)
    (hfresh : ¬ TakesFresh cfg sh.toCore pc)
    (hstep : stepThread crc32 cfg sh stopped pc = some (sh', pc')) :
    Trapped cfg sh'.toCore pc' := by
  unfold TakesFresh at hfresh
  split at hfresh
  · rename_i payload old nextMinLsn
    simp only [stepThread, stepSwap] at hstep
    split at hstep
    · rename_i new freePool hfree
      obtain ⟨rfl, rfl⟩ := Prod.mk.inj (Option.some.inj hstep)
      by_cases hfits : fits cfg 0 (frameLen payload)
      · refine .inr ?_
        by_contra hne
        exact hfresh ⟨hfits, by simpa [hfree] using hne⟩
      · exact .inl hfits
    · simp [h.running] at hstep
  · exact absurd trivial hfresh

/-! ## Steps of the flush thread -/

/-- The flush thread does not write to the caller's buffer. -/
theorem Solo.active_frame (h : Solo cfg sh fpc pc) (heff : FlushEffect cfg sh fpc sh' fpc')
    (hown : sh.active ∈ hand sh.toCore pc) :
    sh'.buffers sh.active = sh.buffers sh.active := by
  cases heff with
  | pad | reset => rw [Shared.toCore_modify, Core.modify_of_ne _ _ (h.apart hown rfl)]
  | recv | work | empty | drop | publish | push => rfl

theorem Trapped.congr (h : Trapped cfg core pc) (hactive : core'.active = core.active) :
    Trapped cfg core' pc := by
  unfold Trapped at h ⊢
  rwa [hactive]

theorem Solo.heading_frame (h : Solo cfg sh fpc pc) (heff : FlushEffect cfg sh fpc sh' fpc')
    (hheading : Heading cfg sh.toCore pc) :
    Heading cfg sh'.toCore pc ∧ stepsLeft cfg sh'.toCore pc = stepsLeft cfg sh.toCore pc := by
  cases pc with
  | append payload apc =>
      have hbuffer := h.active_frame heff List.mem_cons_self
      unfold Heading stepsLeft at *
      rw [heff.active_eq, hbuffer]
      exact ⟨hheading, rfl⟩
  | swap caller old pc =>
      cases caller with
      | append => cases pc <;> exact ⟨hheading, rfl⟩
      | sync | close => exact hheading.elim
  | idle | claimed | holding => exact ⟨trivial, rfl⟩
  | sync | close | panicked => exact hheading.elim

/-! ## Runs -/

section Runs

variable {ι : Type} {t : ι} {s s' : System ι} {l : Label ι}

/-- The condition on the steps of a run. -/
def SwapsFresh (cfg : WalConfig) (s : System ι) : Label ι → Prop
  | .thread t => TakesFresh cfg s.shared.toCore (s.pcs t)
  | _ => True

instance (s : System ι) (l : Label ι) : Decidable (SwapsFresh cfg s l) := by
  induction l using Label.casesOn <;> unfold SwapsFresh <;> infer_instance

/-- The caller takes a step in its call, or the flush thread does. -/
def Working (t : ι) (l : Label ι) : Prop := l = .thread t ∨ l = .flush

theorem Working.onlyCaller (h : Working t l) : OnlyCaller t l := by
  rcases h with rfl | rfl
  · exact rfl
  · trivial

/-- The state of a WAL whose only caller is inside a call of `append`. -/
structure Appending (cfg : WalConfig) (t : ι) (s : System ι) : Prop where
  solo : Solo cfg s.shared s.flush.pc (s.pcs t)
  heading : Heading cfg s.shared.toCore (s.pcs t)

theorem Trapped.ne_idle (h : Trapped cfg core pc) : pc ≠ .idle := by
  rintro rfl
  exact h

variable [DecidableEq ι]

theorem Appending.step (h : Appending cfg t s) (hl : Working t l) (hfresh : SwapsFresh cfg s l)
    (hstep : s.step crc32 cfg l = some s') :
    Appending cfg t s' ∧
      stepsLeft cfg s'.shared.toCore (s'.pcs t) + [l].count (.thread t) ≤
        stepsLeft cfg s.shared.toCore (s.pcs t) := by
  have hsolo := h.solo.system_step hl.onlyCaller hstep
  rcases hl with rfl | rfl
  · obtain ⟨⟨sh', pc'⟩, hthread, rfl⟩ := Option.map_eq_some_iff.mp hstep
    obtain ⟨hheading, hless⟩ := onward h.solo h.heading hfresh hthread
    refine ⟨⟨hsolo, by simpa [System.setPc] using hheading⟩, ?_⟩
    simpa [System.setPc] using hless
  · obtain ⟨⟨sh', fl'⟩, hflush, rfl⟩ := Option.map_eq_some_iff.mp hstep
    obtain ⟨hheading, hsame⟩ := h.solo.heading_frame (stepFlush_effect hflush) h.heading
    exact ⟨⟨hsolo, hheading⟩, by simp [hsame]⟩

theorem Appending.execute {labels : List (Label ι)} (h : Appending cfg t s)
    (hlabels : ∀ l ∈ labels, Working t l)
    (hfresh : Disciplined (System.step crc32 cfg) (SwapsFresh cfg) labels s)
    (hexec : execute (System.step crc32 cfg) labels s = some s') :
    Appending cfg t s' ∧
      stepsLeft cfg s'.shared.toCore (s'.pcs t) + labels.count (.thread t) ≤
        stepsLeft cfg s.shared.toCore (s.pcs t) := by
  induction labels generalizing s with
  | nil => exact Option.some.inj hexec ▸ ⟨h, by simp⟩
  | cons l labels ih =>
      obtain ⟨mid, hmid, hrest⟩ := Option.bind_eq_some_iff.mp hexec
      obtain ⟨hl, hlabels⟩ := List.forall_mem_cons.mp hlabels
      obtain ⟨hnext, hleft⟩ := h.step hl hfresh.1 hmid
      obtain ⟨hlast, hcount⟩ := ih hnext hlabels (hfresh.2 mid hmid) hrest
      refine ⟨hlast, ?_⟩
      rw [List.count_singleton] at hleft
      rw [List.count_cons]
      omega

theorem Trapped.execute {labels : List (Label ι)}
    (htrapped : Trapped cfg s.shared.toCore (s.pcs t))
    (h : Solo cfg s.shared s.flush.pc (s.pcs t)) (hlabels : ∀ l ∈ labels, Working t l)
    (hexec : execute (System.step crc32 cfg) labels s = some s') :
    Trapped cfg s'.shared.toCore (s'.pcs t) := by
  induction labels generalizing s with
  | nil => exact Option.some.inj hexec ▸ htrapped
  | cons l labels ih =>
      obtain ⟨mid, hmid, hrest⟩ := Option.bind_eq_some_iff.mp hexec
      obtain ⟨hl, hlabels⟩ := List.forall_mem_cons.mp hlabels
      refine ih ?_ (h.system_step hl.onlyCaller hmid) hlabels hrest
      rcases hl with rfl | rfl
      · obtain ⟨⟨sh', pc'⟩, hthread, rfl⟩ := Option.map_eq_some_iff.mp hmid
        simpa [System.setPc] using htrapped.thread h hthread
      · obtain ⟨⟨sh', fl'⟩, hflush, rfl⟩ := Option.map_eq_some_iff.mp hmid
        exact htrapped.congr (stepFlush_effect hflush).active_eq

/-- A run with a swap that went wrong. -/
theorem Appending.trapped {labels : List (Label ι)} (h : Appending cfg t s)
    (hlabels : ∀ l ∈ labels, Working t l)
    (hfresh : ¬ Disciplined (System.step crc32 cfg) (SwapsFresh cfg) labels s)
    (hexec : Library.execute (System.step crc32 cfg) labels s = some s') :
    Trapped cfg s'.shared.toCore (s'.pcs t) := by
  induction labels generalizing s with
  | nil => exact absurd trivial hfresh
  | cons l labels ih =>
      obtain ⟨mid, hmid, hrest⟩ := Option.bind_eq_some_iff.mp hexec
      obtain ⟨hl, hlabels⟩ := List.forall_mem_cons.mp hlabels
      by_cases hnow : SwapsFresh cfg s l
      · refine ih (h.step hl hnow hmid).1 hlabels (fun hlater => hfresh ⟨hnow, ?_⟩) hrest
        rintro s'' hs''
        obtain rfl := Option.some.inj (hmid.symm.trans hs'')
        exact hlater
      · refine Trapped.execute ?_ (h.solo.system_step hl.onlyCaller hmid) hlabels hrest
        rcases hl with rfl | rfl
        · obtain ⟨⟨sh', pc'⟩, hthread, rfl⟩ := Option.map_eq_some_iff.mp hmid
          simpa [System.setPc] using trapped_of_not_takesFresh h.solo hnow hthread
        · exact absurd trivial hnow

/-- The caller waits only for a buffer, and then the flush thread has all of them. -/
theorem Solo.progress (h : Solo cfg s.shared s.flush.pc (s.pcs t)) :
    s.pcs t = .idle ∨ (s.step crc32 cfg (.thread t)).isSome ∨
      s.shared.freePool = [] ∧
        (s.shared.flushQueue ++ s.flush.pc.buf?.toList).length = cfg.bufferCount + 1 := by
  simp only [System.step, Option.isSome_map]
  have hat := h.at_pc
  cases hpc : s.pcs t with
  | idle => exact .inl rfl
  | append | claimed | holding | sync => exact .inr (.inl rfl)
  | close | panicked => rw [hpc] at hat; exact hat.elim
  | swap caller old spc =>
      cases spc with
      | pop nextMinLsn =>
          cases hfree : s.shared.freePool with
          | cons => exact .inr (.inl (by simp [stepThread, Wal.stepSwap, hfree]))
          | nil =>
              refine .inr (.inr ⟨rfl, ?_⟩)
              have hlength := h.places.length_eq
              simpa [hpc, hand, hfree] using hlength
      | cas | barrier =>
          refine .inr (.inl ?_)
          simp only [stepThread, Wal.stepSwap]
          split <;> rfl
      | loadCount | storeCount | loadMinLsn | send | reset | install => exact .inr (.inl rfl)

/-- A call of `append` starts on its way to the return. -/
theorem Appending.start {memory : BufId → ℕ → UInt8} {payload : Bytes} {s₀ : System ι}
    (hreach : Reaches (System.step crc32 cfg) (fun _ => OnlyCaller t) (.init cfg memory) s₀)
    (hcall : s₀.step crc32 cfg (.call t (.append payload)) = some s) :
    Appending cfg t s ∧ s.pcs t = .append payload .checkStop := by
  have hpc : s.pcs t = .append payload .checkStop := by
    simp only [System.step] at hcall
    split at hcall
    · obtain rfl := Option.some.inj hcall
      simp [System.setPc, Call.start]
    · cases hcall
  have hl : OnlyCaller t (.call t (.append payload)) := ⟨rfl, by simp⟩
  have hsolo := (Solo.of_reaches hreach).system_step hl hcall
  exact ⟨⟨hsolo, by rw [hpc]; trivial⟩, hpc⟩

/-- A call of `append` by the only caller of an open WAL. As long as its swap takes fresh
buffers, it takes a bounded number of steps, and waits only while the flush thread has all
buffers. Once its swap took another one, it never returns. -/
theorem append_terminates {memory : BufId → ℕ → UInt8} {payload : Bytes} {s₀ : System ι}
    {labels : List (Label ι)}
    (hreach : Reaches (System.step crc32 cfg) (fun _ => OnlyCaller t) (.init cfg memory) s₀)
    (hcall : s₀.step crc32 cfg (.call t (.append payload)) = some s)
    (hlabels : ∀ l ∈ labels, Working t l)
    (hexec : Library.execute (System.step crc32 cfg) labels s = some s') :
    (s'.pcs t = .idle ∨ (s'.step crc32 cfg (.thread t)).isSome ∨
      s'.shared.freePool = [] ∧
        (s'.shared.flushQueue ++ s'.flush.pc.buf?.toList).length = cfg.bufferCount + 1) ∧
    (Disciplined (System.step crc32 cfg) (SwapsFresh cfg) labels s →
      labels.count (.thread t) ≤ frameLen payload + 26) ∧
    (¬ Disciplined (System.step crc32 cfg) (SwapsFresh cfg) labels s → s'.pcs t ≠ .idle) := by
  obtain ⟨happending, hpc⟩ := Appending.start hreach hcall
  refine ⟨?_, fun hfresh => ?_, fun hfresh => ?_⟩
  · exact (happending.solo.execute (fun l hl => (hlabels l hl).onlyCaller) hexec).progress
  · obtain ⟨-, hcount⟩ := happending.execute hlabels hfresh hexec
    have hstart : stepsLeft cfg s.shared.toCore (s.pcs t) ≤ frameLen payload + 26 := by
      rw [hpc]
      simp only [stepsLeft]
      split <;> omega
    omega
  · exact (happending.trapped hlabels hfresh hexec).ne_idle

end Runs

/-- A frame that fits the first buffer. -/
theorem append_terminates_first :
    ∃ s s' : System (Fin 1),
      execute stepOneBlock ([.call 0 (.append [7])] ++ turns 0 25) (freshWal 1) = some s' ∧
        s'.pcs 0 = .idle ∧ stepOneBlock (freshWal 1) (.call 0 (.append [7])) = some s ∧
        (turns (0 : Fin 1) 25).count (.thread 0) ≤ frameLen [7] + 26 := by
  have hidle : (execute stepOneBlock ([.call 0 (.append [7])] ++ turns 0 25) (freshWal 1)).map
      (·.pcs 0) = some .idle := by decide +kernel
  obtain ⟨s', hrun, hs'⟩ := Option.map_eq_some_iff.mp hidle
  obtain ⟨s, hcall, hexec⟩ := Option.bind_eq_some_iff.mp hrun
  have hlabels : ∀ l ∈ turns (0 : Fin 1) 25, Working 0 l := by
    intro l hl
    exact .inl (List.eq_of_mem_replicate hl)
  refine ⟨s, s', hrun, hs', hcall, ?_⟩
  obtain ⟨-, hbound, hnever⟩ := append_terminates .start hcall hlabels hexec
  exact hbound (not_not.mp fun hfresh => hnever hfresh hs')

/-- A payload whose frame is larger than a block. -/
def oversized : Bytes := List.replicate 497 0

theorem not_fits_oversized : ¬ fits oneBlockConfig 0 (frameLen oversized) := by
  rw [frameLen, oversized, List.length_replicate]
  decide

/-- The append swaps one empty buffer for the next. -/
theorem oversized_append_never_returns :
    oneBlockConfig.validate = .ok () ∧
      ∃ s, stepOneBlock (freshWal 1) (.call 0 (.append oversized)) = some s ∧
        ∀ labels s', (∀ l ∈ labels, Working 0 l) → execute stepOneBlock labels s = some s' →
          s'.pcs 0 ≠ .idle ∧ ((stepOneBlock s' (.thread 0)).isSome ∨ s'.shared.freePool = []) := by
  refine ⟨by decide, _, rfl, fun labels s' hlabels hexec => ?_⟩
  have hsolo : Solo oneBlockConfig (freshWal 1).shared .recv (.append oversized .checkStop) :=
    (solo_init _).stay rfl rfl rfl rfl rfl rfl (solo_init _).at_pc
  have htrapped : Trapped oneBlockConfig (freshWal 1).shared.toCore
      (.append oversized .checkStop) := not_fits_oversized
  have hnever := (Trapped.execute htrapped hsolo hlabels hexec).ne_idle
  have hsolo' := hsolo.execute (fun l hl => (hlabels l hl).onlyCaller) hexec
  refine ⟨hnever, ?_⟩
  rcases hsolo'.progress with hidle | hstep | ⟨hfree, -⟩
  · exact absurd hidle hnever
  · exact .inl hstep
  · exact .inr hfree

end Todb.Wal

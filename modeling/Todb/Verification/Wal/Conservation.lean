import Todb.Verification.Wal.Chain

/-! # No buffer is lost

Until `close` is called, every buffer is in one of the places, once, and what an append has
returned is flushed or in a buffer that still has to be. -/

namespace Todb.Wal

open Library

/-- Inside a call of `close`. -/
def Pc.closing : Pc → Bool
  | .close _ _ | .swap (.close _) _ _ => true
  | _ => false

section Flags

variable {cfg : WalConfig} {crc32 : Bytes → UInt32} {sh sh' : Shared} {pc' : Pc}

theorem stepSwap_flags {caller : Caller} {old : BufId} {pc : SwapPc}
    (h : stepSwap sh caller old pc = some (sh', pc')) :
    sh'.stopFlag = sh.stopFlag ∧ sh'.flushTx = sh.flushTx := by
  cases pc <;> simp only [stepSwap] at h
  case cas | barrier => split at h <;> cases h <;> exact ⟨rfl, rfl⟩
  case pop =>
    split at h
    · cases h
      exact ⟨rfl, rfl⟩
    · split at h <;> cases h
      exact ⟨rfl, rfl⟩
  all_goals
    cases h
    exact ⟨rfl, rfl⟩

/-- Only `close` shuts down. -/
theorem stepThread_open {stopped : Option Bool} {pc : Pc}
    (h : stepThread crc32 cfg sh stopped pc = some (sh', pc')) (hpc : pc.closing = false) :
    sh'.stopFlag = sh.stopFlag ∧ sh'.flushTx = sh.flushTx ∧ pc'.closing = false := by
  cases pc with
  | idle | panicked => cases h
  | append payload pc =>
      cases pc with
      | checkStop | claimBytes =>
          cases h
          exact ⟨rfl, rfl, by split <;> rfl⟩
      | loadActive | waitActive | waitStop =>
          cases h
          exact ⟨rfl, rfl, rfl⟩
  | claimed claim =>
      simp only [stepThread, stepClaimed, Option.some.injEq] at h
      split at h <;> cases h <;> exact ⟨rfl, rfl, rfl⟩
  | holding held pc => cases pc <;> cases h <;> exact ⟨rfl, rfl, rfl⟩
  | swap caller old pc =>
      obtain ⟨hstop, htx⟩ := stepSwap_flags h
      refine ⟨hstop, htx, ?_⟩
      rcases stepSwap_pc h with ⟨next, rfl⟩ | rfl <;> cases caller
      all_goals first | rfl | cases hpc
  | sync before pc =>
      cases pc with
      | checkStop | pollStop =>
          cases h
          exact ⟨rfl, rfl, by split <;> rfl⟩
      | loadActive | loadMinLsn | loadAllocated | poll | sleep | finish =>
          cases h
          exact ⟨rfl, rfl, rfl⟩
  | close => cases hpc

theorem FlushStep.stopFlag_eq {fl fl' : FlushThread} (h : FlushStep cfg sh fl sh' fl') :
    sh'.stopFlag = sh.stopFlag := by
  cases h <;> rfl

end Flags

section Open

variable {ι : Type} [Fintype ι] [DecidableEq ι] {cfg : WalConfig} {crc32 : Bytes → UInt32}
  {s s' : System ι} {l : Label ι}

/-- Orderly steps, and no call of `close`. -/
def OrderlyOpen (cfg : WalConfig) (s : System ι) (l : Label ι) : Prop :=
  Orderly cfg s l ∧ ∀ t, l ≠ .call t .close

/-- Nothing is shut down and no buffer is lost. -/
structure Open (cfg : WalConfig) (s : System ι) : Prop where
  running : ∀ t, (s.pcs t).closing = false
  stopFlag : s.shared.stopFlag = false
  flushTx : s.shared.flushTx = true
  places_eq : places s.shared.toCore s.pcs s.flush.pc = Multiset.range (cfg.bufferCount + 1)

omit [DecidableEq ι] in
theorem Open.init (cfg : WalConfig) (memory : BufId → ℕ → UInt8) :
    Open cfg (System.init cfg memory : System ι) :=
  ⟨fun _ => rfl, rfl, rfl, places_init cfg memory⟩

omit [Fintype ι] in
theorem running_update {pcs : ι → Pc} {t : ι} {pc' : Pc} (hpc' : pc'.closing = false)
    (h : ∀ u, (pcs u).closing = false) (u : ι) : (Function.update pcs t pc' u).closing = false := by
  by_cases hu : u = t
  · subst hu
    rwa [Function.update_self]
  · rw [Function.update_of_ne hu]
    exact h u

theorem Open.running_step (hopen : Open cfg s) (hok : OrderlyOpen cfg s l)
    (hstep : s.step crc32 cfg l = some s') :
    (∀ t, (s'.pcs t).closing = false) ∧ s'.shared.stopFlag = false ∧ s'.shared.flushTx = true := by
  cases System.step_effect hstep with
  | @call t call =>
      refine ⟨running_update ?_ hopen.running, hopen.stopFlag, hopen.flushTx⟩
      cases call with
      | append | sync => rfl
      | close => exact absurd rfl (hok.2 t)
  | @thread t sh' pc' hthread =>
      obtain ⟨hstop, htx, hrunning⟩ := stepThread_open hthread (hopen.running t)
      exact ⟨running_update hrunning hopen.running, hstop.trans hopen.stopFlag,
        htx.trans hopen.flushTx⟩
  | timeout => exact ⟨running_update rfl hopen.running, hopen.stopFlag, hopen.flushTx⟩
  | flush hflush =>
      have hfine := stepFlush_step hflush
      exact ⟨hopen.running, hfine.stopFlag_eq.trans hopen.stopFlag,
        hfine.effect.flushTx_eq.trans hopen.flushTx⟩

/-- As long as nothing is shut down, a step moves buffers and loses none. -/
theorem Open.places_step (hopen : Open cfg s) (own : Owned cfg s) (hmove : Move cfg crc32 s l s') :
    places s'.shared.toCore s'.pcs s'.flush.pc = Multiset.range (cfg.bufferCount + 1) := by
  rw [← hopen.places_eq]
  cases hmove with
  | @thread t _ _ _ hpc heff hok =>
      obtain ⟨lost, hplaces, hlost⟩ := Wal.places_step s.flush.pc heff hpc (hpc ▸ own.swapAt t) hok
      rwa [hlost hopen.flushTx, add_zero] at hplaces
  | flush hstep =>
      obtain ⟨lost, hplaces, hlost⟩ := places_flush s.pcs (stepFlush_effect hstep)
      rwa [hlost hopen.stopFlag, add_zero] at hplaces

theorem Open.step (hopen : Open cfg s) (own : Owned cfg s) (hok : OrderlyOpen cfg s l)
    (hstep : s.step crc32 cfg l = some s') : Open cfg s' := by
  obtain ⟨hrunning, hstop, htx⟩ := hopen.running_step hok hstep
  exact ⟨hrunning, hstop, htx, hopen.places_step own (System.step_move hstep hok.1)⟩

/-- An LSN whose frame is in a buffer that still has to be flushed: the buffer its slot was
claimed in is active, swapped or with the flush thread, and has not been reset since. -/
def Unflushed (s : System ι) (x : ℕ) : Prop :=
  ∃ issue, s.shared.issued[x]? = some issue ∧
    (s.shared.buffers issue.buf).minLsn + issue.slot = x ∧
    issue.slot < (s.shared.buffers issue.buf).entriesAllocated ∧
    (issue.buf = s.shared.active ∧ s.shared.phase ≠ .sent ∨
      issue.buf ∈ pending s.shared.toCore s.flush.pc)

omit [Fintype ι] [DecidableEq ι] in
theorem Placed.unflushed {b : BufId} {x : ℕ} (h : Placed s.shared.toCore b)
    (hmin : (s.shared.buffers b).minLsn ≤ x)
    (hend : x < (s.shared.buffers b).minLsn + (s.shared.buffers b).entriesAllocated)
    (hplace : b = s.shared.active ∧ s.shared.phase ≠ .sent ∨
      b ∈ pending s.shared.toCore s.flush.pc) : Unflushed s x := by
  obtain ⟨pos, payload, hissue⟩ := h (x - (s.shared.buffers b).minLsn) (by omega)
  rw [Nat.add_sub_cancel' hmin] at hissue
  have hslot : x - (s.shared.buffers b).minLsn < (s.shared.buffers b).entriesAllocated := by omega
  exact ⟨_, hissue, Nat.add_sub_cancel' hmin, hslot, hplace⟩

omit [DecidableEq ι] in
theorem ChainedUp.unflushed (ch : ChainedUp s) (num : Numbered cfg s)
    (htx : s.shared.flushTx = true) {x : ℕ} (hx : x < s.shared.issued.length) :
    x < s.shared.published ∨ Unflushed s x := by
  by_cases hpublished : x < s.shared.published
  · exact .inl hpublished
  by_cases hsent : x < sentEnd s.shared.toCore s.flush.pc
  · obtain ⟨b, hb, hmin, hend⟩ := ch.chain.exists_mem (not_lt.mp hpublished) hsent
    exact .inr ((ch.placed b hb).unflushed hmin hend (.inr hb))
  · rw [ch.sentEnd_eq htx, Core.unsentFrom] at hsent
    split at hsent
    · exact absurd hx hsent
    · rename_i hphase
      have hnext := num.next hphase
      exact .inr ((ch.placed_active hphase).unflushed (not_lt.mp hsent) (by omega)
        (.inl ⟨rfl, hphase⟩))

theorem open_of_orderly {memory : BufId → ℕ → UInt8}
    (h : Reaches (System.step crc32 cfg) (OrderlyOpen cfg) (System.init cfg memory) s) :
    Owned cfg s ∧ Numbered cfg s ∧ ChainedUp s ∧ Open cfg s := by
  refine h.invariant (P := fun s => Owned cfg s ∧ Numbered cfg s ∧ ChainedUp s ∧ Open cfg s)
    ⟨.init cfg memory, .init cfg memory, .init cfg memory, .init cfg memory⟩ ?_
  rintro s l s' ⟨own, num, ch, hopen⟩ hok hstep
  have hmove := System.step_move hstep hok.1
  exact ⟨own.step hmove, num.step own hmove, ch.step own num hmove, hopen.step own hok hstep⟩

/-- Buffer ownership: each buffer is in exactly one place, `active` moves on only from a buffer
that was handed to the flush thread, and every returned LSN is published or in a buffer that
still has to be flushed. -/
theorem buffers_owned_once (crc32 : Bytes → UInt32) (cfg : WalConfig)
    (memory : BufId → ℕ → UInt8) (s : System ι)
    (h : Reaches (System.step crc32 cfg) (OrderlyOpen cfg) (System.init cfg memory) s) :
    places s.shared.toCore s.pcs s.flush.pc = Multiset.range (cfg.bufferCount + 1) ∧
      (∀ t caller old new, s.pcs t = .swap caller old (.install new) →
        s.shared.active = old ∧ s.shared.phase = .sent) ∧
      ∀ x ∈ s.shared.returned,
        x < s.shared.published ∨ Unflushed s x := by
  obtain ⟨own, num, ch, hopen⟩ := open_of_orderly h
  refine ⟨hopen.places_eq, fun t caller old new hpc => ?_, fun x hx => ?_⟩
  · obtain ⟨hactive, hsent, -⟩ := own.swapAt t (old, .install new) (by rw [hpc]; rfl)
    exact ⟨hactive, hsent⟩
  · exact ch.unflushed num hopen.flushTx (num.returned_lt hx)

end Open

instance {ι : Type} [Fintype ι] [DecidableEq ι] (cfg : WalConfig) (s : System ι) (l : Label ι) :
    Decidable (OrderlyOpen cfg s l) :=
  inferInstanceAs (Decidable (_ ∧ _))

/-- After an append and a `sync`, the first buffer is free again and its frame published. -/
theorem buffers_owned_once_synced :
    ∃ s : System (Fin 1), s.shared.published = 1 ∧ s.shared.freePool = [0, 1] ∧
      places s.shared.toCore s.pcs s.flush.pc = Multiset.range 3 := by
  obtain ⟨s, hreach, hs⟩ :
      ∃ s : System (Fin 1), Reaches stepOneBlock (OrderlyOpen oneBlockConfig) (freshWal 1) s ∧
        (s.shared.published, s.shared.freePool) = (1, [0, 1]) :=
    Reaches.exists_of_execute
      ([.call 0 (.append [7])] ++ turns 0 25 ++ [.call 0 .sync] ++ turns 0 18 ++
        List.replicate 18 .flush) _ _ (by decide +kernel) (by decide +kernel)
  obtain ⟨hpublished, hfree⟩ := Prod.mk.inj hs
  exact ⟨s, hpublished, hfree, (buffers_owned_once _ _ _ s hreach).1⟩

/-- A `sync` that was delayed before its compare-exchange wins a buffer that has been flushed and
recycled meanwhile: the buffer is in the free pool and owned by a swapper. -/
theorem buffer_owned_twice :
    ∃ s : System (Fin 2), Reaches stepOneBlock (Admissible oneBlockConfig) (freshWal 2) s ∧
      ¬ (places s.shared.toCore s.pcs s.flush.pc).Nodup := by
  obtain ⟨s, hreach, hs⟩ :
      ∃ s : System (Fin 2), Reaches stepOneBlock (Admissible oneBlockConfig) (freshWal 2) s ∧
        (s.pcs 0, s.shared.freePool) = (.swap (.sync [] 0) 0 .barrier, [0, 1]) :=
    Reaches.exists_of_execute
      ([.call 0 .sync] ++ turns 0 4 ++ [.call 1 .sync] ++ turns 1 18 ++ List.replicate 11 .flush ++
        turns 0 1) _ _ (by decide +kernel) (by decide +kernel)
  obtain ⟨hpc, hfree⟩ := Prod.mk.inj hs
  refine ⟨s, hreach, fun hnodup => ?_⟩
  have howned : 0 ∈ (s.pcs 0).owned := by
    rw [hpc]
    exact Multiset.mem_singleton_self 0
  obtain ⟨-, -, hdisjoint⟩ := Multiset.nodup_add.mp hnodup
  refine Multiset.disjoint_left.mp hdisjoint
    (Multiset.mem_add.mpr (.inl (Multiset.mem_add.mpr (.inl (owned_mem howned))))) ?_
  simp [hfree]

end Todb.Wal

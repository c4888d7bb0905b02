import Todb.Model.Wal.System

/-! # What a step can do

Most steps of a caller only read. The ones that matter to other threads are a byte claim, a
slot claim, the critical section of `append` and the swap; the flush thread owns one buffer
at a time. -/

namespace Todb.Wal

open Library

/-! ## Buffer operations -/

section Modify

variable (core : Core) (buf : BufId) (f : WalBuffer → WalBuffer)

@[simp] theorem Shared.toCore_modify (sh : Shared) :
    (sh.modify buf f).toCore = sh.toCore.modify buf f := rfl

@[simp] theorem Core.modify_self : (core.modify buf f).buffers buf = f (core.buffers buf) := by
  simp [Core.modify]

variable {buf} in
@[simp] theorem Core.modify_of_ne {b : BufId} (hne : b ≠ buf) :
    (core.modify buf f).buffers b = core.buffers b := by
  simp [Core.modify, hne]

@[simp] theorem Core.modify_active : (core.modify buf f).active = core.active := rfl

@[simp] theorem Core.modify_freePool : (core.modify buf f).freePool = core.freePool := rfl

@[simp] theorem Core.modify_flushQueue : (core.modify buf f).flushQueue = core.flushQueue := rfl

@[simp] theorem Core.modify_durableLsn : (core.modify buf f).durableLsn = core.durableLsn := rfl

@[simp] theorem Core.modify_phase : (core.modify buf f).phase = core.phase := rfl

@[simp] theorem Core.modify_issued : (core.modify buf f).issued = core.issued := rfl

@[simp] theorem Core.modify_returned : (core.modify buf f).returned = core.returned := rfl

@[simp] theorem Core.modify_published : (core.modify buf f).published = core.published := rfl

variable {f}

/-- An operation leaves alone what it does not write. -/
theorem Core.modify_field {α : Type*} (g : WalBuffer → α) (hg : ∀ b, g (f b) = g b) (b : BufId) :
    g ((core.modify buf f).buffers b) = g (core.buffers b) := by
  by_cases hne : b = buf
  · rw [hne, core.modify_self, hg]
  · rw [core.modify_of_ne f hne]

@[simp] theorem Core.modify_data (h : ∀ b, (f b).data = b.data) (b : BufId) :
    ((core.modify buf f).buffers b).data = (core.buffers b).data :=
  core.modify_field buf (·.data) h b

@[simp] theorem Core.modify_writePos (h : ∀ b, (f b).writePos = b.writePos) (b : BufId) :
    ((core.modify buf f).buffers b).writePos = (core.buffers b).writePos :=
  core.modify_field buf (·.writePos) h b

@[simp] theorem Core.modify_entriesAllocated (h : ∀ b, (f b).entriesAllocated = b.entriesAllocated) (b : BufId) :
    ((core.modify buf f).buffers b).entriesAllocated = (core.buffers b).entriesAllocated :=
  core.modify_field buf (·.entriesAllocated) h b

@[simp] theorem Core.modify_entries (h : ∀ b, (f b).entries = b.entries) (b : BufId) :
    ((core.modify buf f).buffers b).entries = (core.buffers b).entries :=
  core.modify_field buf (·.entries) h b

@[simp] theorem Core.modify_inFlight (h : ∀ b, (f b).inFlight = b.inFlight) (b : BufId) :
    ((core.modify buf f).buffers b).inFlight = (core.buffers b).inFlight :=
  core.modify_field buf (·.inFlight) h b

@[simp] theorem Core.modify_state (h : ∀ b, (f b).state = b.state) (b : BufId) :
    ((core.modify buf f).buffers b).state = (core.buffers b).state :=
  core.modify_field buf (·.state) h b

@[simp] theorem Core.modify_minLsn (h : ∀ b, (f b).minLsn = b.minLsn) (b : BufId) :
    ((core.modify buf f).buffers b).minLsn = (core.buffers b).minLsn :=
  core.modify_field buf (·.minLsn) h b

@[simp] theorem Core.modify_count (h : ∀ b, (f b).count = b.count) (b : BufId) :
    ((core.modify buf f).buffers b).count = (core.buffers b).count :=
  core.modify_field buf (·.count) h b

end Modify

/-! ## Roles -/

namespace Pc

/-- The byte range of an append between its byte claim and its return. -/
def claim? : Pc → Option Claim
  | .claimed claim => some claim
  | .holding held _ => some held.toClaim
  | _ => none

/-- The slot of an append between its slot claim and its return. -/
def held? : Pc → Option (Held × HoldPc)
  | .holding held pc => some (held, pc)
  | _ => none

/-- A swap whose compare-exchange succeeded. -/
def swap? : Pc → Option (BufId × SwapPc)
  | .swap _ _ .cas => none
  | .swap _ old pc => some (old, pc)
  | _ => none

/-- The payload an append is working on. -/
def payload? : Pc → Option Bytes
  | .append payload _ => some payload
  | .claimed claim => some claim.payload
  | .holding held _ => some held.payload
  | .swap (.append payload) _ _ => some payload
  | _ => none

/-- Neither in the critical section of `append` nor swapping. -/
structure Outside (pc : Pc) : Prop where
  claim?_eq : pc.claim? = none
  held?_eq : pc.held? = none
  swap?_eq : pc.swap? = none

theorem Outside.idle : Outside .idle := ⟨rfl, rfl, rfl⟩

theorem Outside.panicked : Outside .panicked := ⟨rfl, rfl, rfl⟩

theorem Outside.append (payload : Bytes) (pc : AppendPc) : Outside (.append payload pc) :=
  ⟨rfl, rfl, rfl⟩

theorem Outside.sync (before : List ℕ) (pc : SyncPc) : Outside (.sync before pc) :=
  ⟨rfl, rfl, rfl⟩

theorem Outside.close (before : List ℕ) (pc : ClosePc) : Outside (.close before pc) :=
  ⟨rfl, rfl, rfl⟩

theorem Outside.cas (caller : Caller) (old : BufId) : Outside (.swap caller old .cas) :=
  ⟨rfl, rfl, rfl⟩

theorem Outside.resume (caller : Caller) (old : BufId) : Outside (caller.resume old) := by
  cases caller <;> exact ⟨rfl, rfl, rfl⟩

theorem Outside.start (sh : Shared) (call : Call) : Outside (call.start sh) := by
  cases call <;> exact ⟨rfl, rfl, rfl⟩

end Pc

/-- The flags only ever move towards shutdown. -/
structure Shared.Closing (sh sh' : Shared) : Prop where
  stopFlag : sh.stopFlag = true → sh'.stopFlag = true
  flushTx : sh'.flushTx = true → sh.flushTx = true

theorem Shared.Closing.refl (sh : Shared) : sh.Closing sh := ⟨id, id⟩

/-! ## Callers -/

section Callers

variable (crc32 : Bytes → UInt32) (cfg : WalConfig)

/-- The byte claim of `append`. -/
def Shared.claimBytes (sh : Shared) (buf : BufId) (payload : Bytes) : Shared :=
  sh.modify buf fun b => { b with writePos := (b.writePos + frameLen payload) % 2 ^ 64 }

/-- The slot claim of `append`. -/
def Shared.claimSlot (sh : Shared) (buf : BufId) : Shared :=
  sh.modify buf fun b => { b with entriesAllocated := (b.entriesAllocated + 1) % 2 ^ 64 }

/-- A caller's step, as far as other threads are concerned. -/
inductive Effect (sh : Shared) : Pc → Shared → Pc → Prop
  | outside {pc pc' : Pc} {sh' : Shared} (hpc : pc.Outside) (hpc' : pc'.Outside)
      (hcore : sh'.toCore = sh.toCore) (hclosing : sh.Closing sh') : Effect sh pc sh' pc'
  -- `append` up to its slot claim
  | overflow {payload : Bytes} {buf : BufId}
      (hfull : ¬ fits cfg (sh.buffers buf).writePos (frameLen payload)) :
      Effect sh (.append payload (.claimBytes buf)) (sh.claimBytes buf payload)
        (.swap (.append payload) buf .cas)
  | claimBytes {payload : Bytes} {buf : BufId}
      (hfits : fits cfg (sh.buffers buf).writePos (frameLen payload)) :
      Effect sh (.append payload (.claimBytes buf)) (sh.claimBytes buf payload)
        (.claimed ⟨buf, (sh.buffers buf).writePos, payload⟩)
  | claimSlot {claim : Claim} {slot : ℕ} (hslot : (sh.buffers claim.buf).entriesAllocated = slot)
      (hroom : slot < cfg.bufferSize / headerLen) :
      Effect sh (.claimed claim)
        { sh.claimSlot claim.buf with
          issued := sh.issued ++ [⟨claim.buf, slot, claim.pos, claim.payload⟩] }
        (.holding ⟨claim, slot, sh.issued.length⟩ .loadMinLsn)
  | exhausted {claim : Claim}
      (hfull : cfg.bufferSize / headerLen ≤ (sh.buffers claim.buf).entriesAllocated) :
      Effect sh (.claimed claim) (sh.claimSlot claim.buf) .panicked
  -- the rest of `append`
  | loadLsn {held : Held} :
      Effect sh (.holding held .loadMinLsn) sh
        (.holding { held with lsn := ((sh.buffers held.buf).minLsn + held.slot) % 2 ^ 64 } .enter)
  | enter {held : Held} :
      Effect sh (.holding held .enter)
        (sh.modify held.buf fun b => { b with inFlight := (b.inFlight + 1) % 2 ^ 32 })
        (.holding held (.copy 0))
  | copy {held : Held} {k : ℕ} :
      Effect sh (.holding held (.copy k))
        (sh.modify held.buf fun b =>
          { b with
            data := Function.update b.data (held.pos + k)
              ((encode crc32 held.lsn held.payload).getD k 0) })
        (.holding held (if k + 1 < frameLen held.payload then .copy (k + 1) else .store))
  | store {held : Held} :
      Effect sh (.holding held .store)
        (sh.modify held.buf fun b =>
          { b with
            entries := Function.update b.entries held.slot
              (pack held.pos (frameLen held.payload % 2 ^ 32)) })
        (.holding held .leave)
  | leave {held : Held} :
      Effect sh (.holding held .leave)
        { sh.modify held.buf fun b =>
            { b with inFlight := (b.inFlight + (2 ^ 32 - 1)) % 2 ^ 32 } with
          returned := sh.returned ++ [held.lsn] } .idle
  -- `try_swap_full`
  | cas {caller : Caller} {old : BufId} (hstate : (sh.buffers old).state = .active) :
      Effect sh (.swap caller old .cas)
        { sh.modify old fun b => { b with state := .full } with phase := .draining }
        (.swap caller old .barrier)
  | spin {caller : Caller} {old : BufId} :
      Effect sh (.swap caller old .barrier) sh (.swap caller old .barrier)
  | drained {caller : Caller} {old : BufId} (hzero : (sh.buffers old).inFlight = 0) :
      Effect sh (.swap caller old .barrier) { sh with phase := .frozen }
        (.swap caller old .loadCount)
  | loadCount {caller : Caller} {old : BufId} :
      Effect sh (.swap caller old .loadCount) sh
        (.swap caller old (.storeCount (sh.buffers old).entriesAllocated))
  | storeCount {caller : Caller} {old : BufId} {count : ℕ} :
      Effect sh (.swap caller old (.storeCount count)) (sh.modify old fun b => { b with count })
        (.swap caller old (.loadMinLsn count))
  | loadMinLsn {caller : Caller} {old : BufId} {count : ℕ} :
      Effect sh (.swap caller old (.loadMinLsn count)) sh
        (.swap caller old (.send (((sh.buffers old).minLsn + count) % 2 ^ 64)))
  | send {caller : Caller} {old : BufId} {nextMinLsn : ℕ} :
      Effect sh (.swap caller old (.send nextMinLsn))
        { sh with
          flushQueue := if sh.flushTx then sh.flushQueue ++ [old] else sh.flushQueue
          phase := .sent }
        (.swap caller old (.pop nextMinLsn))
  | pop {caller : Caller} {old : BufId} {nextMinLsn : ℕ} {new : BufId} {freePool : List BufId}
      (hfree : sh.freePool = new :: freePool) :
      Effect sh (.swap caller old (.pop nextMinLsn)) { sh with freePool }
        (.swap caller old (.reset new nextMinLsn 0))
  | giveUp {caller : Caller} {old : BufId} {nextMinLsn : ℕ} (hfree : sh.freePool = [])
      (hstop : sh.stopFlag = true) :
      Effect sh (.swap caller old (.pop nextMinLsn)) sh (caller.resume old)
  | reset {caller : Caller} {old new : BufId} {nextMinLsn stage : ℕ} :
      Effect sh (.swap caller old (.reset new nextMinLsn stage))
        (sh.modify new (WalBuffer.resetStore nextMinLsn stage))
        (.swap caller old (if stage + 1 < WalBuffer.resetStores then
          .reset new nextMinLsn (stage + 1) else .install new))
  | install {caller : Caller} {old new : BufId} :
      Effect sh (.swap caller old (.install new)) { sh with active := new, phase := .open }
        (caller.resume old)

variable {crc32 cfg} {sh sh' : Shared} {pc' : Pc}

theorem stepAppend_effect {payload : Bytes} {pc : AppendPc}
    (h : stepAppend cfg sh payload pc = (sh', pc')) :
    Effect crc32 cfg sh (.append payload pc) sh' pc' := by
  cases pc with
  | claimBytes buf =>
      obtain ⟨rfl, rfl⟩ := Prod.mk.inj h
      by_cases hfits : fits cfg (sh.buffers buf).writePos (frameLen payload)
      · rw [if_pos hfits]
        exact .claimBytes hfits
      · rw [if_neg hfits]
        exact .overflow hfits
  | checkStop =>
      obtain ⟨rfl, rfl⟩ := Prod.mk.inj h
      split
      · exact .outside (.append _ _) .idle rfl (.refl _)
      · exact .outside (.append _ _) (.append _ _) rfl (.refl _)
  | loadActive | waitActive | waitStop =>
      obtain ⟨rfl, rfl⟩ := Prod.mk.inj h
      exact .outside (.append _ _) (.append _ _) rfl (.refl _)

theorem stepSync_effect {before : List ℕ} {pc : SyncPc}
    (h : stepSync sh before pc = (sh', pc')) :
    Effect crc32 cfg sh (.sync before pc) sh' pc' := by
  cases pc with
  | checkStop | pollStop =>
      obtain ⟨rfl, rfl⟩ := Prod.mk.inj h
      split
      · exact .outside (.sync _ _) .idle rfl (.refl _)
      · exact .outside (.sync _ _) (.sync _ _) rfl (.refl _)
  | loadAllocated =>
      obtain ⟨rfl, rfl⟩ := Prod.mk.inj h
      exact .outside (.sync _ _) (.cas _ _) rfl (.refl _)
  | finish =>
      obtain ⟨rfl, rfl⟩ := Prod.mk.inj h
      exact .outside (.sync _ _) .idle rfl ⟨id, id⟩
  | loadActive | loadMinLsn | poll | sleep =>
      obtain ⟨rfl, rfl⟩ := Prod.mk.inj h
      exact .outside (.sync _ _) (.sync _ _) rfl (.refl _)

theorem stepClose_effect {before : List ℕ} {stopped : Option Bool} {pc : ClosePc}
    (h : stepClose sh before stopped pc = some (sh', pc')) :
    Effect crc32 cfg sh (.close before pc) sh' pc' := by
  cases pc with
  | lock =>
      simp only [stepClose] at h
      split at h
      · obtain ⟨rfl, rfl⟩ := Prod.mk.inj (Option.some.inj h)
        exact .outside (.close _ _) (.close _ _) rfl ⟨id, id⟩
      · cases h
      · obtain ⟨rfl, rfl⟩ := Prod.mk.inj (Option.some.inj h)
        exact .outside (.close _ _) .idle rfl ⟨id, id⟩
  | storeStop =>
      obtain ⟨rfl, rfl⟩ := Prod.mk.inj (Option.some.inj h)
      exact .outside (.close _ _) (.close _ _) rfl ⟨fun _ => rfl, id⟩
  | loadActive =>
      obtain ⟨rfl, rfl⟩ := Prod.mk.inj (Option.some.inj h)
      exact .outside (.close _ _) (.cas _ _) rfl ⟨id, id⟩
  | takeTx =>
      obtain ⟨rfl, rfl⟩ := Prod.mk.inj (Option.some.inj h)
      exact .outside (.close _ _) (.close _ _) rfl ⟨id, fun htx => by cases htx⟩
  | join =>
      simp only [stepClose] at h
      split at h
      · cases h
      · obtain ⟨rfl, rfl⟩ := Prod.mk.inj (Option.some.inj h)
        exact .outside (.close _ _) .idle rfl ⟨id, id⟩
      · obtain ⟨rfl, rfl⟩ := Prod.mk.inj (Option.some.inj h)
        exact .outside (.close _ _) .panicked rfl ⟨id, id⟩

theorem stepClaimed_effect {claim : Claim} (h : stepClaimed cfg sh claim = (sh', pc')) :
    Effect crc32 cfg sh (.claimed claim) sh' pc' := by
  by_cases hroom : (sh.buffers claim.buf).entriesAllocated < cfg.bufferSize / headerLen
  · rw [stepClaimed, if_pos hroom] at h
    obtain ⟨rfl, rfl⟩ := Prod.mk.inj h
    exact .claimSlot rfl hroom
  · rw [stepClaimed, if_neg hroom] at h
    obtain ⟨rfl, rfl⟩ := Prod.mk.inj h
    exact .exhausted (not_lt.mp hroom)

theorem stepHolding_effect {held : Held} {pc : HoldPc}
    (h : stepHolding crc32 sh held pc = (sh', pc')) :
    Effect crc32 cfg sh (.holding held pc) sh' pc' := by
  cases pc <;> obtain ⟨rfl, rfl⟩ := Prod.mk.inj h
  case loadMinLsn => exact .loadLsn
  case enter => exact .enter
  case copy k => exact .copy
  case store => exact .store
  case leave => exact .leave

theorem stepSwap_effect {caller : Caller} {old : BufId} {pc : SwapPc}
    (h : stepSwap sh caller old pc = some (sh', pc')) :
    Effect crc32 cfg sh (.swap caller old pc) sh' pc' := by
  cases pc with
  | cas =>
      simp only [stepSwap] at h
      split at h
      · rename_i hstate
        obtain ⟨rfl, rfl⟩ := Prod.mk.inj (Option.some.inj h)
        exact .cas hstate
      · obtain ⟨rfl, rfl⟩ := Prod.mk.inj (Option.some.inj h)
        exact .outside (.cas _ _) (.resume _ _) rfl (.refl _)
  | barrier =>
      simp only [stepSwap] at h
      split at h
      · rename_i hzero
        obtain ⟨rfl, rfl⟩ := Prod.mk.inj (Option.some.inj h)
        exact .drained hzero
      · obtain ⟨rfl, rfl⟩ := Prod.mk.inj (Option.some.inj h)
        exact .spin
  | pop nextMinLsn =>
      simp only [stepSwap] at h
      split at h
      · rename_i hfree
        obtain ⟨rfl, rfl⟩ := Prod.mk.inj (Option.some.inj h)
        exact .pop hfree
      · rename_i hfree
        split at h
        · rename_i hstop
          obtain ⟨rfl, rfl⟩ := Prod.mk.inj (Option.some.inj h)
          exact .giveUp hfree hstop
        · cases h
  | loadCount =>
      obtain ⟨rfl, rfl⟩ := Prod.mk.inj (Option.some.inj h)
      exact .loadCount
  | storeCount count =>
      obtain ⟨rfl, rfl⟩ := Prod.mk.inj (Option.some.inj h)
      exact .storeCount
  | loadMinLsn count =>
      obtain ⟨rfl, rfl⟩ := Prod.mk.inj (Option.some.inj h)
      exact .loadMinLsn
  | send nextMinLsn =>
      obtain ⟨rfl, rfl⟩ := Prod.mk.inj (Option.some.inj h)
      exact .send
  | reset new nextMinLsn stage =>
      obtain ⟨rfl, rfl⟩ := Prod.mk.inj (Option.some.inj h)
      exact .reset
  | install new =>
      obtain ⟨rfl, rfl⟩ := Prod.mk.inj (Option.some.inj h)
      exact .install

theorem stepThread_effect {stopped : Option Bool} {pc : Pc}
    (h : stepThread crc32 cfg sh stopped pc = some (sh', pc')) :
    Effect crc32 cfg sh pc sh' pc' := by
  cases pc with
  | idle | panicked => cases h
  | append payload pc => exact stepAppend_effect (Option.some.inj h)
  | claimed claim => exact stepClaimed_effect (Option.some.inj h)
  | holding held pc => exact stepHolding_effect (Option.some.inj h)
  | swap caller old pc => exact stepSwap_effect h
  | sync before pc => exact stepSync_effect (Option.some.inj h)
  | close before pc => exact stepClose_effect h

theorem stepSwap_pc {caller : Caller} {old : BufId} {pc : SwapPc}
    (h : stepSwap sh caller old pc = some (sh', pc')) :
    (∃ next, pc' = .swap caller old next) ∨ pc' = caller.resume old := by
  cases pc <;> simp only [stepSwap] at h
  case cas | barrier =>
    split at h <;> obtain ⟨-, rfl⟩ := Prod.mk.inj (Option.some.inj h)
    all_goals first | exact .inl ⟨_, rfl⟩ | exact .inr rfl
  case pop =>
    split at h
    · obtain ⟨-, rfl⟩ := Prod.mk.inj (Option.some.inj h)
      exact .inl ⟨_, rfl⟩
    · split at h
      · obtain ⟨-, rfl⟩ := Prod.mk.inj (Option.some.inj h)
        exact .inr rfl
      · cases h
  case install =>
    obtain ⟨-, rfl⟩ := Prod.mk.inj (Option.some.inj h)
    exact .inr rfl
  all_goals
    obtain ⟨-, rfl⟩ := Prod.mk.inj (Option.some.inj h)
    exact .inl ⟨_, rfl⟩

theorem stepSync_payload? {before : List ℕ} {pc : SyncPc} (h : stepSync sh before pc = (sh', pc')) :
    pc'.payload? = none := by
  cases pc <;> obtain ⟨-, rfl⟩ := Prod.mk.inj h
  case checkStop | pollStop => split <;> rfl
  all_goals rfl

theorem stepClose_payload? {before : List ℕ} {stopped : Option Bool} {pc : ClosePc}
    (h : stepClose sh before stopped pc = some (sh', pc')) : pc'.payload? = none := by
  cases pc <;> simp only [stepClose] at h
  case lock | join =>
    split at h <;> cases h <;> rfl
  all_goals
    obtain ⟨-, rfl⟩ := Prod.mk.inj (Option.some.inj h)
    rfl

/-- An append keeps its payload until it returns. -/
theorem stepThread_payload? {stopped : Option Bool} {pc : Pc} {payload : Bytes}
    (h : stepThread crc32 cfg sh stopped pc = some (sh', pc'))
    (hpayload : pc'.payload? = some payload) : pc.payload? = some payload := by
  cases pc with
  | idle | panicked => cases h
  | append payload pc =>
      obtain ⟨-, rfl⟩ := Prod.mk.inj (Option.some.inj h)
      cases pc <;> simp only at hpayload
      case loadActive | waitActive | waitStop => exact hpayload
      case checkStop | claimBytes =>
        split at hpayload
        all_goals first | exact hpayload | cases hpayload
  | claimed claim =>
      simp only [stepThread, stepClaimed, Option.some.injEq] at h
      split at h <;> obtain ⟨-, rfl⟩ := Prod.mk.inj h
      · exact hpayload
      · cases hpayload
  | holding held pc =>
      cases pc <;> obtain ⟨-, rfl⟩ := Prod.mk.inj (Option.some.inj h)
      case leave => cases hpayload
      all_goals exact hpayload
  | swap caller old pc =>
      rcases stepSwap_pc h with ⟨next, rfl⟩ | rfl <;> cases caller <;> exact hpayload
  | sync before pc => simp [stepSync_payload? (Option.some.inj h)] at hpayload
  | close before pc => simp [stepClose_payload? h] at hpayload

end Callers

/-! ## The flush thread -/

namespace FlushPc

/-- The buffer the flush thread owns. -/
def buf? : FlushPc → Option BufId
  | .recv | .done | .sealIdx none | .sealMeta none => none
  | .panicked buf => buf
  | .loadCount buf | .loadMinLsn buf _ | .scan buf _ _ _ _ => some buf
  | .recycle buf | .recycleReset buf _ | .recyclePush buf => some buf
  | .ensureSegment job | .sealIdx (some job) | .sealMeta (some job) => some job.buf
  | .openSegment job | .initMeta job _ _ | .installSegment job _ => some job.buf
  | .pad job | .pwrite job | .fdatasync job | .put job _ | .publish job => some job.buf

/-- The buffer the flush thread has still to publish. -/
def pending? : FlushPc → Option BufId
  | .recycle _ | .recycleReset _ _ | .recyclePush _ => none
  | pc => pc.buf?

end FlushPc

variable (cfg : WalConfig)

/-- A step of the flush thread. -/
inductive FlushStep (sh : Shared) (fl : FlushThread) : Shared → FlushThread → Prop
  | recv {buf : BufId} {flushQueue : List BufId} (hpc : fl.pc = .recv)
      (hqueue : sh.flushQueue = buf :: flushQueue) :
      FlushStep sh fl { sh with flushQueue } (fl.goto (.loadCount buf))
  | disconnected (hpc : fl.pc = .recv) (hqueue : sh.flushQueue = []) (htx : sh.flushTx = false) :
      FlushStep sh fl sh (fl.goto (.sealIdx none))
  | loadCount {buf : BufId} (hpc : fl.pc = .loadCount buf) :
      FlushStep sh fl sh (fl.goto (.loadMinLsn buf (sh.buffers buf).count))
  | empty {buf : BufId} (hpc : fl.pc = .loadMinLsn buf 0) :
      FlushStep sh fl sh (fl.goto (.recycle buf))
  | loadMinLsn {buf : BufId} {count : ℕ} (hpc : fl.pc = .loadMinLsn buf count) (hcount : 0 < count) :
      FlushStep sh fl sh (fl.goto (.scan buf count (sh.buffers buf).minLsn 0 0))
  -- one slot word, for the end of the last frame
  | scan {buf : BufId} {count minLsn i logicalEnd pos len : ℕ}
      (hpc : fl.pc = .scan buf count minLsn i logicalEnd) (hi : i < cfg.bufferSize / headerLen)
      (hword : unpack ((sh.buffers buf).entries i) = (pos, len)) :
      FlushStep sh fl sh (fl.goto
        (if i + 1 < count then .scan buf count minLsn (i + 1) (max logicalEnd (pos + len))
          else .ensureSegment ⟨buf, count, minLsn, max logicalEnd (pos + len)⟩))
  | scanPanics {buf : BufId} {count minLsn i logicalEnd : ℕ}
      (hpc : fl.pc = .scan buf count minLsn i logicalEnd) (hi : cfg.bufferSize / headerLen ≤ i) :
      FlushStep sh fl sh (fl.goto (.panicked (some buf)))
  -- rollover
  | rollOver {job : FlushJob} (hpc : fl.pc = .ensureSegment job)
      (hfull : cfg.segmentSize < fl.segWritten + job.padded cfg) :
      FlushStep sh fl sh (fl.goto (.sealIdx (some job)))
  | stay {job : FlushJob} (hpc : fl.pc = .ensureSegment job)
      (hroom : fl.segWritten + job.padded cfg ≤ cfg.segmentSize) :
      FlushStep sh fl sh (fl.goto (.pad job))
  | sealEmpty {job : Option FlushJob} (hpc : fl.pc = .sealIdx job)
      (hlen : fl.curMem.len % 2 ^ 32 = 0) : FlushStep sh fl sh (fl.goto (.sealMeta job))
  | sealIdx {job : Option FlushJob} {file : Bytes} (hpc : fl.pc = .sealIdx job)
      (hlen : 0 < fl.curMem.len % 2 ^ 32)
      (hfile : sealIdx cfg.blockSize fl.curMem ((fl.disk fl.curSeg).bind (·.idx)) = .ok file) :
      FlushStep sh fl sh
        ((fl.modifyFiles fl.curSeg fun files => { files with idx := some file }).goto (.sealMeta job))
  | sealPanics {job : Option FlushJob} {fault : Fault} (hpc : fl.pc = .sealIdx job)
      (hlen : 0 < fl.curMem.len % 2 ^ 32)
      (hfile : sealIdx cfg.blockSize fl.curMem ((fl.disk fl.curSeg).bind (·.idx)) = .error fault) :
      FlushStep sh fl sh (fl.goto (.panicked (job.map FlushJob.buf)))
  | sealMeta {job : Option FlushJob} {header : IdxHeader} (hpc : fl.pc = .sealMeta job)
      (hheader : header = ⟨fl.curSeg, fl.segMinLsn, fl.segMaxLsn, fl.curMem.len % 2 ^ 32⟩) :
      FlushStep sh fl sh
        ((fl.modifyFiles fl.curSeg fun files => { files with header := some header }).goto
          (match job with
            | some job => .openSegment job
            | none => .done))
  | createSegment {job : FlushJob} (hpc : fl.pc = .openSegment job)
      (hnew : fl.disk fl.nextSegId = none) :
      FlushStep sh fl sh { fl with
        disk := Function.update fl.disk fl.nextSegId (some (SegmentFiles.create cfg.segmentSize))
        nextSegId := (fl.nextSegId + 1) % 2 ^ 32
        pc := .initMeta job fl.nextSegId true }
  | reopenSegment {job : FlushJob} {files : SegmentFiles} (hpc : fl.pc = .openSegment job)
      (hold : fl.disk fl.nextSegId = some files) :
      FlushStep sh fl sh { fl with
        nextSegId := (fl.nextSegId + 1) % 2 ^ 32
        pc := .initMeta job fl.nextSegId false }
  | initMeta {job : FlushJob} {segId : ℕ} (hpc : fl.pc = .initMeta job segId true) :
      FlushStep sh fl sh
        ((fl.modifyFiles segId fun files =>
          { files with header := some ⟨segId, job.minLsn, 0, 0⟩ }).goto (.installSegment job segId))
  | keepMeta {job : FlushJob} {segId : ℕ} (hpc : fl.pc = .initMeta job segId false) :
      FlushStep sh fl sh (fl.goto (.installSegment job segId))
  | installSegment {job : FlushJob} {segId : ℕ} (hpc : fl.pc = .installSegment job segId) :
      FlushStep sh fl sh { fl with
        sealedSegs := fl.sealedSegs ++ [fl.curSeg]
        curSeg := segId
        curMem := .new
        segWritten := 0
        segMinLsn := job.minLsn
        segMaxLsn := job.minLsn
        pc := .pad job }
  -- the write itself
  | pad {job : FlushJob} (hpc : fl.pc = .pad job) :
      FlushStep sh fl
        (sh.modify job.buf fun b => b.zeroTail job.logicalEnd (job.padded cfg))
        (fl.goto (.pwrite job))
  | pwrite {job : FlushJob} (hpc : fl.pc = .pwrite job) (hsmall : job.padded cfg ≤ cfg.bufferSize) :
      FlushStep sh fl sh
        ((fl.modifyFiles fl.curSeg fun files =>
          { files with
            log := pwriteAll files.log ((sh.buffers job.buf).read 0 (job.padded cfg))
              fl.segWritten }).goto (.fdatasync job))
  | pwritePanics {job : FlushJob} (hpc : fl.pc = .pwrite job)
      (hlarge : cfg.bufferSize < job.padded cfg) :
      FlushStep sh fl sh (fl.goto (.panicked (some job.buf)))
  | fdatasync {job : FlushJob} (hpc : fl.pc = .fdatasync job) :
      FlushStep sh fl sh
        ((fl.modifyFiles fl.curSeg fun files => { files with synced := files.log }).goto (.put job 0))
  | put {job : FlushJob} {i pos len : ℕ} (hpc : fl.pc = .put job i)
      (hword : unpack ((sh.buffers job.buf).entries i) = (pos, len)) :
      FlushStep sh fl sh { fl with
        curMem := fl.curMem.put (lsnToKey ((job.minLsn + i) % 2 ^ 64))
          (encodeOffsetLen (fl.segWritten + pos) len)
        pc := if i + 1 < job.count then .put job (i + 1) else .publish job }
  | publish {job : FlushJob} (hpc : fl.pc = .publish job) :
      FlushStep sh fl
        { sh with
          durableLsn := (job.minLsn + job.count - 1) % 2 ^ 64
          published := job.minLsn + job.count }
        { fl with
          segWritten := fl.segWritten + job.padded cfg
          segMaxLsn := (job.minLsn + job.count - 1) % 2 ^ 64
          flushed := fl.flushed ++ [⟨fl.curSeg, fl.segWritten, job.minLsn, job.count,
            (sh.buffers job.buf).read 0 (job.padded cfg)⟩]
          pc := .recycle job.buf }
  -- `recycle_buffer`
  | drop {buf : BufId} (hpc : fl.pc = .recycle buf) (hstop : sh.stopFlag = true) :
      FlushStep sh fl sh (fl.goto .recv)
  | recycle {buf : BufId} (hpc : fl.pc = .recycle buf) (hstop : sh.stopFlag = false) :
      FlushStep sh fl sh (fl.goto (.recycleReset buf 0))
  | reset {buf : BufId} {stage : ℕ} (hpc : fl.pc = .recycleReset buf stage) :
      FlushStep sh fl (sh.modify buf (WalBuffer.resetStore 0 stage)) (fl.goto
        (if stage + 1 < WalBuffer.resetStores then .recycleReset buf (stage + 1)
          else .recyclePush buf))
  | push {buf : BufId} (hpc : fl.pc = .recyclePush buf) :
      FlushStep sh fl { sh with freePool := buf :: sh.freePool } (fl.goto .recv)

variable {cfg} {sh sh' : Shared} {fl fl' : FlushThread}

theorem stepFlush_step (h : stepFlush cfg sh fl = some (sh', fl')) : FlushStep cfg sh fl sh' fl' := by
  unfold stepFlush at h
  cases hpc : fl.pc with
  | recv =>
      simp only [hpc] at h
      split at h
      · rename_i hqueue
        obtain ⟨rfl, rfl⟩ := Prod.mk.inj (Option.some.inj h)
        exact .recv hpc hqueue
      · rename_i hqueue
        split at h
        · cases h
        · rename_i htx
          obtain ⟨rfl, rfl⟩ := Prod.mk.inj (Option.some.inj h)
          exact .disconnected hpc hqueue (by simpa using htx)
  | loadCount buf =>
      simp only [hpc] at h
      obtain ⟨rfl, rfl⟩ := Prod.mk.inj (Option.some.inj h)
      exact .loadCount hpc
  | loadMinLsn buf count =>
      simp only [hpc] at h
      obtain ⟨rfl, rfl⟩ := Prod.mk.inj (Option.some.inj h)
      by_cases hcount : count = 0
      · subst hcount
        exact .empty hpc
      · rw [if_neg hcount]
        exact .loadMinLsn hpc (by omega)
  | scan buf count minLsn i logicalEnd =>
      simp only [hpc] at h
      split at h
      · rename_i hi
        obtain ⟨rfl, rfl⟩ := Prod.mk.inj (Option.some.inj h)
        exact .scan hpc hi rfl
      · rename_i hi
        obtain ⟨rfl, rfl⟩ := Prod.mk.inj (Option.some.inj h)
        exact .scanPanics hpc (by omega)
  | ensureSegment job =>
      simp only [hpc] at h
      obtain ⟨rfl, rfl⟩ := Prod.mk.inj (Option.some.inj h)
      by_cases hfull : cfg.segmentSize < fl.segWritten + job.padded cfg
      · rw [if_pos hfull]
        exact .rollOver hpc hfull
      · rw [if_neg hfull]
        exact .stay hpc (by omega)
  | sealIdx job =>
      simp only [hpc] at h
      obtain ⟨rfl, rfl⟩ := Prod.mk.inj (Option.some.inj h)
      unfold stepSeal
      split
      · rename_i hlen
        split
        · rename_i hfile
          exact .sealIdx hpc hlen hfile
        · rename_i hfile
          exact .sealPanics hpc hlen hfile
      · rename_i hlen
        exact .sealEmpty hpc (by omega)
  | sealMeta job =>
      simp only [hpc] at h
      obtain ⟨rfl, rfl⟩ := Prod.mk.inj (Option.some.inj h)
      exact .sealMeta hpc rfl
  | openSegment job =>
      simp only [hpc] at h
      obtain ⟨rfl, rfl⟩ := Prod.mk.inj (Option.some.inj h)
      cases hdisk : fl.disk fl.nextSegId with
      | none => exact .createSegment hpc hdisk
      | some files => exact .reopenSegment hpc hdisk
  | initMeta job segId wasCreated =>
      simp only [hpc] at h
      obtain ⟨rfl, rfl⟩ := Prod.mk.inj (Option.some.inj h)
      cases wasCreated with
      | true => exact .initMeta hpc
      | false => exact .keepMeta hpc
  | installSegment job segId =>
      simp only [hpc] at h
      obtain ⟨rfl, rfl⟩ := Prod.mk.inj (Option.some.inj h)
      exact .installSegment hpc
  | pad job =>
      simp only [hpc] at h
      obtain ⟨rfl, rfl⟩ := Prod.mk.inj (Option.some.inj h)
      exact .pad hpc
  | pwrite job =>
      simp only [hpc] at h
      split at h
      · rename_i hsmall
        obtain ⟨rfl, rfl⟩ := Prod.mk.inj (Option.some.inj h)
        exact .pwrite hpc hsmall
      · rename_i hlarge
        obtain ⟨rfl, rfl⟩ := Prod.mk.inj (Option.some.inj h)
        exact .pwritePanics hpc (by omega)
  | fdatasync job =>
      simp only [hpc] at h
      obtain ⟨rfl, rfl⟩ := Prod.mk.inj (Option.some.inj h)
      exact .fdatasync hpc
  | put job i =>
      simp only [hpc] at h
      obtain ⟨rfl, rfl⟩ := Prod.mk.inj (Option.some.inj h)
      exact .put hpc rfl
  | publish job =>
      simp only [hpc] at h
      obtain ⟨rfl, rfl⟩ := Prod.mk.inj (Option.some.inj h)
      exact .publish hpc
  | recycle buf =>
      simp only [hpc] at h
      obtain ⟨rfl, rfl⟩ := Prod.mk.inj (Option.some.inj h)
      cases hstop : sh.stopFlag with
      | true => exact .drop hpc hstop
      | false => exact .recycle hpc hstop
  | recycleReset buf stage =>
      simp only [hpc] at h
      obtain ⟨rfl, rfl⟩ := Prod.mk.inj (Option.some.inj h)
      exact .reset hpc
  | recyclePush buf =>
      simp only [hpc] at h
      obtain ⟨rfl, rfl⟩ := Prod.mk.inj (Option.some.inj h)
      exact .push hpc
  | done | panicked =>
      simp only [hpc] at h
      cases h

variable (cfg) in
/-- A step of the flush thread, as far as the callers are concerned. -/
inductive FlushEffect (sh : Shared) : FlushPc → Shared → FlushPc → Prop
  | recv {buf : BufId} {flushQueue : List BufId} (hqueue : sh.flushQueue = buf :: flushQueue) :
      FlushEffect sh .recv { sh with flushQueue } (.loadCount buf)
  | work {pc pc' : FlushPc} (hbuf : pc'.buf? = pc.buf?) (hpending : pc'.pending? = pc.pending?) :
      FlushEffect sh pc sh pc'
  | empty {buf : BufId} : FlushEffect sh (.loadMinLsn buf 0) sh (.recycle buf)
  | drop {buf : BufId} (hstop : sh.stopFlag = true) : FlushEffect sh (.recycle buf) sh .recv
  | pad {job : FlushJob} :
      FlushEffect sh (.pad job)
        (sh.modify job.buf fun b => b.zeroTail job.logicalEnd (job.padded cfg)) (.pwrite job)
  | publish {job : FlushJob} :
      FlushEffect sh (.publish job)
        { sh with
          durableLsn := (job.minLsn + job.count - 1) % 2 ^ 64
          published := job.minLsn + job.count } (.recycle job.buf)
  | reset {buf : BufId} {stage : ℕ} {pc' : FlushPc} (hbuf : pc'.buf? = some buf)
      (hpending : pc'.pending? = none) :
      FlushEffect sh (.recycleReset buf stage) (sh.modify buf (WalBuffer.resetStore 0 stage)) pc'
  | push {buf : BufId} :
      FlushEffect sh (.recyclePush buf) { sh with freePool := buf :: sh.freePool } .recv

theorem FlushStep.effect (h : FlushStep cfg sh fl sh' fl') :
    FlushEffect cfg sh fl.pc sh' fl'.pc := by
  cases h with
  | recv hpc hqueue => exact hpc ▸ .recv hqueue
  | empty hpc => exact hpc ▸ .empty
  | pad hpc => exact hpc ▸ .pad
  | publish hpc => exact hpc ▸ .publish
  | drop hpc hstop => exact hpc ▸ .drop hstop
  | push hpc => exact hpc ▸ .push
  | reset hpc =>
      rw [hpc]
      exact .reset (by simp only [FlushThread.goto]; split <;> rfl)
        (by simp only [FlushThread.goto]; split <;> rfl)
  | @sealMeta job _ hpc | @sealEmpty job hpc | @sealIdx job _ hpc | @sealPanics job _ hpc =>
      cases job <;> exact .work (by rw [hpc]; rfl) (by rw [hpc]; rfl)
  | scan hpc | put hpc =>
      refine .work ?_ ?_ <;> rw [hpc] <;> simp only [FlushThread.goto] <;> split <;> rfl
  | disconnected hpc | loadCount hpc | loadMinLsn hpc | scanPanics hpc | rollOver hpc | stay hpc
  | createSegment hpc | reopenSegment hpc | initMeta hpc | keepMeta hpc | installSegment hpc
  | pwrite hpc | pwritePanics hpc | fdatasync hpc | recycle hpc =>
      exact .work (by rw [hpc]; rfl) (by rw [hpc]; rfl)

theorem stepFlush_effect (h : stepFlush cfg sh fl = some (sh', fl')) :
    FlushEffect cfg sh fl.pc sh' fl'.pc :=
  (stepFlush_step h).effect

variable (cfg)

/-! ## The system -/

variable {ι : Type} [DecidableEq ι]

/-- A step of the system: a caller's step, or a step of the flush thread. -/
inductive SystemEffect (crc32 : Bytes → UInt32) (s : System ι) : Label ι → System ι → Prop
  | call {t : ι} {call : Call} (hidle : s.pcs t = .idle) :
      SystemEffect crc32 s (.call t call) (s.setPc t (call.start s.shared))
  | thread {t : ι} {sh' : Shared} {pc' : Pc}
      (hstep : stepThread crc32 cfg s.shared s.flush.stopped (s.pcs t) = some (sh', pc')) :
      SystemEffect crc32 s (.thread t) ({ s with shared := sh' }.setPc t pc')
  | timeout {t : ι} {before : List ℕ} {target : ℕ} (hpc : s.pcs t = .sync before (.sleep target)) :
      SystemEffect crc32 s (.timeout t) (s.setPc t .idle)
  | flush {sh' : Shared} {fl' : FlushThread} (hstep : stepFlush cfg s.shared s.flush = some (sh', fl')) :
      SystemEffect crc32 s .flush { s with shared := sh', flush := fl' }

theorem System.step_effect {cfg : WalConfig} {crc32 : Bytes → UInt32} {s s' : System ι}
    {l : Label ι} (h : s.step crc32 cfg l = some s') : SystemEffect cfg crc32 s l s' := by
  cases l with
  | call t call =>
      simp only [step] at h
      split at h
      · rename_i hidle
        obtain rfl := Option.some.inj h
        exact .call hidle
      · cases h
  | thread t =>
      obtain ⟨⟨sh', pc'⟩, hstep, rfl⟩ := Option.map_eq_some_iff.mp h
      exact .thread hstep
  | timeout t =>
      simp only [step] at h
      split at h
      · rename_i hpc
        obtain rfl := Option.some.inj h
        exact .timeout hpc
      · cases h
  | flush =>
      obtain ⟨⟨sh', fl'⟩, hstep, rfl⟩ := Option.map_eq_some_iff.mp h
      exact .flush hstep

end Todb.Wal

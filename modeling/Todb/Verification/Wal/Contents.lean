import Todb.Verification.Wal.Ranges

/-! # What a buffer holds

Every slot claimed in the active buffer is held by an append that is writing its frame, or
filled. A buffer that has passed the barrier has only filled slots, and stays as it is until
it is recycled. -/

namespace Todb.Wal

open Library

variable {ι : Type}

/-! ## Frames in memory -/

/-- The first `n` bytes of a frame are in place. -/
def Written (crc32 : Bytes → UInt32) (b : WalBuffer) (pos lsn : ℕ) (payload : Bytes) (n : ℕ) :
    Prop :=
  ∀ k < n, b.data (pos + k) = (encode crc32 lsn payload).getD k 0

/-- Position and length fit the halves of a slot word. -/
def Claim.Packable (claim : Claim) : Prop := claim.pos < 2 ^ 32 ∧ frameLen claim.payload < 2 ^ 32

instance (claim : Claim) : Decidable claim.Packable := inferInstanceAs (Decidable (_ ∧ _))

/-- Slot `i` of a buffer holds the frame that was issued for it. -/
structure FrameIn (crc32 : Bytes → UInt32) (cfg : WalConfig) (b : WalBuffer) (i : ℕ)
    (issue : Issue) : Prop where
  word : b.entries i = pack issue.pos (frameLen issue.payload)
  packable : issue.claim.Packable
  bytes : Written crc32 b issue.pos (b.minLsn + i) issue.payload (frameLen issue.payload)
  fits : issue.claim.stop ≤ cfg.bufferSize

theorem FrameIn.unpack_eq {crc32 : Bytes → UInt32} {cfg : WalConfig} {b : WalBuffer} {i : ℕ}
    {issue : Issue} (h : FrameIn crc32 cfg b i issue) :
    unpack (b.entries i) = (issue.pos, frameLen issue.payload) := by
  rw [h.word]
  exact unpack_pack h.packable.1 h.packable.2

/-- Slot `i` holds the frame of the append that claimed it in this activation. -/
def Filled (crc32 : Bytes → UInt32) (cfg : WalConfig) (core : Core) (b : BufId) (i : ℕ) : Prop :=
  ∃ issue, core.issued[(core.buffers b).minLsn + i]? = some issue ∧ issue.buf = b ∧
    issue.slot = i ∧ FrameIn crc32 cfg (core.buffers b) i issue

/-- How far an append has come with its frame. -/
def HoldAt (crc32 : Bytes → UInt32) (b : WalBuffer) (held : Held) : HoldPc → Prop
  | .loadMinLsn | .enter => True
  | .copy k =>
      k < frameLen held.payload ∧ Written crc32 b held.pos held.lsn held.payload k
  | .store => Written crc32 b held.pos held.lsn held.payload (frameLen held.payload)
  | .leave =>
      Written crc32 b held.pos held.lsn held.payload (frameLen held.payload) ∧
        b.entries held.slot = pack held.pos (frameLen held.payload) ∧ held.toClaim.Packable

/-- A buffer whose slots are all filled. -/
structure SealedIn (crc32 : Bytes → UInt32) (cfg : WalConfig) (core : Core) (b : BufId) : Prop where
  count_eq : (core.buffers b).count = (core.buffers b).entriesAllocated
  small : headerLen * (core.buffers b).entriesAllocated ≤ cfg.bufferSize
  filled : ∀ i < (core.buffers b).entriesAllocated, Filled crc32 cfg core b i

/-- The buffer in the flush thread's hands, until it is recycled. -/
def FlushPc.unrecycled? : FlushPc → Option BufId
  | .recycleReset _ _ | .recyclePush _ => none
  | pc => pc.buf?

theorem FlushPc.buf?_of_unrecycled? {fpc : FlushPc} {b : BufId} (h : fpc.unrecycled? = some b) :
    fpc.buf? = some b := by
  cases fpc <;> first | exact h | cases h

theorem FlushPc.unrecycled?_of_pending? {fpc : FlushPc} {b : BufId} (h : fpc.pending? = some b) :
    fpc.unrecycled? = some b := by
  cases fpc <;> first | exact h | cases h

/-- The end of the frame a slot word points to. -/
def WalBuffer.slotEnd (b : WalBuffer) (i : ℕ) : ℕ :=
  (unpack (b.entries i)).1 + (unpack (b.entries i)).2

/-- The largest end among the first `n` slots. -/
structure ScanTo (b : WalBuffer) (n logicalEnd : ℕ) : Prop where
  slotEnd_le : ∀ j < n, b.slotEnd j ≤ logicalEnd
  attained : 0 < n → ∃ j < n, b.slotEnd j = logicalEnd

/-- What the flush thread has read from the slot words. -/
structure ScanAt (core : Core) (fpc : FlushPc) : Prop where
  scanning : ∀ buf count minLsn i logicalEnd, fpc = .scan buf count minLsn i logicalEnd →
    i < count ∧ (i = 0 → logicalEnd = 0) ∧ ScanTo (core.buffers buf) i logicalEnd
  job : ∀ job, fpc.job? = some job → ScanTo (core.buffers job.buf) job.count job.logicalEnd

structure Contents (crc32 : Bytes → UInt32) (cfg : WalConfig) (core : Core) (pcs : ι → Pc)
    (fpc : FlushPc) : Prop where
  holdAt : ∀ t p, (pcs t).held? = some p → HoldAt crc32 (core.buffers core.active) p.1 p.2
  slots : core.phase ≠ .sent → ∀ i < (core.buffers core.active).entriesAllocated,
    (∃ t p, (pcs t).held? = some p ∧ p.1.slot = i) ∨ Filled crc32 cfg core core.active i
  sealed_queue : ∀ b ∈ core.flushQueue, SealedIn crc32 cfg core b
  sealed_flush : ∀ b, fpc.unrecycled? = some b → SealedIn crc32 cfg core b
  scanAt : ScanAt core fpc

/-! ## Frames of the invariant -/

section Frames

variable {crc32 : Bytes → UInt32} {cfg : WalConfig} {core core' : Core} {fpc : FlushPc}

theorem Filled.frame {b : BufId} {i : ℕ} {more : List Issue} (h : Filled crc32 cfg core b i)
    (hmin : (core'.buffers b).minLsn = (core.buffers b).minLsn)
    (hentries : (core'.buffers b).entries i = (core.buffers b).entries i)
    (hdata : ∀ issue, core.issued[(core.buffers b).minLsn + i]? = some issue →
      ∀ k < frameLen issue.payload,
        (core'.buffers b).data (issue.pos + k) = (core.buffers b).data (issue.pos + k))
    (hissued : core'.issued = core.issued ++ more) : Filled crc32 cfg core' b i := by
  obtain ⟨issue, hissue, hbuf, hslot, hframe⟩ := h
  have hlt := (List.getElem?_eq_some_iff.mp hissue).1
  refine ⟨issue, by rw [hmin, hissued, List.getElem?_append_left hlt, hissue], hbuf, hslot,
    by rw [hentries, hframe.word], hframe.packable, fun k hk => ?_, hframe.fits⟩
  rw [hdata issue hissue k hk, hmin]
  exact hframe.bytes k hk

theorem SealedIn.frame {b : BufId} {more : List Issue} (h : SealedIn crc32 cfg core b)
    (hsame : SameSlots (core.buffers b) (core'.buffers b))
    (hentries : (core'.buffers b).entries = (core.buffers b).entries)
    (hdata : (core'.buffers b).data = (core.buffers b).data)
    (hissued : core'.issued = core.issued ++ more) : SealedIn crc32 cfg core' b where
  count_eq := by rw [hsame.count, hsame.entriesAllocated, h.count_eq]
  small := by rw [hsame.entriesAllocated]; exact h.small
  filled i hi := by
    rw [hsame.entriesAllocated] at hi
    exact (h.filled i hi).frame hsame.minLsn (by rw [hentries]) (fun _ _ _ _ => by rw [hdata]) hissued

theorem ScanTo.frame {b b' : WalBuffer} {n logicalEnd : ℕ} (h : ScanTo b n logicalEnd)
    (hentries : b'.entries = b.entries) : ScanTo b' n logicalEnd := by
  have hslot : ∀ j, b'.slotEnd j = b.slotEnd j := fun j => by
    rw [WalBuffer.slotEnd, WalBuffer.slotEnd, hentries]
  refine ⟨fun j hj => hslot j ▸ h.slotEnd_le j hj, fun hn => ?_⟩
  obtain ⟨j, hj, hattained⟩ := h.attained hn
  exact ⟨j, hj, hslot j ▸ hattained⟩

theorem ScanAt.frame (h : ScanAt core fpc)
    (hentries : ∀ b, fpc.buf? = some b → (core'.buffers b).entries = (core.buffers b).entries) :
    ScanAt core' fpc where
  scanning buf count minLsn i logicalEnd hpc := by
    obtain ⟨hi, hzero, hscan⟩ := h.scanning buf count minLsn i logicalEnd hpc
    exact ⟨hi, hzero, hscan.frame (hentries buf (by rw [hpc]; rfl))⟩
  job job hjob := (h.job job hjob).frame (hentries job.buf (FlushPc.buf?_of_job? hjob))

theorem ScanTo.next {b : WalBuffer} {i logicalEnd pos len : ℕ} (h : ScanTo b i logicalEnd)
    (hzero : i = 0 → logicalEnd = 0) (hword : unpack (b.entries i) = (pos, len)) :
    ScanTo b (i + 1) (max logicalEnd (pos + len)) := by
  have hend : b.slotEnd i = pos + len := by rw [WalBuffer.slotEnd, hword]
  refine ⟨fun j hj => ?_, fun _ => ?_⟩
  · rcases Nat.lt_succ_iff_lt_or_eq.mp hj with hlt | rfl
    · exact (h.slotEnd_le j hlt).trans (le_max_left _ _)
    · exact hend ▸ le_max_right _ _
  · by_cases hle : logicalEnd ≤ pos + len
    · exact ⟨i, by omega, by rw [hend, max_eq_right hle]⟩
    · have hpos : 0 < i := by
        by_contra hi
        have := hzero (by omega)
        omega
      obtain ⟨j, hj, hattained⟩ := h.attained hpos
      exact ⟨j, by omega, by rw [hattained, max_eq_left (by omega)]⟩

end Frames

/-! ## Appends fill their slots -/

section Threads

variable [Fintype ι] {cfg : WalConfig} {crc32 : Bytes → UInt32}
  {sh sh' : Shared} {pcs : ι → Pc} {fpc : FlushPc} {t u : ι} {pc pc' : Pc}

/-- Two appends hold different slots. -/
theorem Numbering.held_slot_ne (num : Numbering cfg sh.toCore pcs) {p q : Held × HoldPc}
    (hne : t ≠ u) (hp : (pcs t).held? = some p) (hq : (pcs u).held? = some q) :
    p.1.slot ≠ q.1.slot := by
  intro hslot
  have hlsn : q.1.lsn = p.1.lsn := by
    rw [← (num.held u q hq).1, ← (num.held t p hp).1, hslot]
  have htwo : (pcs t).holds p.1.lsn + (pcs u).holds p.1.lsn ≤ ∑ v, (pcs v).holds p.1.lsn :=
    Finset.add_le_sum (f := fun v => (pcs v).holds p.1.lsn) (fun _ _ => Nat.zero_le _)
      (Finset.mem_univ t) (Finset.mem_univ u) hne
  have hcounts := num.counts p.1.lsn
  rw [Pc.holds, hp, Pc.holds, hq] at htwo
  simp only [hlsn, if_true] at htwo
  split at hcounts <;> omega

omit [Fintype ι] in
/-- Slots of one activation have disjoint byte ranges. -/
theorem Ranges.slots_apart (ranges : Ranges cfg sh.toCore pcs) (haccept : sh.phase.Accepting)
    {i j : ℕ} {a b : Issue} (hne : i ≠ j)
    (ha : sh.issued[(sh.buffers sh.active).minLsn + i]? = some a)
    (hb : sh.issued[(sh.buffers sh.active).minLsn + j]? = some b) : a.claim.Apart b.claim := by
  have hpair := List.pairwise_iff_getElem.mp (ranges.issued_apart haccept)
  rw [← List.getElem?_drop] at ha hb
  obtain ⟨hi, rfl⟩ := List.getElem?_eq_some_iff.mp ha
  obtain ⟨hj, rfl⟩ := List.getElem?_eq_some_iff.mp hb
  rcases Nat.lt_or_gt_of_ne hne with hlt | hgt
  · exact hpair i j hi hj hlt
  · exact (hpair j i hj hi hgt).symm

theorem Claim.Apart.byte_ne {a b : Claim} (h : a.Apart b) {j k : ℕ} (hj : j < frameLen a.payload)
    (hk : k < frameLen b.payload) : a.pos + j ≠ b.pos + k := by
  rcases h with h | h <;> simp only [Claim.stop] at h <;> omega

/-- The bytes one append writes are outside every other slot's frame. -/
theorem Ranges.data_keeps (num : Numbering cfg sh.toCore pcs) (ranges : Ranges cfg sh.toCore pcs)
    (haccept : sh.phase.Accepting) {p : Held × HoldPc} (hp : (pcs t).held? = some p) {k : ℕ}
    (hk : k < frameLen p.1.payload) {i : ℕ} (hi : i ≠ p.1.slot) {issue : Issue}
    (hissue : sh.issued[(sh.buffers sh.active).minLsn + i]? = some issue) {j : ℕ}
    (hj : j < frameLen issue.payload) (data : ℕ → UInt8) (byte : UInt8) :
    Function.update data (p.1.pos + k) byte (issue.pos + j) = data (issue.pos + j) := by
  obtain ⟨hlsn, hheld⟩ := num.held t p hp
  rw [← hlsn] at hheld
  have hapart := ranges.slots_apart haccept hi hissue hheld
  exact Function.update_of_ne (hapart.byte_ne hj hk) _ _

theorem HoldAt.frame {b b' : WalBuffer} {held : Held} {pc : HoldPc} (h : HoldAt crc32 b held pc)
    (hdata : ∀ k < frameLen held.payload, b'.data (held.pos + k) = b.data (held.pos + k))
    (hentries : b'.entries held.slot = b.entries held.slot) : HoldAt crc32 b' held pc := by
  cases pc with
  | loadMinLsn | enter => trivial
  | copy k =>
      obtain ⟨hk, hwritten⟩ := h
      exact ⟨hk, fun j hj => (hdata j (hj.trans hk)).trans (hwritten j hj)⟩
  | store => exact fun j hj => (hdata j hj).trans (h j hj)
  | leave =>
      obtain ⟨hwritten, hword, hpackable⟩ := h
      exact ⟨fun j hj => (hdata j hj).trans (hwritten j hj), hentries.trans hword, hpackable⟩

theorem Written.next {b b' : WalBuffer} {pos lsn k : ℕ} {payload : Bytes}
    (h : Written crc32 b pos lsn payload k)
    (hdata : b'.data = Function.update b.data (pos + k) ((encode crc32 lsn payload).getD k 0)) :
    Written crc32 b' pos lsn payload (k + 1) := by
  intro j hj
  rw [hdata]
  rcases Nat.lt_succ_iff_lt_or_eq.mp hj with hlt | rfl
  · rw [Function.update_of_ne (by omega)]
    exact h j hlt
  · rw [Function.update_self]

theorem frameLen_pos (payload : Bytes) : 0 < frameLen payload := by
  simp [frameLen, headerLen]

theorem Contents.holdAt_self (own : Ownership cfg sh.toCore pcs fpc)
    (contents : Contents crc32 cfg sh.toCore pcs fpc) (hpc : pcs t = pc)
    (heff : Effect crc32 cfg sh pc sh' pc')
    (hpack : ∀ held, pc = .holding held .store → held.toClaim.Packable) {p : Held × HoldPc}
    (hp : pc'.held? = some p) : HoldAt crc32 (sh'.buffers sh'.active) p.1 p.2 := by
  have hhold := hpc ▸ contents.holdAt t
  have hcritical := hpc ▸ own.critical t
  cases heff with
  | outside _ hout' => exact absurd hp (by simp [hout'.held?_eq])
  | claimSlot | loadLsn =>
      obtain rfl := Option.some.inj hp
      trivial
  | enter =>
      obtain rfl := Option.some.inj hp
      exact ⟨frameLen_pos _, fun k hk => absurd hk (Nat.not_lt_zero k)⟩
  | @copy held k =>
      obtain rfl := Option.some.inj hp
      obtain ⟨hk, hwritten⟩ := hhold _ rfl
      have hbuf := (hcritical _ rfl).1
      simp only [Shared.toCore_modify, Core.modify_active, hbuf, Core.modify_self]
      by_cases hmore : k + 1 < frameLen held.payload
      · rw [if_pos hmore]
        exact ⟨hmore, hwritten.next rfl⟩
      · rw [if_neg hmore]
        have hlast : k + 1 = frameLen held.payload := le_antisymm hk (not_lt.mp hmore)
        rw [HoldAt, ← hlast]
        exact hwritten.next rfl
  | @store held =>
      obtain rfl := Option.some.inj hp
      have hbuf := (hcritical _ rfl).1
      have hpackable := hpack held rfl
      simp only [Shared.toCore_modify, Core.modify_active, hbuf, Core.modify_self]
      refine ⟨hhold _ rfl, ?_, hpackable⟩
      change Function.update _ _ _ _ = _
      rw [Function.update_self, Nat.mod_eq_of_lt hpackable.2]
  | giveUp | install => exact absurd hp (by simp [(Pc.Outside.resume _ _).held?_eq])
  | overflow | claimBytes | exhausted | leave | cas | spin | drained | loadCount | storeCount
  | loadMinLsn | send | pop | reset => cases hp

theorem Contents.holdAt_other (own : Ownership cfg sh.toCore pcs fpc)
    (num : Numbering cfg sh.toCore pcs) (ranges : Ranges cfg sh.toCore pcs)
    (contents : Contents crc32 cfg sh.toCore pcs fpc) (hpc : pcs t = pc)
    (heff : Effect crc32 cfg sh pc sh' pc') (hu : u ≠ t) {p : Held × HoldPc}
    (hp : (pcs u).held? = some p) : HoldAt crc32 (sh'.buffers sh'.active) p.1 p.2 := by
  have hhold := contents.holdAt u p hp
  have hat := hpc ▸ own.swapAt t
  have hcritical := hpc ▸ own.critical t
  have haccept := (own.critical u _ (Pc.claim?_of_held? hp)).2
  cases heff with
  | outside _ _ hcore => rwa [hcore]
  | @copy held k =>
      have hbuf := (hcritical _ rfl).1
      have hmine : (pcs t).held? = some (held, .copy k) := by rw [hpc]; rfl
      have hne := num.held_slot_ne hu hp hmine
      obtain ⟨hlsn, hissue⟩ := num.held u p hp
      rw [← hlsn] at hissue
      obtain ⟨hk, -⟩ := (hpc ▸ contents.holdAt t) _ rfl
      simp only [Shared.toCore_modify, Core.modify_active, hbuf, Core.modify_self]
      exact hhold.frame (fun j hj => ranges.data_keeps num haccept hmine hk hne hissue hj _ _) rfl
  | @store held =>
      have hbuf := (hcritical _ rfl).1
      have hne := num.held_slot_ne hu hp (q := (held, .store)) (by rw [hpc]; rfl)
      simp only [Shared.toCore_modify, Core.modify_active, hbuf, Core.modify_self]
      exact hhold.frame (fun _ _ => rfl) (Function.update_of_ne hne _ _)
  | send | pop | giveUp => simp [Phase.Accepting, (hat _ rfl).2] at haccept
  | reset | install => simp [Phase.Accepting, (hat _ rfl).2.1] at haccept
  | overflow | claimBytes | claimSlot | exhausted | loadLsn | enter | leave | cas | spin | drained
  | loadCount | storeCount | loadMinLsn =>
      exact hhold.frame (fun _ _ => by simp [Shared.claimBytes, Shared.claimSlot])
        (by simp [Shared.claimBytes, Shared.claimSlot])

/-- An append that leaves has filled its slot. -/
theorem HoldAt.filled (own : Ownership cfg sh.toCore pcs fpc) (num : Numbering cfg sh.toCore pcs)
    (ranges : Ranges cfg sh.toCore pcs) {held : Held} (hpc : pcs t = .holding held .leave)
    (hhold : HoldAt crc32 (sh.buffers sh.active) held .leave) :
    Filled crc32 cfg sh.toCore sh.active held.slot := by
  obtain ⟨hbuf, haccept⟩ := own.critical t held.toClaim (by rw [hpc]; rfl)
  obtain ⟨hlsn, hissue⟩ := num.held t (held, .leave) (by rw [hpc]; rfl)
  obtain ⟨hwritten, hword, hpackable⟩ := hhold
  have hstop := ranges.claim_stop t held.toClaim (by rw [hpc]; rfl)
  refine ⟨held.issue, by rw [hlsn, hissue], hbuf, rfl, hword, hpackable, ?_, hstop.2⟩
  rw [hlsn]
  exact hwritten

variable [DecidableEq ι]

theorem Contents.slots_step (own : Ownership cfg sh.toCore pcs fpc)
    (num : Numbering cfg sh.toCore pcs) (ranges : Ranges cfg sh.toCore pcs)
    (contents : Contents crc32 cfg sh.toCore pcs fpc) (hpc : pcs t = pc)
    (heff : Effect crc32 cfg sh pc sh' pc') (hok : StepOrderly cfg sh.toCore pcs pc)
    (hphase' : sh'.phase ≠ .sent) (i : ℕ) (hi : i < (sh'.buffers sh'.active).entriesAllocated) :
    (∃ u p, (Function.update pcs t pc' u).held? = some p ∧ p.1.slot = i) ∨
      Filled crc32 cfg sh'.toCore sh'.active i := by
  have hat := hpc ▸ own.swapAt t
  have hcritical := hpc ▸ own.critical t
  have hnil : sh.issued = sh.issued ++ [] := (List.append_nil _).symm
  -- an append that holds the slot goes on holding it
  have hholder : (∀ p, pc.held? = some p → p.1.slot = i → ∃ q, pc'.held? = some q ∧ q.1.slot = i) →
      (∃ u p, (pcs u).held? = some p ∧ p.1.slot = i) →
      ∃ u p, (Function.update pcs t pc' u).held? = some p ∧ p.1.slot = i := by
    rintro hself ⟨u, p, hp, hslot⟩
    by_cases hu : u = t
    · subst hu
      obtain ⟨q, hq, hslot⟩ := hself p (hpc ▸ hp) hslot
      exact ⟨u, q, by rwa [Function.update_self], hslot⟩
    · exact ⟨u, p, by rwa [Function.update_of_ne hu], hslot⟩
  -- nothing is written
  have hsame : sh.phase ≠ .sent →
      (∀ p, pc.held? = some p → p.1.slot = i → ∃ q, pc'.held? = some q ∧ q.1.slot = i) →
      sh'.active = sh.active → sh'.issued = sh.issued →
      (sh'.buffers sh.active).minLsn = (sh.buffers sh.active).minLsn →
      (sh'.buffers sh.active).entriesAllocated = (sh.buffers sh.active).entriesAllocated →
      (sh'.buffers sh.active).entries = (sh.buffers sh.active).entries →
      (sh'.buffers sh.active).data = (sh.buffers sh.active).data →
      (∃ u p, (Function.update pcs t pc' u).held? = some p ∧ p.1.slot = i) ∨
        Filled crc32 cfg sh'.toCore sh'.active i := by
    intro hphase hself hactive hissued hmin halloc hentries hdata
    rw [hactive, halloc] at hi
    rw [hactive]
    exact (contents.slots hphase i hi).imp (hholder hself) fun h =>
      h.frame hmin (by rw [hentries]) (fun _ _ _ _ => by rw [hdata]) (hissued.trans hnil)
  cases heff with
  | outside hout _ hcore =>
      rw [hcore] at hphase'
      exact hsame hphase' (fun p h => by simp [hout.held?_eq] at h) (by rw [hcore]) (by rw [hcore])
        (by rw [hcore]) (by rw [hcore]) (by rw [hcore]) (by rw [hcore])
  | claimSlot hslot =>
      obtain ⟨hbuf, haccept⟩ := hcritical _ rfl
      have hnext := num.next haccept.ne_sent
      simp only [StepOrderly] at hok
      simp only [Shared.claimSlot, Shared.toCore_modify, Core.modify_active, hbuf,
        Core.modify_self] at hi
      rw [Nat.mod_eq_of_lt (by omega)] at hi
      rcases Nat.lt_succ_iff_lt_or_eq.mp hi with hlt | heq
      · refine (contents.slots haccept.ne_sent i hlt).imp (hholder fun p h => by cases h) fun h => ?_
        exact h.frame (by simp [Shared.claimSlot]) (by simp [Shared.claimSlot])
          (fun _ _ _ _ => by simp [Shared.claimSlot]) rfl
      · refine .inl ⟨t, _, by rw [Function.update_self]; rfl, ?_⟩
        rw [heq, ← hbuf, hslot]
  | exhausted hfull => exact absurd (num.not_exhausted own hpc) (not_lt.mpr hfull)
  | loadLsn =>
      refine hsame hphase' (fun p h hslot => ?_) rfl rfl rfl rfl rfl rfl
      obtain rfl := Option.some.inj h
      exact ⟨_, rfl, hslot⟩
  | enter =>
      refine hsame hphase' (fun p h hslot => ?_) rfl rfl (by simp) (by simp) (by simp) (by simp)
      obtain rfl := Option.some.inj h
      exact ⟨_, rfl, hslot⟩
  | @copy held k =>
      obtain ⟨hbuf, haccept⟩ := hcritical _ rfl
      by_cases hslot : i = held.slot
      · exact .inl ⟨t, _, by rw [Function.update_self]; rfl, hslot.symm⟩
      · have hmine : (pcs t).held? = some (held, .copy k) := by rw [hpc]; rfl
        obtain ⟨hk, -⟩ := (hpc ▸ contents.holdAt t) _ rfl
        simp only [Shared.toCore_modify, Core.modify_active, hbuf, Core.modify_self] at hi
        refine (contents.slots hphase' i hi).imp (hholder fun p h hp => ?_) fun h => ?_
        · obtain rfl := Option.some.inj h
          exact absurd hp.symm hslot
        · refine h.frame (by simp) (by simp) (fun issue hissue j hj => ?_) hnil
          simp only [Shared.toCore_modify, hbuf, Core.modify_self]
          exact ranges.data_keeps num haccept hmine hk hslot hissue hj _ _
  | @store held =>
      obtain ⟨hbuf, haccept⟩ := hcritical _ rfl
      by_cases hslot : i = held.slot
      · exact .inl ⟨t, _, by rw [Function.update_self]; rfl, hslot.symm⟩
      · simp only [Shared.toCore_modify, Core.modify_active, hbuf, Core.modify_self] at hi
        refine (contents.slots hphase' i hi).imp (hholder fun p h hp => ?_) fun h => ?_
        · obtain rfl := Option.some.inj h
          exact absurd hp.symm hslot
        · refine h.frame (by simp) ?_ (fun issue hissue j hj => by simp) hnil
          simp only [Shared.toCore_modify, hbuf, Core.modify_self]
          exact Function.update_of_ne hslot _ _
  | @leave held =>
      have hfilled := HoldAt.filled own num ranges hpc ((hpc ▸ contents.holdAt t) _ rfl)
      have hkeep : ∀ {i}, Filled crc32 cfg sh.toCore sh.active i → Filled crc32 cfg
          { (sh.modify held.buf fun b =>
              { b with inFlight := (b.inFlight + (2 ^ 32 - 1)) % 2 ^ 32 }).toCore with
            returned := sh.returned ++ [held.lsn] } sh.active i := fun h =>
        h.frame (by simp) (by simp) (fun _ _ _ _ => by simp) hnil
      by_cases hslot : i = held.slot
      · exact .inr (hslot ▸ hkeep hfilled)
      · simp only [Shared.toCore_modify, Core.modify_active] at hi
        rw [Core.modify_entriesAllocated _ _ (by simp)] at hi
        refine (contents.slots hphase' i hi).imp (hholder fun p h hp => ?_) hkeep
        obtain rfl := Option.some.inj h
        exact absurd hp.symm hslot
  | cas hstate =>
      exact hsame (by simp [(hok hstate).2]) (fun p h => by cases h) rfl rfl (by simp) (by simp)
        (by simp) (by simp)
  | drained =>
      exact hsame (by simp [(hat _ rfl).2]) (fun p h => by cases h) rfl rfl rfl rfl rfl rfl
  | send => exact absurd rfl hphase'
  | giveUp => exact absurd (hat _ rfl).2 hphase'
  | reset => exact absurd (hat _ rfl).2.1 hphase'
  | install =>
      have hto : ResetTo _ _ _ := (hpc ▸ num.swapLsn t) _ rfl
      simp [hto.entriesAllocated (by decide)] at hi
  | overflow | claimBytes | spin | loadCount | storeCount | loadMinLsn | pop =>
      exact hsame hphase' (fun p h => by cases h) rfl rfl (by simp [Shared.claimBytes])
        (by simp [Shared.claimBytes]) (by simp [Shared.claimBytes]) (by simp [Shared.claimBytes])

omit [Fintype ι] [DecidableEq ι] in
theorem Effect.issued_append (heff : Effect crc32 cfg sh pc sh' pc') :
    ∃ more, sh'.issued = sh.issued ++ more := by
  cases heff with
  | outside _ _ hcore => exact ⟨[], by rw [hcore, List.append_nil]⟩
  | claimSlot => exact ⟨_, rfl⟩
  | overflow | claimBytes | exhausted | loadLsn | enter | copy | store | leave | cas | spin | drained
  | loadCount | storeCount | loadMinLsn | send | pop | giveUp | reset | install =>
      exact ⟨[], (List.append_nil _).symm⟩

omit [Fintype ι] [DecidableEq ι] in
/-- Only a swapper adds to the flush queue. -/
theorem Effect.mem_flushQueue (heff : Effect crc32 cfg sh pc sh' pc') {b : BufId}
    (hb : b ∈ sh'.flushQueue) :
    b ∈ sh.flushQueue ∨
      (∃ caller nextMinLsn, pc = .swap caller b (.send nextMinLsn)) ∧ sh'.buffers = sh.buffers := by
  cases heff with
  | outside _ _ hcore => exact .inl (by rwa [hcore] at hb)
  | send =>
      simp only at hb
      split at hb
      · rcases List.mem_append.mp hb with hb | hb
        · exact .inl hb
        · obtain rfl := List.mem_singleton.mp hb
          exact .inr ⟨⟨_, _, rfl⟩, rfl⟩
      · exact .inl hb
  | overflow | claimBytes | claimSlot | exhausted | loadLsn | enter | copy | store | leave | cas | spin
  | drained | loadCount | storeCount | loadMinLsn | pop | giveUp | reset | install => exact .inl hb

omit [DecidableEq ι] in
/-- A drained buffer has only filled slots. -/
theorem Contents.sealed_drained (own : Ownership cfg sh.toCore pcs fpc)
    (num : Numbering cfg sh.toCore pcs) (contents : Contents crc32 cfg sh.toCore pcs fpc)
    {caller : Caller} {old : BufId} {nextMinLsn : ℕ}
    (hpc : pcs t = .swap caller old (.send nextMinLsn)) : SealedIn crc32 cfg sh.toCore old := by
  obtain ⟨rfl, hphase⟩ := (hpc ▸ own.swapAt t) _ rfl
  obtain ⟨-, hcount⟩ := (hpc ▸ num.swapLsn t) _ rfl
  have hne : sh.phase ≠ .sent := by simp [hphase]
  have hroom := num.room hne
  refine ⟨hcount, ?_, fun i hi => ?_⟩
  · simp only [headerLen] at hroom ⊢
    omega
  · refine (contents.slots hne i hi).resolve_left ?_
    rintro ⟨u, p, hp, -⟩
    have hclaim := own.no_claim (by simp [Phase.Accepting, hphase]) u
    simp [Pc.claim?_of_held? hp] at hclaim

omit [DecidableEq ι] in
theorem SealedIn.thread_step (own : Ownership cfg sh.toCore pcs fpc) (hpc : pcs t = pc)
    (heff : Effect crc32 cfg sh pc sh' pc') (hok : StepOrderly cfg sh.toCore pcs pc) {b : BufId}
    (hb : Handed sh.toCore fpc b) (h : SealedIn crc32 cfg sh.toCore b) :
    SealedIn crc32 cfg sh'.toCore b := by
  obtain ⟨writePos, hbuffer⟩ := own.handed_keeps hpc heff hok hb
  obtain ⟨more, hissued⟩ := heff.issued_append
  exact h.frame (hbuffer ▸ ⟨rfl, rfl, rfl⟩) (by rw [hbuffer]) (by rw [hbuffer]) hissued

theorem Contents.thread_step (own : Ownership cfg sh.toCore pcs fpc)
    (num : Numbering cfg sh.toCore pcs) (ranges : Ranges cfg sh.toCore pcs)
    (contents : Contents crc32 cfg sh.toCore pcs fpc) (hpc : pcs t = pc)
    (heff : Effect crc32 cfg sh pc sh' pc') (hok : StepOrderly cfg sh.toCore pcs pc)
    (hpack : ∀ held, pc = .holding held .store → held.toClaim.Packable) :
    Contents crc32 cfg sh'.toCore (Function.update pcs t pc') fpc where
  holdAt u p hp := by
    rcases update_cases hp with ⟨-, hnew⟩ | ⟨hu, hold⟩
    · exact contents.holdAt_self own hpc heff hpack hnew
    · exact contents.holdAt_other own num ranges hpc heff hu hold
  slots := contents.slots_step own num ranges hpc heff hok
  sealed_queue b hb := by
    rcases heff.mem_flushQueue hb with hb | ⟨⟨caller, nextMinLsn, rfl⟩, hbuffers⟩
    · exact (contents.sealed_queue b hb).thread_step own hpc heff hok (.inl hb)
    · obtain ⟨more, hissued⟩ := heff.issued_append
      exact (contents.sealed_drained own num hpc).frame (hbuffers ▸ .refl _) (by rw [hbuffers])
        (by rw [hbuffers]) hissued
  sealed_flush b hb :=
    (contents.sealed_flush b hb).thread_step own hpc heff hok
      (.inr (FlushPc.buf?_of_unrecycled? hb))
  scanAt := by
    refine contents.scanAt.frame fun b hb => ?_
    obtain ⟨writePos, hbuffer⟩ := own.handed_keeps hpc heff hok (.inr hb)
    rw [hbuffer]

end Threads

/-! ## The flush thread leaves the frames alone -/

section Flush

variable [Fintype ι] {cfg : WalConfig} {crc32 : Bytes → UInt32} {sh sh' : Shared} {pcs : ι → Pc}
  {fl fl' : FlushThread}

/-- The padding starts after the last frame. -/
theorem SealedIn.zeroTail {core core' : Core} {b : BufId} {logicalEnd stop : ℕ}
    (h : SealedIn crc32 cfg core b)
    (hscan : ScanTo (core.buffers b) (core.buffers b).entriesAllocated logicalEnd)
    (hbuffer : core'.buffers b = (core.buffers b).zeroTail logicalEnd stop)
    (hissued : core'.issued = core.issued ++ []) : SealedIn crc32 cfg core' b where
  count_eq := by rw [hbuffer]; exact h.count_eq
  small := by rw [hbuffer]; exact h.small
  filled i hi := by
    rw [hbuffer] at hi
    have hfilled := h.filled i hi
    refine hfilled.frame (by rw [hbuffer]; rfl) (by rw [hbuffer]; rfl) ?_ hissued
    intro issue hissue k hk
    obtain ⟨issue', hissue', -, -, hframe⟩ := hfilled
    obtain rfl := Option.some.inj (hissue'.symm.trans hissue)
    have hend := hscan.slotEnd_le i hi
    rw [WalBuffer.slotEnd, hframe.unpack_eq] at hend
    rw [hbuffer]
    exact if_neg (by simp only at hend; omega)

omit [Fintype ι] in
theorem FlushStep.scanAt (contents : Contents crc32 cfg sh.toCore pcs fl.pc)
    (hstep : FlushStep cfg sh fl sh' fl') :
    ScanAt sh'.toCore fl'.pc := by
  have hjob := contents.scanAt.job
  have hof : ∀ {fpc : FlushPc} {job : FlushJob} {core : Core}, fpc.job? = some job →
      ScanTo (core.buffers job.buf) job.count job.logicalEnd → ScanAt core fpc := by
    intro fpc job core hfpc hscan
    refine ⟨fun buf count minLsn i logicalEnd hpc => ?_, fun job' hjob' => ?_⟩
    · simp [hpc, FlushPc.job?] at hfpc
    · obtain rfl := Option.some.inj (hfpc.symm.trans hjob')
      exact hscan
  have hnothing : ∀ {fpc : FlushPc} {core : Core}, fpc.job? = none →
      (∀ buf count minLsn i logicalEnd, fpc ≠ .scan buf count minLsn i logicalEnd) →
      ScanAt core fpc := by
    intro fpc core hfpc hscan
    exact ⟨fun buf count minLsn i logicalEnd hpc => (hscan _ _ _ _ _ hpc).elim,
      fun job h => by simp [hfpc] at h⟩
  cases hstep with
  | @loadMinLsn buf count hpc hcount =>
      refine ⟨?_, fun job h => by cases h⟩
      rintro _ _ _ _ _ ⟨rfl, rfl, rfl, rfl, rfl⟩
      exact ⟨hcount, fun _ => rfl, fun j hj => absurd hj (Nat.not_lt_zero j),
        fun h => absurd h (Nat.lt_irrefl 0)⟩
  | @scan buf count minLsn i logicalEnd pos len hpc hi hword =>
      obtain ⟨hlt, hzero, hscan⟩ := contents.scanAt.scanning _ _ _ _ _ hpc
      have hnext := hscan.next hzero hword
      simp only [FlushThread.goto]
      by_cases hmore : i + 1 < count
      · rw [if_pos hmore]
        refine ⟨?_, fun job h => by cases h⟩
        rintro _ _ _ _ _ ⟨rfl, rfl, rfl, rfl, rfl⟩
        exact ⟨hmore, fun h => by omega, hnext⟩
      · rw [if_neg hmore]
        rw [show i + 1 = count by omega] at hnext
        exact hof rfl hnext
  | rollOver hpc | stay hpc | createSegment hpc | reopenSegment hpc | initMeta hpc | keepMeta hpc
  | installSegment hpc | pwrite hpc | fdatasync hpc => exact hof rfl (hjob _ (by rw [hpc]; rfl))
  | put hpc =>
      have hscan := hjob _ (by rw [hpc]; rfl)
      simp only
      split <;> exact hof rfl hscan
  | pad hpc =>
      refine hof rfl ((hjob _ (by rw [hpc]; rfl)).frame ?_)
      simp [WalBuffer.zeroTail]
  | @sealEmpty job hpc | @sealIdx job _ hpc | @sealMeta job _ hpc =>
      cases job with
      | none => exact hnothing rfl (by simp [FlushThread.goto])
      | some job => exact hof rfl (hjob job (by rw [hpc]; rfl))
  | reset hpc =>
      simp only [FlushThread.goto]
      split <;> exact hnothing rfl (by simp)
  | recv | disconnected | loadCount | empty | scanPanics | sealPanics | pwritePanics | publish | drop
  | recycle | push => exact hnothing rfl (by simp [FlushThread.goto])

/-- The flush thread works on a buffer it received. -/
theorem FlushStep.unrecycled?_cases (hstep : FlushStep cfg sh fl sh' fl') {b : BufId}
    (hb : fl'.pc.unrecycled? = some b) : fl.pc.unrecycled? = some b ∨ b ∈ sh.flushQueue := by
  cases hstep with
  | recv hpc hqueue =>
      obtain rfl := Option.some.inj hb
      exact .inr (hqueue ▸ List.mem_cons_self)
  | scan hpc | put hpc =>
      refine .inl ?_
      rw [hpc]
      simp only [FlushThread.goto] at hb
      split at hb <;> exact hb
  | reset hpc =>
      simp only [FlushThread.goto] at hb
      split at hb <;> cases hb
  | @sealMeta job _ hpc | @sealEmpty job hpc | @sealIdx job _ hpc | @sealPanics job _ hpc =>
      refine .inl ?_
      rw [hpc]
      cases job <;> exact hb
  | disconnected | drop | recycle | push => cases hb
  | loadCount hpc | empty hpc | loadMinLsn hpc | scanPanics hpc | rollOver hpc | stay hpc
  | createSegment hpc | reopenSegment hpc | initMeta hpc | keepMeta hpc | installSegment hpc
  | pad hpc | pwrite hpc | pwritePanics hpc | fdatasync hpc | publish hpc =>
      refine .inl ?_
      rw [hpc]
      exact hb

theorem FlushEffect.flushQueue_subset {fpc fpc' : FlushPc} (heff : FlushEffect cfg sh fpc sh' fpc')
    {b : BufId} (hb : b ∈ sh'.flushQueue) : b ∈ sh.flushQueue := by
  cases heff with
  | recv hqueue => exact hqueue ▸ List.mem_cons_of_mem _ hb
  | work | empty | drop | pad | publish | reset | push => exact hb

theorem SealedIn.flush_step (own : Ownership cfg sh.toCore pcs fl.pc)
    (ch : Chained sh.toCore fl.pc sh.flushTx) (contents : Contents crc32 cfg sh.toCore pcs fl.pc)
    (hstep : FlushStep cfg sh fl sh' fl') {b : BufId}
    (hb : b ∈ sh.flushQueue ∨ fl.pc.unrecycled? = some b) (h : SealedIn crc32 cfg sh.toCore b) :
    SealedIn crc32 cfg sh'.toCore b := by
  have hissued : sh'.issued = sh.issued ++ [] :=
    hstep.effect.issued_eq.trans (List.append_nil _).symm
  have hkept : sh'.buffers b = sh.buffers b → SealedIn crc32 cfg sh'.toCore b := fun hkeep =>
    h.frame (hkeep ▸ .refl _) (by rw [hkeep]) (by rw [hkeep]) hissued
  rcases hb with hqueue | hflush
  · exact hkept (hstep.effect.keeps (own.queue_apart hqueue).1)
  · cases hstep with
    | @pad job hpc =>
        rw [hpc] at hflush
        obtain rfl : job.buf = b := Option.some.inj hflush
        have hjob : fl.pc.job? = some job := by rw [hpc]; rfl
        have hscan := contents.scanAt.job job hjob
        rw [(ch.flushAt.job job hjob).count_eq] at hscan
        exact h.zeroTail hscan (by simp; rfl) hissued
    | reset hpc =>
        rw [hpc] at hflush
        cases hflush
    | recv | disconnected | loadCount | empty | loadMinLsn | scan | scanPanics | rollOver | stay
    | sealEmpty | sealIdx | sealPanics | sealMeta | createSegment | reopenSegment | initMeta
    | keepMeta | installSegment | pwrite | pwritePanics | fdatasync | put | publish | drop | recycle
    | push => exact hkept rfl

theorem Contents.flush_step (own : Ownership cfg sh.toCore pcs fl.pc)
    (ch : Chained sh.toCore fl.pc sh.flushTx) (contents : Contents crc32 cfg sh.toCore pcs fl.pc)
    (hstep : FlushStep cfg sh fl sh' fl') : Contents crc32 cfg sh'.toCore pcs fl'.pc where
  holdAt t p hp := by
    have haccept := (own.critical t _ (Pc.claim?_of_held? hp)).2
    rw [own.flush_active hstep.effect haccept.ne_sent]
    exact contents.holdAt t p hp
  slots hphase i hi := by
    have heff := hstep.effect
    rw [heff.phase_eq] at hphase
    have hkeep := own.flush_active heff hphase
    rw [hkeep] at hi
    rw [heff.active_eq] at hkeep ⊢
    refine (contents.slots hphase i hi).imp id fun h => ?_
    exact h.frame (by rw [hkeep]) (by rw [hkeep]) (fun _ _ _ _ => by rw [hkeep])
      (heff.issued_eq.trans (List.append_nil _).symm)
  sealed_queue b hb := by
    have hb := hstep.effect.flushQueue_subset hb
    exact (contents.sealed_queue b hb).flush_step own ch contents hstep (.inl hb)
  sealed_flush b hb := by
    rcases hstep.unrecycled?_cases hb with hflush | hqueue
    · exact (contents.sealed_flush b hflush).flush_step own ch contents hstep (.inr hflush)
    · exact (contents.sealed_queue b hqueue).flush_step own ch contents hstep (.inl hqueue)
  scanAt := hstep.scanAt contents

end Flush

/-! ## Runs -/

section Runs

variable {cfg : WalConfig} {crc32 : Bytes → UInt32} {s s' : System ι} {l : Label ι}

/-- A slot word is stored only for a frame whose position and length it can hold. -/
def StorePackable (s : System ι) : Label ι → Prop
  | .thread t =>
      match s.pcs t with
      | .holding held .store => held.toClaim.Packable
      | _ => True
  | _ => True

instance (s : System ι) (l : Label ι) : Decidable (StorePackable s l) := by
  induction l using Label.casesOn with
  | thread t =>
      dsimp only [StorePackable]
      induction s.pcs t using Pc.casesOn with
      | holding held pc => induction pc using HoldPc.casesOn <;> infer_instance
      | _ => infer_instance
  | _ =>
      unfold StorePackable
      infer_instance

/-- Orderly steps, and slot words that hold what is packed into them. -/
def OrderlyPacked (cfg : WalConfig) (s : System ι) (l : Label ι) : Prop :=
  Orderly cfg s l ∧ StorePackable s l

/-- All that holds of the buffers of an orderly run. -/
structure WellKept [Fintype ι] (crc32 : Bytes → UInt32) (cfg : WalConfig) (s : System ι) : Prop where
  own : Owned cfg s
  num : Numbered cfg s
  chained : ChainedUp s
  ranges : Ranges cfg s.shared.toCore s.pcs
  contents : Contents crc32 cfg s.shared.toCore s.pcs s.flush.pc

variable [Fintype ι]

theorem WellKept.init (crc32 : Bytes → UInt32) (cfg : WalConfig) (memory : BufId → ℕ → UInt8) :
    WellKept crc32 cfg (System.init cfg memory : System ι) where
  own := .init cfg memory
  num := .init cfg memory
  chained := .init cfg memory
  ranges := .init cfg memory
  contents :=
    { holdAt := fun _ _ h => by cases h
      slots := fun _ i hi => by simp [System.init, WalBuffer.new] at hi
      sealed_queue := by simp [System.init]
      sealed_flush := by simp [System.init, FlushPc.unrecycled?, FlushPc.buf?]
      scanAt := ⟨by simp [System.init], by simp [System.init, FlushPc.job?]⟩ }

variable [DecidableEq ι]

theorem WellKept.step (h : WellKept crc32 cfg s) (hok : OrderlyPacked cfg s l)
    (hstep : s.step crc32 cfg l = some s') : WellKept crc32 cfg s' := by
  have hmove := System.step_move hstep hok.1
  refine ⟨h.own.step hmove, h.num.step h.own hmove, h.chained.step h.own h.num hmove, ?_, ?_⟩
  · cases hmove with
    | thread hpc heff hok => exact h.ranges.thread_step h.own h.num hpc heff hok
    | flush hflush => exact h.ranges.flush_step h.own (stepFlush_effect hflush)
  · cases hmove with
    | @thread t pc _ _ hpc heff horderly _ hlabel =>
        refine h.contents.thread_step h.own h.num h.ranges hpc heff horderly ?_
        rintro held rfl
        have hpackable := hok.2
        rw [hlabel.resolve_left (by simp [Pc.held?])] at hpackable
        simpa [StorePackable, hpc] using hpackable
    | flush hflush => exact h.contents.flush_step h.own h.chained (stepFlush_step hflush)

theorem wellKept_of_orderly {memory : BufId → ℕ → UInt8}
    (h : Reaches (System.step crc32 cfg) (OrderlyPacked cfg) (System.init cfg memory) s) :
    WellKept crc32 cfg s :=
  h.invariant (.init crc32 cfg memory) fun hs hok hstep => hs.step hok hstep

theorem Written.read_eq {b : WalBuffer} {pos lsn : ℕ} {payload : Bytes}
    (h : Written crc32 b pos lsn payload (frameLen payload)) :
    b.read pos (frameLen payload) = encode crc32 lsn payload := by
  refine List.ext_getElem (by simp [WalBuffer.read]) fun k hk hk' => ?_
  rw [length_encode] at hk'
  simp [WalBuffer.read, h k hk', List.getD_eq_getElem?_getD, hk']

/-- The barrier protects the flush: until the buffer in the flush thread's hands is recycled,
each of its slots holds the complete frame of the append that claimed it, under the LSN it was
issued for, and no append is in its critical section on that buffer. -/
theorem flushed_buffer_complete (crc32 : Bytes → UInt32) (cfg : WalConfig)
    (memory : BufId → ℕ → UInt8) (s : System ι)
    (h : Reaches (System.step crc32 cfg) (OrderlyPacked cfg) (System.init cfg memory) s)
    (b : BufId) (hb : s.flush.pc.unrecycled? = some b) :
    (∀ i < (s.shared.buffers b).count, ∃ pos payload,
      s.shared.issued[(s.shared.buffers b).minLsn + i]? = some ⟨b, i, pos, payload⟩ ∧
        (s.shared.buffers b).entries i = pack pos (frameLen payload) ∧
        unpack ((s.shared.buffers b).entries i) = (pos, frameLen payload) ∧
        (s.shared.buffers b).read pos (frameLen payload) =
          encode crc32 ((s.shared.buffers b).minLsn + i) payload) ∧
      ∀ t claim, (s.pcs t).claim? = some claim → claim.buf ≠ b := by
  have hkept := wellKept_of_orderly h
  have hsealed := hkept.contents.sealed_flush b hb
  refine ⟨fun i hi => ?_, fun t claim hclaim => ?_⟩
  · rw [hsealed.count_eq] at hi
    obtain ⟨issue, hissue, rfl, rfl, hframe⟩ := hsealed.filled i hi
    exact ⟨issue.pos, issue.payload, hissue, hframe.word, hframe.unpack_eq, hframe.bytes.read_eq⟩
  · obtain ⟨hactive, haccept⟩ := hkept.own.critical t claim hclaim
    rw [hactive]
    exact (hkept.own.handed_ne_active (.inr (FlushPc.buf?_of_unrecycled? hb)) haccept.ne_sent).symm

end Runs

instance {ι : Type} [Fintype ι] [DecidableEq ι] (cfg : WalConfig) (s : System ι) (l : Label ι) :
    Decidable (OrderlyPacked cfg s l) :=
  inferInstanceAs (Decidable (_ ∧ _))

/-- One frame, on its way to the disk. -/
theorem flushed_buffer_complete_one :
    ∃ s : System (Fin 1), s.flush.pc = .pwrite ⟨0, 1, 0, 17⟩ ∧
      ∀ i < 1, ∃ pos payload,
        s.shared.issued[i]? = some ⟨0, i, pos, payload⟩ ∧
          (s.shared.buffers 0).read pos (frameLen payload) = encode (fun _ => 0) i payload := by
  obtain ⟨s, hreach, hs⟩ :
      ∃ s : System (Fin 1), Reaches stepOneBlock (OrderlyPacked oneBlockConfig) (freshWal 1) s ∧
        (s.flush.pc, (s.shared.buffers 0).minLsn, (s.shared.buffers 0).count) =
          (.pwrite ⟨0, 1, 0, 17⟩, 0, 1) :=
    Reaches.exists_of_execute
      ([.call 0 (.append [7])] ++ turns 0 25 ++ [.call 0 .sync] ++ turns 0 18 ++
        List.replicate 6 .flush) _ _ (by decide +kernel) (by decide +kernel)
  simp only [Prod.mk.injEq] at hs
  obtain ⟨hpc, hmin, hcount⟩ := hs
  obtain ⟨hslots, -⟩ := flushed_buffer_complete _ _ _ s hreach 0 (by rw [hpc]; rfl)
  refine ⟨s, hpc, fun i hi => ?_⟩
  obtain ⟨pos, payload, hissue, -, -, hread⟩ := hslots i (by rwa [hcount])
  rw [hmin, Nat.zero_add] at hissue hread
  exact ⟨pos, payload, hissue, hread⟩

/-- A `sync` passes the barrier while an append has claimed its slot but is not registered: the
flush thread works on a buffer whose slot word was never stored, and the append goes on to
write into it. -/
theorem flushed_buffer_incomplete :
    ∃ s : System (Fin 2), Reaches stepOneBlock (Admissible oneBlockConfig) (freshWal 2) s ∧
      s.flush.pc.unrecycled? = some 0 ∧ 0 < (s.shared.buffers 0).count ∧
      s.shared.issued[0]? = some ⟨0, 0, 0, [7]⟩ ∧
      (s.shared.buffers 0).entries 0 ≠ pack 0 (frameLen [7]) ∧
      ∃ claim, (s.pcs 0).claim? = some claim ∧ claim.buf = 0 := by
  obtain ⟨s, hreach, hs⟩ :
      ∃ s : System (Fin 2), Reaches stepOneBlock (Admissible oneBlockConfig) (freshWal 2) s ∧
        (s.flush.pc, (s.shared.buffers 0).count, s.shared.issued, (s.shared.buffers 0).entries 0,
          (s.pcs 0).claim?) = (.loadCount 0, 1, [⟨0, 0, 0, [7]⟩], 0, some ⟨0, 0, [7]⟩) :=
    Reaches.exists_of_execute
      ([.call 0 (.append [7])] ++ turns 0 4 ++ [.call 1 .sync] ++ turns 1 10 ++ [.flush]) _ _
      (by decide +kernel) (by decide +kernel)
  simp only [Prod.mk.injEq] at hs
  obtain ⟨hpc, hcount, hissued, hentry, hclaim⟩ := hs
  refine ⟨s, hreach, by rw [hpc]; rfl, by omega, by rw [hissued]; rfl, ?_, _, hclaim, rfl⟩
  rw [hentry]
  decide

end Todb.Wal

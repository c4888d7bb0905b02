import Todb.Verification.Wal.Numbering

/-! # The chain of unflushed buffers

The buffers handed to the flush thread hold consecutive LSN ranges, from the first LSN that is
not published up to where the active buffer starts. -/

namespace Todb.Wal

open Library

variable {ι : Type}

/-! ## Handed-over buffers -/

/-- In the flush queue, or in the hands of the flush thread. -/
def Handed (core : Core) (fpc : FlushPc) (b : BufId) : Prop :=
  b ∈ core.flushQueue ∨ fpc.buf? = some b

/-- The buffers that are still to be published, in order. -/
def pending (core : Core) (fpc : FlushPc) : List BufId := fpc.pending?.toList ++ core.flushQueue

theorem FlushPc.buf?_of_pending? {fpc : FlushPc} {b : BufId} (h : fpc.pending? = some b) :
    fpc.buf? = some b := by
  cases fpc <;> first | exact h | cases h

theorem handed_of_pending {core : Core} {fpc : FlushPc} {b : BufId} (h : b ∈ pending core fpc) :
    Handed core fpc b := by
  rcases List.mem_append.mp h with hflush | hqueue
  · exact .inr (FlushPc.buf?_of_pending? (Option.mem_toList.mp hflush))
  · exact .inl hqueue

section Keeps

variable [Fintype ι] {cfg : WalConfig} {crc32 : Bytes → UInt32}
  {sh sh' : Shared} {pcs : ι → Pc} {fpc : FlushPc} {t : ι} {pc pc' : Pc} {b : BufId}

theorem Ownership.handed_ne_active (own : Ownership cfg sh.toCore pcs fpc)
    (hb : Handed sh.toCore fpc b) (hphase : sh.phase ≠ .sent) : b ≠ sh.active := by
  rintro rfl
  obtain ⟨hqueue, hflush, -⟩ := own.inHand_apart (own.active_mem hphase)
  exact hb.elim hqueue hflush

/-- Callers touch nothing of a handed-over buffer but its `write_pos`. -/
theorem Ownership.handed_keeps (own : Ownership cfg sh.toCore pcs fpc) (hpc : pcs t = pc)
    (heff : Effect crc32 cfg sh pc sh' pc') (hok : StepOrderly cfg sh.toCore pcs pc)
    (hb : Handed sh.toCore fpc b) :
    ∃ writePos, sh'.buffers b = { sh.buffers b with writePos } := by
  have hcritical := hpc ▸ own.critical t
  have hat := hpc ▸ own.swapAt t
  have hkept : sh'.buffers b = sh.buffers b →
      ∃ writePos, sh'.buffers b = { sh.buffers b with writePos } := fun h => ⟨_, h⟩
  have hne := own.handed_ne_active hb
  cases heff with
  | outside _ _ hcore => exact hkept (by rw [hcore])
  | @overflow _ buf =>
      by_cases heq : b = buf
      · subst heq
        exact ⟨_, by simp only [Shared.claimBytes, Shared.toCore_modify, Core.modify_self]; rfl⟩
      · exact hkept (by simp [Shared.claimBytes, heq])
  | claimBytes hfits =>
      obtain ⟨rfl, haccept⟩ := hok.2 hfits
      exact hkept (by simp [Shared.claimBytes, hne haccept.ne_sent])
  | claimSlot | exhausted =>
      obtain ⟨hbuf, haccept⟩ := hcritical _ rfl
      exact hkept (by simp [Shared.claimSlot, hbuf, hne haccept.ne_sent])
  | enter | copy | store | leave =>
      obtain ⟨hbuf, haccept⟩ := hcritical _ rfl
      exact hkept (by simp [hbuf, hne haccept.ne_sent])
  | cas hstate =>
      obtain ⟨rfl, hphase⟩ := hok hstate
      exact hkept (by simp [hne (by simp [hphase])])
  | storeCount =>
      obtain ⟨rfl, hphase⟩ := hat _ rfl
      exact hkept (by simp [hne (by simp [hphase])])
  | @reset _ _ new =>
      have hnew : new ∈ (pcs t).owned := by
        rw [hpc]
        exact Multiset.mem_singleton_self new
      obtain ⟨hqueue, hflush, -⟩ := own.inHand_apart (owned_mem hnew)
      have hne : b ≠ new := by
        rintro rfl
        exact hb.elim hqueue hflush
      exact hkept (by simp [hne])
  | loadLsn | spin | drained | loadCount | loadMinLsn | send | pop | giveUp | install =>
      exact hkept rfl

end Keeps

/-! ## The chain -/

/-- Each buffer starts where the one before it ends. -/
def Chain (core : Core) : ℕ → List BufId → Prop
  | _, [] => True
  | start, b :: bs =>
      (core.buffers b).minLsn = start ∧ Chain core (start + (core.buffers b).entriesAllocated) bs

/-- The number of slots claimed in a list of buffers. -/
def slots (core : Core) (bs : List BufId) : ℕ :=
  (bs.map fun b => (core.buffers b).entriesAllocated).sum

/-- The LSN after the last one that was handed over. -/
def sentEnd (core : Core) (fpc : FlushPc) : ℕ := core.published + slots core (pending core fpc)

/-- The first LSN that is not in a handed-over buffer. -/
def Core.unsentFrom (core : Core) : ℕ :=
  if core.phase = .sent then core.issued.length else (core.buffers core.active).minLsn

/-- Every slot of a buffer was claimed in its present activation, under the LSN it stands for. -/
def Placed (core : Core) (b : BufId) : Prop :=
  ∀ i < (core.buffers b).entriesAllocated, ∃ pos payload,
    core.issued[(core.buffers b).minLsn + i]? = some ⟨b, i, pos, payload⟩

/-- The buffer being flushed, with the counters read from it. -/
def FlushPc.job? : FlushPc → Option FlushJob
  | .ensureSegment job | .sealIdx (some job) | .sealMeta (some job) => some job
  | .openSegment job | .initMeta job _ _ | .installSegment job _ => some job
  | .pad job | .pwrite job | .fdatasync job | .put job _ | .publish job => some job
  | _ => none

/-- The flush thread has read a buffer's counters. -/
structure ReadFrom (core : Core) (buf : BufId) (count minLsn : ℕ) : Prop where
  count_eq : count = (core.buffers buf).entriesAllocated
  minLsn_eq : minLsn = (core.buffers buf).minLsn
  count_pos : 0 < count

/-- What the flush thread knows at each point. -/
structure FlushAt (core : Core) (fpc : FlushPc) : Prop where
  loaded : ∀ buf count, fpc = .loadMinLsn buf count → count = (core.buffers buf).entriesAllocated
  scanning : ∀ buf count minLsn i logicalEnd, fpc = .scan buf count minLsn i logicalEnd →
    ReadFrom core buf count minLsn
  job : ∀ job, fpc.job? = some job → ReadFrom core job.buf job.count job.minLsn

structure Chained (core : Core) (fpc : FlushPc) (flushTx : Bool) : Prop where
  chain : Chain core core.published (pending core fpc)
  count_eq : ∀ b ∈ pending core fpc, (core.buffers b).count = (core.buffers b).entriesAllocated
  sentEnd_le : sentEnd core fpc ≤ core.unsentFrom
  sentEnd_eq : flushTx = true → sentEnd core fpc = core.unsentFrom
  placed : ∀ b ∈ pending core fpc, Placed core b
  placed_active : core.phase ≠ .sent → Placed core core.active
  flushAt : FlushAt core fpc

/-! ## Frames -/

/-- The counters that number a buffer's slots are the same. -/
structure SameSlots (b b' : WalBuffer) : Prop where
  minLsn : b'.minLsn = b.minLsn
  entriesAllocated : b'.entriesAllocated = b.entriesAllocated
  count : b'.count = b.count

theorem SameSlots.refl (b : WalBuffer) : SameSlots b b := ⟨rfl, rfl, rfl⟩

section Frames

variable {core core' : Core} {fpc fpc' : FlushPc}

theorem Chain.frame {start : ℕ} {bs : List BufId}
    (hsame : ∀ b ∈ bs, SameSlots (core.buffers b) (core'.buffers b)) (h : Chain core start bs) :
    Chain core' start bs := by
  induction bs generalizing start with
  | nil => trivial
  | cons b bs ih =>
      obtain ⟨hmin, hrest⟩ := h
      have hb := hsame b List.mem_cons_self
      refine ⟨by rw [hb.minLsn, hmin], ?_⟩
      rw [hb.entriesAllocated]
      exact ih (fun b' hb' => hsame b' (List.mem_cons_of_mem b hb')) hrest

theorem Chain.append {start : ℕ} {bs : List BufId} {b : BufId} (h : Chain core start bs)
    (hb : (core.buffers b).minLsn = start + slots core bs) : Chain core start (bs ++ [b]) := by
  induction bs generalizing start with
  | nil => exact ⟨hb, trivial⟩
  | cons a bs ih =>
      refine ⟨h.1, ih h.2 ?_⟩
      rw [hb, slots, slots, List.map_cons, List.sum_cons, add_assoc]

/-- An LSN in the range of a chain belongs to one of its buffers. -/
theorem Chain.exists_mem {start : ℕ} {bs : List BufId} {x : ℕ} (h : Chain core start bs)
    (hstart : start ≤ x) (hend : x < start + slots core bs) :
    ∃ b ∈ bs, (core.buffers b).minLsn ≤ x ∧
      x < (core.buffers b).minLsn + (core.buffers b).entriesAllocated := by
  induction bs generalizing start with
  | nil => simp [slots] at hend; omega
  | cons b bs ih =>
      obtain ⟨hmin, hrest⟩ := h
      by_cases hx : x < start + (core.buffers b).entriesAllocated
      · exact ⟨b, List.mem_cons_self, by omega, by omega⟩
      · rw [slots, List.map_cons, List.sum_cons, ← add_assoc] at hend
        obtain ⟨b', hb', hrange⟩ := ih hrest (not_lt.mp hx) hend
        exact ⟨b', List.mem_cons_of_mem b hb', hrange⟩

theorem slots_frame {bs : List BufId}
    (hsame : ∀ b ∈ bs, SameSlots (core.buffers b) (core'.buffers b)) :
    slots core' bs = slots core bs := by
  rw [slots, slots, List.map_congr_left fun b hb => (hsame b hb).entriesAllocated]

theorem Placed.frame {b : BufId} {more : List Issue}
    (hmin : (core'.buffers b).minLsn = (core.buffers b).minLsn)
    (halloc : (core'.buffers b).entriesAllocated = (core.buffers b).entriesAllocated)
    (hissued : core'.issued = core.issued ++ more) (h : Placed core b) : Placed core' b := by
  intro i hi
  rw [halloc] at hi
  obtain ⟨pos, payload, hissue⟩ := h i hi
  have hlt := (List.getElem?_eq_some_iff.mp hissue).1
  exact ⟨pos, payload, by rw [hmin, hissued, List.getElem?_append_left hlt, hissue]⟩

theorem ReadFrom.frame {buf : BufId} {count minLsn : ℕ} (h : ReadFrom core buf count minLsn)
    (hsame : SameSlots (core.buffers buf) (core'.buffers buf)) : ReadFrom core' buf count minLsn :=
  ⟨by rw [hsame.entriesAllocated, h.count_eq], by rw [hsame.minLsn, h.minLsn_eq], h.count_pos⟩

theorem FlushPc.buf?_of_job? {job : FlushJob} (h : fpc.job? = some job) :
    fpc.buf? = some job.buf := by
  cases fpc with
  | sealIdx j | sealMeta j =>
      cases j with
      | none => cases h
      | some j => exact congrArg (Option.map FlushJob.buf) h
  | ensureSegment | openSegment | initMeta | installSegment | pad | pwrite | fdatasync | put
  | publish => exact congrArg (Option.map FlushJob.buf) h
  | recv | loadCount | loadMinLsn | scan | recycle | recycleReset | recyclePush | done | panicked =>
      cases h

theorem FlushAt.frame (h : FlushAt core fpc)
    (hsame : ∀ b, fpc.buf? = some b → SameSlots (core.buffers b) (core'.buffers b)) :
    FlushAt core' fpc where
  loaded buf count hpc := by
    rw [(hsame buf (by rw [hpc]; rfl)).entriesAllocated]
    exact h.loaded buf count hpc
  scanning buf count minLsn i logicalEnd hpc :=
    (h.scanning buf count minLsn i logicalEnd hpc).frame (hsame buf (by rw [hpc]; rfl))
  job job hjob := (h.job job hjob).frame (hsame job.buf (FlushPc.buf?_of_job? hjob))

/-- A step that neither hands over nor publishes a buffer. -/
theorem Chained.frame {tx tx' : Bool} {more : List Issue} (ch : Chained core fpc tx)
    (hqueue : core'.flushQueue = core.flushQueue) (hpublished : core'.published = core.published)
    (hsame : ∀ b, Handed core fpc b → SameSlots (core.buffers b) (core'.buffers b))
    (hissued : core'.issued = core.issued ++ more) (hunsent : core'.unsentFrom = core.unsentFrom)
    (hactive : core'.phase ≠ .sent → Placed core' core'.active)
    (htx : tx' = true → tx = true) : Chained core' fpc tx' := by
  have hpending : pending core' fpc = pending core fpc := by rw [pending, pending, hqueue]
  have hslots := fun b hb => hsame b (handed_of_pending hb)
  have hend : sentEnd core' fpc = sentEnd core fpc := by
    rw [sentEnd, sentEnd, hpublished, hpending, slots_frame hslots]
  refine ⟨?_, ?_, ?_, ?_, ?_, hactive, ?_⟩
  · rw [hpublished, hpending]
    exact ch.chain.frame hslots
  · intro b hb
    rw [hpending] at hb
    rw [(hslots b hb).count, (hslots b hb).entriesAllocated, ch.count_eq b hb]
  · rw [hend, hunsent]
    exact ch.sentEnd_le
  · intro h
    rw [hend, hunsent, ch.sentEnd_eq (htx h)]
  · intro b hb
    rw [hpending] at hb
    exact (ch.placed b hb).frame (hslots b hb).minLsn (hslots b hb).entriesAllocated hissued
  · exact ch.flushAt.frame fun b hb => hsame b (.inr hb)

end Frames

/-! ## Callers extend the chain -/

section Threads

variable [Fintype ι] {cfg : WalConfig} {crc32 : Bytes → UInt32}
  {sh sh' : Shared} {pcs : ι → Pc} {fpc : FlushPc} {t : ι} {pc pc' : Pc}

/-- A claimed slot is placed under the next LSN. -/
theorem Placed.claimSlot (num : Numbering cfg sh.toCore pcs) {claim : Claim} {core' : Core}
    (hphase : sh.phase ≠ .sent) (hbuf : claim.buf = sh.active)
    (hmin : (core'.buffers sh.active).minLsn = (sh.buffers sh.active).minLsn)
    (halloc : (core'.buffers sh.active).entriesAllocated =
      (sh.buffers sh.active).entriesAllocated + 1)
    (hissued : core'.issued = sh.issued ++
      [⟨claim.buf, (sh.buffers sh.active).entriesAllocated, claim.pos, claim.payload⟩])
    (h : Placed sh.toCore sh.active) : Placed core' sh.active := by
  intro i hi
  rw [halloc] at hi
  rw [hmin, hissued]
  rcases Nat.lt_succ_iff_lt_or_eq.mp hi with hlt | rfl
  · obtain ⟨pos, payload, hissue⟩ := h i hlt
    have hlength := (List.getElem?_eq_some_iff.mp hissue).1
    exact ⟨pos, payload, by rw [List.getElem?_append_left hlength, hissue]⟩
  · refine ⟨claim.pos, claim.payload, ?_⟩
    rw [num.next hphase, List.getElem?_append_right le_rfl, Nat.sub_self, hbuf]
    rfl

/-- Handing the drained buffer over, or losing it when the flush thread cannot be reached. -/
theorem Chained.send (own : Ownership cfg sh.toCore pcs fpc) (num : Numbering cfg sh.toCore pcs)
    (ch : Chained sh.toCore fpc sh.flushTx) {caller : Caller} {nextMinLsn : ℕ} {old : BufId}
    (hpc : pcs t = .swap caller old (.send nextMinLsn)) {core' : Core}
    (hbuffers : core'.buffers = sh.buffers) (hpublished : core'.published = sh.published)
    (hissued : core'.issued = sh.issued) (hsent : core'.phase = .sent)
    (hqueue : core'.flushQueue =
      if sh.flushTx then sh.flushQueue ++ [old] else sh.flushQueue) :
    Chained core' fpc sh.flushTx := by
  obtain ⟨rfl, hphase⟩ := (hpc ▸ own.swapAt t) _ rfl
  obtain ⟨-, hcount⟩ := (hpc ▸ num.swapLsn t) _ rfl
  have hne : sh.phase ≠ .sent := by simp [hphase]
  have hnext := num.next hne
  have hsame : ∀ b, SameSlots (sh.buffers b) (core'.buffers b) := fun b => hbuffers ▸ .refl _
  have hunsent : sh.toCore.unsentFrom = (sh.buffers sh.active).minLsn := if_neg hne
  have hunsent' : core'.unsentFrom = sh.issued.length := by rw [Core.unsentFrom, if_pos hsent, hissued]
  have hplaced : ∀ b, Placed sh.toCore b → Placed core' b := fun b h =>
    h.frame (hsame b).minLsn (hsame b).entriesAllocated (hissued.trans (List.append_nil _).symm)
  have hle := ch.sentEnd_le
  rw [hunsent] at hle
  cases htx : sh.flushTx with
  | false =>
      rw [htx, if_neg Bool.false_ne_true] at hqueue
      have hpending : pending core' fpc = pending sh.toCore fpc := by rw [pending, pending, hqueue]
      refine ⟨?_, ?_, ?_, (fun h => by cases h), ?_, fun h => absurd hsent h,
        ch.flushAt.frame fun b _ => hsame b⟩
      · rw [hpending, hpublished]
        exact ch.chain.frame fun b _ => hsame b
      · rw [hpending, hbuffers]
        exact ch.count_eq
      · rw [sentEnd, hpending, hpublished, slots_frame fun b _ => hsame b, ← sentEnd, hunsent']
        omega
      · rw [hpending]
        exact fun b hb => hplaced b (ch.placed b hb)
  | true =>
      rw [htx, if_pos rfl] at hqueue
      have heq := ch.sentEnd_eq htx
      rw [hunsent] at heq
      have hpending : pending core' fpc = pending sh.toCore fpc ++ [sh.active] := by
        rw [pending, pending, hqueue, List.append_assoc]
      have hend : sentEnd core' fpc = core'.unsentFrom := by
        rw [sentEnd, hpending, hpublished, slots_frame fun b _ => hsame b, hunsent', slots,
          List.map_append, List.sum_append, ← slots, ← add_assoc, ← sentEnd, heq]
        simpa using hnext
      refine ⟨?_, ?_, hend.le, fun _ => hend, ?_, fun h => absurd hsent h,
        ch.flushAt.frame fun b _ => hsame b⟩
      · rw [hpending, hpublished]
        exact (ch.chain.append heq.symm).frame fun b _ => hsame b
      · intro b hb
        rw [hpending, List.mem_append, List.mem_singleton] at hb
        rw [hbuffers]
        rcases hb with hb | rfl
        · exact ch.count_eq b hb
        · exact hcount
      · intro b hb
        rw [hpending, List.mem_append, List.mem_singleton] at hb
        rcases hb with hb | rfl
        · exact hplaced b (ch.placed b hb)
        · exact hplaced _ (ch.placed_active hne)

theorem Chained.thread_step (own : Ownership cfg sh.toCore pcs fpc)
    (num : Numbering cfg sh.toCore pcs) (ch : Chained sh.toCore fpc sh.flushTx) (hpc : pcs t = pc)
    (heff : Effect crc32 cfg sh pc sh' pc') (hok : StepOrderly cfg sh.toCore pcs pc) :
    Chained sh'.toCore fpc sh'.flushTx := by
  have hsame : ∀ b, Handed sh.toCore fpc b → SameSlots (sh.buffers b) (sh'.buffers b) := by
    intro b hb
    obtain ⟨writePos, h⟩ := own.handed_keeps hpc heff hok hb
    exact h ▸ ⟨rfl, rfl, rfl⟩
  have hcritical := hpc ▸ own.critical t
  have hat := hpc ▸ own.swapAt t
  have hlsn := hpc ▸ num.swapLsn t
  have hplaced := ch.placed_active
  have hnil : sh.issued = sh.issued ++ [] := (List.append_nil _).symm
  -- nothing about the active buffer's numbering changes
  have hsteady : sh'.flushQueue = sh.flushQueue → sh'.published = sh.published →
      sh'.issued = sh.issued → sh'.active = sh.active →
      (sh'.phase = .sent ↔ sh.phase = .sent) → sh'.flushTx = sh.flushTx →
      (sh.phase ≠ .sent → (sh'.buffers sh.active).minLsn = (sh.buffers sh.active).minLsn ∧
        (sh'.buffers sh.active).entriesAllocated = (sh.buffers sh.active).entriesAllocated) →
      Chained sh'.toCore fpc sh'.flushTx := by
    intro hqueue hpublished hissued hactive hphase htx hfields
    refine ch.frame hqueue hpublished hsame (hissued.trans hnil) ?_ ?_ (by rw [htx]; exact id)
    · by_cases hsent : sh.phase = .sent
      · rw [Core.unsentFrom, Core.unsentFrom, if_pos hsent, if_pos (hphase.mpr hsent), hissued]
      · rw [Core.unsentFrom, Core.unsentFrom, if_neg hsent, if_neg (mt hphase.mp hsent), hactive,
          (hfields hsent).1]
    · intro hsent
      rw [hactive]
      have hne := mt hphase.mpr hsent
      exact (hplaced hne).frame (hfields hne).1 (hfields hne).2 (hissued.trans hnil)
  cases heff with
  | outside _ _ hcore hclosing =>
      have hissued : sh'.issued = sh.issued ++ [] := by rw [hcore, List.append_nil]
      refine ch.frame ?_ ?_ hsame hissued ?_ ?_ hclosing.flushTx
      all_goals rw [hcore]
      exact hplaced
  | claimSlot hslot =>
      obtain ⟨hbuf, haccept⟩ := hcritical _ rfl
      have hne := haccept.ne_sent
      have hnext := num.next hne
      refine ch.frame rfl rfl hsame rfl ?_ (fun _ => ?_) id
      · simp [Core.unsentFrom, hne, Shared.claimSlot]
      · refine Placed.claimSlot num hne hbuf ?_ ?_ ?_ (hplaced hne)
        · simp [Shared.claimSlot]
        · simp only [StepOrderly] at hok
          simp only [Shared.claimSlot, Shared.toCore_modify, hbuf, Core.modify_self]
          omega
        · rw [← hbuf, hslot]
  | exhausted hfull => exact absurd (num.not_exhausted own hpc) (not_lt.mpr hfull)
  | cas hstate =>
      exact hsteady rfl rfl rfl rfl (by simp [(hok hstate).2]) rfl fun _ => by simp
  | drained =>
      exact hsteady rfl rfl rfl rfl (by simp [(hat _ rfl).2]) rfl fun _ => ⟨rfl, rfl⟩
  | send => exact ch.send own num hpc rfl rfl rfl rfl rfl
  | reset =>
      exact hsteady rfl rfl rfl rfl Iff.rfl rfl fun hne => absurd (hat _ rfl).2.1 hne
  | install =>
      obtain ⟨-, hsent, -⟩ := hat _ rfl
      have hto : ResetTo _ _ _ := hlsn _ rfl
      refine ch.frame rfl rfl hsame hnil ?_ (fun _ i hi => ?_) id
      · simp [Core.unsentFrom, hsent, hto.minLsn (by decide)]
      · simp [hto.entriesAllocated (by decide)] at hi
  | overflow | claimBytes | loadLsn | enter | copy | store | leave | spin | loadCount | storeCount
  | loadMinLsn | pop | giveUp =>
      exact hsteady rfl rfl rfl rfl Iff.rfl rfl fun _ => by simp [Shared.claimBytes]

end Threads

/-! ## The flush thread shortens it -/

section Flush

variable [Fintype ι] {cfg : WalConfig} {sh sh' : Shared} {pcs : ι → Pc} {fpc fpc' : FlushPc}
  {fl fl' : FlushThread}

theorem WalBuffer.sameSlots_zeroTail (b : WalBuffer) (start stop : ℕ) :
    SameSlots b (b.zeroTail start stop) := ⟨rfl, rfl, rfl⟩

/-- The flush thread leaves the chain as it is, or takes off its first buffer. -/
theorem FlushEffect.pending_cases (own : Ownership cfg sh.toCore pcs fpc)
    (ch : Chained sh.toCore fpc sh.flushTx) (heff : FlushEffect cfg sh fpc sh' fpc') :
    (pending sh'.toCore fpc' = pending sh.toCore fpc ∧ sh'.published = sh.published ∧
      ∀ b ∈ pending sh.toCore fpc, SameSlots (sh.buffers b) (sh'.buffers b)) ∨
    ∃ b, pending sh.toCore fpc = b :: pending sh'.toCore fpc' ∧
      sh'.published = sh.published + (sh.buffers b).entriesAllocated ∧
      sh'.buffers = sh.buffers := by
  cases heff with
  | recv hqueue => exact .inl ⟨by simp [pending, hqueue, FlushPc.pending?, FlushPc.buf?], rfl,
      fun b _ => .refl _⟩
  | work _ hpending => exact .inl ⟨by rw [pending, pending, hpending], rfl, fun b _ => .refl _⟩
  | @empty buf =>
      have halloc := ch.flushAt.loaded buf 0 rfl
      exact .inr ⟨buf, rfl, by rw [← halloc, add_zero], rfl⟩
  | drop | push => exact .inl ⟨rfl, rfl, fun b _ => .refl _⟩
  | @pad job =>
      refine .inl ⟨rfl, rfl, fun b _ => ?_⟩
      by_cases hb : b = job.buf
      · subst hb
        simpa using WalBuffer.sameSlots_zeroTail _ _ _
      · simpa [hb] using SameSlots.refl _
  | @publish job =>
      have hread := ch.flushAt.job job rfl
      refine .inr ⟨job.buf, rfl, ?_, rfl⟩
      have hmin : (sh.buffers job.buf).minLsn = sh.published := ch.chain.1
      change job.minLsn + job.count = _
      rw [hread.minLsn_eq, hread.count_eq, hmin]
  | @reset buf stage _ _ hpending =>
      refine .inl ⟨by rw [pending, pending, hpending]; rfl, rfl, fun b hb => ?_⟩
      have hqueue : b ∈ sh.flushQueue := hb
      have hne : b ≠ buf := fun h => (own.queue_apart hqueue).1 (congrArg some h.symm)
      simpa [hne] using SameSlots.refl _

/-- Publishing takes nothing away from what was handed over. -/
theorem FlushEffect.sentEnd_eq (own : Ownership cfg sh.toCore pcs fpc)
    (ch : Chained sh.toCore fpc sh.flushTx) (heff : FlushEffect cfg sh fpc sh' fpc') :
    sentEnd sh'.toCore fpc' = sentEnd sh.toCore fpc := by
  rcases heff.pending_cases own ch with ⟨hpending, hpublished, hsame⟩ | ⟨b, hpending, hpublished, hbuffers⟩
  · rw [sentEnd, sentEnd, hpending, hpublished, slots_frame hsame]
  · have hsame : ∀ b, SameSlots (sh.buffers b) (sh'.buffers b) := fun b => hbuffers ▸ .refl _
    rw [sentEnd, sentEnd, hpublished, slots_frame fun b _ => hsame b, hpending, slots, slots,
      List.map_cons, List.sum_cons, add_assoc]

theorem Ownership.unsentFrom_flush (own : Ownership cfg sh.toCore pcs fpc)
    (heff : FlushEffect cfg sh fpc sh' fpc') :
    sh'.toCore.unsentFrom = sh.toCore.unsentFrom := by
  simp only [Core.unsentFrom, heff.phase_eq, heff.issued_eq]
  split
  · rfl
  · rw [own.flush_active heff ‹_›]

theorem FlushEffect.flushTx_eq (heff : FlushEffect cfg sh fpc sh' fpc') :
    sh'.flushTx = sh.flushTx := by
  cases heff <;> rfl

theorem FlushAt.of_job {core : Core} {job : FlushJob} (hjob : fpc.job? = some job)
    (hread : ReadFrom core job.buf job.count job.minLsn) : FlushAt core fpc where
  loaded buf count hpc := by simp [hpc, FlushPc.job?] at hjob
  scanning buf count minLsn i logicalEnd hpc := by simp [hpc, FlushPc.job?] at hjob
  job job' hjob' := by
    obtain rfl := Option.some.inj (hjob.symm.trans hjob')
    exact hread

theorem FlushAt.of_nothing {core : Core} (hjob : fpc.job? = none)
    (hloaded : ∀ buf count, fpc ≠ .loadMinLsn buf count)
    (hscan : ∀ buf count minLsn i logicalEnd, fpc ≠ .scan buf count minLsn i logicalEnd) :
    FlushAt core fpc where
  loaded buf count hpc := (hloaded buf count hpc).elim
  scanning buf count minLsn i logicalEnd hpc := (hscan buf count minLsn i logicalEnd hpc).elim
  job job h := by simp [hjob] at h

theorem FlushAt.of_scan {core : Core} {buf : BufId} {count minLsn i logicalEnd : ℕ}
    (hread : ReadFrom core buf count minLsn) :
    FlushAt core (.scan buf count minLsn i logicalEnd) where
  loaded _ _ h := by cases h
  scanning _ _ _ _ _ h := by
    cases h
    exact hread
  job _ h := by cases h

theorem FlushStep.flushAt (ch : Chained sh.toCore fl.pc sh.flushTx)
    (hstep : FlushStep cfg sh fl sh' fl') : FlushAt sh'.toCore fl'.pc := by
  have hjob := ch.flushAt.job
  cases hstep with
  | loadCount hpc =>
      refine ⟨?_, by simp [FlushThread.goto], by simp [FlushThread.goto, FlushPc.job?]⟩
      rintro buf count ⟨rfl, rfl⟩
      exact ch.count_eq _ (by simp [pending, hpc, FlushPc.pending?, FlushPc.buf?])
  | loadMinLsn hpc hcount =>
      exact .of_scan ⟨ch.flushAt.loaded _ _ hpc, rfl, hcount⟩
  | scan hpc =>
      have hread := ch.flushAt.scanning _ _ _ _ _ hpc
      simp only [FlushThread.goto]
      split
      · exact .of_scan hread
      · exact .of_job rfl hread
  | rollOver hpc | stay hpc | createSegment hpc | reopenSegment hpc | initMeta hpc | keepMeta hpc
  | installSegment hpc | pwrite hpc | fdatasync hpc => exact .of_job rfl (hjob _ (by rw [hpc]; rfl))
  | put hpc =>
      have hread := hjob _ (by rw [hpc]; rfl)
      simp only
      split <;> exact .of_job rfl hread
  | @pad job hpc =>
      have hread := hjob job (by rw [hpc]; rfl)
      refine .of_job rfl (hread.frame ?_)
      simpa using WalBuffer.sameSlots_zeroTail _ _ _
  | @sealEmpty job hpc | @sealIdx job _ hpc | @sealMeta job _ hpc =>
      cases job with
      | none => exact .of_nothing rfl (by simp [FlushThread.goto]) (by simp [FlushThread.goto])
      | some job => exact .of_job rfl (hjob job (by rw [hpc]; rfl))
  | reset hpc =>
      simp only [FlushThread.goto]
      split <;> exact .of_nothing rfl (by simp) (by simp)
  | recv | disconnected | empty | scanPanics | sealPanics | pwritePanics | publish | drop | recycle
  | push => exact .of_nothing rfl (by simp [FlushThread.goto]) (by simp [FlushThread.goto])

theorem Chained.flush_step (own : Ownership cfg sh.toCore pcs fl.pc)
    (ch : Chained sh.toCore fl.pc sh.flushTx) (hstep : FlushStep cfg sh fl sh' fl') :
    Chained sh'.toCore fl'.pc sh'.flushTx := by
  have heff := hstep.effect
  have hunsent := own.unsentFrom_flush heff
  have hend := heff.sentEnd_eq own ch
  have hissued : sh'.issued = sh.issued ++ [] := heff.issued_eq.trans (List.append_nil _).symm
  have hactive : sh'.phase ≠ .sent → Placed sh'.toCore sh'.active := by
    intro hphase
    rw [heff.phase_eq] at hphase
    have hkeep := own.flush_active heff hphase
    rw [heff.active_eq] at hkeep ⊢
    exact (ch.placed_active hphase).frame (by rw [hkeep]) (by rw [hkeep]) hissued
  have htx := heff.flushTx_eq
  have hflushAt := hstep.flushAt ch
  rcases heff.pending_cases own ch with ⟨hpending, hpublished, hsame⟩ | ⟨b, hpending, hpublished, hbuffers⟩
  · refine ⟨?_, ?_, ?_, ?_, ?_, hactive, hflushAt⟩
    · rw [hpending, hpublished]
      exact ch.chain.frame hsame
    · intro b hb
      rw [hpending] at hb
      rw [(hsame b hb).count, (hsame b hb).entriesAllocated, ch.count_eq b hb]
    · rw [hend, hunsent]
      exact ch.sentEnd_le
    · rw [hend, hunsent, htx]
      exact ch.sentEnd_eq
    · intro b hb
      rw [hpending] at hb
      exact (ch.placed b hb).frame (hsame b hb).minLsn (hsame b hb).entriesAllocated hissued
  · have hsame : ∀ b, SameSlots (sh.buffers b) (sh'.buffers b) := fun b => hbuffers ▸ .refl _
    have hmem : ∀ b' ∈ pending sh'.toCore fl'.pc, b' ∈ pending sh.toCore fl.pc := fun b' hb' =>
      hpending ▸ List.mem_cons_of_mem b hb'
    have hchain := hpending ▸ ch.chain
    refine ⟨?_, ?_, ?_, ?_, ?_, hactive, hflushAt⟩
    · rw [hpublished]
      exact hchain.2.frame fun b _ => hsame b
    · intro b' hb'
      rw [hbuffers]
      exact ch.count_eq b' (hmem b' hb')
    · rw [hend, hunsent]
      exact ch.sentEnd_le
    · rw [hend, hunsent, htx]
      exact ch.sentEnd_eq
    · intro b' hb'
      exact (ch.placed b' (hmem b' hb')).frame (hsame b').minLsn (hsame b').entriesAllocated hissued

end Flush

/-! ## Runs -/

section Runs

variable {cfg : WalConfig} {crc32 : Bytes → UInt32} {s s' : System ι} {l : Label ι}

def ChainedUp (s : System ι) : Prop :=
  Chained s.shared.toCore s.flush.pc s.shared.flushTx

theorem ChainedUp.init (cfg : WalConfig) (memory : BufId → ℕ → UInt8) :
    ChainedUp (System.init cfg memory : System ι) where
  chain := trivial
  count_eq := by simp [System.init, pending, FlushPc.pending?, FlushPc.buf?]
  sentEnd_le := by
    simp [System.init, sentEnd, slots, pending, FlushPc.pending?, FlushPc.buf?]
  sentEnd_eq _ := by
    simp [System.init, sentEnd, slots, pending, FlushPc.pending?, FlushPc.buf?, Core.unsentFrom,
      WalBuffer.new]
  placed := by simp [System.init, pending, FlushPc.pending?, FlushPc.buf?]
  placed_active _ := by simp [System.init, Placed, WalBuffer.new]
  flushAt := .of_nothing rfl (by simp [System.init]) (by simp [System.init])

variable [Fintype ι] [DecidableEq ι]

theorem ChainedUp.step (own : Owned cfg s) (num : Numbered cfg s) (ch : ChainedUp s)
    (hmove : Move cfg crc32 s l s') : ChainedUp s' := by
  cases hmove with
  | thread hpc heff hok => exact Chained.thread_step own num ch hpc heff hok
  | flush hstep => exact Chained.flush_step own ch (stepFlush_step hstep)

end Runs

end Todb.Wal

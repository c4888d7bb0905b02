import Todb.Verification.Wal.Segments

/-! # Runs and the disk

In an orderly run the flush thread receives complete buffers with consecutive LSNs, so all
that it has published is on disk. -/

namespace Todb.Wal

open Library

/-! ## Alignment -/

theorem WalConfig.Valid.exists_pow {cfg : WalConfig} (hvalid : cfg.Valid)
    (husize : cfg.segmentSize < 2 ^ 64) :
    ∃ k ≤ 64, cfg.blockSize = 2 ^ k ∧ cfg.bufferSize + 2 ^ k < 2 ^ 64 := by
  obtain ⟨k, hk⟩ := hvalid.blockSize_pow
  have hlt := hvalid.bufferSize_lt
  obtain ⟨m, hm⟩ := hvalid.segmentSize_dvd
  obtain ⟨n, hn⟩ := hvalid.bufferSize_dvd
  have hsucc : cfg.bufferSize + cfg.blockSize ≤ cfg.segmentSize := by
    rw [hm, hn] at hlt
    have hlt : n < m := lt_of_mul_lt_mul_left hlt (Nat.zero_le _)
    calc cfg.bufferSize + cfg.blockSize = cfg.blockSize * (n + 1) := by rw [hn]; ring
      _ ≤ cfg.blockSize * m := Nat.mul_le_mul_left _ hlt
      _ = cfg.segmentSize := hm.symm
  have hpow : 2 ^ k < 2 ^ 64 := by omega
  exact ⟨k, ((Nat.pow_lt_pow_iff_right (by norm_num)).mp hpow).le, hk, by omega⟩

/-- Alignment of an offset in a buffer. -/
theorem WalConfig.Valid.alignUp_spec {cfg : WalConfig} (hvalid : cfg.Valid)
    (husize : cfg.segmentSize < 2 ^ 64) {v : ℕ} (hv : v ≤ cfg.bufferSize) :
    v ≤ alignUp v cfg.blockSize ∧ cfg.blockSize ∣ alignUp v cfg.blockSize ∧
      alignUp v cfg.blockSize ≤ cfg.bufferSize := by
  obtain ⟨k, hk, hpow, hsum⟩ := hvalid.exists_pow husize
  obtain ⟨n, hn⟩ := hvalid.bufferSize_dvd
  have hfits : v + 2 ^ k ≤ 2 ^ 64 := by omega
  have hpos : 0 < 2 ^ k := Nat.two_pow_pos k
  rw [hpow] at hn ⊢
  refine ⟨le_alignUp hk hfits, ?_, ?_⟩
  · rw [alignUp_eq hk hfits]
    exact Nat.dvd_mul_left _ _
  · rw [alignUp_eq hk hfits]
    have hquot : (v + 2 ^ k - 1) / 2 ^ k ≤ n := by
      rw [Nat.div_le_iff_le_mul_add_pred hpos]
      omega
    calc (v + 2 ^ k - 1) / 2 ^ k * 2 ^ k ≤ n * 2 ^ k := Nat.mul_le_mul_right _ hquot
      _ = cfg.bufferSize := by rw [hn, Nat.mul_comm]

/-! ## The buffer being flushed -/

section Job

variable {ι : Type} [Fintype ι] {crc32 : Bytes → UInt32} {cfg : WalConfig} {s : System ι}
  {job : FlushJob}

theorem FlushPc.pending?_of_job? {fpc : FlushPc} {job : FlushJob} (h : fpc.job? = some job) :
    fpc.pending? = some job.buf := by
  have hbuf := FlushPc.buf?_of_job? h
  cases fpc with
  | recycle | recycleReset | recyclePush => cases h
  | recv | loadCount | loadMinLsn | scan | ensureSegment | sealIdx | sealMeta | openSegment
  | initMeta | installSegment | pad | pwrite | fdatasync | put | publish | done | panicked =>
      exact hbuf

theorem issuedFrames_of_some {issued : List Issue} {lsn : ℕ} {issue : Issue}
    (h : issued[lsn]? = some issue) :
    issuedFrames crc32 issued lsn = ⟨issue.pos, encode crc32 lsn issue.payload⟩ := by
  rw [issuedFrames, h]

theorem WellKept.published_le (h : WellKept crc32 cfg s) :
    s.shared.published ≤ s.shared.issued.length := by
  have hle := h.chained.sentEnd_le
  rw [sentEnd, Core.unsentFrom] at hle
  split at hle
  · omega
  · rename_i hphase
    have := h.num.next hphase
    omega

/-- The slots of the buffer being flushed, under the LSNs that were read from it. -/
theorem WellKept.job_filled (h : WellKept crc32 cfg s) (hjob : s.flush.pc.job? = some job) :
    ∀ i < job.count, ∃ issue, s.shared.issued[job.minLsn + i]? = some issue ∧ issue.slot = i ∧
      FrameIn crc32 cfg (s.shared.buffers job.buf) i issue := by
  have hpending := FlushPc.pending?_of_job? hjob
  have hread := h.chained.flushAt.job job hjob
  have hsealed := h.contents.sealed_flush job.buf (FlushPc.unrecycled?_of_pending? hpending)
  intro i hi
  obtain ⟨issue, hissue, -, hslot, hframe⟩ := hsealed.filled i (hread.count_eq ▸ hi)
  exact ⟨issue, hread.minLsn_eq ▸ hissue, hslot, hframe⟩

theorem WellKept.logicalEnd_le (h : WellKept crc32 cfg s) (hjob : s.flush.pc.job? = some job) :
    job.logicalEnd ≤ cfg.bufferSize := by
  obtain ⟨j, hj, hslot⟩ :=
    (h.contents.scanAt.job job hjob).attained (h.chained.flushAt.job job hjob).count_pos
  obtain ⟨issue, -, -, hframe⟩ := h.job_filled hjob j hj
  rw [WalBuffer.slotEnd, hframe.unpack_eq] at hslot
  exact hslot ▸ hframe.fits

theorem WellKept.jobOk (h : WellKept crc32 cfg s) (hvalid : cfg.Valid)
    (husize : cfg.segmentSize < 2 ^ 64) (hjob : s.flush.pc.job? = some job) :
    JobOk (issuedFrames crc32 s.shared.issued) cfg s.shared.toCore job := by
  have hread := h.chained.flushAt.job job hjob
  have hscan := h.contents.scanAt.job job hjob
  have hfilled := h.job_filled hjob
  have hchain := h.chained.chain
  rw [pending, FlushPc.pending?_of_job? hjob] at hchain
  obtain ⟨hle, hdvd, hbuffer⟩ := hvalid.alignUp_spec husize (h.logicalEnd_le hjob)
  refine
    { minLsn_eq := hread.minLsn_eq.trans hchain.1
      lsn_lt := ?_
      count_pos := hread.count_pos
      word := fun i hi => ?_
      bytes := fun i hi => ?_
      inside := fun i hi => ?_
      aligned := hdvd
      padded_le := hbuffer.trans hvalid.bufferSize_lt.le }
  · obtain ⟨issue, hissue, -⟩ := hfilled (job.count - 1) (Nat.sub_lt hread.count_pos one_pos)
    have hlt := (List.getElem?_eq_some_iff.mp hissue).1
    have := h.num.issued_lt
    have := hread.count_pos
    omega
  · obtain ⟨issue, hissue, -, hframe⟩ := hfilled i hi
    rw [issuedFrames_of_some hissue, length_encode]
    exact hframe.unpack_eq
  · obtain ⟨issue, hissue, -, hframe⟩ := hfilled i hi
    rw [issuedFrames_of_some hissue, length_encode]
    have hbytes := hframe.bytes.read_eq
    rw [← hread.minLsn_eq] at hbytes
    exact hbytes
  · obtain ⟨issue, hissue, -, hframe⟩ := hfilled i hi
    have hslot := hscan.slotEnd_le i hi
    rw [WalBuffer.slotEnd, hframe.unpack_eq] at hslot
    rw [issuedFrames_of_some hissue, length_encode]
    exact hslot.trans hle

theorem WellKept.lsn_le_issued (h : WellKept crc32 cfg s) (hjob : s.flush.pc.job? = some job) :
    job.minLsn + job.count ≤ s.shared.issued.length := by
  have hpos := (h.chained.flushAt.job job hjob).count_pos
  obtain ⟨issue, hissue, -⟩ := h.job_filled hjob (job.count - 1) (by omega)
  have hlt := (List.getElem?_eq_some_iff.mp hissue).1
  omega

end Job

/-! ## The fresh disk -/

/-- The flush thread of a fresh WAL. -/
theorem OnDisk.init (frames : ℕ → Placement) (cfg : WalConfig) {core : Core}
    (hpublished : core.published = 0) :
    OnDisk frames cfg core (FlushThread.init cfg) where
  lsns := by rw [hpublished]; rfl
  split := rfl
  complete r hr := by cases hr
  stored r hr := by cases hr
  fits r hr := by cases hr
  before r hr := by cases hr
  current := ⟨{ SegmentFiles.create cfg.segmentSize with header := some ⟨0, 0, 0, 0⟩ }, rfl,
    List.length_replicate ..⟩
  curSeg_lt := Nat.two_pow_pos 32
  mem := rfl
  sealedSegs := rfl
  sealed s hs := absurd hs (Nat.not_lt_zero s)
  aligned := Nat.dvd_zero _
  diskAt := by
    refine ⟨⟨rfl, fun s hs => ?_⟩, fun files hfiles => ?_⟩
    · have hne : s ≠ 0 := by
        have : 0 < s := hs
        omega
      simp [FlushThread.init, hne]
    · obtain rfl : _ = files := by simpa [FlushThread.init] using hfiles
      rfl

/-! ## Steps of the callers -/

section Callers

variable {frames frames' : ℕ → Placement} {cfg : WalConfig} {core core' : Core} {fl : FlushThread}

theorem entries_congr {r : Region} (h : ∀ n ∈ r.lsns, frames' n = frames n) :
    r.entries frames' = r.entries frames :=
  List.map_congr_left fun n hn => by rw [entryAt, entryAt, h n hn]

theorem OnDisk.indexOf_congr (h : OnDisk frames cfg core fl)
    (hframes : ∀ n < core.published, frames' n = frames n) (seg : ℕ) :
    indexOf frames' fl.flushed seg = indexOf frames fl.flushed seg :=
  List.flatMap_congr fun _ hr =>
    entries_congr fun n hn => hframes n (h.lsn_lt (List.mem_filter.mp hr).1 hn)

/-- A step that leaves the flush thread's buffer alone. -/
theorem OnDisk.frame (h : OnDisk frames cfg core fl) {bound : ℕ}
    (hpublished : core'.published = core.published) (hbound : core.published ≤ bound)
    (hframes : ∀ n < bound, frames' n = frames n)
    (hjob : ∀ job, fl.pc.job? = some job → job.minLsn + job.count ≤ bound ∧
      (core'.buffers job.buf).data = (core.buffers job.buf).data) : OnDisk frames' cfg core' fl := by
  have hregion : ∀ r ∈ fl.flushed, ∀ n ∈ r.lsns, frames' n = frames n := fun r hr n hn =>
    hframes n ((h.lsn_lt hr hn).trans_le hbound)
  have hindex := h.indexOf_congr fun n hn => hframes n (hn.trans_le hbound)
  have himaged : ∀ job part, fl.pc.job? = some job → Imaged cfg core fl job part →
      Imaged cfg core' fl job part := by
    intro job part hpc himaged files hfiles
    rw [show (core'.buffers job.buf).read 0 (job.padded cfg) =
      (core.buffers job.buf).read 0 (job.padded cfg) by
        rw [WalBuffer.read, WalBuffer.read, (hjob job hpc).2]]
    exact himaged files hfiles
  refine
    { h with
      lsns := hpublished ▸ h.lsns
      complete := fun r hr => ?_
      mem := ?_
      sealed := fun s hs => ?_
      diskAt := ?_ }
  · have hcomplete := h.complete r hr
    refine ⟨fun n hn => ?_, fun n hn => ?_, fun n hn => ?_⟩ <;> rw [hregion r hr n hn]
    · exact hcomplete.length_lt n hn
    · exact hcomplete.inside n hn
    · exact hcomplete.bytes n hn
  · rw [h.mem, hindex]
    congr 1
    cases hpc : fl.pc with
    | put job i =>
        simp only [inProgress, hpc]
        refine (List.map_congr_left fun n hn => ?_).symm
        have hat := h.diskAt
        simp only [DiskAt, hpc] at hat
        have hlt := (List.mem_range'_1.mp hn).2
        have hle := (hjob job (by rw [hpc]; rfl)).1
        rw [entryAt, entryAt, hframes n (by omega)]
    | publish job =>
        simp only [inProgress, hpc]
        refine (List.map_congr_left fun n hn => ?_).symm
        have hlt := (List.mem_range'_1.mp hn).2
        have hle := (hjob job (by rw [hpc]; rfl)).1
        rw [entryAt, entryAt, hframes n (by omega)]
    | recv | loadCount | loadMinLsn | scan | ensureSegment | sealIdx | sealMeta | openSegment
    | initMeta | installSegment | pad | pwrite | fdatasync | recycle | recycleReset | recyclePush
    | done | panicked => simp only [inProgress, hpc]
  · rw [hindex]
    exact h.sealed s hs
  · have hat := h.diskAt
    cases hpc : fl.pc with
    | fdatasync job =>
        simp only [DiskAt, hpc] at hat ⊢
        exact ⟨hat.1, hat.2.1, himaged job _ (by rw [hpc]; rfl) hat.2.2⟩
    | put job i =>
        simp only [DiskAt, hpc] at hat ⊢
        exact ⟨hat.1, hat.2.1, himaged job _ (by rw [hpc]; rfl) hat.2.2.1,
          himaged job _ (by rw [hpc]; rfl) hat.2.2.2.1, hat.2.2.2.2⟩
    | publish job =>
        simp only [DiskAt, hpc] at hat ⊢
        exact ⟨hat.1, hat.2.1, himaged job _ (by rw [hpc]; rfl) hat.2.2.1,
          himaged job _ (by rw [hpc]; rfl) hat.2.2.2⟩
    | recv | loadCount | loadMinLsn | scan | ensureSegment | sealIdx | sealMeta | openSegment
    | initMeta | installSegment | pad | pwrite | recycle | recycleReset | recyclePush
    | done | panicked => simpa only [DiskAt, hpc] using hat

end Callers

/-! ## Runs -/

section Runs

variable {ι : Type} [Fintype ι] [DecidableEq ι] {crc32 : Bytes → UInt32} {cfg : WalConfig}
  {s s' : System ι} {l : Label ι}

omit [Fintype ι] [DecidableEq ι] in
/-- Only the flush thread publishes. -/
theorem Effect.published_eq {sh sh' : Shared} {pc pc' : Pc} (heff : Effect crc32 cfg sh pc sh' pc') :
    sh'.published = sh.published ∧ sh'.durableLsn = sh.durableLsn := by
  cases heff with
  | outside _ _ hcore => rw [hcore]; exact ⟨rfl, rfl⟩
  | overflow | claimBytes | claimSlot | exhausted | loadLsn | enter | copy | store | leave | cas
  | spin | drained | loadCount | storeCount | loadMinLsn | send | pop | giveUp | reset | install =>
      exact ⟨rfl, rfl⟩

omit [Fintype ι] [DecidableEq ι] in
/-- `durable_lsn` is the last LSN that has been published. -/
theorem FlushStep.durableLsn_eq {sh sh' : Shared} {fl fl' : FlushThread}
    (hstep : FlushStep cfg sh fl sh' fl') (h : sh.durableLsn = sh.published - 1)
    (hjob : ∀ job, fl.pc.job? = some job → job.minLsn + job.count < 2 ^ 64) :
    sh'.durableLsn = sh'.published - 1 := by
  cases hstep with
  | @publish job hpc =>
      have hlt := hjob job (by rw [hpc]; rfl)
      exact Nat.mod_eq_of_lt (by omega)
  | recv | disconnected | loadCount | empty | loadMinLsn | scan | scanPanics | rollOver | stay
  | sealEmpty | sealIdx | sealPanics | sealMeta | createSegment | reopenSegment | initMeta
  | keepMeta | installSegment | pad | pwrite | pwritePanics | fdatasync | put | drop | recycle
  | reset | push => exact h

omit [Fintype ι] [DecidableEq ι] in
theorem issuedFrames_append (issued more : List Issue) {n : ℕ} (h : n < issued.length) :
    issuedFrames crc32 (issued ++ more) n = issuedFrames crc32 issued n := by
  rw [issuedFrames, issuedFrames, List.getElem?_append_left h]

/-- Orderly steps of the callers, and fresh ones of the flush thread. -/
def FreshOrderly (cfg : WalConfig) (s : System ι) (l : Label ι) : Prop :=
  OrderlyPacked cfg s l ∧ (l = .flush → FreshStep s.flush)

/-- All that holds of buffers and segments. -/
structure Stored (crc32 : Bytes → UInt32) (cfg : WalConfig) (s : System ι) : Prop where
  kept : WellKept crc32 cfg s
  disk : OnDisk (issuedFrames crc32 s.shared.issued) cfg s.shared.toCore s.flush
  durable : s.shared.durableLsn = s.shared.published - 1

omit [DecidableEq ι] in
theorem Stored.caller_step (h : Stored crc32 cfg s) {t : ι} {pc pc' : Pc} {sh' : Shared}
    (hpc : s.pcs t = pc) (heff : Effect crc32 cfg s.shared pc sh' pc')
    (hok : StepOrderly cfg s.shared.toCore s.pcs pc) :
    OnDisk (issuedFrames crc32 sh'.issued) cfg sh'.toCore s.flush := by
  obtain ⟨more, hissued⟩ := heff.issued_append
  refine h.disk.frame heff.published_eq.1 h.kept.published_le (fun n hn => ?_)
    fun job hjob => ⟨h.kept.lsn_le_issued hjob, ?_⟩
  · rw [hissued]
    exact issuedFrames_append _ _ hn
  · obtain ⟨writePos, hbuffer⟩ := h.kept.own.handed_keeps hpc heff hok
      (.inr (FlushPc.buf?_of_job? hjob))
    rw [hbuffer]

theorem Stored.step (hvalid : cfg.Valid) (husize : cfg.segmentSize < 2 ^ 64)
    (h : Stored crc32 cfg s) (hok : FreshOrderly cfg s l)
    (hstep : s.step crc32 cfg l = some s') : Stored crc32 cfg s' where
  kept := h.kept.step hok.1 hstep
  disk := by
    cases System.step_move hstep hok.1.1 with
    | thread hpc heff horderly => exact h.caller_step hpc heff horderly
    | flush hflush hlabel =>
        rw [(stepFlush_effect hflush).issued_eq]
        exact h.disk.flush_step (fun job hjob => h.kept.jobOk hvalid husize hjob) (hok.2 hlabel)
          (stepFlush_step hflush)
  durable := by
    cases System.step_move hstep hok.1.1 with
    | thread _ heff =>
        obtain ⟨hpublished, hdurable⟩ := heff.published_eq
        exact hdurable.trans (h.durable.trans (congrArg (· - 1) hpublished.symm))
    | flush hflush =>
        exact (stepFlush_step hflush).durableLsn_eq h.durable fun job hjob =>
          (h.kept.jobOk hvalid husize hjob).lsn_lt

omit [DecidableEq ι] in
theorem Stored.init (crc32 : Bytes → UInt32) (cfg : WalConfig) (memory : BufId → ℕ → UInt8) :
    Stored crc32 cfg (System.init cfg memory : System ι) where
  kept := .init crc32 cfg memory
  disk := .init _ cfg rfl
  durable := rfl

/-- In every run of orderly and fresh steps, what has been published is on disk. -/
theorem stored_of_freshOrderly (hvalid : cfg.Valid) (husize : cfg.segmentSize < 2 ^ 64)
    {memory : BufId → ℕ → UInt8}
    (h : Reaches (System.step crc32 cfg) (FreshOrderly cfg) (System.init cfg memory) s) :
    Stored crc32 cfg s :=
  h.invariant (.init crc32 cfg memory) fun hs hok hstep => hs.step hvalid husize hok hstep

end Runs

end Todb.Wal

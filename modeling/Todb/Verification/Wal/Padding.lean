import Todb.Verification.Wal.Stored

/-! # The padding of a flushed buffer

The image of a buffer in the log ends with its last frame, followed by zeros up to a block
boundary. -/

namespace Todb.Wal

open Library

variable {ι : Type}

/-- After its last frame the image is zero, up to a block boundary. -/
def Region.Padded (frames : ℕ → Placement) (cfg : WalConfig) (r : Region) : Prop :=
  ∃ stop, r.image.length = alignUp stop cfg.blockSize ∧
    (∀ n ∈ r.lsns, (frames n).pos + (frames n).frame.length ≤ stop) ∧
    (∃ n ∈ r.lsns, (frames n).pos + (frames n).frame.length = stop) ∧
    ∀ k, stop ≤ k → k < r.image.length → r.image[k]? = some 0

/-- The buffer being flushed, once its tail has been zeroed. -/
def FlushPc.zeroed? : FlushPc → Option FlushJob
  | .pwrite job | .fdatasync job | .put job _ | .publish job => some job
  | _ => none

theorem FlushPc.job?_of_zeroed? {fpc : FlushPc} {job : FlushJob} (h : fpc.zeroed? = some job) :
    fpc.job? = some job := by
  cases fpc with
  | pwrite | fdatasync | put | publish => exact h
  | recv | loadCount | loadMinLsn | scan | ensureSegment | sealIdx | sealMeta | openSegment
  | initMeta | installSegment | pad | recycle | recycleReset | recyclePush | done | panicked =>
      cases h

/-- The tail of a buffer is zero. -/
def TailZero (cfg : WalConfig) (core : Core) (job : FlushJob) : Prop :=
  ∀ k, job.logicalEnd ≤ k → k < job.padded cfg → (core.buffers job.buf).data k = 0

/-- All images are padded with zeros, and so is the buffer that is being written. -/
structure Padding (frames : ℕ → Placement) (cfg : WalConfig) (core : Core) (fl : FlushThread) :
    Prop where
  padded : ∀ r ∈ fl.flushed, r.Padded frames cfg
  tail : ∀ job, fl.pc.zeroed? = some job → TailZero cfg core job

section Steps

variable {frames frames' : ℕ → Placement} {cfg : WalConfig} {core core' : Core} {sh sh' : Shared}
  {fl fl' : FlushThread}

theorem Region.Padded.congr {r : Region} (h : r.Padded frames cfg)
    (hframes : ∀ n ∈ r.lsns, frames' n = frames n) : r.Padded frames' cfg := by
  obtain ⟨stop, hlength, hle, ⟨n, hn, hattained⟩, hzero⟩ := h
  exact ⟨stop, hlength, fun n hn => by rw [hframes n hn]; exact hle n hn,
    ⟨n, hn, by rw [hframes n hn]; exact hattained⟩, hzero⟩

/-- A step that leaves the flush thread's buffer alone. -/
theorem Padding.frame (h : Padding frames cfg core fl)
    (hframes : ∀ r ∈ fl.flushed, ∀ n ∈ r.lsns, frames' n = frames n)
    (hdata : ∀ job, fl.pc.job? = some job →
      (core'.buffers job.buf).data = (core.buffers job.buf).data) :
    Padding frames' cfg core' fl where
  padded r hr := (h.padded r hr).congr (hframes r hr)
  tail job hjob k hk hlt := by
    rw [hdata job (FlushPc.job?_of_zeroed? hjob)]
    exact h.tail job hjob k hk hlt

/-- A step of the flush thread that publishes nothing. -/
theorem Padding.goto (h : Padding frames cfg core fl) (hflushed : fl'.flushed = fl.flushed)
    (hbuffers : core'.buffers = core.buffers)
    (hpc : ∀ job, fl'.pc.zeroed? = some job → fl.pc.zeroed? = some job) :
    Padding frames cfg core' fl' where
  padded := hflushed ▸ h.padded
  tail job hjob := by
    rw [TailZero, hbuffers]
    exact h.tail job (hpc job hjob)

theorem read_zero_getElem? (b : WalBuffer) {n k : ℕ} (hk : k < n) :
    (b.read 0 n)[k]? = some (b.data k) := by
  simp [WalBuffer.read, hk]

/-- The image that is published. -/
theorem padded_publish {job : FlushJob} (hjob : JobOk frames cfg core job)
    (hscan : ScanTo (core.buffers job.buf) job.count job.logicalEnd)
    (htail : TailZero cfg core job) (seg base : ℕ) :
    Region.Padded frames cfg
      ⟨seg, base, job.minLsn, job.count, (core.buffers job.buf).read 0 (job.padded cfg)⟩ := by
  have hend : ∀ i < job.count, (core.buffers job.buf).slotEnd i =
      (frames (job.minLsn + i)).pos + (frames (job.minLsn + i)).frame.length := by
    intro i hi
    rw [WalBuffer.slotEnd, hjob.word i hi]
  have hlsns : ∀ n, n ∈ Region.lsns ⟨seg, base, job.minLsn, job.count,
      (core.buffers job.buf).read 0 (job.padded cfg)⟩ ↔
        job.minLsn ≤ n ∧ n < job.minLsn + job.count := fun n => List.mem_range'_1
  refine ⟨job.logicalEnd, by simp [WalBuffer.read, FlushJob.padded], fun n hn => ?_, ?_,
    fun k hk hlt => ?_⟩
  · obtain ⟨hle, hlt⟩ := (hlsns n).mp hn
    have hslot := hscan.slotEnd_le (n - job.minLsn) (by omega)
    rwa [hend _ (by omega), Nat.add_sub_cancel' hle] at hslot
  · obtain ⟨j, hj, hattained⟩ := hscan.attained hjob.count_pos
    exact ⟨job.minLsn + j, (hlsns _).mpr ⟨by omega, by omega⟩, by rw [← hend j hj, hattained]⟩
  · have hlt' : k < job.padded cfg := by simpa [WalBuffer.read] using hlt
    rw [read_zero_getElem? _ hlt', htail k hk hlt']

theorem Padding.flush_step (h : Padding frames cfg sh.toCore fl)
    (hjob : ∀ job, fl.pc.job? = some job → JobOk frames cfg sh.toCore job)
    (hscan : ScanAt sh.toCore fl.pc) (hstep : FlushStep cfg sh fl sh' fl') :
    Padding frames cfg sh'.toCore fl' := by
  cases hstep with
  | @pad job hpc =>
      refine ⟨h.padded, fun job' hjob' k hk hlt => ?_⟩
      obtain rfl := Option.some.inj hjob'
      simp [WalBuffer.zeroTail, hk, hlt]
  | @publish job hpc =>
      have hpc' : fl.pc.job? = some job := by rw [hpc]; rfl
      refine ⟨List.forall_mem_append.mpr ⟨h.padded, ?_⟩, by rintro _ ⟨⟩⟩
      simp only [List.mem_singleton, forall_eq]
      exact padded_publish (hjob job hpc') (hscan.job job hpc') (h.tail job (by rw [hpc]; rfl)) _ _
  | pwrite hpc | fdatasync hpc =>
      refine h.goto rfl rfl fun job hjob => ?_
      rw [hpc]
      exact hjob
  | put hpc =>
      refine h.goto rfl rfl fun job hjob => ?_
      rw [hpc]
      simp only at hjob
      split at hjob <;> exact hjob
  | reset hpc =>
      refine ⟨h.padded, fun job hjob => ?_⟩
      simp only [FlushThread.goto] at hjob
      split at hjob <;> cases hjob
  | @sealMeta job _ hpc =>
      refine h.goto rfl rfl fun job' hjob' => ?_
      cases job <;> cases hjob'
  | scan =>
      refine h.goto rfl rfl fun job hjob => ?_
      simp only [FlushThread.goto] at hjob
      split at hjob <;> cases hjob
  | recv | disconnected | loadCount | empty | loadMinLsn | scanPanics | rollOver | stay | sealEmpty
  | sealIdx | sealPanics | createSegment | reopenSegment | initMeta | keepMeta | installSegment
  | pwritePanics | drop | recycle | push => exact h.goto rfl rfl (by rintro _ ⟨⟩)

end Steps

/-! ## Runs -/

section Runs

variable [Fintype ι] [DecidableEq ι] {crc32 : Bytes → UInt32} {cfg : WalConfig} {s s' : System ι}
  {l : Label ι}

def PaddedUp (crc32 : Bytes → UInt32) (cfg : WalConfig) (s : System ι) : Prop :=
  Padding (issuedFrames crc32 s.shared.issued) cfg s.shared.toCore s.flush

omit [Fintype ι] [DecidableEq ι] in
theorem PaddedUp.init (crc32 : Bytes → UInt32) (cfg : WalConfig) (memory : BufId → ℕ → UInt8) :
    PaddedUp crc32 cfg (System.init cfg memory : System ι) := ⟨nofun, nofun⟩

omit [DecidableEq ι] in
theorem PaddedUp.caller_step (hstored : Stored crc32 cfg s) (h : PaddedUp crc32 cfg s) {t : ι}
    {pc pc' : Pc} {sh' : Shared} (hpc : s.pcs t = pc) (heff : Effect crc32 cfg s.shared pc sh' pc')
    (hok : StepOrderly cfg s.shared.toCore s.pcs pc) :
    Padding (issuedFrames crc32 sh'.issued) cfg sh'.toCore s.flush := by
  obtain ⟨more, hissued⟩ := heff.issued_append
  refine Padding.frame h (fun r hr n hn => ?_) fun job hjob => ?_
  · rw [hissued]
    exact issuedFrames_append _ _ ((hstored.disk.lsn_lt hr hn).trans_le hstored.kept.published_le)
  · obtain ⟨writePos, hbuffer⟩ := hstored.kept.own.handed_keeps hpc heff hok
      (.inr (FlushPc.buf?_of_job? hjob))
    rw [hbuffer]

theorem PaddedUp.step (hvalid : cfg.Valid) (husize : cfg.segmentSize < 2 ^ 64)
    (hstored : Stored crc32 cfg s) (h : PaddedUp crc32 cfg s) (hok : FreshOrderly cfg s l)
    (hstep : s.step crc32 cfg l = some s') : PaddedUp crc32 cfg s' := by
  cases System.step_move hstep hok.1.1 with
  | thread hpc heff horderly => exact h.caller_step hstored hpc heff horderly
  | flush hflush =>
      rw [PaddedUp, (stepFlush_effect hflush).issued_eq]
      exact Padding.flush_step h (fun job hjob => hstored.kept.jobOk hvalid husize hjob)
        hstored.kept.contents.scanAt (stepFlush_step hflush)

end Runs

end Todb.Wal

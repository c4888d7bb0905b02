import Todb.Verification.Wal.Stored

/-! # Progress of the flush thread

The flush thread fails none of its assertions, and it takes a bounded number of steps for each
buffer. -/

namespace Todb.Wal

open Library

/-! ## Steps for a buffer -/

/-- The steps that the flush thread needs at most for a buffer it finds in its queue. -/
def flushSteps (cfg : WalConfig) : ℕ := 24 + 2 * (cfg.bufferSize / headerLen)

/-- The steps that are left for the buffer in the flush thread's hands. -/
def flushLeft (cfg : WalConfig) : FlushPc → ℕ
  | .done | .panicked _ => 0
  | .sealMeta none => 1
  | .sealIdx none => 2
  | .recv => 3
  | .recyclePush _ => 4
  | .recycleReset _ stage => 5 + (WalBuffer.resetStores - stage)
  | .recycle _ => 12
  | .publish _ => 13
  | .put job i => 14 + (job.count - i)
  | .fdatasync _ => 15 + cfg.bufferSize / headerLen
  | .pwrite _ => 16 + cfg.bufferSize / headerLen
  | .pad _ => 17 + cfg.bufferSize / headerLen
  | .installSegment _ _ => 18 + cfg.bufferSize / headerLen
  | .initMeta _ _ _ => 19 + cfg.bufferSize / headerLen
  | .openSegment _ => 20 + cfg.bufferSize / headerLen
  | .sealMeta (some _) => 21 + cfg.bufferSize / headerLen
  | .sealIdx (some _) => 22 + cfg.bufferSize / headerLen
  | .ensureSegment _ => 23 + cfg.bufferSize / headerLen
  | .scan _ count _ i _ => 24 + cfg.bufferSize / headerLen + (count - i)
  | .loadMinLsn _ _ => 25 + 2 * (cfg.bufferSize / headerLen)
  | .loadCount _ => 26 + 2 * (cfg.bufferSize / headerLen)

/-- The steps that are left for all buffers that were handed over. -/
def workLeft (cfg : WalConfig) (sh : Shared) (fpc : FlushPc) : ℕ :=
  flushLeft cfg fpc + flushSteps cfg * sh.flushQueue.length

variable {ι : Type} [Fintype ι] {crc32 : Bytes → UInt32} {cfg : WalConfig} {s : System ι}
  {sh' : Shared} {fl' : FlushThread}

/-- A buffer that is being flushed has no more slots than fit. -/
theorem WellKept.slots_le (h : WellKept crc32 cfg s) {buf : BufId}
    (hbuf : s.flush.pc.unrecycled? = some buf) :
    (s.shared.buffers buf).entriesAllocated ≤ cfg.bufferSize / headerLen := by
  rw [Nat.le_div_iff_mul_le (by decide), Nat.mul_comm]
  exact (h.contents.sealed_flush buf hbuf).small

/-- Every step of the flush thread gets it closer to the end of its work. -/
theorem workLeft_flush (h : WellKept crc32 cfg s) (hstep : FlushStep cfg s.shared s.flush sh' fl') :
    workLeft cfg sh' fl'.pc < workLeft cfg s.shared s.flush.pc := by
  have hslots : ∀ buf, s.flush.pc.unrecycled? = some buf →
      (s.shared.buffers buf).entriesAllocated ≤ cfg.bufferSize / headerLen :=
    fun buf hbuf => h.slots_le hbuf
  have hat := h.chained.flushAt
  unfold workLeft
  cases hstep with
  | recv hpc hqueue =>
      simp only [hpc, hqueue, FlushThread.goto, flushLeft, List.length_cons, Nat.mul_add, flushSteps]
      omega
  | @loadMinLsn buf count hpc hcount =>
      have hle := hslots buf (by rw [hpc]; rfl)
      have hcount := hat.loaded buf count hpc
      simp only [hpc, FlushThread.goto, flushLeft]
      omega
  | @fdatasync job hpc =>
      have hle := hslots job.buf (by rw [hpc]; rfl)
      have hcount := (hat.job job (by rw [hpc]; rfl)).count_eq
      simp only [hpc, FlushThread.goto, FlushThread.modifyFiles, flushLeft]
      omega
  | scan hpc | put hpc =>
      simp only [hpc, FlushThread.goto]
      split <;> simp only [flushLeft] <;> omega
  | reset hpc =>
      simp only [hpc, FlushThread.goto, Shared.toCore_modify, Core.modify_flushQueue]
      split <;> simp only [flushLeft] <;> omega
  | @sealMeta job _ hpc | @sealEmpty job hpc | @sealIdx job _ hpc | @sealPanics job _ hpc =>
      simp only [hpc, FlushThread.goto]
      cases job <;> simp only [flushLeft, headerLen] <;> omega
  | disconnected hpc | loadCount hpc | empty hpc | scanPanics hpc | rollOver hpc | stay hpc
  | createSegment hpc | reopenSegment hpc | initMeta hpc | keepMeta hpc | installSegment hpc
  | pad hpc | pwrite hpc | pwritePanics hpc | publish hpc | drop hpc | recycle hpc | push hpc =>
      simp only [hpc, FlushThread.goto, flushLeft, WalBuffer.resetStores, headerLen,
        Shared.toCore_modify, Core.modify_flushQueue]
      omega

/-! ## No panic -/

/-- The file system has room for the index that is being sealed. -/
def IndexFits (cfg : WalConfig) (fl : FlushThread) : Prop :=
  match fl.pc with
  | .sealIdx _ => sealIdx cfg.blockSize fl.curMem none ≠ .error fileTooLarge
  | _ => True

/-- Sealing the current segment succeeds. -/
theorem OnDisk.exists_sealed {frames : ℕ → Placement} {core : Core} {fl : FlushThread}
    (h : OnDisk frames cfg core fl) (hvalid : cfg.Valid) {job : Option FlushJob}
    (hpc : fl.pc = .sealIdx job) (hio : IndexFits cfg fl) :
    ∃ file, sealIdx cfg.blockSize fl.curMem ((fl.disk fl.curSeg).bind (·.idx)) = .ok file := by
  obtain ⟨files, hfiles, -⟩ := h.current
  have hat := h.diskAt
  have hmem := h.mem
  simp only [DiskAt, hpc] at hat
  simp only [inProgress, hpc, List.append_nil] at hmem
  simp only [IndexFits, hpc] at hio
  obtain ⟨file, hfile, -⟩ :=
    exists_sealIdx hvalid.blockSize_ge (hmem ▸ plainIndex_indexOf _ _) hio
  exact ⟨file, by rw [hfiles, Option.bind_some, hat.unsealed files hfiles, hfile]⟩

theorem Stored.not_panicked (h : Stored crc32 cfg s) (hvalid : cfg.Valid)
    (husize : cfg.segmentSize < 2 ^ 64) (hio : IndexFits cfg s.flush)
    (hstep : FlushStep cfg s.shared s.flush sh' fl') (buf : Option BufId) :
    fl'.pc ≠ .panicked buf := by
  have hkept := h.kept
  cases hstep with
  | @scanPanics buf count minLsn i logicalEnd hpc hi =>
      have hbuf : s.flush.pc.unrecycled? = some buf := by rw [hpc]; rfl
      have hle := hkept.slots_le hbuf
      have hlt := (hkept.contents.scanAt.scanning _ _ _ _ _ hpc).1
      have hcount := (hkept.chained.flushAt.scanning _ _ _ _ _ hpc).count_eq
      omega
  | @pwritePanics job hpc hlarge =>
      have hjob : s.flush.pc.job? = some job := by rw [hpc]; rfl
      obtain ⟨-, -, hle⟩ := hvalid.alignUp_spec husize (hkept.logicalEnd_le hjob)
      exact absurd hle (not_le.mpr hlarge)
  | sealPanics hpc _ hfile =>
      obtain ⟨file, hok⟩ := h.disk.exists_sealed hvalid hpc hio
      rw [hok] at hfile
      cases hfile
  | scan | put | reset =>
      simp only [FlushThread.goto]
      split <;> rintro ⟨⟩
  | @sealMeta job =>
      simp only [FlushThread.goto]
      cases job <;> rintro ⟨⟩
  | recv | disconnected | loadCount | empty | loadMinLsn | rollOver | stay | sealEmpty | sealIdx
  | createSegment | reopenSegment | initMeta | keepMeta | installSegment | pad | pwrite
  | fdatasync | publish | drop | recycle | push => rintro ⟨⟩

/-- The flush thread waits only for its queue. -/
theorem stepFlush_isSome {sh : Shared} {fl : FlushThread} (hdone : fl.pc ≠ .done)
    (hpanic : ∀ buf, fl.pc ≠ .panicked buf)
    (hrecv : fl.pc = .recv → sh.flushQueue ≠ [] ∨ sh.flushTx = false) :
    (stepFlush cfg sh fl).isSome := by
  unfold stepFlush
  cases hpc : fl.pc with
  | done => exact absurd hpc hdone
  | panicked buf => exact absurd hpc (hpanic buf)
  | recv =>
      cases hqueue : sh.flushQueue with
      | cons => rfl
      | nil =>
          rcases hrecv hpc with h | h
          · exact absurd hqueue h
          · simp [h]
  | scan | pwrite =>
      simp only
      split <;> rfl
  | loadCount | loadMinLsn | ensureSegment | sealIdx | sealMeta | openSegment | initMeta
  | installSegment | pad | fdatasync | put | publish | recycle | recycleReset | recyclePush => rfl

end Todb.Wal

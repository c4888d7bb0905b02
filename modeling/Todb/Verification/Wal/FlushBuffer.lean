import Todb.Model.Wal.FlushBuffer
import Todb.Verification.Wal.Segments

/-! # The steps of a call

Left alone with a buffer, the flush thread steps through what `flushBuffer` computes in one
go. -/

namespace Todb.Wal

open Library

/-- Steps of the flush thread while the other threads rest. -/
def FlushRuns (cfg : WalConfig) : Shared × FlushThread → Shared × FlushThread → Prop :=
  Relation.ReflTransGen fun p q => stepFlush cfg p.1 p.2 = some q

section Runs

variable {cfg : WalConfig} {sh : Shared} {fl fl' : FlushThread} {buf : BufId} {job : FlushJob}

theorem FlushRuns.step {p q r : Shared × FlushThread} (h : stepFlush cfg p.1 p.2 = some q)
    (hrest : FlushRuns cfg q r) : FlushRuns cfg p r :=
  .head h hrest

theorem FlushRuns.append {p q r : Shared × FlushThread} (h : FlushRuns cfg p q)
    (hrest : FlushRuns cfg q r) : FlushRuns cfg p r :=
  .trans h hrest

/-- The loop over the slot words, from slot `i` on. -/
theorem runs_scan {count minLsn i logicalEnd k : ℕ} (hcount : i + k + 1 = count)
    (hslots : count ≤ cfg.bufferSize / headerLen) :
    FlushRuns cfg (sh, fl.goto (.scan buf count minLsn i logicalEnd))
      (sh, fl.goto (.ensureSegment ⟨buf, count, minLsn,
        (List.range' i (k + 1)).foldl (fun logicalEnd i =>
          max logicalEnd ((unpack ((sh.buffers buf).entries i)).1 +
            (unpack ((sh.buffers buf).entries i)).2)) logicalEnd⟩)) := by
  induction k generalizing i logicalEnd with
  | zero =>
      refine .step ?_ .refl
      have hslot : i < cfg.bufferSize / headerLen := by omega
      have hlast : ¬ i + 1 < count := by omega
      simp [stepFlush, FlushThread.goto, hslot, hlast]
  | succ k ih =>
      refine .step ?_ (ih (by omega))
      have hslot : i < cfg.bufferSize / headerLen := by omega
      have hmore : i + 1 < count := by omega
      simp [stepFlush, FlushThread.goto, hslot, hmore]

/-- The loop that puts the frames into the index, from slot `i` on. -/
theorem runs_put {b : WalBuffer} (hb : sh.buffers job.buf = b) {i k : ℕ} {mem : IndexMem}
    (hcount : i + k + 1 = job.count) :
    FlushRuns cfg (sh, { fl with curMem := mem, pc := .put job i })
      (sh, { fl with
        curMem := (List.range' i (k + 1)).foldl (fun mem i =>
          mem.put (lsnToKey ((job.minLsn + i) % 2 ^ 64))
            (encodeOffsetLen (fl.segWritten + (unpack (b.entries i)).1)
              (unpack (b.entries i)).2)) mem
        pc := .publish job }) := by
  induction k generalizing i mem with
  | zero =>
      refine .step ?_ .refl
      have hlast : ¬ i + 1 < job.count := by omega
      simp [stepFlush, hlast, hb]
  | succ k ih =>
      have hmore : i + 1 < job.count := by omega
      refine .step ?_ (ih (by omega))
      simp [stepFlush, hmore, hb]

theorem stepSeal_ok {file : Bytes} {next : Option FlushJob} (hlen : 0 < fl.curMem.len % 2 ^ 32)
    (hfile : sealIdx cfg.blockSize fl.curMem ((fl.disk fl.curSeg).bind (·.idx)) = .ok file) :
    stepSeal cfg fl next = (fl.modifyFiles fl.curSeg fun files =>
      { files with idx := some file }).goto (.sealMeta next) := by
  rw [stepSeal, if_pos hlen, hfile]

theorem stepSeal_empty {next : Option FlushJob} (hlen : ¬ 0 < fl.curMem.len % 2 ^ 32) :
    stepSeal cfg fl next = fl.goto (.sealMeta next) := by
  rw [stepSeal, if_neg hlen]

/-- Sealing the current segment. -/
theorem runs_finalize (h : fl.finalizeSegment cfg = .ok fl') :
    FlushRuns cfg (sh, fl.goto (.sealIdx (some job))) (sh, fl'.goto (.openSegment job)) := by
  obtain ⟨mid, hmid, hret⟩ := bind_eq_ok.mp h
  obtain rfl := Except.ok.inj hret
  rw [FlushThread.writeIdx] at hmid
  by_cases hlen : 0 < fl.curMem.len % 2 ^ 32
  · rw [if_pos hlen] at hmid
    obtain ⟨file, hfile, hret⟩ := bind_eq_ok.mp hmid
    obtain rfl := Except.ok.inj hret
    refine .step (q := (sh, (fl.modifyFiles fl.curSeg fun files =>
      { files with idx := some file }).goto (.sealMeta (some job)))) ?_ (.step ?_ .refl)
    · exact congrArg (fun fl => some (sh, fl))
        (stepSeal_ok hlen hfile)
    · simp [stepFlush, FlushThread.goto, FlushThread.modifyFiles]
  · rw [if_neg hlen] at hmid
    obtain rfl := Except.ok.inj hmid
    refine .step (q := (sh, fl.goto (.sealMeta (some job)))) ?_ (.step ?_ .refl)
    · exact congrArg (fun fl => some (sh, fl))
        (stepSeal_empty hlen)
    · simp [stepFlush, FlushThread.goto, FlushThread.modifyFiles]

/-- Opening the next segment. -/
theorem runs_openSegment :
    FlushRuns cfg (sh, fl.goto (.openSegment job))
      (sh, (fl.openSegment cfg job.minLsn).goto (.pad job)) := by
  by_cases hnew : (fl.disk fl.nextSegId).isNone = true
  · refine .step (q := (sh, { fl with
        disk := Function.update fl.disk fl.nextSegId (some (SegmentFiles.create cfg.segmentSize))
        nextSegId := (fl.nextSegId + 1) % 2 ^ 32
        pc := .initMeta job fl.nextSegId true })) ?_
      (.step (q := (sh, { fl with
        disk := Function.update fl.disk fl.nextSegId (some { SegmentFiles.create cfg.segmentSize with
          header := some ⟨fl.nextSegId, job.minLsn, 0, 0⟩ })
        nextSegId := (fl.nextSegId + 1) % 2 ^ 32
        pc := .installSegment job fl.nextSegId })) ?_ (.step ?_ .refl))
    · simp [stepFlush, FlushThread.goto, hnew]
    · simp [stepFlush, FlushThread.goto, FlushThread.modifyFiles]
    · simp [stepFlush, FlushThread.goto, FlushThread.openSegment, hnew]
  · refine .step (q := (sh, { fl with
        nextSegId := (fl.nextSegId + 1) % 2 ^ 32
        pc := .initMeta job fl.nextSegId false })) ?_
      (.step (q := (sh, { fl with
        nextSegId := (fl.nextSegId + 1) % 2 ^ 32
        pc := .installSegment job fl.nextSegId })) ?_ (.step ?_ .refl))
    · simp [stepFlush, FlushThread.goto, hnew]
    · simp [stepFlush, FlushThread.goto]
    · simp [stepFlush, FlushThread.goto, FlushThread.openSegment, hnew]

theorem runs_ensureSegment (h : fl.ensureSegment cfg job.minLsn (job.padded cfg) = .ok fl') :
    FlushRuns cfg (sh, fl.goto (.ensureSegment job)) (sh, fl'.goto (.pad job)) := by
  rw [FlushThread.ensureSegment] at h
  by_cases hnew : fl.needNew cfg (job.padded cfg)
  · rw [if_pos hnew] at h
    obtain ⟨mid, hfinalize, hret⟩ := bind_eq_ok.mp h
    obtain rfl := Except.ok.inj hret
    refine .step (q := (sh, fl.goto (.sealIdx (some job)))) ?_
      ((runs_finalize hfinalize).append runs_openSegment)
    have hlt : cfg.segmentSize < fl.segWritten + job.padded cfg := hnew
    simp [stepFlush, FlushThread.goto, hlt]
  · rw [if_neg hnew] at h
    obtain rfl := Except.ok.inj h
    refine .step ?_ .refl
    have hle : ¬ cfg.segmentSize < fl.segWritten + job.padded cfg := hnew
    simp [stepFlush, FlushThread.goto, hle]

/-- Writing a buffer to the current segment. -/
theorem runs_write {b : WalBuffer} (hb : sh.buffers buf = b) (hcount : 0 < b.count)
    (hbuffer : alignUp b.logicalEnd cfg.blockSize ≤ cfg.bufferSize) :
    ∃ sh', FlushRuns cfg (sh, fl.goto (.pad ⟨buf, b.count, b.minLsn, b.logicalEnd⟩))
        (sh', (fl.writeBuffer b (alignUp b.logicalEnd cfg.blockSize)).goto (.recycle buf)) ∧
      sh'.durableLsn = (b.minLsn + b.count - 1) % 2 ^ 64 := by
  set job : FlushJob := ⟨buf, b.count, b.minLsn, b.logicalEnd⟩
  set padded := alignUp b.logicalEnd cfg.blockSize with hpadded
  set sh₁ := sh.modify buf fun b => b.zeroTail job.logicalEnd padded with hsh₁
  have hbuf : sh₁.buffers buf = b.zeroTail b.logicalEnd padded := by
    rw [hsh₁, Shared.modify, Core.modify_self, hb]
  set image := (b.zeroTail b.logicalEnd padded).read 0 padded with himage
  set logged := fl.modifyFiles fl.curSeg fun files =>
    { files with log := pwriteAll files.log image fl.segWritten }
  set written := fl.modifyFiles fl.curSeg fun files =>
    let log := pwriteAll files.log image fl.segWritten
    { files with log, synced := log } with hwritten
  have hpad : FlushRuns cfg (sh, fl.goto (.pad job)) (sh₁, fl.goto (.pwrite job)) :=
    .step rfl .refl
  have hpwrite : FlushRuns cfg (sh₁, fl.goto (.pwrite job)) (sh₁, logged.goto (.fdatasync job)) := by
    refine .step ?_ .refl
    have hread : (sh₁.buffers job.buf).read 0 (job.padded cfg) = image := congrArg (·.read 0 padded) hbuf
    simp only [stepFlush, FlushThread.goto]
    rw [if_pos (show job.padded cfg ≤ cfg.bufferSize from hbuffer), hread]
    rfl
  have hsync : FlushRuns cfg (sh₁, logged.goto (.fdatasync job)) (sh₁, written.goto (.put job 0)) := by
    refine .step ?_ .refl
    change some (sh₁, (logged.modifyFiles fl.curSeg fun files =>
      { files with synced := files.log }).goto (.put job 0)) = _
    simp [logged, written, FlushThread.goto, FlushThread.modifyFiles, Function.comp_def]
  obtain ⟨k, hk⟩ : ∃ k, k + 1 = b.count := ⟨b.count - 1, by omega⟩
  have hput : FlushRuns cfg (sh₁, written.goto (.put job 0))
      (sh₁, { written with
        curMem := b.putEntries fl.segWritten fl.curMem
        pc := .publish job }) := by
    have hloop := @runs_put cfg sh₁ written job _ hbuf 0 k fl.curMem (by rw [Nat.zero_add, hk])
    rw [hk, ← List.range_eq_range'] at hloop
    exact hloop
  have hpublish : FlushRuns cfg
      (sh₁, { written with
        curMem := b.putEntries fl.segWritten fl.curMem
        pc := .publish job })
      ({ sh₁ with
        durableLsn := (b.minLsn + b.count - 1) % 2 ^ 64
        published := b.minLsn + b.count },
        (fl.writeBuffer b padded).goto (.recycle buf)) := by
    refine .step ?_ .refl
    simp only [stepFlush]
    rw [show sh₁.buffers job.buf = _ from hbuf]
    rfl
  exact ⟨_, hpad.append (hpwrite.append (hsync.append (hput.append hpublish))), rfl⟩

/-- A call that returns is a run of the thread from the receipt of the buffer to its recycling,
and leaves the last LSN of the buffer in `durable_lsn`. -/
theorem runs_flushBuffer {b : WalBuffer} (hb : sh.buffers buf = b)
    (h : fl.flushBuffer cfg b = .ok fl') :
    ∃ sh', FlushRuns cfg (sh, fl.goto (.loadCount buf)) (sh', fl'.goto (.recycle buf)) ∧
      sh'.durableLsn = if b.count = 0 then sh.durableLsn else fl'.segMaxLsn := by
  have hload : FlushRuns cfg (sh, fl.goto (.loadCount buf))
      (sh, fl.goto (if b.count = 0 then .recycle buf else .scan buf b.count b.minLsn 0 0)) := by
    refine .step (q := (sh, fl.goto (.loadMinLsn buf b.count))) ?_ (.step ?_ .refl)
    · simp only [stepFlush, FlushThread.goto, hb]
    · simp only [stepFlush, FlushThread.goto, hb]
  rw [FlushThread.flushBuffer] at h
  by_cases hcount : b.count = 0
  · rw [if_pos hcount] at h hload
    obtain rfl := Except.ok.inj h
    exact ⟨sh, hload, (if_pos hcount).symm⟩
  · rw [if_neg hcount] at h hload
    split at h
    · cases h
    · rename_i hslots
      obtain ⟨mid, hensure, hwrite⟩ := bind_eq_ok.mp h
      split at hwrite
      · rename_i hbuffer
        obtain rfl := Except.ok.inj hwrite
        obtain ⟨k, hk⟩ : ∃ k, k + 1 = b.count := ⟨b.count - 1, by omega⟩
        have hscan : FlushRuns cfg (sh, fl.goto (.scan buf b.count b.minLsn 0 0))
            (sh, fl.goto (.ensureSegment ⟨buf, b.count, b.minLsn, b.logicalEnd⟩)) := by
          have hloop := @runs_scan cfg sh fl buf b.count b.minLsn 0 0 k
            (by rw [Nat.zero_add, hk]) (not_lt.mp hslots)
          rw [hk, ← List.range_eq_range', hb] at hloop
          exact hloop
        obtain ⟨sh', hrest, hdurable⟩ := runs_write hb (Nat.pos_of_ne_zero hcount) hbuffer
        refine ⟨sh', hload.append (hscan.append ((runs_ensureSegment hensure).append hrest)), ?_⟩
        rw [hdurable, if_neg hcount]
        rfl
      · cases hwrite

end Runs

end Todb.Wal

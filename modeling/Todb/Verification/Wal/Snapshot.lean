import Todb.Model.Wal.Snapshot
import Todb.Verification.Wal.Stored

/-! # What a scan has cloned

Whenever a scan clones the segment list, the indexes it gets are those of a prefix of the LSNs,
and their frames are synced. This stays so while the flush thread goes on. -/

namespace Todb.Wal

open Library

/-! ## Statements -/

/-- The `.idx` file of a segment is an SST of the given entries; without entries there is none. -/
def IdxRecords (cfg : WalConfig) (fl : FlushThread) (seg : ℕ)
    (entries : List (Bytes × Entry Bytes)) : Prop :=
  ∃ files, fl.disk seg = some files ∧
    (entries = [] ∧ files.idx = none ∨
      ∃ file footer, files.idx = some file ∧
        WellFormedSst (⟨file, cfg.blockSize⟩ : FileBlockReader) footer entries)

/-- An index entry of a segment: the frame of its LSN is synced where the entry says. -/
def Durable (crc32 : Bytes → UInt32) (payloads : List Bytes) (fl : FlushThread) (seg : ℕ)
    (entry : Bytes × Entry Bytes) : Prop :=
  ∃ n payload value offset len files, entry = (lsnToKey n, .put value) ∧
    decodeOffsetLen value = some (offset, len) ∧ payloads[n]? = some payload ∧
    fl.disk seg = some files ∧ (files.synced.drop offset).take len = encode crc32 n payload

/-- A cloned triple, read now: the sealed indexes and the active one list the LSNs below some
`m`, each once and in order, and every frame is durable. -/
def Snapshot.Consistent {ι : Type} (crc32 : Bytes → UInt32) (cfg : WalConfig)
    (payloads : List Bytes) (st : ScannedWal ι) (snap : Snapshot) : Prop :=
  ∃ m ≤ payloads.length, ∃ idx : ℕ → List (Bytes × Entry Bytes),
    (∀ seg ∈ snap.sealed, IdxRecords cfg st.wal.flush seg (idx seg) ∧
      ∀ e ∈ idx seg, Durable crc32 payloads st.wal.flush seg e) ∧
    (∀ e ∈ (st.memAt snap.activeMem).entries,
      Durable crc32 payloads st.wal.flush snap.activeSeg e) ∧
    (snap.sealed.flatMap idx ++ (st.memAt snap.activeMem).entries).map Prod.fst =
      (List.range m).map lsnToKey ∧
    (0 < snap.published → snap.durableLsn < m)

/-! ## Entries on disk -/

section Entries

variable {frames : ℕ → Placement} {cfg : WalConfig} {core : Core} {fl : FlushThread}

theorem indexOf_keys (flushed : List Region) (seg : ℕ) :
    (indexOf frames flushed seg).map Prod.fst =
      ((regionsOf flushed seg).flatMap Region.lsns).map lsnToKey := by
  rw [indexOf, List.map_flatMap, List.map_flatMap]
  refine List.flatMap_congr fun r _ => ?_
  rw [Region.entries, List.map_map]
  rfl

/-- The `.idx` file of a sealed segment is an SST of its index. -/
theorem IdxHolds.idxRecords (hvalid : cfg.Valid) {seg : ℕ} {files : SegmentFiles}
    {entries : List (Bytes × Entry Bytes)} (hidx : IdxHolds cfg files entries)
    (hsmall : SmallBlocks ⟨cfg.blockSize⟩ entries) (hplain : PlainIndex entries)
    (hfiles : fl.disk seg = some files) : IdxRecords cfg fl seg entries := by
  refine ⟨files, hfiles, hidx.imp_right ?_⟩
  rintro ⟨mem, file, hfile, hseal, rfl⟩
  obtain ⟨footer, hsst⟩ := sealIdx_wellFormed hvalid.blockSize_ge hplain hsmall hseal
  exact ⟨file, footer, hfile, hsst⟩

/-- A sealed segment has its index on disk. -/
theorem OnDisk.idxRecords (h : OnDisk frames cfg core fl) (hvalid : cfg.Valid)
    (hblock : cfg.blockSize < 2 ^ 32) {seg : ℕ} (hseg : seg < fl.curSeg) :
    IdxRecords cfg fl seg (indexOf frames fl.flushed seg) := by
  obtain ⟨files, hfiles, hidx⟩ := h.sealed seg hseg
  exact hidx.idxRecords hvalid (.inl hblock) (plainIndex_indexOf _ _) hfiles

/-- The frames of a synced buffer are durable. -/
theorem durable_entryAt {crc32 : Bytes → UInt32} {issued : List Issue} {r : Region} {n : ℕ}
    {files : SegmentFiles} (husize : cfg.segmentSize < 2 ^ 64)
    (hcomplete : r.Complete (issuedFrames crc32 issued))
    (hsynced : HoldsAt files.synced r.base r.image)
    (hfits : r.base + r.image.length ≤ cfg.segmentSize) (hfiles : fl.disk r.seg = some files)
    (hn : n ∈ r.lsns) (hissued : n < issued.length) :
    Durable crc32 (issued.map Issue.payload) fl r.seg
      (entryAt (issuedFrames crc32 issued) r.base n) := by
  have hissue := List.getElem?_eq_getElem hissued
  have hframe : issuedFrames crc32 issued n = _ := issuedFrames_of_some hissue
  have hinside := hcomplete.inside n hn
  have hlength := hcomplete.length_lt n hn
  have hpart := (hsynced.part hinside).bytes
  rw [hcomplete.bytes n hn] at hpart
  refine ⟨n, issued[n].payload, _, _, _, files, rfl, decodeOffsetLen_encode (by omega) hlength, ?_, hfiles, ?_⟩
  · rw [List.getElem?_map, hissue]
    rfl
  · rw [hpart, hframe]

end Entries

/-! ## What the flush thread does to the segment list -/

section Segments

variable {frames : ℕ → Placement} {cfg : WalConfig} {core : Core} {sh sh' : Shared}
  {fl fl' : FlushThread}

def FlushPc.Installing (pc : FlushPc) : Prop := ∃ job segId, pc = .installSegment job segId

/-- Only the locked swap changes the current segment; a published buffer belongs to it. -/
theorem FlushStep.segments_cases (hstep : FlushStep cfg sh fl sh' fl') :
    (∃ job, fl.pc = .installSegment job fl'.curSeg ∧ fl'.flushed = fl.flushed) ∨
      (¬ fl.pc.Installing ∧ fl'.curSeg = fl.curSeg ∧
        ∃ more, fl'.flushed = fl.flushed ++ more ∧ ∀ r ∈ more, r.seg = fl.curSeg) := by
  cases hstep with
  | installSegment hpc => exact .inl ⟨_, hpc, rfl⟩
  | publish hpc =>
      exact .inr ⟨by simp [hpc, FlushPc.Installing], rfl, _, rfl, by simp⟩
  | recv hpc | disconnected hpc | loadCount hpc | empty hpc | loadMinLsn hpc | scan hpc
  | scanPanics hpc | rollOver hpc | stay hpc | sealEmpty hpc | sealIdx hpc | sealPanics hpc
  | sealMeta hpc | createSegment hpc | reopenSegment hpc | initMeta hpc | keepMeta hpc | pad hpc
  | pwrite hpc | pwritePanics hpc | fdatasync hpc | put hpc | drop hpc | recycle hpc | reset hpc
  | push hpc =>
      exact .inr ⟨by simp [hpc, FlushPc.Installing], rfl, [], (List.append_nil _).symm, by simp⟩

/-- The LSNs in the segments up to the given one. -/
def lsnsUpTo (flushed : List Region) (seg : ℕ) : List ℕ :=
  (List.range (seg + 1)).flatMap fun s => (regionsOf flushed s).flatMap Region.lsns

theorem length_lsnsUpTo_le (flushed more : List Region) (seg : ℕ) :
    (lsnsUpTo flushed seg).length ≤ (lsnsUpTo (flushed ++ more) seg).length := by
  simp only [lsnsUpTo, List.length_flatMap]
  refine List.sum_le_sum fun s _ => ?_
  simp

theorem OnDisk.lsnsUpTo_curSeg (h : OnDisk frames cfg core fl) :
    lsnsUpTo fl.flushed fl.curSeg = List.range core.published := by
  rw [lsnsUpTo, ← List.flatMap_assoc, h.split, h.lsns]

/-- The segments up to some point hold a prefix of the published LSNs. -/
theorem OnDisk.lsnsUpTo_eq (h : OnDisk frames cfg core fl) {seg : ℕ} (hseg : seg ≤ fl.curSeg) :
    ∃ m ≤ core.published, lsnsUpTo fl.flushed seg = List.range m := by
  obtain ⟨k, hk⟩ := Nat.exists_eq_add_of_le hseg
  have hprefix : lsnsUpTo fl.flushed seg <+: List.range core.published := by
    have hrange : List.range (seg + 1 + k) = List.range (seg + 1) ++ _ := List.range_add
    rw [← h.lsnsUpTo_curSeg, lsnsUpTo, lsnsUpTo, hk, Nat.add_right_comm, hrange,
      List.flatMap_append]
    exact List.prefix_append _ _
  refine ⟨_, ?_, (List.prefix_iff_eq_take.mp hprefix).trans (List.take_range ..)⟩
  exact min_le_right _ _

end Segments

/-! ## The invariant -/

section Runs

variable {ι : Type} [Fintype ι] [DecidableEq ι] {crc32 : Bytes → UInt32} {cfg : WalConfig}
  {st st' : ScannedWal ι}

/-- What a cloned triple stands for. -/
structure SnapshotKept (fl : FlushThread) (snap : Snapshot) : Prop where
  sealed_eq : snap.sealed = List.range snap.activeSeg
  activeMem_eq : snap.activeMem = snap.activeSeg
  activeSeg_le : snap.activeSeg ≤ fl.curSeg
  durable : snap.durableLsn = snap.published - 1
  covered : snap.published ≤ (lsnsUpTo fl.flushed snap.activeSeg).length

structure ScanKept (crc32 : Bytes → UInt32) (cfg : WalConfig) (st : ScannedWal ι) : Prop where
  stored : Stored crc32 cfg st.wal
  retired : st.retired.map MemTable.entries = (List.range st.wal.flush.curSeg).map
    (indexOf (issuedFrames crc32 st.wal.shared.issued) st.wal.flush.flushed)
  snapshots : ∀ snap ∈ st.snapshots, SnapshotKept st.wal.flush snap

omit [DecidableEq ι] in
theorem ScanKept.retired_length (h : ScanKept crc32 cfg st) :
    st.retired.length = st.wal.flush.curSeg := by
  simpa using congrArg List.length h.retired

omit [DecidableEq ι] in
theorem ScanKept.clone (h : ScanKept crc32 cfg st) :
    ScanKept crc32 cfg { st with snapshots := st.snapshots ++ [st.clone] } := by
  refine { h with snapshots := fun snap hsnap => ?_ }
  rcases List.mem_append.mp hsnap with hold | hnew
  · exact h.snapshots snap hold
  · obtain rfl := List.mem_singleton.mp hnew
    exact
      { sealed_eq := h.stored.disk.sealedSegs
        activeMem_eq := h.retired_length
        activeSeg_le := le_rfl
        durable := h.stored.durable
        covered := by
          simp only [ScannedWal.clone]
          rw [h.stored.disk.lsnsUpTo_curSeg, List.length_range] }

theorem SnapshotKept.mono {snap : Snapshot} {fl fl' : FlushThread} (h : SnapshotKept fl snap)
    (hcurSeg : fl.curSeg ≤ fl'.curSeg) {more : List Region}
    (hflushed : fl'.flushed = fl.flushed ++ more) : SnapshotKept fl' snap := by
  refine { h with activeSeg_le := h.activeSeg_le.trans hcurSeg, covered := ?_ }
  rw [hflushed]
  exact h.covered.trans (length_lsnsUpTo_le _ _ _)

omit [Fintype ι] [DecidableEq ι] in
theorem replaced_of_installing {job : FlushJob} {segId : ℕ}
    (hpc : st.wal.flush.pc = .installSegment job segId) :
    st.replaced .flush = [st.wal.flush.curMem] := by
  unfold ScannedWal.replaced
  rw [hpc]

omit [Fintype ι] [DecidableEq ι] in
theorem replaced_of_not_installing (hpc : ¬ st.wal.flush.pc.Installing) (l : Label ι) :
    st.replaced l = [] := by
  unfold ScannedWal.replaced
  split
  · rename_i hinstall
    exact (hpc ⟨_, _, hinstall⟩).elim
  · rfl

omit [DecidableEq ι] in
/-- The flush thread retires a memtable that holds the whole index of its segment. -/
theorem ScanKept.flush_step {sh' : Shared} {fl' : FlushThread} (h : ScanKept crc32 cfg st)
    (hstored : Stored crc32 cfg { st.wal with shared := sh', flush := fl' })
    (hstep : FlushStep cfg st.wal.shared st.wal.flush sh' fl') :
    ScanKept crc32 cfg
      { st with
        wal := { st.wal with shared := sh', flush := fl' }
        retired := st.retired ++ st.replaced .flush } := by
  have hissued : sh'.issued = st.wal.shared.issued := hstep.effect.issued_eq
  rcases hstep.segments_cases with ⟨job, hpc, hflushed⟩ | ⟨hpc, hcurSeg, more, hflushed, hmore⟩
  · have hat := h.stored.disk.diskAt
    simp only [DiskAt, hpc] at hat
    have hmem := h.stored.disk.mem
    simp only [inProgress, hpc, List.append_nil] at hmem
    have hnext := hat.1.segId_eq
    refine ⟨hstored, ?_, fun snap hsnap => (h.snapshots snap hsnap).mono ?_
      (hflushed.trans (List.append_nil _).symm)⟩
    · simp only [replaced_of_installing hpc, hissued, hflushed, hnext, List.map_append, h.retired,
        List.range_succ, List.map_singleton, hmem]
    · exact hnext ▸ Nat.le_succ _
  · refine ⟨hstored, ?_, fun snap hsnap => (h.snapshots snap hsnap).mono hcurSeg.ge hflushed⟩
    simp only [replaced_of_not_installing hpc, List.append_nil, hissued, hcurSeg, h.retired]
    refine List.map_congr_left fun seg hseg => ?_
    have hnone : regionsOf more seg = [] := by
      refine List.filter_eq_nil_iff.mpr fun r hr => ?_
      have := List.mem_range.mp hseg
      have := hmore r hr
      simp only [decide_eq_true_eq]
      omega
    rw [hflushed, indexOf, indexOf, regionsOf_append, hnone, List.append_nil]

omit [DecidableEq ι] in
theorem ScanKept.caller_step {l : Label ι} {pc pc' : Pc} {sh' : Shared} {wal' : System ι}
    (h : ScanKept crc32 cfg st) (hstored : Stored crc32 cfg wal')
    (heff : Effect crc32 cfg st.wal.shared pc sh' pc') (hshared : wal'.shared = sh')
    (hflush : wal'.flush = st.wal.flush) (hne : l ≠ .flush) :
    ScanKept crc32 cfg { st with wal := wal', retired := st.retired ++ st.replaced l } := by
  have hreplaced : st.replaced l = [] := by
    unfold ScannedWal.replaced
    split
    · exact (hne rfl).elim
    · rfl
  obtain ⟨more, hissued⟩ := heff.issued_append
  refine ⟨hstored, ?_, fun snap hsnap => hflush ▸ h.snapshots snap hsnap⟩
  simp only [hreplaced, List.append_nil, h.retired, hflush, hshared, hissued]
  refine List.map_congr_left fun seg _ => (h.stored.disk.indexOf_congr (fun n hn => ?_) seg).symm
  exact issuedFrames_append _ _ (hn.trans_le h.stored.kept.published_le)

/-- Steps of the WAL as before; a scan may clone at any time. -/
def ScanFresh (cfg : WalConfig) (st : ScannedWal ι) : ScanLabel ι → Prop
  | .wal l => FreshOrderly cfg st.wal l
  | .clone => True

theorem ScanKept.step {l : ScanLabel ι} (hvalid : cfg.Valid) (husize : cfg.segmentSize < 2 ^ 64)
    (h : ScanKept crc32 cfg st) (hok : ScanFresh cfg st l)
    (hstep : st.step crc32 cfg l = some st') : ScanKept crc32 cfg st' := by
  cases l with
  | clone =>
      obtain rfl := Option.some.inj hstep
      exact h.clone
  | wal l =>
      obtain ⟨wal, hwal, rfl⟩ := Option.map_eq_some_iff.mp hstep
      have hstored := h.stored.step hvalid husize hok hwal
      cases System.step_move hwal hok.1.1 with
      | flush hflush hlabel =>
          subst hlabel
          exact h.flush_step hstored (stepFlush_step hflush)
      | thread hpc heff _ _ _ hne => exact h.caller_step hstored heff rfl rfl hne

/-! ## Reading a snapshot -/

omit [DecidableEq ι] in
theorem Stored.durable_indexOf {s : System ι} (h : Stored crc32 cfg s)
    (husize : cfg.segmentSize < 2 ^ 64) {seg : ℕ} {e : Bytes × Entry Bytes}
    (he : e ∈ indexOf (issuedFrames crc32 s.shared.issued) s.flush.flushed seg) :
    Durable crc32 (s.shared.issued.map Issue.payload) s.flush seg e := by
  obtain ⟨r, hregion, hentry⟩ := List.mem_flatMap.mp he
  obtain ⟨hr, hseg⟩ := List.mem_filter.mp hregion
  obtain rfl : r.seg = seg := by simpa using hseg
  obtain ⟨n, hn, rfl⟩ := List.mem_map.mp hentry
  obtain ⟨files, hfiles, -, hsynced⟩ := h.disk.stored r hr
  exact durable_entryAt husize (h.disk.complete r hr) hsynced (h.disk.fits r hr) hfiles hn
    ((h.disk.lsn_lt hr hn).trans_le h.kept.published_le)

/-- The entries of the buffer being flushed go on from the published ones. -/
def Continues (crc32 : Bytes → UInt32) (s : System ι) (entries : List (Bytes × Entry Bytes)) : Prop :=
  ∃ i, s.shared.published + i ≤ s.shared.issued.length ∧
    entries.map Prod.fst = (List.range' s.shared.published i).map lsnToKey ∧
    ∀ e ∈ entries, Durable crc32 (s.shared.issued.map Issue.payload) s.flush s.flush.curSeg e

omit [DecidableEq ι] in
theorem Stored.continues_job {s : System ι} (h : Stored crc32 cfg s) (hvalid : cfg.Valid)
    (husize : cfg.segmentSize < 2 ^ 64) {job : FlushJob} {i : ℕ} (hjob : s.flush.pc.job? = some job)
    (hi : i ≤ job.count) (hroomy : Roomy cfg s.flush job)
    (hsynced : Imaged cfg s.shared.toCore s.flush job (·.synced)) :
    Continues crc32 s ((List.range' job.minLsn i).map
      (entryAt (issuedFrames crc32 s.shared.issued) s.flush.segWritten)) := by
  have hok := h.kept.jobOk hvalid husize hjob
  have hissued := h.kept.lsn_le_issued hjob
  have hminLsn := hok.minLsn_eq
  obtain ⟨files, hfiles, -⟩ := h.disk.current
  refine ⟨i, by omega, ?_, fun e he => ?_⟩
  · rw [List.map_map, ← hminLsn]
    rfl
  · obtain ⟨n, hn, rfl⟩ := List.mem_map.mp he
    obtain ⟨hge, hlt⟩ := List.mem_range'_1.mp hn
    refine durable_entryAt husize (hok.complete s.flush.curSeg s.flush.segWritten)
      (hsynced files hfiles) ?_ hfiles (List.mem_range'_1.mpr ⟨hge, by simp only; omega⟩) (by omega)
    rw [WalBuffer.read, List.length_map, List.length_range]
    exact hroomy

omit [DecidableEq ι] in
theorem Stored.continues {s : System ι} (h : Stored crc32 cfg s) (hvalid : cfg.Valid)
    (husize : cfg.segmentSize < 2 ^ 64) :
    Continues crc32 s (inProgress (issuedFrames crc32 s.shared.issued) s.flush) := by
  have hat := h.disk.diskAt
  unfold inProgress
  cases hpc : s.flush.pc with
  | put job i =>
      simp only [DiskAt, hpc] at hat
      exact h.continues_job hvalid husize (by rw [hpc]; rfl) hat.2.2.2.2.le hat.2.1 hat.2.2.2.1
  | publish job =>
      simp only [DiskAt, hpc] at hat
      exact h.continues_job hvalid husize (by rw [hpc]; rfl) le_rfl hat.2.1 hat.2.2.2
  | recv | loadCount | loadMinLsn | scan | ensureSegment | sealIdx | sealMeta | openSegment
  | initMeta | installSegment | pad | pwrite | fdatasync | recycle | recycleReset | recyclePush
  | done | panicked => exact ⟨0, h.kept.published_le, rfl, by simp⟩

omit [DecidableEq ι] in
/-- The active memtable of a snapshot has the index of its segment, and what is being added. -/
theorem ScanKept.entries_memAt (h : ScanKept crc32 cfg st) (hvalid : cfg.Valid)
    (husize : cfg.segmentSize < 2 ^ 64) {snap : Snapshot} (hkept : SnapshotKept st.wal.flush snap) :
    ∃ more m, (st.memAt snap.activeMem).entries =
        indexOf (issuedFrames crc32 st.wal.shared.issued) st.wal.flush.flushed snap.activeSeg ++
          more ∧
      m ≤ st.wal.shared.issued.length ∧ snap.published ≤ m ∧
      (lsnsUpTo st.wal.flush.flushed snap.activeSeg).map lsnToKey ++ more.map Prod.fst =
        (List.range m).map lsnToKey ∧
      ∀ e ∈ more, Durable crc32 (st.wal.shared.issued.map Issue.payload) st.wal.flush
        snap.activeSeg e := by
  have hdisk := h.stored.disk
  have hcovered := hkept.covered
  rw [hkept.activeMem_eq]
  rcases Nat.lt_or_eq_of_le hkept.activeSeg_le with hlt | heq
  · -- the segment has been sealed since, and its memtable retired
    obtain ⟨m, hm, hlsns⟩ := hdisk.lsnsUpTo_eq hkept.activeSeg_le
    have hretired := congrArg (·[snap.activeSeg]?) h.retired
    simp only [List.getElem?_map, List.getElem?_range hlt, Option.map_some] at hretired
    obtain ⟨mem, hmem, hentries⟩ := Option.map_eq_some_iff.mp hretired
    refine ⟨[], m, ?_, hm.trans h.stored.kept.published_le, ?_, by simp [hlsns], by simp⟩
    · rw [ScannedWal.memAt, hmem, Option.getD_some, hentries, List.append_nil]
    · rwa [hlsns, List.length_range] at hcovered
  · obtain ⟨i, hi, hkeys, hdurable⟩ := h.stored.continues hvalid husize
    rw [heq, hdisk.lsnsUpTo_curSeg, List.length_range] at hcovered
    refine ⟨_, st.wal.shared.published + i, ?_, hi, by omega, ?_, heq ▸ hdurable⟩
    · have hnone : st.retired[snap.activeSeg]? = none :=
        List.getElem?_eq_none (by rw [h.retired_length, heq])
      rw [ScannedWal.memAt, hnone, Option.getD_none, heq]
      exact hdisk.mem
    · have happend : List.range' 0 st.wal.shared.published ++
          List.range' (0 + st.wal.shared.published) i = _ := List.range'_append_1
      rw [Nat.zero_add] at happend
      rw [heq, hdisk.lsnsUpTo_curSeg, hkeys, ← List.map_append, List.range_eq_range',
        List.range_eq_range', happend]

omit [DecidableEq ι] in
theorem ScanKept.consistent (h : ScanKept crc32 cfg st) (hvalid : cfg.Valid)
    (husize : cfg.segmentSize < 2 ^ 64) (hblock : cfg.blockSize < 2 ^ 32) {snap : Snapshot}
    (hsnap : snap ∈ st.snapshots) :
    snap.Consistent crc32 cfg (st.wal.shared.issued.map Issue.payload) st := by
  have hkept := h.snapshots snap hsnap
  have hdurable := hkept.durable
  obtain ⟨more, m, hentries, hm, hcover, hkeys, hmore⟩ := h.entries_memAt hvalid husize hkept
  refine ⟨m, by rwa [List.length_map],
    indexOf (issuedFrames crc32 st.wal.shared.issued) st.wal.flush.flushed, ?_, ?_, ?_, ?_⟩
  · intro seg hseg
    rw [hkept.sealed_eq] at hseg
    have hlt := (List.mem_range.mp hseg).trans_le hkept.activeSeg_le
    exact ⟨h.stored.disk.idxRecords hvalid hblock hlt,
      fun e he => h.stored.durable_indexOf husize he⟩
  · intro e he
    rw [hentries] at he
    exact (List.mem_append.mp he).elim (h.stored.durable_indexOf husize) (hmore e)
  · rw [hkept.sealed_eq, hentries, ← hkeys, ← List.append_assoc, List.map_append]
    congr 1
    rw [lsnsUpTo, List.map_flatMap, List.range_succ, List.flatMap_append, List.flatMap_singleton,
      List.map_append, List.map_flatMap]
    congr 1
    · exact List.flatMap_congr fun seg _ => indexOf_keys _ seg
    · exact indexOf_keys _ _
  · omega

end Runs

/-! ## Buffers with contiguous LSNs -/

/-- A buffer as a swap hands it over: drained, with the slots of `slots` filled for the LSNs from
`start` on. -/
structure Batch.Filled (crc32 : Bytes → UInt32) (cfg : WalConfig) (start : ℕ) (batch : Batch) :
    Prop where
  minLsn : batch.buffer.minLsn = start
  count : batch.buffer.count = batch.slots.length
  entriesAllocated : batch.buffer.entriesAllocated = batch.slots.length
  inFlight : batch.buffer.inFlight = 0
  nonempty : batch.slots ≠ []
  room : headerLen * batch.slots.length ≤ cfg.bufferSize
  slot : ∀ i pos payload, batch.slots[i]? = some (pos, payload) →
    pos + frameLen payload ≤ cfg.bufferSize ∧
      batch.buffer.entries i = pack pos (frameLen payload % 2 ^ 32) ∧
      batch.buffer.read pos (frameLen payload) = encode crc32 (start + i) payload

/-- Non-empty buffers whose LSN ranges follow each other from `start` on. -/
def Contiguous (crc32 : Bytes → UInt32) (cfg : WalConfig) : ℕ → List Batch → Prop
  | _, [] => True
  | start, batch :: batches =>
      batch.Filled crc32 cfg start ∧ Contiguous crc32 cfg (start + batch.slots.length) batches

/-- A slot word can hold the position and the length of every frame. -/
def Batch.Packable (batch : Batch) : Prop :=
  ∀ slot ∈ batch.slots, slot.1 < 2 ^ 32 ∧ frameLen slot.2 < 2 ^ 32

section Fed

variable {crc32 : Bytes → UInt32} {cfg : WalConfig} {batches : List Batch} {flushTx stopFlag : Bool}

theorem issuesFrom_payload (buf : BufId) (batches : List Batch) :
    (Batch.issuesFrom buf batches).map Issue.payload =
      (batches.flatMap Batch.slots).map Prod.snd := by
  induction batches generalizing buf with
  | nil => rfl
  | cons batch batches ih =>
      rw [Batch.issuesFrom, List.map_append, ih, List.flatMap_cons, List.map_append]
      congr 1
      refine List.ext_getElem? fun i => ?_
      simp only [Batch.issues, List.getElem?_map, List.getElem?_mapIdx, Option.map_map]
      rfl

/-- Where a buffer's LSNs start, and its slot claims. -/
theorem Contiguous.filled (buf : BufId) {start k : ℕ} (h : Contiguous crc32 cfg start batches)
    {batch : Batch} (hk : batches[k]? = some batch) :
    ∃ offset, batch.Filled crc32 cfg (start + offset) ∧
      ∀ i slot, batch.slots[i]? = some slot →
        (Batch.issuesFrom buf batches)[offset + i]? = some ⟨buf + k, i, slot.1, slot.2⟩ := by
  induction batches generalizing buf start k with
  | nil => simp at hk
  | cons first batches ih =>
      cases k with
      | zero =>
          obtain rfl : first = batch := by simpa using hk
          refine ⟨0, h.1, fun i slot hslot => ?_⟩
          have hlt : i < (first.issues buf).length := by
            simpa [Batch.issues] using (List.getElem?_eq_some_iff.mp hslot).1
          rw [Batch.issuesFrom, Nat.zero_add, List.getElem?_append_left hlt]
          simp [Batch.issues, hslot]
      | succ k =>
          obtain ⟨offset, hfilled, hissues⟩ := ih (buf + 1) h.2 hk
          refine ⟨first.slots.length + offset, Nat.add_assoc .. ▸ hfilled, fun i slot hslot => ?_⟩
          have hlength : (first.issues buf).length = first.slots.length := by simp [Batch.issues]
          rw [Batch.issuesFrom, List.getElem?_append_right (by omega), hlength,
            show first.slots.length + offset + i - first.slots.length = offset + i by omega,
            hissues i slot hslot]
          rw [Nat.add_right_comm]
          rfl

theorem Contiguous.chain {core : Core} (buf : BufId) {start : ℕ}
    (h : Contiguous crc32 cfg start batches)
    (hbuffers : ∀ k batch, batches[k]? = some batch → core.buffers (buf + k) = batch.buffer) :
    Chain core start (List.range' buf batches.length) ∧
      slots core (List.range' buf batches.length) = (Batch.issuesFrom buf batches).length := by
  induction batches generalizing buf start with
  | nil => exact ⟨trivial, rfl⟩
  | cons batch batches ih =>
      have hbuffer : core.buffers buf = batch.buffer := hbuffers 0 batch rfl
      have hrest := ih (buf + 1) h.2 fun k b hb => by
        rw [Nat.add_assoc, Nat.add_comm 1]
        exact hbuffers (k + 1) b hb
      rw [List.length_cons, List.range'_succ]
      refine ⟨⟨hbuffer ▸ h.1.minLsn, ?_⟩, ?_⟩
      · rw [hbuffer, h.1.entriesAllocated]
        exact hrest.1
      · rw [slots] at hrest ⊢
        rw [List.map_cons, List.sum_cons, hrest.2, hbuffer, h.1.entriesAllocated, Batch.issuesFrom,
          List.length_append, Batch.issues, List.length_mapIdx]

theorem buffers_fed {k : ℕ} {batch : Batch} (hk : batches[k]? = some batch) :
    (System.fed cfg batches flushTx stopFlag).shared.buffers k = batch.buffer := by
  simp [System.fed, hk]

theorem exists_batch {b : BufId}
    (hb : b ∈ (System.fed cfg batches flushTx stopFlag).shared.flushQueue) :
    ∃ batch, batches[b]? = some batch := by
  obtain ⟨-, hlt⟩ := List.mem_range'_1.mp hb
  exact ⟨_, List.getElem?_eq_getElem (by omega)⟩

theorem written_of_read {b : WalBuffer} {pos lsn : ℕ} {payload : Bytes}
    (h : b.read pos (frameLen payload) = encode crc32 lsn payload) :
    Written crc32 b pos lsn payload (frameLen payload) := by
  intro k hk
  rw [← h, WalBuffer.read, List.getD_eq_getElem?_getD, List.getElem?_map, List.getElem?_range hk]
  rfl

theorem Contiguous.sealedIn (h : Contiguous crc32 cfg 0 batches)
    (hpackable : ∀ batch ∈ batches, batch.Packable) {b : BufId} {batch : Batch}
    (hb : batches[b]? = some batch) :
    SealedIn crc32 cfg (System.fed cfg batches flushTx stopFlag).shared.toCore b := by
  obtain ⟨offset, hfilled, hissues⟩ := h.filled 0 hb
  have hbuffer : (System.fed cfg batches flushTx stopFlag).shared.toCore.buffers b = batch.buffer :=
    buffers_fed hb
  refine ⟨?_, ?_, fun i hi => ?_⟩
  · rw [hbuffer, hfilled.count, hfilled.entriesAllocated]
  · rw [hbuffer, hfilled.entriesAllocated]
    exact hfilled.room
  · rw [hbuffer, hfilled.entriesAllocated] at hi
    obtain ⟨⟨pos, payload⟩, hslot⟩ : ∃ slot, batch.slots[i]? = some slot :=
      ⟨_, List.getElem?_eq_getElem hi⟩
    obtain ⟨hfits, hword, hbytes⟩ := hfilled.slot i pos payload hslot
    have hpack := hpackable batch (List.mem_of_getElem? hb) _ (List.mem_of_getElem? hslot)
    have hissue := hissues i _ hslot
    have hlsn : batch.buffer.minLsn + i = offset + i := by rw [hfilled.minLsn, Nat.zero_add]
    rw [← hlsn, Nat.zero_add, ← hbuffer] at hissue
    refine ⟨_, hissue, rfl, rfl, ?_, hpack, ?_, hfits⟩
    · rw [hbuffer, hword, Nat.mod_eq_of_lt hpack.2]
    · rw [hbuffer, hfilled.minLsn]
      exact written_of_read hbytes

theorem WellKept.fed (h : Contiguous crc32 cfg 0 batches)
    (hpackable : ∀ batch ∈ batches, batch.Packable)
    (hlsn : (batches.flatMap Batch.slots).length < 2 ^ 64) :
    WellKept crc32 cfg (System.fed cfg batches flushTx stopFlag) := by
  have hlength : (Batch.issuesFrom 0 batches).length = (batches.flatMap Batch.slots).length := by
    simpa using congrArg List.length (issuesFrom_payload 0 batches)
  obtain ⟨hchain, hslots⟩ : Chain (System.fed cfg batches flushTx stopFlag).shared.toCore 0 _ ∧ _ :=
    h.chain 0 fun k batch hk => by rw [Nat.zero_add]; exact buffers_fed hk
  have hinFlight : ∀ b, ((System.fed cfg batches flushTx stopFlag).shared.buffers b).inFlight = 0 := by
    intro b
    cases hb : batches[b]? with
    | none => simp [System.fed, hb, WalBuffer.new]
    | some batch =>
        obtain ⟨offset, hfilled, -⟩ := h.filled 0 hb
        rw [buffers_fed hb, hfilled.inFlight]
  have hend : sentEnd (System.fed cfg batches flushTx stopFlag).shared.toCore .recv =
      (Batch.issuesFrom 0 batches).length := by
    rw [sentEnd, pending]
    exact (Nat.zero_add _).trans hslots
  have hsealed : ∀ b ∈ (System.fed cfg batches flushTx stopFlag).shared.flushQueue,
      SealedIn crc32 cfg (System.fed cfg batches flushTx stopFlag).shared.toCore b := by
    intro b hb
    obtain ⟨batch, hbatch⟩ := exists_batch hb
    exact h.sealedIn hpackable hbatch
  exact
    { own :=
        { fitting := by rintro ⟨⟩
          swapAt := by rintro ⟨⟩
          unique := by rintro ⟨⟩
          swapping := by simp [System.fed]
          critical := by rintro ⟨⟩
          open_state := by rintro ⟨⟩
          inFlight_lt := fun b => (hinFlight b).symm ▸ Nat.two_pow_pos 32
          inFlight_eq := by simp [System.fed, Phase.Accepting]
          nodup := by
            simp [places, inHand, Core.openBuffer, System.fed, FlushPc.buf?, List.nodup_range'] }
      num :=
        { issued_lt := hlength ▸ hlsn
          next := fun hphase => (hphase rfl).elim
          held := by rintro ⟨⟩
          swapLsn := by rintro ⟨⟩
          room := fun hphase => (hphase rfl).elim
          counts := fun x => by
            by_cases hx : x < (Batch.issuesFrom 0 batches).length <;>
              simp [System.fed, List.count_range, hx] }
      chained :=
        { chain := hchain
          count_eq := fun b hb => (hsealed b hb).count_eq
          sentEnd_le := hend.le
          sentEnd_eq := fun _ => hend
          placed := fun b hb i hi => by
            obtain ⟨issue, hissue, rfl, rfl, -⟩ := (hsealed b hb).filled i hi
            exact ⟨_, _, hissue⟩
          placed_active := fun hphase => (hphase rfl).elim
          flushAt := ⟨by rintro _ _ ⟨⟩, by rintro _ _ _ _ _ ⟨⟩, by rintro _ ⟨⟩⟩ }
      ranges := ⟨by rintro ⟨⟩, by simp [System.fed, Phase.Accepting], by simp [System.fed, Phase.Accepting],
        by rintro ⟨⟩, by rintro ⟨⟩⟩
      contents :=
        { holdAt := by rintro ⟨⟩
          slots := fun hphase => (hphase rfl).elim
          sealed_queue := hsealed
          sealed_flush := by rintro _ ⟨⟩
          scanAt := ⟨by rintro _ _ _ _ _ ⟨⟩, by rintro _ ⟨⟩⟩ } }

theorem ScanKept.fed (h : Contiguous crc32 cfg 0 batches)
    (hpackable : ∀ batch ∈ batches, batch.Packable)
    (hlsn : (batches.flatMap Batch.slots).length < 2 ^ 64) :
    ScanKept crc32 cfg (ScannedWal.fed cfg batches flushTx stopFlag) where
  stored := ⟨.fed h hpackable hlsn, .init _ cfg rfl, rfl⟩
  retired := rfl
  snapshots := nofun

end Fed

/-- The condition on a step of the flush thread. -/
def FreshFlush {ι : Type} (st : ScannedWal ι) : ScanLabel ι → Prop
  | .wal .flush => FreshStep st.wal.flush
  | _ => True

theorem FreshFlush.scanFresh {cfg : WalConfig} {st : ScannedWal Empty} {l : ScanLabel Empty}
    (h : FreshFlush st l) : ScanFresh cfg st l := by
  rcases l with (⟨⟨⟩, _⟩ | ⟨⟨⟩⟩ | ⟨⟨⟩⟩ | _) | _
  · exact ⟨⟨trivial, trivial⟩, fun _ => h⟩
  · trivial

/-- Without callers no LSN is issued. -/
theorem issued_step {crc32 : Bytes → UInt32} {cfg : WalConfig} {st st' : ScannedWal Empty}
    {l : ScanLabel Empty} (hstep : st.step crc32 cfg l = some st') :
    st'.wal.shared.issued = st.wal.shared.issued := by
  cases l with
  | clone => rw [← Option.some.inj hstep]
  | wal l =>
      obtain ⟨wal, hwal, rfl⟩ := Option.map_eq_some_iff.mp hstep
      cases System.step_effect hwal with
      | @call t => exact t.elim
      | @thread t => exact t.elim
      | @timeout t => exact t.elim
      | flush hflush => exact (stepFlush_effect hflush).issued_eq

/-- Let the flush thread process any buffers with contiguous LSN ranges from 0 on, whose frames
fit slot words, and let scans clone the segment list at any time. In every run in which no
sealed index is lost and every opened segment is new, every triple that has been cloned is
consistent in every later state. -/
theorem snapshot_consistent (crc32 : Bytes → UInt32) (cfg : WalConfig)
    (hvalid : cfg.validate = .ok ()) (husize : cfg.segmentSize < 2 ^ 64)
    (hblock : cfg.blockSize < 2 ^ 32) (batches : List Batch) (flushTx stopFlag : Bool)
    (hcontiguous : Contiguous crc32 cfg 0 batches)
    (hpackable : ∀ batch ∈ batches, batch.Packable)
    (hlsn : (batches.flatMap Batch.slots).length < 2 ^ 64) (st : ScannedWal Empty)
    (hreach : Reaches (ScannedWal.step crc32 cfg) FreshFlush
      (ScannedWal.fed cfg batches flushTx stopFlag) st)
    (snap : Snapshot) (hsnap : snap ∈ st.snapshots) :
    snap.Consistent crc32 cfg ((batches.flatMap Batch.slots).map Prod.snd) st := by
  have hvalid := WalConfig.validate_eq_ok.mp hvalid
  have hkept : ScanKept crc32 cfg st ∧ st.wal.shared.issued = Batch.issuesFrom 0 batches := by
    refine hreach.invariant (P := fun st => ScanKept crc32 cfg st ∧
      st.wal.shared.issued = Batch.issuesFrom 0 batches) ⟨.fed hcontiguous hpackable hlsn, rfl⟩ ?_
    rintro st l st' ⟨hkept, hissued⟩ hok hstep
    exact ⟨hkept.step hvalid husize hok.scanFresh hstep, (issued_step hstep).trans hissued⟩
  rw [← issuesFrom_payload 0, ← hkept.2]
  exact hkept.1.consistent hvalid husize hblock hsnap

instance {ι : Type} (st : ScannedWal ι) (l : ScanLabel ι) : Decidable (FreshFlush st l) := by
  unfold FreshFlush
  split <;> infer_instance

/-- A drained buffer with one frame at its start, for LSN 0. -/
def Batch.single (word : ℕ) (payload : Bytes) : Batch where
  buffer :=
    { data := fun i => (encode (fun _ => 0) 0 payload).getD i 0
      writePos := frameLen payload
      entriesAllocated := 1
      entries := fun _ => word
      inFlight := 0
      state := .full
      minLsn := 0
      count := 1 }
  slots := [(0, payload)]

theorem contiguous_single {cfg : WalConfig} {word : ℕ} {payload : Bytes}
    (hfits : frameLen payload ≤ cfg.bufferSize) (hword : word = pack 0 (frameLen payload % 2 ^ 32)) :
    Contiguous (fun _ => 0) cfg 0 [.single word payload] := by
  refine ⟨⟨rfl, rfl, rfl, rfl, by simp [Batch.single], ?_, ?_⟩, trivial⟩
  · exact le_trans (by simp [Batch.single, frameLen]) hfits
  · rintro i pos p hslot
    obtain ⟨rfl, rfl, rfl⟩ : i = 0 ∧ pos = 0 ∧ p = payload := by
      cases i with
      | zero => simpa [Batch.single, eq_comm] using hslot
      | succ i => simp [Batch.single] at hslot
    refine ⟨by omega, hword, ?_⟩
    refine List.ext_getElem (by simp [WalBuffer.read]) fun k hk hk' => ?_
    simp [WalBuffer.read, Batch.single, List.getD_eq_getElem?_getD, List.getElem?_eq_getElem hk']

/-- One buffer, written and published, then a scan. -/
def flushThenClone : List (ScanLabel Empty) := List.replicate 10 (.wal .flush) ++ [.clone]

theorem snapshot_consistent_one :
    ∃ (st : ScannedWal Empty) (snap : Snapshot), snap ∈ st.snapshots ∧ snap.published = 1 ∧
      snap.Consistent (fun _ => 0) oneBlockConfig [[7]] st := by
  obtain ⟨st, hreach, hst⟩ :
      ∃ st, Reaches (ScannedWal.step (fun _ => 0) oneBlockConfig) FreshFlush
          (.fed oneBlockConfig [.single (pack 0 17) [7]] true false) st ∧
        st.snapshots = [⟨[], 0, 0, 0, 1⟩] :=
    Reaches.exists_of_execute flushThenClone _ _ (by decide +kernel) (by decide +kernel)
  refine ⟨st, ⟨[], 0, 0, 0, 1⟩, by simp [hst], rfl, ?_⟩
  exact snapshot_consistent _ _ (by decide) (by decide) (by decide) _ _ _
    (contiguous_single (by decide) (by decide)) (by simp [Batch.Packable, Batch.single, frameLen,
      headerLen]) (by simp [Batch.single]) st hreach _ (by simp [hst])

/-- Buffers of 4 GiB. -/
def hugeBufferConfig : WalConfig := ⟨2 ^ 33, 2 ^ 32, 512, 2, 1, false⟩

/-- A payload whose frame fills such a buffer. -/
def hugePayload : Bytes := List.replicate (2 ^ 32 - 16) 0

theorem frameLen_hugePayload : frameLen hugePayload = 2 ^ 32 := by
  rw [frameLen, hugePayload, List.length_replicate, headerLen]
  norm_num

/-- A slot word cannot hold the length of a frame of 4 GiB: nothing is written, and the index
says that the frame is at offset 0 with length 0. -/
theorem snapshot_inconsistent :
    hugeBufferConfig.validate = .ok () ∧
      Contiguous (fun _ => 0) hugeBufferConfig 0 [.single 0 hugePayload] ∧
      ∃ (st : ScannedWal Empty) (snap : Snapshot),
        Reaches (ScannedWal.step (fun _ => 0) hugeBufferConfig) FreshFlush
          (.fed hugeBufferConfig [.single 0 hugePayload] true false) st ∧
        snap ∈ st.snapshots ∧
        ¬ snap.Consistent (fun _ => 0) hugeBufferConfig [hugePayload] st := by
  refine ⟨by decide, contiguous_single (by rw [frameLen_hugePayload]; decide)
    (by rw [frameLen_hugePayload]; decide), ?_⟩
  obtain ⟨st, hreach, hst⟩ :
      ∃ st, Reaches (ScannedWal.step (fun _ => 0) hugeBufferConfig) FreshFlush
          (.fed hugeBufferConfig [.single 0 hugePayload] true false) st ∧
        (st.snapshots, (st.memAt 0).entries) =
          ([⟨[], 0, 0, 0, 1⟩], [(lsnToKey 0, .put (encodeOffsetLen 0 0))]) :=
    Reaches.exists_of_execute flushThenClone _ _ (by decide +kernel) (by decide +kernel)
  obtain ⟨hsnapshots, hentries⟩ := Prod.mk.inj hst
  refine ⟨st, ⟨[], 0, 0, 0, 1⟩, hreach, by simp [hsnapshots], ?_⟩
  rintro ⟨m, hm, idx, -, hmem, -⟩
  obtain ⟨n, payload, value, offset, len, files, hentry, hdecode, -, -, hframe⟩ :=
    hmem _ (hentries ▸ List.mem_singleton_self _)
  obtain ⟨-, rfl⟩ : _ ∧ encodeOffsetLen 0 0 = value := by simpa using hentry
  obtain ⟨rfl, rfl⟩ : 0 = offset ∧ 0 = len := by
    simpa [decodeOffsetLen_encode] using hdecode
  have hlength := congrArg List.length hframe
  simp only [List.take_zero, List.length_nil, length_encode, frameLen, headerLen] at hlength
  omega

end Todb.Wal

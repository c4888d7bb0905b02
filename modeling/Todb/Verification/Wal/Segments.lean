import Todb.Verification.Wal.Contents
import Todb.Verification.Wal.SealedIndex

/-! # What the flush thread leaves on disk

Published frames are in the synced log of a segment, where the index of that segment says. A
sealed segment has its index in the `.idx` file, the current one in the memtable. -/

namespace Todb.Wal

open Library

/-! ## Bytes in a file -/

/-- The file has the given bytes at an offset. -/
structure HoldsAt (file : Bytes) (base : ℕ) (image : Bytes) : Prop where
  inside : base + image.length ≤ file.length
  bytes : (file.drop base).take image.length = image

section Files

variable {file image data : Bytes} {base offset : ℕ}

theorem length_pwriteAll (h : offset + data.length ≤ file.length) :
    (pwriteAll file data offset).length = file.length := by
  simp only [pwriteAll, List.length_append, List.length_take, List.length_replicate,
    List.length_drop]
  omega

theorem pwriteAll_eq (h : offset ≤ file.length) :
    pwriteAll file data offset =
      file.take offset ++ (data ++ file.drop (offset + data.length)) := by
  have hzero : offset - file.length = 0 := Nat.sub_eq_zero_of_le h
  simp [pwriteAll, hzero]

theorem holdsAt_pwriteAll (h : offset + data.length ≤ file.length) :
    HoldsAt (pwriteAll file data offset) offset data := by
  refine ⟨(length_pwriteAll h).symm ▸ h, ?_⟩
  have hlength : (file.take offset).length = offset := by
    rw [List.length_take]
    omega
  rw [pwriteAll_eq (by omega), List.drop_append_of_le_length hlength.ge, List.drop_of_length_le
    hlength.le, List.nil_append, List.take_left]

/-- A write behind some bytes leaves them alone. -/
theorem HoldsAt.pwriteAll (hold : HoldsAt file base image)
    (hbefore : base + image.length ≤ offset) (h : offset + data.length ≤ file.length) :
    HoldsAt (pwriteAll file data offset) base image := by
  refine ⟨(length_pwriteAll h).symm ▸ hold.inside, ?_⟩
  rw [pwriteAll_eq (by omega), List.drop_append_of_le_length (by rw [List.length_take]; omega),
    List.take_append_of_le_length (by rw [List.length_drop, List.length_take]; omega),
    List.drop_take, List.take_take, Nat.min_eq_left (by omega)]
  exact hold.bytes

/-- A part of bytes that a file has. -/
theorem HoldsAt.part (hold : HoldsAt file base image) {pos len : ℕ}
    (h : pos + len ≤ image.length) : HoldsAt file (base + pos) ((image.drop pos).take len) := by
  have hinside := hold.inside
  have hlength : ((image.drop pos).take len).length = len := by
    rw [List.length_take, List.length_drop]
    omega
  refine ⟨by omega, ?_⟩
  conv_rhs => rw [← hold.bytes]
  rw [hlength, List.drop_take, List.take_take, List.drop_drop, Nat.min_eq_left (by omega)]

theorem read_eq_drop_take (b : WalBuffer) {pos len n : ℕ} (h : pos + len ≤ n) :
    ((b.read 0 n).drop pos).take len = b.read pos len := by
  refine List.ext_getElem (by simp [WalBuffer.read]; omega) fun i hi hi' => ?_
  simp [WalBuffer.read]

end Files

/-! ## Frames and their places -/

/-- The frame of an LSN, and where it is in its buffer. -/
structure Placement where
  pos : ℕ
  frame : Bytes

/-- The frames that the slot claims stand for. -/
def issuedFrames (crc32 : Bytes → UInt32) (issued : List Issue) (lsn : ℕ) : Placement :=
  match issued[lsn]? with
  | some issue => ⟨issue.pos, encode crc32 lsn issue.payload⟩
  | none => ⟨0, []⟩

/-- The index entry of an LSN in a buffer that was written at `base`. -/
def entryAt (frames : ℕ → Placement) (base lsn : ℕ) : Bytes × Entry Bytes :=
  indexEntry lsn (base + (frames lsn).pos) (frames lsn).frame.length

namespace Region

def lsns (self : Region) : List ℕ := List.range' self.minLsn self.count

def entries (frames : ℕ → Placement) (self : Region) : List (Bytes × Entry Bytes) :=
  self.lsns.map (entryAt frames self.base)

/-- The image of a buffer has its frames. -/
structure Complete (frames : ℕ → Placement) (r : Region) : Prop where
  length_lt : ∀ n ∈ r.lsns, (frames n).frame.length < 2 ^ 32
  inside : ∀ n ∈ r.lsns, (frames n).pos + (frames n).frame.length ≤ r.image.length
  bytes : ∀ n ∈ r.lsns,
    (r.image.drop (frames n).pos).take (frames n).frame.length = (frames n).frame

end Region

/-- The buffers that were flushed to a segment. -/
def regionsOf (flushed : List Region) (seg : ℕ) : List Region := flushed.filter (·.seg = seg)

/-- The index of a segment. -/
def indexOf (frames : ℕ → Placement) (flushed : List Region) (seg : ℕ) :
    List (Bytes × Entry Bytes) :=
  (regionsOf flushed seg).flatMap (Region.entries frames)

theorem plainIndex_indexOf {frames : ℕ → Placement} (flushed : List Region) (seg : ℕ) :
    PlainIndex (indexOf frames flushed seg) := by
  intro e he
  obtain ⟨r, -, he⟩ := List.mem_flatMap.mp he
  obtain ⟨n, -, rfl⟩ := List.mem_map.mp he
  exact ⟨_, _, _, rfl⟩

/-- The `.idx` file holds the given index; an empty one is not written. -/
def IdxHolds (cfg : WalConfig) (files : SegmentFiles) (entries : List (Bytes × Entry Bytes)) :
    Prop :=
  (entries = [] ∧ files.idx = none) ∨
    ∃ mem file, files.idx = some file ∧ sealIdx cfg.blockSize mem none = .ok file ∧
      mem.entries = entries

/-- What the flush thread may rely on about the buffer it flushes. -/
structure JobOk (frames : ℕ → Placement) (cfg : WalConfig) (core : Core) (job : FlushJob) :
    Prop where
  minLsn_eq : job.minLsn = core.published
  lsn_lt : job.minLsn + job.count < 2 ^ 64
  count_pos : 0 < job.count
  word : ∀ i < job.count, unpack ((core.buffers job.buf).entries i) =
    ((frames (job.minLsn + i)).pos, (frames (job.minLsn + i)).frame.length)
  bytes : ∀ i < job.count, (core.buffers job.buf).read (frames (job.minLsn + i)).pos
    (frames (job.minLsn + i)).frame.length = (frames (job.minLsn + i)).frame
  inside : ∀ i < job.count,
    (frames (job.minLsn + i)).pos + (frames (job.minLsn + i)).frame.length ≤ job.padded cfg
  aligned : cfg.blockSize ∣ job.padded cfg
  padded_le : job.padded cfg ≤ cfg.segmentSize

/-! ## The invariant -/

/-- The index entries of the buffer being flushed that are in the memtable. -/
def inProgress (frames : ℕ → Placement) (fl : FlushThread) : List (Bytes × Entry Bytes) :=
  match fl.pc with
  | .put job i => (List.range' job.minLsn i).map (entryAt frames fl.segWritten)
  | .publish job => (List.range' job.minLsn job.count).map (entryAt frames fl.segWritten)
  | _ => []

/-- No segment is beyond the current one. -/
structure Newest (fl : FlushThread) : Prop where
  next : fl.nextSegId = (fl.curSeg + 1) % 2 ^ 32
  fresh : ∀ s, fl.curSeg < s → fl.disk s = none

/-- The current segment is not sealed. -/
structure Writing (fl : FlushThread) : Prop extends Newest fl where
  unsealed : ∀ files, fl.disk fl.curSeg = some files → files.idx = none

/-- The current segment has its `.idx` file. -/
def Indexed (cfg : WalConfig) (fl : FlushThread) : Prop :=
  ∀ files, fl.disk fl.curSeg = some files → IdxHolds cfg files fl.curMem.entries

/-- The successor of the current segment has been created. -/
structure Created (cfg : WalConfig) (fl : FlushThread) (segId : ℕ) : Prop where
  segId_eq : segId = fl.curSeg + 1
  segId_lt : segId < 2 ^ 32
  next : fl.nextSegId = (segId + 1) % 2 ^ 32
  files : ∃ files, fl.disk segId = some files ∧ files.log.length = cfg.segmentSize ∧
    files.idx = none
  fresh : ∀ s, segId < s → fl.disk s = none

/-- The job's buffer has room in the current segment. -/
def Roomy (cfg : WalConfig) (fl : FlushThread) (job : FlushJob) : Prop :=
  fl.segWritten + job.padded cfg ≤ cfg.segmentSize

/-- The image of the job's buffer is in the log, or in what is synced of it. -/
def Imaged (cfg : WalConfig) (core : Core) (fl : FlushThread) (job : FlushJob)
    (part : SegmentFiles → Bytes) : Prop :=
  ∀ files, fl.disk fl.curSeg = some files →
    HoldsAt (part files) fl.segWritten ((core.buffers job.buf).read 0 (job.padded cfg))

/-- How far the flush thread has come with the current segment and the buffer in its hands. -/
def DiskAt (cfg : WalConfig) (core : Core) (fl : FlushThread) : Prop :=
  match fl.pc with
  | .sealMeta _ | .openSegment _ | .done => Newest fl ∧ Indexed cfg fl
  | .initMeta _ segId _ | .installSegment _ segId => Created cfg fl segId ∧ Indexed cfg fl
  | .pad job | .pwrite job => Writing fl ∧ Roomy cfg fl job
  | .fdatasync job => Writing fl ∧ Roomy cfg fl job ∧ Imaged cfg core fl job (·.log)
  | .put job i => Writing fl ∧ Roomy cfg fl job ∧ Imaged cfg core fl job (·.log) ∧
      Imaged cfg core fl job (·.synced) ∧ i < job.count
  | .publish job => Writing fl ∧ Roomy cfg fl job ∧ Imaged cfg core fl job (·.log) ∧
      Imaged cfg core fl job (·.synced)
  | _ => Writing fl

structure OnDisk (frames : ℕ → Placement) (cfg : WalConfig) (core : Core) (fl : FlushThread) :
    Prop where
  lsns : fl.flushed.flatMap Region.lsns = List.range core.published
  split : (List.range (fl.curSeg + 1)).flatMap (regionsOf fl.flushed) = fl.flushed
  complete : ∀ r ∈ fl.flushed, r.Complete frames
  stored : ∀ r ∈ fl.flushed, ∃ files, fl.disk r.seg = some files ∧
    HoldsAt files.log r.base r.image ∧ HoldsAt files.synced r.base r.image
  fits : ∀ r ∈ fl.flushed, r.base + r.image.length ≤ cfg.segmentSize
  before : ∀ r ∈ fl.flushed, r.seg = fl.curSeg → r.base + r.image.length ≤ fl.segWritten
  current : ∃ files, fl.disk fl.curSeg = some files ∧ files.log.length = cfg.segmentSize
  curSeg_lt : fl.curSeg < 2 ^ 32
  mem : fl.curMem.entries = indexOf frames fl.flushed fl.curSeg ++ inProgress frames fl
  sealedSegs : fl.sealedSegs = List.range fl.curSeg
  sealed : ∀ s < fl.curSeg, ∃ files, fl.disk s = some files ∧
    IdxHolds cfg files (indexOf frames fl.flushed s)
  aligned : cfg.blockSize ∣ fl.segWritten
  diskAt : DiskAt cfg core fl

/-- The condition on a step of the flush thread: a segment that has entries is sealed with a
count that is not zero, and a segment that is opened is new. -/
def FreshStep (fl : FlushThread) : Prop :=
  match fl.pc with
  | .sealIdx _ => 0 < fl.curMem.len → fl.curMem.len % 2 ^ 32 ≠ 0
  | .openSegment _ => fl.disk fl.nextSegId = none
  | _ => True

instance (fl : FlushThread) : Decidable (FreshStep fl) := by
  unfold FreshStep
  split <;> infer_instance

/-! ## Steps of the flush thread -/

section Steps

variable {frames : ℕ → Placement} {cfg : WalConfig} {core core' : Core} {sh sh' : Shared}
  {fl fl' : FlushThread}

@[simp] theorem disk_modifyFiles_self (fl : FlushThread) (seg : ℕ)
    (f : SegmentFiles → SegmentFiles) :
    (fl.modifyFiles seg f).disk seg = (fl.disk seg).map f := by
  simp [FlushThread.modifyFiles]

theorem disk_modifyFiles_of_ne (fl : FlushThread) {seg s : ℕ} (h : s ≠ seg)
    (f : SegmentFiles → SegmentFiles) : (fl.modifyFiles seg f).disk s = fl.disk s := by
  simp [FlushThread.modifyFiles, h]

theorem Newest.goto (h : Newest fl) (pc : FlushPc) : Newest (fl.goto pc) := ⟨h.next, h.fresh⟩

theorem Writing.goto (h : Writing fl) (pc : FlushPc) : Writing (fl.goto pc) :=
  ⟨h.toNewest.goto pc, h.unsealed⟩

/-- A step that only moves on. -/
theorem OnDisk.goto (h : OnDisk frames cfg core fl) {pc : FlushPc}
    (hpublished : core'.published = core.published)
    (hprogress : inProgress frames (fl.goto pc) = inProgress frames fl)
    (hat : DiskAt cfg core' (fl.goto pc)) : OnDisk frames cfg core' (fl.goto pc) where
  lsns := hpublished ▸ h.lsns
  split := h.split
  complete := h.complete
  stored := h.stored
  fits := h.fits
  before := h.before
  current := h.current
  curSeg_lt := h.curSeg_lt
  mem := hprogress ▸ h.mem
  sealedSegs := h.sealedSegs
  sealed := h.sealed
  aligned := h.aligned
  diskAt := hat

/-- A step that writes to the current segment, or to one that is not yet in use. -/
theorem OnDisk.modifyFiles (h : OnDisk frames cfg core fl) {seg : ℕ}
    {f : SegmentFiles → SegmentFiles} {pc : FlushPc} (hseg : fl.curSeg ≤ seg)
    (hlength : ∀ files, fl.disk seg = some files → (f files).log.length = files.log.length)
    (hkeeps : ∀ files base image, fl.disk seg = some files →
      (seg = fl.curSeg → base + image.length ≤ fl.segWritten) →
      HoldsAt files.log base image → HoldsAt files.synced base image →
      HoldsAt (f files).log base image ∧ HoldsAt (f files).synced base image)
    (hprogress : inProgress frames ((fl.modifyFiles seg f).goto pc) = inProgress frames fl)
    (hat : DiskAt cfg core ((fl.modifyFiles seg f).goto pc)) :
    OnDisk frames cfg core ((fl.modifyFiles seg f).goto pc) where
  lsns := h.lsns
  split := h.split
  complete := h.complete
  stored r hr := by
    obtain ⟨files, hfiles, hlog, hsynced⟩ := h.stored r hr
    by_cases heq : r.seg = seg
    · refine ⟨f files, ?_, ?_⟩
      · rw [FlushThread.goto, heq, disk_modifyFiles_self, ← heq, hfiles]
        rfl
      · exact hkeeps files r.base r.image (heq ▸ hfiles)
          (fun hcur => h.before r hr (heq.trans hcur)) hlog hsynced
    · exact ⟨files, (disk_modifyFiles_of_ne fl heq f).trans hfiles, hlog, hsynced⟩
  fits := h.fits
  before := h.before
  current := by
    obtain ⟨files, hfiles, hlog⟩ := h.current
    by_cases heq : fl.curSeg = seg
    · refine ⟨f files, ?_, (hlength files (heq ▸ hfiles)).trans hlog⟩
      change (fl.modifyFiles seg f).disk fl.curSeg = _
      rw [heq, disk_modifyFiles_self, ← heq, hfiles]
      rfl
    · exact ⟨files, (disk_modifyFiles_of_ne fl heq f).trans hfiles, hlog⟩
  curSeg_lt := h.curSeg_lt
  mem := hprogress ▸ h.mem
  sealedSegs := h.sealedSegs
  sealed s hs := by
    obtain ⟨files, hfiles, hidx⟩ := h.sealed s hs
    exact ⟨files, (disk_modifyFiles_of_ne fl (by
      have hlt : s < fl.curSeg := hs
      omega) f).trans hfiles, hidx⟩
  aligned := h.aligned
  diskAt := hat

@[simp] theorem regionsOf_append (flushed more : List Region) (seg : ℕ) :
    regionsOf (flushed ++ more) seg = regionsOf flushed seg ++ regionsOf more seg := by
  simp [regionsOf]

theorem regionsOf_singleton_self (r : Region) : regionsOf [r] r.seg = [r] := by simp [regionsOf]

theorem regionsOf_singleton_of_ne {r : Region} {seg : ℕ} (h : r.seg ≠ seg) :
    regionsOf [r] seg = [] := by simp [regionsOf, h]

theorem OnDisk.seg_le (h : OnDisk frames cfg core fl) {r : Region} (hr : r ∈ fl.flushed) :
    r.seg ≤ fl.curSeg := by
  rw [← h.split] at hr
  obtain ⟨seg, hseg, hr⟩ := List.mem_flatMap.mp hr
  have heq : r.seg = seg := by simpa using (List.mem_filter.mp hr).2
  have := List.mem_range.mp hseg
  omega

theorem OnDisk.exists_files (h : OnDisk frames cfg core fl) {seg : ℕ} (hseg : seg ≤ fl.curSeg) :
    ∃ files, fl.disk seg = some files := by
  rcases Nat.lt_or_eq_of_le hseg with hlt | rfl
  · obtain ⟨files, hfiles, -⟩ := h.sealed seg hlt
    exact ⟨files, hfiles⟩
  · obtain ⟨files, hfiles, -⟩ := h.current
    exact ⟨files, hfiles⟩

/-- Every LSN in the index of the current segment has been published. -/
theorem OnDisk.lsn_lt (h : OnDisk frames cfg core fl) {r : Region} (hr : r ∈ fl.flushed) {n : ℕ}
    (hn : n ∈ r.lsns) : n < core.published := by
  have hmem : n ∈ fl.flushed.flatMap Region.lsns := List.mem_flatMap.mpr ⟨r, hr, hn⟩
  rw [h.lsns] at hmem
  exact List.mem_range.mp hmem

theorem OnDisk.sealMem (h : OnDisk frames cfg core fl) {job : Option FlushJob}
    (hpc : fl.pc = .sealIdx job) (hfresh : FreshStep fl) (hlen : fl.curMem.len % 2 ^ 32 = 0) :
    OnDisk frames cfg core (fl.goto (.sealMeta job)) := by
  have hwriting : Writing fl := by simpa [DiskAt, hpc] using h.diskAt
  have hzero : 0 < fl.curMem.len → fl.curMem.len % 2 ^ 32 ≠ 0 := by
    simpa [FreshStep, hpc] using hfresh
  have hempty : fl.curMem.entries = [] := by
    rw [← List.length_eq_zero_iff]
    by_contra hne
    exact hzero (Nat.pos_of_ne_zero hne) hlen
  refine h.goto rfl (by simp [inProgress, FlushThread.goto, hpc]) ?_
  exact ⟨hwriting.toNewest.goto _, fun files hfiles => .inl ⟨hempty, hwriting.unsealed files hfiles⟩⟩

theorem OnDisk.sealFile (h : OnDisk frames cfg core fl) {job : Option FlushJob} {file : Bytes}
    (hpc : fl.pc = .sealIdx job)
    (hfile : sealIdx cfg.blockSize fl.curMem ((fl.disk fl.curSeg).bind (·.idx)) = .ok file) :
    OnDisk frames cfg core ((fl.modifyFiles fl.curSeg fun files =>
      { files with idx := some file }).goto (.sealMeta job)) := by
  have hwriting : Writing fl := by simpa [DiskAt, hpc] using h.diskAt
  obtain ⟨files, hfiles, -⟩ := h.current
  have hidx : (fl.disk fl.curSeg).bind (·.idx) = none := by
    rw [hfiles]
    exact hwriting.unsealed files hfiles
  rw [hidx] at hfile
  refine h.modifyFiles le_rfl (fun _ _ => rfl) (fun _ _ _ _ _ hlog hsynced => ⟨hlog, hsynced⟩)
    (by simp [inProgress, FlushThread.goto, FlushThread.modifyFiles, hpc]) ⟨⟨hwriting.next, ?_⟩, ?_⟩
  · intro s hs
    exact (disk_modifyFiles_of_ne fl (Nat.ne_of_gt hs) _).trans (hwriting.fresh s hs)
  · intro files' hfiles'
    change (fl.modifyFiles fl.curSeg _).disk fl.curSeg = _ at hfiles'
    rw [disk_modifyFiles_self, hfiles] at hfiles'
    obtain rfl := Option.some.inj hfiles'
    exact .inr ⟨fl.curMem, file, rfl, hfile, rfl⟩

theorem OnDisk.sealHeader (h : OnDisk frames cfg core fl) {job : Option FlushJob}
    (hpc : fl.pc = .sealMeta job) (header : IdxHeader) {pc : FlushPc}
    (hnext : pc = .done ∨ ∃ job, pc = .openSegment job) :
    OnDisk frames cfg core ((fl.modifyFiles fl.curSeg fun files =>
      { files with header := some header }).goto pc) := by
  obtain ⟨hnewest, hindexed⟩ : Newest fl ∧ Indexed cfg fl := by simpa [DiskAt, hpc] using h.diskAt
  have hat : Newest ((fl.modifyFiles fl.curSeg fun files =>
        { files with header := some header }).goto pc) ∧
      Indexed cfg ((fl.modifyFiles fl.curSeg fun files =>
        { files with header := some header }).goto pc) := by
    refine ⟨⟨hnewest.next, fun s hs => ?_⟩, fun files' hfiles' => ?_⟩
    · exact (disk_modifyFiles_of_ne fl (Nat.ne_of_gt hs) _).trans (hnewest.fresh s hs)
    · change (fl.modifyFiles fl.curSeg _).disk fl.curSeg = _ at hfiles'
      rw [disk_modifyFiles_self] at hfiles'
      obtain ⟨files, hfiles, rfl⟩ := Option.map_eq_some_iff.mp hfiles'
      exact hindexed files hfiles
  refine h.modifyFiles le_rfl (fun _ _ => rfl) (fun _ _ _ _ _ hlog hsynced => ⟨hlog, hsynced⟩) ?_ ?_
  · rcases hnext with rfl | ⟨job, rfl⟩ <;>
      simp [inProgress, FlushThread.goto, FlushThread.modifyFiles, hpc]
  · rcases hnext with rfl | ⟨job, rfl⟩ <;> exact hat

/-- A new segment is the successor of the current one. -/
theorem OnDisk.nextSegId_eq (h : OnDisk frames cfg core fl) (hnewest : Newest fl)
    (hnew : fl.disk fl.nextSegId = none) :
    fl.nextSegId = fl.curSeg + 1 ∧ fl.curSeg + 1 < 2 ^ 32 := by
  have hlt := h.curSeg_lt
  have hne : fl.curSeg + 1 ≠ 2 ^ 32 := by
    intro heq
    rw [hnewest.next, heq, Nat.mod_self] at hnew
    obtain ⟨files, hfiles⟩ := h.exists_files (Nat.zero_le fl.curSeg)
    rw [hnew] at hfiles
    cases hfiles
  have hnext := hnewest.next
  rw [Nat.mod_eq_of_lt (by omega)] at hnext
  exact ⟨hnext, by omega⟩

theorem OnDisk.createSegment (h : OnDisk frames cfg core fl) {job : FlushJob}
    (hpc : fl.pc = .openSegment job) (hnew : fl.disk fl.nextSegId = none) :
    OnDisk frames cfg core { fl with
      disk := Function.update fl.disk fl.nextSegId (some (SegmentFiles.create cfg.segmentSize))
      nextSegId := (fl.nextSegId + 1) % 2 ^ 32
      pc := .initMeta job fl.nextSegId true } := by
  obtain ⟨hnewest, hindexed⟩ : Newest fl ∧ Indexed cfg fl := by simpa [DiskAt, hpc] using h.diskAt
  obtain ⟨hnext, hlt⟩ := h.nextSegId_eq hnewest hnew
  have hother : ∀ s, s ≤ fl.curSeg → Function.update fl.disk fl.nextSegId
      (some (SegmentFiles.create cfg.segmentSize)) s = fl.disk s := fun s hs =>
    Function.update_of_ne (by omega) _ _
  exact
    { h with
      stored := fun r hr => by
        obtain ⟨files, hfiles, hholds⟩ := h.stored r hr
        exact ⟨files, (hother r.seg (h.seg_le hr)).trans hfiles, hholds⟩
      current := by
        obtain ⟨files, hfiles, hlog⟩ := h.current
        exact ⟨files, (hother fl.curSeg le_rfl).trans hfiles, hlog⟩
      mem := by
        have hmem := h.mem
        simp only [inProgress, hpc] at hmem
        exact hmem
      sealed := fun s hs => by
        obtain ⟨files, hfiles, hidx⟩ := h.sealed s hs
        exact ⟨files, (hother s (Nat.le_of_lt hs)).trans hfiles, hidx⟩
      diskAt := by
        refine ⟨⟨hnext, hnext ▸ hlt, rfl, ?_, fun s hs => ?_⟩, fun files hfiles => ?_⟩
        · exact ⟨_, Function.update_self _ _ _, by simp [SegmentFiles.create], rfl⟩
        · exact (Function.update_of_ne (Nat.ne_of_gt hs) _ _).trans (hnewest.fresh s (by omega))
        · exact hindexed files ((hother fl.curSeg le_rfl).symm.trans hfiles) }

theorem OnDisk.initMeta (h : OnDisk frames cfg core fl) {job : FlushJob} {segId : ℕ}
    {created : Bool} (hpc : fl.pc = .initMeta job segId created) (header : IdxHeader) :
    OnDisk frames cfg core ((fl.modifyFiles segId fun files =>
      { files with header := some header }).goto (.installSegment job segId)) := by
  obtain ⟨hcreated, hindexed⟩ : Created cfg fl segId ∧ Indexed cfg fl := by
    simpa [DiskAt, hpc] using h.diskAt
  have hne : fl.curSeg ≠ segId := by
    have := hcreated.segId_eq
    omega
  refine h.modifyFiles (by have := hcreated.segId_eq; omega) (fun _ _ => rfl)
    (fun _ _ _ _ _ hlog hsynced => ⟨hlog, hsynced⟩)
    (by simp [inProgress, FlushThread.goto, FlushThread.modifyFiles, hpc])
    ⟨{ hcreated with files := ?_, fresh := fun s hs => ?_ }, fun files hfiles => ?_⟩
  · obtain ⟨files, hfiles, hlog, hidx⟩ := hcreated.files
    refine ⟨{ files with header := some header }, ?_, hlog, hidx⟩
    change (fl.modifyFiles segId _).disk segId = _
    rw [disk_modifyFiles_self, hfiles]
    rfl
  · exact (disk_modifyFiles_of_ne fl (Nat.ne_of_gt hs) _).trans (hcreated.fresh s hs)
  · exact hindexed files ((disk_modifyFiles_of_ne fl hne _).symm.trans hfiles)

theorem OnDisk.installSegment (h : OnDisk frames cfg core fl) {job : FlushJob} {segId : ℕ}
    (hpc : fl.pc = .installSegment job segId) (hjob : JobOk frames cfg core job) :
    OnDisk frames cfg core { fl with
      sealedSegs := fl.sealedSegs ++ [fl.curSeg]
      curSeg := segId
      curMem := .new
      segWritten := 0
      segMinLsn := job.minLsn
      segMaxLsn := job.minLsn
      pc := .pad job } := by
  obtain ⟨hcreated, hindexed⟩ : Created cfg fl segId ∧ Indexed cfg fl := by
    simpa [DiskAt, hpc] using h.diskAt
  obtain rfl := hcreated.segId_eq
  obtain ⟨files, hfiles, hlog, hidx⟩ := hcreated.files
  have hnone : regionsOf fl.flushed (fl.curSeg + 1) = [] := by
    refine List.filter_eq_nil_iff.mpr fun r hr => ?_
    have := h.seg_le hr
    simp only [decide_eq_true_eq]
    omega
  have hmem : fl.curMem.entries = indexOf frames fl.flushed fl.curSeg := by
    have hmem := h.mem
    simp only [inProgress, hpc, List.append_nil] at hmem
    exact hmem
  exact
    { lsns := h.lsns
      split := by
        rw [List.range_succ, List.flatMap_append, h.split]
        simp [hnone]
      complete := h.complete
      stored := h.stored
      fits := h.fits
      before := fun r hr hseg => by
        have := h.seg_le hr
        simp only at hseg
        omega
      current := ⟨files, hfiles, hlog⟩
      curSeg_lt := hcreated.segId_lt
      mem := by
        rw [indexOf, hnone]
        rfl
      sealedSegs := by rw [h.sealedSegs, List.range_succ]
      sealed := fun s hs => by
        rcases Nat.lt_succ_iff_lt_or_eq.mp hs with hlt | rfl
        · exact h.sealed s hlt
        · obtain ⟨files, hfiles, -⟩ := h.current
          exact ⟨files, hfiles, hmem ▸ hindexed files hfiles⟩
      aligned := dvd_zero _
      diskAt := by
        refine ⟨⟨⟨hcreated.next, hcreated.fresh⟩, fun files' hfiles' => ?_⟩, ?_⟩
        · obtain rfl := Option.some.inj (hfiles.symm.trans hfiles')
          exact hidx
        · simpa [Roomy] using hjob.padded_le }

theorem OnDisk.pwrite (h : OnDisk frames cfg core fl) {job : FlushJob} (hpc : fl.pc = .pwrite job) :
    OnDisk frames cfg core ((fl.modifyFiles fl.curSeg fun files =>
      { files with
        log := pwriteAll files.log ((core.buffers job.buf).read 0 (job.padded cfg))
          fl.segWritten }).goto (.fdatasync job)) := by
  obtain ⟨hwriting, hroomy⟩ : Writing fl ∧ Roomy cfg fl job := by simpa [DiskAt, hpc] using h.diskAt
  obtain ⟨files, hfiles, hlog⟩ := h.current
  have hfits : fl.segWritten + ((core.buffers job.buf).read 0 (job.padded cfg)).length ≤
      files.log.length := by
    rw [hlog, WalBuffer.read, List.length_map, List.length_range]
    exact hroomy
  refine h.modifyFiles le_rfl (fun files' hfiles' => ?_) (fun files' base image hfiles' => ?_)
    (by simp [inProgress, FlushThread.goto, FlushThread.modifyFiles, hpc])
    ⟨⟨⟨hwriting.next, fun s hs => ?_⟩, fun files' hfiles' => ?_⟩, hroomy, fun files' hfiles' => ?_⟩
  · obtain rfl := Option.some.inj (hfiles.symm.trans hfiles')
    exact length_pwriteAll hfits
  · obtain rfl := Option.some.inj (hfiles.symm.trans hfiles')
    exact fun hbefore hlog hsynced => ⟨hlog.pwriteAll (hbefore rfl) hfits, hsynced⟩
  · exact (disk_modifyFiles_of_ne fl (Nat.ne_of_gt hs) _).trans (hwriting.fresh s hs)
  · change (fl.modifyFiles fl.curSeg _).disk fl.curSeg = _ at hfiles'
    rw [disk_modifyFiles_self, hfiles] at hfiles'
    obtain rfl := Option.some.inj hfiles'
    exact hwriting.unsealed files hfiles
  · change (fl.modifyFiles fl.curSeg _).disk fl.curSeg = _ at hfiles'
    rw [disk_modifyFiles_self, hfiles] at hfiles'
    obtain rfl := Option.some.inj hfiles'
    exact holdsAt_pwriteAll hfits

theorem OnDisk.fdatasync (h : OnDisk frames cfg core fl) {job : FlushJob}
    (hpc : fl.pc = .fdatasync job) (hjob : JobOk frames cfg core job) :
    OnDisk frames cfg core ((fl.modifyFiles fl.curSeg fun files =>
      { files with synced := files.log }).goto (.put job 0)) := by
  obtain ⟨hwriting, hroomy, himaged⟩ :
      Writing fl ∧ Roomy cfg fl job ∧ Imaged cfg core fl job (·.log) := by
    simpa [DiskAt, hpc] using h.diskAt
  obtain ⟨files, hfiles, hlog⟩ := h.current
  have hafter : ∀ {files' : SegmentFiles}, (fl.modifyFiles fl.curSeg fun files =>
      { files with synced := files.log }).disk fl.curSeg = some files' →
      files' = { files with synced := files.log } := by
    intro files' hfiles'
    rw [disk_modifyFiles_self, hfiles] at hfiles'
    exact (Option.some.inj hfiles').symm
  refine h.modifyFiles le_rfl (fun _ _ => rfl) (fun _ _ _ _ _ hlog _ => ⟨hlog, hlog⟩)
    (by simp [inProgress, FlushThread.goto, FlushThread.modifyFiles, hpc])
    ⟨⟨⟨hwriting.next, fun s hs => ?_⟩, fun files' hfiles' => ?_⟩, hroomy, fun files' hfiles' => ?_,
      fun files' hfiles' => ?_, hjob.count_pos⟩
  · exact (disk_modifyFiles_of_ne fl (Nat.ne_of_gt hs) _).trans (hwriting.fresh s hs)
  · rw [hafter hfiles']
    exact hwriting.unsealed files hfiles
  · rw [hafter hfiles']
    exact himaged files hfiles
  · rw [hafter hfiles']
    exact himaged files hfiles

/-- The entry of the next LSN goes behind all others. -/
theorem OnDisk.entries_put (h : OnDisk frames cfg core fl) {job : FlushJob} {i : ℕ}
    (hpc : fl.pc = .put job i) (hjob : JobOk frames cfg core job) (hi : i < job.count) :
    (fl.curMem.put (lsnToKey ((job.minLsn + i) % 2 ^ 64))
      (encodeOffsetLen (fl.segWritten + (frames (job.minLsn + i)).pos)
        (frames (job.minLsn + i)).frame.length)).entries =
      indexOf frames fl.flushed fl.curSeg ++
        (List.range' job.minLsn (i + 1)).map (entryAt frames fl.segWritten) := by
  have hlt : job.minLsn + i < 2 ^ 64 := by
    have := hjob.lsn_lt
    omega
  have hmem := h.mem
  simp only [inProgress, hpc] at hmem
  have hkeys : ∀ e ∈ fl.curMem.map.entries, e.1 < lsnToKey (job.minLsn + i) := by
    intro e he
    have he : e ∈ fl.curMem.entries := he
    rw [hmem] at he
    rcases List.mem_append.mp he with he | he
    · obtain ⟨r, hr, he⟩ := List.mem_flatMap.mp he
      obtain ⟨n, hn, rfl⟩ := List.mem_map.mp he
      have hpublished := h.lsn_lt (List.mem_filter.mp hr).1 hn
      have hmin := hjob.minLsn_eq
      exact lsnToKey_lt (by omega) hlt
    · obtain ⟨n, hn, rfl⟩ := List.mem_map.mp he
      have := (List.mem_range'_1.mp hn).2
      exact lsnToKey_lt this hlt
  rw [Nat.mod_eq_of_lt hlt]
  have hput := SortedMap.entries_insert_of_forall_lt
    (Entry.put (encodeOffsetLen (fl.segWritten + (frames (job.minLsn + i)).pos)
      (frames (job.minLsn + i)).frame.length)) hkeys
  refine hput.trans ?_
  change fl.curMem.entries ++ _ = _
  rw [hmem, List.range'_concat, List.map_append, List.append_assoc]
  simp [entryAt, indexEntry]

theorem OnDisk.put (h : OnDisk frames cfg core fl) {job : FlushJob} {i pos len : ℕ}
    (hpc : fl.pc = .put job i) (hjob : JobOk frames cfg core job)
    (hword : unpack ((core.buffers job.buf).entries i) = (pos, len)) :
    OnDisk frames cfg core { fl with
      curMem := fl.curMem.put (lsnToKey ((job.minLsn + i) % 2 ^ 64))
        (encodeOffsetLen (fl.segWritten + pos) len)
      pc := if i + 1 < job.count then .put job (i + 1) else .publish job } := by
  obtain ⟨hwriting, hroomy, hlog, hsynced, hi⟩ : Writing fl ∧ Roomy cfg fl job ∧
      Imaged cfg core fl job (·.log) ∧ Imaged cfg core fl job (·.synced) ∧ i < job.count := by
    simpa [DiskAt, hpc] using h.diskAt
  obtain ⟨rfl, rfl⟩ := Prod.mk.inj (hword.symm.trans (hjob.word i hi))
  have hentries := h.entries_put hpc hjob hi
  by_cases hmore : i + 1 < job.count
  · rw [if_pos hmore]
    exact { h with
      mem := hentries
      diskAt := ⟨⟨⟨hwriting.next, hwriting.fresh⟩, hwriting.unsealed⟩, hroomy, hlog, hsynced, hmore⟩ }
  · rw [if_neg hmore]
    rw [show i + 1 = job.count by omega] at hentries
    exact { h with
      mem := hentries
      diskAt := ⟨⟨⟨hwriting.next, hwriting.fresh⟩, hwriting.unsealed⟩, hroomy, hlog, hsynced⟩ }

/-- The image of the job's buffer has its frames. -/
theorem JobOk.complete {job : FlushJob} (h : JobOk frames cfg core job) (seg base : ℕ) :
    Region.Complete frames ⟨seg, base, job.minLsn, job.count,
      (core.buffers job.buf).read 0 (job.padded cfg)⟩ := by
  have hlsn : ∀ n ∈ List.range' job.minLsn job.count, ∃ i < job.count, n = job.minLsn + i := by
    intro n hn
    obtain ⟨hge, hlt⟩ := List.mem_range'_1.mp hn
    exact ⟨n - job.minLsn, by omega, by omega⟩
  refine ⟨fun n hn => ?_, fun n hn => ?_, fun n hn => ?_⟩ <;> obtain ⟨i, hi, rfl⟩ := hlsn n hn
  · have hword : (core.buffers job.buf).entries i % 2 ^ 32 =
        (frames (job.minLsn + i)).frame.length := congrArg Prod.snd (h.word i hi)
    exact hword ▸ Nat.mod_lt _ (Nat.two_pow_pos 32)
  · rw [WalBuffer.read, List.length_map, List.length_range]
    exact h.inside i hi
  · exact (read_eq_drop_take _ (h.inside i hi)).trans (h.bytes i hi)

theorem OnDisk.publish (h : OnDisk frames cfg core fl) {job : FlushJob}
    (hpc : fl.pc = .publish job) (hjob : JobOk frames cfg core job)
    (hpublished : core'.published = job.minLsn + job.count) {segMaxLsn : ℕ} :
    OnDisk frames cfg core' { fl with
      segWritten := fl.segWritten + job.padded cfg
      segMaxLsn
      flushed := fl.flushed ++ [⟨fl.curSeg, fl.segWritten, job.minLsn, job.count,
        (core.buffers job.buf).read 0 (job.padded cfg)⟩]
      pc := .recycle job.buf } := by
  obtain ⟨hwriting, hroomy, hlog, hsynced⟩ : Writing fl ∧ Roomy cfg fl job ∧
      Imaged cfg core fl job (·.log) ∧ Imaged cfg core fl job (·.synced) := by
    simpa [DiskAt, hpc] using h.diskAt
  obtain ⟨files, hfiles, hlength⟩ := h.current
  generalize hregion : (⟨fl.curSeg, fl.segWritten, job.minLsn, job.count,
    (core.buffers job.buf).read 0 (job.padded cfg)⟩ : Region) = region
  have hcomplete : region.Complete frames := hregion ▸ hjob.complete fl.curSeg fl.segWritten
  have hseg : region.seg = fl.curSeg := hregion ▸ rfl
  have himage : region.image.length = job.padded cfg := by
    rw [← hregion]
    simp [WalBuffer.read]
  have hold : ∀ s, s ≠ fl.curSeg → regionsOf (fl.flushed ++ [region]) s = regionsOf fl.flushed s := by
    intro s hs
    rw [regionsOf_append, regionsOf_singleton_of_ne (by omega), List.append_nil]
  have hcur : regionsOf (fl.flushed ++ [region]) fl.curSeg =
      regionsOf fl.flushed fl.curSeg ++ [region] := by
    rw [regionsOf_append, ← hseg, regionsOf_singleton_self]
  exact
    { lsns := by
        have hrange : List.range core.published ++ List.range' (0 + core.published) job.count =
            List.range (core.published + job.count) := by
          rw [List.range_eq_range', List.range_eq_range', List.range'_append_1]
        rw [Nat.zero_add] at hrange
        rw [List.flatMap_append, h.lsns, List.flatMap_singleton, hpublished, ← hregion, Region.lsns,
          hjob.minLsn_eq, hrange]
      split := by
        have hsplit := h.split
        rw [List.range_succ, List.flatMap_append] at hsplit ⊢
        rw [List.flatMap_singleton] at hsplit ⊢
        rw [hcur, ← List.append_assoc, List.flatMap_congr fun s hs => hold s ?_, hsplit]
        exact Nat.ne_of_lt (List.mem_range.mp hs)
      complete := fun r hr => by
        rcases List.mem_append.mp hr with hr | hr
        · exact h.complete r hr
        · exact List.mem_singleton.mp hr ▸ hcomplete
      stored := fun r hr => by
        rcases List.mem_append.mp hr with hr | hr
        · exact h.stored r hr
        · obtain rfl := List.mem_singleton.mp hr
          subst hregion
          exact ⟨files, hfiles, hlog files hfiles, hsynced files hfiles⟩
      fits := fun r hr => by
        rcases List.mem_append.mp hr with hr | hr
        · exact h.fits r hr
        · obtain rfl := List.mem_singleton.mp hr
          rw [himage]
          subst hregion
          exact hroomy
      before := fun r hr hcurrent => by
        rcases List.mem_append.mp hr with hr | hr
        · exact (h.before r hr hcurrent).trans (Nat.le_add_right _ _)
        · obtain rfl := List.mem_singleton.mp hr
          rw [himage]
          subst hregion
          exact le_rfl
      current := ⟨files, hfiles, hlength⟩
      curSeg_lt := h.curSeg_lt
      mem := by
        have hmem := h.mem
        simp only [inProgress, hpc] at hmem
        simp only [inProgress, indexOf, hcur, List.flatMap_append, List.append_nil,
          List.flatMap_singleton]
        rw [hmem, indexOf, ← hregion]
        rfl
      sealedSegs := h.sealedSegs
      sealed := fun s hs => by
        obtain ⟨files, hfiles, hidx⟩ := h.sealed s hs
        refine ⟨files, hfiles, ?_⟩
        rw [indexOf, hold s (Nat.ne_of_lt hs)]
        exact hidx
      aligned := h.aligned.add hjob.aligned
      diskAt := ⟨⟨hwriting.next, hwriting.fresh⟩, hwriting.unsealed⟩ }

/-- Every step of the flush thread keeps the disk as it should be. -/
theorem OnDisk.flush_step (h : OnDisk frames cfg sh.toCore fl)
    (hjob : ∀ job, fl.pc.job? = some job → JobOk frames cfg sh.toCore job) (hfresh : FreshStep fl)
    (hstep : FlushStep cfg sh fl sh' fl') : OnDisk frames cfg sh'.toCore fl' := by
  have hat := h.diskAt
  cases hstep with
  | sealEmpty hpc hlen => exact h.sealMem hpc hfresh hlen
  | sealIdx hpc _ hfile => exact h.sealFile hpc hfile
  | @sealMeta job header hpc =>
      cases job with
      | none => exact h.sealHeader hpc header (.inl rfl)
      | some job => exact h.sealHeader hpc header (.inr ⟨job, rfl⟩)
  | createSegment hpc hnew => exact h.createSegment hpc hnew
  | reopenSegment hpc hold =>
      have hnew : fl.disk fl.nextSegId = none := by simpa [FreshStep, hpc] using hfresh
      rw [hnew] at hold
      cases hold
  | initMeta hpc => exact h.initMeta hpc _
  | keepMeta hpc =>
      simp only [DiskAt, hpc] at hat
      refine h.goto rfl (by simp [inProgress, FlushThread.goto, hpc]) ⟨?_, hat.2⟩
      exact ⟨hat.1.segId_eq, hat.1.segId_lt, hat.1.next, hat.1.files, hat.1.fresh⟩
  | installSegment hpc => exact h.installSegment hpc (hjob _ (by rw [hpc]; rfl))
  | pwrite hpc => exact h.pwrite hpc
  | fdatasync hpc => exact h.fdatasync hpc (hjob _ (by rw [hpc]; rfl))
  | put hpc hword => exact h.put hpc (hjob _ (by rw [hpc]; rfl)) hword
  | publish hpc => exact h.publish hpc (hjob _ (by rw [hpc]; rfl)) rfl
  | stay hpc hroom =>
      simp only [DiskAt, hpc] at hat
      exact h.goto rfl (by simp [inProgress, FlushThread.goto, hpc]) ⟨hat.goto _, hroom⟩
  | pad hpc =>
      simp only [DiskAt, hpc] at hat
      exact h.goto rfl (by simp [inProgress, FlushThread.goto, hpc]) ⟨hat.1.goto _, hat.2⟩
  | pwritePanics hpc =>
      simp only [DiskAt, hpc] at hat
      exact h.goto rfl (by simp [inProgress, FlushThread.goto, hpc]) (hat.1.goto _)
  | @scan _ count _ i _ _ _ hpc =>
      simp only [DiskAt, hpc] at hat
      by_cases hmore : i + 1 < count
      · rw [if_pos hmore]
        exact h.goto rfl (by simp [inProgress, FlushThread.goto, hpc]) (hat.goto _)
      · rw [if_neg hmore]
        exact h.goto rfl (by simp [inProgress, FlushThread.goto, hpc]) (hat.goto _)
  | @reset _ stage hpc =>
      simp only [DiskAt, hpc] at hat
      by_cases hmore : stage + 1 < WalBuffer.resetStores
      · rw [if_pos hmore]
        exact h.goto rfl (by simp [inProgress, FlushThread.goto, hpc]) (hat.goto _)
      · rw [if_neg hmore]
        exact h.goto rfl (by simp [inProgress, FlushThread.goto, hpc]) (hat.goto _)
  | recv hpc | disconnected hpc | loadCount hpc | empty hpc | loadMinLsn hpc | scanPanics hpc
  | rollOver hpc | sealPanics hpc | drop hpc | recycle hpc | push hpc =>
      simp only [DiskAt, hpc] at hat
      exact h.goto rfl (by simp [inProgress, FlushThread.goto, hpc]) (hat.goto _)

end Steps

end Todb.Wal

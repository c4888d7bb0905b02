import Todb.Verification.Iterators.Concat
import Todb.Verification.Iterators.TwoMerge
import Todb.Verification.Wal.Assembly
import Todb.Verification.Wal.EndToEnd

/-! # What a scan yields

The range of a scan is not used, and a sealed segment makes it fail. What a scan of a WAL with
one segment yields are the records in the active memtable. -/

namespace Todb.Wal

open Library

/-! ## The index of a segment -/

namespace SegmentIndexIter

section Index

variable {ι κ : Type} [LinearOrder κ] [Cursor ι κ (Entry Bytes) Fault] {segId : UInt32}
  {entries : List (κ × Entry Bytes)}

/-- The value of an index entry is a location. -/
def Readable (e : κ × Entry Bytes) : Prop :=
  ∃ value location, e.2 = .put value ∧ decodeOffsetLen value = some location

/-- The location in the value of an index entry. -/
def location (e : κ × Entry Bytes) : ℕ × ℕ :=
  match e.2 with
  | .put value => (decodeOffsetLen value).getD (0, 0)
  | .delete => (0, 0)

/-- What an entry in the index of a segment is read as. -/
def located (segId : UInt32) (e : κ × Entry Bytes) : κ × IndexEntry :=
  (e.1, ⟨segId, (location e).1, (location e).2⟩)

omit [LinearOrder κ] in
theorem value_of_readable {self : SegmentIndexIter ι} {e : κ × Entry Bytes} (h : Readable e)
    (hvalue : Cursor.value self.inner = .ok (some e.2)) :
    self.value = .ok (some (located self.segId e).2) := by
  obtain ⟨value, ⟨offset, len⟩, hput, hdecode⟩ := h
  simp [SegmentIndexIter.value, hvalue, hput, hdecode, located, location, bind, Except.bind, pure,
    Except.pure]

/-- The cursor inside stands before the entries that are read as `l`. -/
def At (segId : UInt32) (entries : List (κ × Entry Bytes)) (d : Direction)
    (self : SegmentIndexIter ι) (l : List (κ × IndexEntry)) : Prop :=
  self.segId = segId ∧ ∃ rest ⊆ entries,
    Cursor.StandsAt (fun d => d.order entries) d self.inner rest ∧ l = rest.map (located segId)

theorem At.read (hentries : ∀ e ∈ entries, Readable e) {d : Direction}
    {self : SegmentIndexIter ι} {l : List (κ × IndexEntry)} (h : At segId entries d self l) :
    Cursor.valid self = !l.isEmpty ∧ Cursor.key self = .ok (l.head?.map Prod.fst) ∧
      Cursor.value self = .ok (l.head?.map Prod.snd) := by
  obtain ⟨rfl, rest, hrest, hat, rfl⟩ := h
  obtain ⟨hvalid, hkey, hvalue⟩ := hat.yields.read
  cases rest with
  | nil =>
      refine ⟨hvalid, hkey, ?_⟩
      change self.value = .ok none
      simp [SegmentIndexIter.value, hvalue, bind, Except.bind, pure, Except.pure]
  | cons e rest =>
      exact ⟨hvalid, hkey, value_of_readable (hentries e (hrest List.mem_cons_self)) hvalue⟩

/-- Over an index of locations. -/
theorem simulation (hentries : ∀ e ∈ entries, Readable e) :
    Cursor.Simulation (fun d => d.order (entries.map (located segId)))
      (fun self : SegmentIndexIter ι =>
        self.segId = segId ∧ Cursor.Iterates (fun d => d.order entries) self.inner)
      (At segId entries) where
  inv_of_at h := ⟨h.1, h.2.choose_spec.2.1.iterates⟩
  read h := h.read hentries
  next := by
    rintro d self l ⟨hseg, rest, hrest, hat, rfl⟩
    obtain ⟨inner, hnext, hat⟩ := Cursor.simulation_iterates.next hat
    refine ⟨{ self with inner }, ?_, hseg, rest.tail, ?_, hat, (List.map_tail ..).symm⟩
    · exact Ran.map_eq_ok.mpr ⟨inner, hnext, rfl⟩
    · exact fun e he => hrest (List.mem_of_mem_tail he)
  next_inv d h hnext := by
    obtain ⟨inner, hinner, rfl⟩ := Ran.map_eq_ok.mp hnext
    exact ⟨h.1, Cursor.simulation_iterates.next_inv d h.2 hinner⟩
  seekToFirst d h := by
    rename_i self
    obtain ⟨inner, hinner, hat⟩ := Cursor.simulation_iterates.seekToFirst d h.2
    refine ⟨{ self with inner }, Ran.map_eq_ok.mpr ⟨inner, hinner, rfl⟩, h.1, _, ?_, hat,
      d.order_map ..⟩
    exact fun e he => d.mem_order.mp he
  seek d target h := by
    rename_i self
    obtain ⟨inner, hinner, hat⟩ := Cursor.simulation_iterates.seek d target h.2
    refine ⟨{ self with inner }, Ran.map_eq_ok.mpr ⟨inner, hinner, rfl⟩, h.1, _, ?_, hat, ?_⟩
    · exact fun e he => d.mem_order.mp (List.mem_of_mem_filter he)
    · rw [d.order_map, List.filter_map]
      rfl

end Index

end SegmentIndexIter

/-! ## Reading records -/

namespace WalIter

open SegmentIndexIter

variable {fuel n : ℕ} {crc32 : Bytes → UInt32} {logs : UInt32 → Bytes} {self : WalIter fuel n}

variable (crc32 logs) in
/-- By `valid`, `key`, `value` and `next` the iterator yields exactly the given records. -/
def Reads : WalIter fuel n → List (ℕ × Bytes) → Prop
  | self, [] => self.valid = false
  | self, (lsn, payload) :: records =>
      self.valid = true ∧ self.key = .ok (some lsn) ∧
        ∃ loaded, self.value crc32 logs (fun _ => none) = (.ok payload, loaded) ∧
          ∃ self', loaded.next = .ok self' ∧ Reads self' records

variable (crc32 logs) in
/-- An index entry points to the frame of a record. -/
structure Points (blockSize : ℕ) (e : Bytes × IndexEntry) (record : ℕ × Bytes) : Prop where
  key : e.1 = lsnToKey record.1
  lsn_lt : record.1 < 2 ^ 64
  len : e.2.len = frameLen record.2
  len_lt : e.2.len < 2 ^ 32
  frame : HoldsAt (logs e.2.segId) e.2.offset (encode crc32 record.1 record.2)
  whole : blockSize ∣ (logs e.2.segId).length
  bound : (logs e.2.segId).length < 2 ^ 64

variable (logs) in
/-- Between calls, before the given index entries. -/
structure Before (blockSize : ℕ) (iter : WalIter fuel n) (l : List (Bytes × IndexEntry)) :
    Prop where
  yields : Cursor.Yields .forward iter.indexIter l
  clean : iter.dm.Clean blockSize logs
  released : iter.dm.guards = []
  blockSize_eq : iter.blockSize = blockSize
  blockSize_pos : 0 < blockSize

variable {blockSize : ℕ} {e : Bytes × IndexEntry} {l : List (Bytes × IndexEntry)}
  {record : ℕ × Bytes}

theorem Before.valid_eq (h : self.Before logs blockSize l) : self.valid = !l.isEmpty :=
  h.yields.read.1

theorem Before.next (h : self.Before logs blockSize l) :
    ∃ self', self.next = .ok self' ∧ self'.Before logs blockSize l.tail := by
  obtain ⟨indexIter, hnext, hyields⟩ := h.yields.next
  refine ⟨{ self with indexIter }, ?_, { h with yields := hyields }⟩
  rw [WalIter.next, hnext]
  rfl

section Record

variable (hpoints : Points crc32 logs blockSize e record)

include hpoints

theorem Points.inside : e.2.offset + e.2.len ≤ (logs e.2.segId).length := by
  have hinside := hpoints.frame.inside
  rwa [length_encode, ← hpoints.len] at hinside

theorem Points.len_pos : 0 < e.2.len := hpoints.len ▸ frameLen_pos record.2

theorem Before.key_eq (h : self.Before logs blockSize (e :: l)) :
    self.key = .ok (some record.1) := by
  have hkey : Cursor.key self.indexIter = .ok (some e.1) := h.yields.read.2.1
  simp [WalIter.key, hkey, hpoints.key, keyToLsn_lsnToKey hpoints.lsn_lt, Except.mapError, bind,
    Except.bind, pure, Except.pure]

/-- With enough frames in the cache the record is read. -/
theorem Before.value (h : self.Before logs blockSize (e :: l))
    (hspan : (e.2.span blockSize).length ≤ n) :
    ∃ loaded, self.value crc32 logs (fun _ => none) = (.ok record.2, loaded) ∧
      loaded.Before logs blockSize (e :: l) := by
  obtain ⟨hyields, hclean, hreleased, rfl, hpos⟩ := h
  have hentry : Cursor.value self.indexIter = .ok (some e.2) := hyields.read.2.2
  have hbytes : ((logs e.2.segId).drop e.2.offset).take e.2.len =
      encode crc32 record.1 record.2 := by
    have hbytes := hpoints.frame.bytes
    rwa [length_encode, ← hpoints.len] at hbytes
  obtain ⟨pool, hpool, hclean', -⟩ := readBlocks_of_clean hpos hpoints.len_pos hpoints.whole
    hpoints.inside hpoints.bound hclean hreleased hspan
  obtain ⟨pool', hpool', hvalue⟩ := (readsBlocks_of_clean hpos hpoints.len_pos hpoints.whole
    hpoints.inside hpoints.bound hclean hreleased hspan).value hentry hpos hpoints.len_lt
    hpoints.inside hpoints.bound hpoints.lsn_lt hbytes
  obtain rfl := Ran.ok_inj.mp (hpool.symm.trans hpool')
  exact ⟨_, hvalue, hyields, hclean'.dropGuards, rfl, rfl, hpos⟩

/-- With fewer, `value` waits for a frame that nobody else has. -/
theorem Before.value_waits (h : self.Before logs blockSize (e :: l))
    (hspan : n < (e.2.span blockSize).length) :
    (self.value crc32 logs (fun _ => none)).1 = .error .waits := by
  obtain ⟨hyields, hclean, hreleased, rfl, hpos⟩ := h
  have hentry : Cursor.value self.indexIter = .ok (some e.2) := hyields.read.2.2
  have hkeys := IndexEntry.blocks_eq hpos hpoints.len_pos (hpoints.inside.trans_lt hpoints.bound)
  have hwaits : (self.dm.readBlocks self.blockSize (logs e.2.segId) (fun _ => none)
      ((e.2.span self.blockSize).map fun block => ⟨e.2.segId, UInt64.ofNat block⟩)).result = .error .waits :=
    (hclean.single.readBlocks_of_lt
      ⟨IndexEntry.blocks_nodup hkeys, fun key _ => by simp [hreleased]⟩
      (by simp [hreleased]) (by simpa [hreleased] using hspan)).1
  simp [WalIter.value, valid_of_value hentry, WalIter.loadCurrentFrame, hentry, hkeys,
    Except.mapError, hwaits]

end Record

/-- A run over the index yields the records it points to, if the cache has a frame for each of
the blocks of a record, and waits otherwise. -/
theorem Before.reads_iff {records : List (ℕ × Bytes)} (h : self.Before logs blockSize l)
    (hpoints : List.Forall₂ (Points crc32 logs blockSize) l records)
    (yielded : List (ℕ × Bytes)) :
    self.Reads crc32 logs yielded ↔
      yielded = records ∧ ∀ e ∈ l, (e.2.span blockSize).length ≤ n := by
  induction hpoints generalizing self yielded with
  | nil =>
      have hvalid : self.valid = false := h.valid_eq
      cases yielded <;> simp [Reads, hvalid]
  | @cons e record l records hpoint hpoints ih =>
      have hvalid : self.valid = true := h.valid_eq
      have hkey := h.key_eq hpoint
      obtain ⟨lsn, payload⟩ := record
      cases yielded with
      | nil => simp [Reads, hvalid]
      | cons first yielded =>
          rw [Reads, List.forall_mem_cons]
          by_cases hspan : (e.2.span blockSize).length ≤ n
          · obtain ⟨loaded, hvalue, hloaded⟩ := h.value hpoint hspan
            obtain ⟨self', hnext, hself'⟩ := hloaded.next
            have hrest := ih hself' yielded
            constructor
            · rintro ⟨-, hfirst, loaded', hvalue', next, hnext', hreads⟩
              obtain rfl : lsn = first.1 := by simpa [hkey] using hfirst
              obtain ⟨hpayload, rfl⟩ := Prod.mk.inj (hvalue.symm.trans hvalue')
              obtain rfl := Except.ok.inj hpayload
              obtain rfl := Ran.ok_inj.mp (hnext.symm.trans hnext')
              obtain ⟨rfl, hspans⟩ := hrest.mp hreads
              exact ⟨rfl, hspan, hspans⟩
            · rintro ⟨heq, -, hspans⟩
              obtain ⟨rfl, rfl⟩ := List.cons.inj heq
              exact ⟨hvalid, hkey, loaded, hvalue, self', hnext, hrest.mpr ⟨rfl, hspans⟩⟩
          · have hwaits := h.value_waits hpoint (Nat.lt_of_not_le hspan)
            refine iff_of_false ?_ fun hall => hspan hall.2.1
            rintro ⟨-, -, loaded, hvalue, -⟩
            rw [hvalue] at hwaits
            cases hwaits

/-- Without sealed segments the iterator starts before all entries of the memtable, whatever the
range. -/
theorem new_nil_before (hfuel : 2 ≤ fuel) (hpos : 0 < blockSize) (logs : UInt32 → Bytes)
    {mems : Lsm.MemId → IndexMem} {activeMem : Lsm.MemId} (activeSeg : UInt32)
    (range : LsnBound × LsnBound) (hentries : ∀ e ∈ (mems activeMem).entries, Readable e) :
    ∃ iter : WalIter fuel n,
      new fuel n blockSize [] activeSeg mems activeMem range = .ok iter ∧
      iter.Before logs blockSize ((mems activeMem).entries.map (located activeSeg)) := by
  have hsealed : Cursor.Iterates (fun d => d.order ([] : List (List (Bytes × IndexEntry))).flatten)
      (ConcatIter.new ([] : List (SstIndexIter fuel))) :=
    (ConcatIter.simulation fun d => by cases d <;> exact .nil).iterates ⟨rfl, by simp⟩
  have hactive : Cursor.Iterates
      (fun d => d.order ((mems activeMem).entries.map (located activeSeg)))
      (⟨.new mems activeMem, activeSeg⟩ : MemTableIndexIter) :=
    (SegmentIndexIter.simulation hentries).iterates
      ⟨rfl, Lsm.OwnedMemTableIter.iterates (.new mems activeMem)⟩
  have hstrict : ∀ d : Direction,
      d.Strict (d.order ((mems activeMem).entries.map (located activeSeg))) :=
    Direction.strict_order (List.pairwise_map.mpr (mems activeMem).map.ascending)
  have hempty : ∀ d : Direction,
      d.Sorted (d.order ([] : List (List (Bytes × IndexEntry))).flatten) := by
    intro d
    cases d <;> exact .nil
  obtain ⟨it, hnew, hat⟩ := TwoMergeIter.exists_new hsealed hactive hempty
    (fun d => (hstrict d).sorted) fun d k => ((hstrict d).countP_le_one k).trans_lt hfuel
  refine ⟨⟨it, blockSize, .init n blockSize, []⟩, by rw [new_nil_eq, hnew], ?_, .init .., rfl, rfl,
    hpos⟩
  simpa [overlay, Direction.order] using hat.yields

end WalIter

/-! ## The index of a WAL with one segment -/

section Stored

variable {frames : ℕ → Placement} {cfg : WalConfig} {core : Core} {fl : FlushThread}

/-- The buffer in the flush thread's hands is written before its entries are put. -/
theorem OnDisk.mem_inProgress (h : OnDisk frames cfg core fl) {e : Bytes × Entry Bytes}
    (he : e ∈ inProgress frames fl) :
    ∃ job, fl.pc.job? = some job ∧ Imaged cfg core fl job (·.log) ∧
      ∃ lsn ∈ List.range' job.minLsn job.count, e = entryAt frames fl.segWritten lsn := by
  have hat := h.diskAt
  unfold inProgress at he
  cases hpc : fl.pc with
  | put job i =>
      simp only [DiskAt, hpc] at hat he
      obtain ⟨lsn, hlsn, rfl⟩ := List.mem_map.mp he
      have hmem := List.mem_range'_1.mp hlsn
      exact ⟨job, rfl, hat.2.2.1, lsn, List.mem_range'_1.mpr (by omega), rfl⟩
  | publish job =>
      simp only [DiskAt, hpc] at hat he
      obtain ⟨lsn, hlsn, rfl⟩ := List.mem_map.mp he
      exact ⟨job, rfl, hat.2.2.1, lsn, hlsn, rfl⟩
  | recv | loadCount | loadMinLsn | scan | ensureSegment | sealIdx | sealMeta | openSegment
  | initMeta | installSegment | pad | pwrite | fdatasync | recycle | recycleReset | recyclePush
  | done | panicked =>
      rw [hpc] at he
      cases he

variable {ι : Type} [Fintype ι] {crc32 : Bytes → UInt32} {s : System ι}

/-- The log of the current segment. -/
theorem Stored.exists_log (h : Stored crc32 cfg s) :
    ∃ files, s.flush.disk s.flush.curSeg = some files ∧
      s.logs (UInt32.ofNat s.flush.curSeg) = files.log ∧ files.log.length = cfg.segmentSize := by
  obtain ⟨files, hfiles, hlength⟩ := h.disk.current
  refine ⟨files, hfiles, ?_, hlength⟩
  rw [System.logs, UInt32.toNat_ofNat', Nat.mod_eq_of_lt h.disk.curSeg_lt, hfiles]
  rfl

/-- An entry of the active memtable gives the place of a frame in the current log. -/
theorem Stored.mem_curMem (h : Stored crc32 cfg s) (hvalid : cfg.Valid)
    (husize : cfg.segmentSize < 2 ^ 64) {e : Bytes × Entry Bytes}
    (he : e ∈ s.flush.curMem.entries) :
    ∃ lsn issue offset, s.shared.issued[lsn]? = some issue ∧
      e = indexEntry lsn offset (frameLen issue.payload) ∧ frameLen issue.payload < 2 ^ 32 ∧
      HoldsAt (s.logs (UInt32.ofNat s.flush.curSeg)) offset (encode crc32 lsn issue.payload) := by
  obtain ⟨files, hfiles, hlogs, -⟩ := h.exists_log
  -- the entry belongs to a buffer that was written to the log
  obtain ⟨r, hcomplete, hlog, lsn, hlsn, hissued, rfl⟩ : ∃ r : Region,
      r.Complete (issuedFrames crc32 s.shared.issued) ∧ HoldsAt files.log r.base r.image ∧
        ∃ lsn ∈ r.lsns, lsn < s.shared.issued.length ∧
          e = entryAt (issuedFrames crc32 s.shared.issued) r.base lsn := by
    rw [h.disk.mem] at he
    rcases List.mem_append.mp he with he | he
    · obtain ⟨r, hr, hseg, lsn, hlsn, heq⟩ := mem_indexOf he
      obtain ⟨files', hfiles', hlog, -⟩ := h.disk.stored r hr
      rw [hseg, hfiles] at hfiles'
      obtain rfl := Option.some.inj hfiles'
      exact ⟨r, h.disk.complete r hr, hlog, lsn, hlsn,
        (h.disk.lsn_lt hr hlsn).trans_le h.kept.published_le, heq⟩
    · obtain ⟨job, hjob, himaged, lsn, hlsn, heq⟩ := h.disk.mem_inProgress he
      have hissued := h.kept.lsn_le_issued hjob
      have hmem := List.mem_range'_1.mp hlsn
      exact ⟨_, (h.kept.jobOk hvalid husize hjob).complete s.flush.curSeg s.flush.segWritten,
        himaged files hfiles, lsn, hlsn, by omega, heq⟩
  have hissue := List.getElem?_eq_getElem hissued
  have hlength := hcomplete.length_lt lsn hlsn
  have hpart := hlog.part (hcomplete.inside lsn hlsn)
  rw [hcomplete.bytes lsn hlsn] at hpart
  rw [issuedFrames_of_some hissue] at hpart hlength
  rw [length_encode] at hlength
  refine ⟨lsn, _, _, hissue, ?_, hlength, hlogs ▸ hpart⟩
  rw [entryAt, issuedFrames_of_some hissue, length_encode]

theorem Stored.curMem_keys (h : Stored crc32 cfg s) (hvalid : cfg.Valid)
    (husize : cfg.segmentSize < 2 ^ 64) (hseg : s.flush.curSeg = 0) :
    s.flush.curMem.entries.length ≤ s.shared.issued.length ∧
      s.flush.curMem.entries.map Prod.fst =
        (List.range s.flush.curMem.entries.length).map lsnToKey := by
  obtain ⟨i, hi, hkeys, -⟩ := h.continues hvalid husize
  have hlsns : (regionsOf s.flush.flushed 0).flatMap Region.lsns =
      List.range s.shared.published := by
    rw [← h.disk.lsnsUpTo_curSeg, hseg]
    simp [lsnsUpTo]
  have hmap : s.flush.curMem.entries.map Prod.fst =
      (List.range (s.shared.published + i)).map lsnToKey := by
    rw [h.disk.mem, List.map_append, hseg, indexOf_keys, hlsns, hkeys, List.range_add,
      List.map_append, List.range'_eq_map_range]
  have hlength : s.flush.curMem.entries.length = s.shared.published + i := by
    simpa using congrArg List.length hmap
  rw [hlength]
  exact ⟨hi, hmap⟩

end Stored

/-! ## Scans -/

/-- Whether an LSN lies in a range. -/
def inRange (range : LsnBound × LsnBound) (lsn : ℕ) : Bool :=
  (match range.1 with
    | .included first => decide (first ≤ lsn)
    | .excluded first => decide (first < lsn)
    | .unbounded => true) &&
  (match range.2 with
    | .included last => decide (lsn ≤ last)
    | .excluded last => decide (lsn < last)
    | .unbounded => true)

/-- The records of a WAL: the payloads with their LSNs. -/
def records (payloads : List Bytes) : List (ℕ × Bytes) := payloads.mapIdx Prod.mk

section Records

variable {payloads : List Bytes} {m : ℕ}

theorem getElem?_records (lsn : ℕ) :
    (records payloads)[lsn]? = payloads[lsn]?.map (Prod.mk lsn) := by
  rw [records, List.getElem?_mapIdx]

theorem mem_records {record : ℕ × Bytes} :
    record ∈ records payloads ↔ payloads[record.1]? = some record.2 := by
  rw [List.mem_iff_getElem?]
  constructor
  · rintro ⟨lsn, hlsn⟩
    rw [getElem?_records] at hlsn
    obtain ⟨payload, hpayload, rfl⟩ := Option.map_eq_some_iff.mp hlsn
    exact hpayload
  · intro hpayload
    exact ⟨record.1, by rw [getElem?_records, hpayload]; rfl⟩

theorem lt_of_mem_take_records {record : ℕ × Bytes} (h : record ∈ (records payloads).take m) :
    record.1 < m := by
  obtain ⟨lsn, hlsn⟩ := List.mem_iff_getElem?.mp h
  rw [List.getElem?_take] at hlsn
  split at hlsn
  · rw [getElem?_records] at hlsn
    obtain ⟨payload, -, rfl⟩ := Option.map_eq_some_iff.mp hlsn
    assumption
  · cases hlsn

theorem le_of_mem_drop_records {record : ℕ × Bytes} (h : record ∈ (records payloads).drop m) :
    m ≤ record.1 := by
  obtain ⟨i, hi⟩ := List.mem_iff_getElem?.mp h
  rw [List.getElem?_drop, getElem?_records] at hi
  obtain ⟨payload, -, rfl⟩ := Option.map_eq_some_iff.mp hi
  exact Nat.le_add_right m i

/-- The records in a range are the first ones exactly when the range has just their LSNs. -/
theorem filter_records_eq_take (p : ℕ → Bool) :
    ((records payloads).filter fun record => p record.1) = (records payloads).take m ↔
      ∀ lsn < payloads.length, p lsn = true ↔ lsn < m := by
  constructor
  · intro heq lsn hlsn
    have hrecord : (lsn, payloads[lsn]) ∈ records payloads :=
      mem_records.mpr (List.getElem?_eq_getElem hlsn)
    constructor
    · intro hp
      exact lt_of_mem_take_records (heq ▸ List.mem_filter.mpr ⟨hrecord, hp⟩)
    · intro hlt
      rw [← List.take_append_drop m (records payloads)] at hrecord
      have htake := (List.mem_append.mp hrecord).resolve_right fun hdrop =>
        absurd (le_of_mem_drop_records hdrop) (Nat.not_le.mpr hlt)
      rw [← heq] at htake
      exact (List.mem_filter.mp htake).2
  · intro hiff
    have hlsn : ∀ {record}, record ∈ records payloads → record.1 < payloads.length :=
      fun h => (List.getElem?_eq_some_iff.mp (mem_records.mp h)).1
    have htake : ((records payloads).take m).filter (fun record => p record.1) =
        (records payloads).take m :=
      List.filter_eq_self.mpr fun record h =>
        (hiff _ (hlsn (List.mem_of_mem_take h))).mpr (lt_of_mem_take_records h)
    have hdrop : ((records payloads).drop m).filter (fun record => p record.1) = [] :=
      List.filter_eq_nil_iff.mpr fun record h hp =>
        absurd ((hiff _ (hlsn (List.mem_of_mem_drop h))).mp hp)
          (Nat.not_lt.mpr (le_of_mem_drop_records h))
    conv_lhs => rw [← List.take_append_drop m (records payloads)]
    rw [List.filter_append, htake, hdrop, List.append_nil]

end Records

section Scans

variable {ι : Type} {fuel : ℕ} {crc32 : Bytes → UInt32} {cfg : WalConfig}

/-- A scan succeeds, and its iterator yields the given records. -/
def ScannedWal.Scans (fuel : ℕ) (crc32 : Bytes → UInt32) (cfg : WalConfig) (w : ScannedWal ι)
    (range : LsnBound × LsnBound) (yielded : List (ℕ × Bytes)) : Prop :=
  ∃ iter, w.scan fuel crc32 cfg w.clone range = .ok iter ∧ iter.Reads crc32 w.wal.logs yielded

/-- No segment is sealed, the range has exactly the LSNs in the active memtable, and the read
cache has a frame for each of the blocks of a record. -/
structure Scannable (cfg : WalConfig) (fl : FlushThread) (range : LsnBound × LsnBound)
    (count : ℕ) : Prop where
  unsealed : fl.sealedSegs = []
  indexed : ∀ lsn < count, inRange range lsn = true ↔ lsn < fl.curMem.entries.length
  fits : ∀ e ∈ fl.curMem.entries.map (SegmentIndexIter.located (UInt32.ofNat fl.curSeg)),
    (e.2.span cfg.blockSize).length ≤ cfg.readCacheBlocks

theorem ScannedWal.memAt_clone (w : ScannedWal ι) :
    w.memAt w.clone.activeMem = w.wal.flush.curMem := by
  simp [ScannedWal.memAt, ScannedWal.clone]

variable [Fintype ι] {s : System ι}

theorem located_indexEntry (segId : UInt32) {lsn offset len : ℕ} (hoffset : offset < 2 ^ 64)
    (hlen : len < 2 ^ 32) :
    SegmentIndexIter.located segId (indexEntry lsn offset len) =
      (lsnToKey lsn, ⟨segId, offset, len⟩) := by
  simp [SegmentIndexIter.located, SegmentIndexIter.location, indexEntry,
    decodeOffsetLen_encode hoffset hlen]

theorem Stored.length_logs (h : Stored crc32 cfg s) :
    (s.logs (UInt32.ofNat s.flush.curSeg)).length = cfg.segmentSize := by
  obtain ⟨files, -, hlogs, hlength⟩ := h.exists_log
  rw [hlogs, hlength]

/-- While no segment is sealed, the memtable points to the first records. -/
theorem Stored.points (h : Stored crc32 cfg s) (hvalid : cfg.Valid)
    (husize : cfg.segmentSize < 2 ^ 64) (hseg : s.flush.curSeg = 0) :
    List.Forall₂ (WalIter.Points crc32 s.logs cfg.blockSize)
      (s.flush.curMem.entries.map (SegmentIndexIter.located (UInt32.ofNat s.flush.curSeg)))
      ((records (s.shared.issued.map Issue.payload)).take s.flush.curMem.entries.length) := by
  obtain ⟨hle, hkeys⟩ := h.curMem_keys hvalid husize hseg
  have hlength := h.length_logs
  refine List.forall₂_iff_get.mpr ⟨by simp [records, hle], fun i hi hi' => ?_⟩
  simp only [List.length_map] at hi
  simp only [List.get_eq_getElem, List.getElem_map, List.getElem_take]
  obtain ⟨lsn, issue, offset, hissue, heq, hlen, hholds⟩ :=
    h.mem_curMem hvalid husize (List.getElem_mem hi)
  have hinside := hholds.inside
  rw [hlength] at hinside
  have hlsn : lsn < s.shared.issued.length := (List.getElem?_eq_some_iff.mp hissue).1
  -- the keys say which LSN it is
  obtain rfl : lsn = i := by
    have hkey := congrArg (·[i]?) hkeys
    simp only [List.getElem?_map, List.getElem?_eq_getElem hi, heq, List.getElem?_range hi,
      Option.map_some, Option.some.injEq, indexEntry] at hkey
    have hnum := h.kept.num.issued_lt
    exact lsnToKey_injective (hlsn.trans hnum) (by omega) hkey
  rw [heq, located_indexEntry _ (by omega) hlen]
  obtain ⟨_, rfl⟩ := List.getElem?_eq_some_iff.mp hissue
  simp only [records, List.getElem_mapIdx, List.getElem_map]
  exact
    { key := rfl
      lsn_lt := hlsn.trans h.kept.num.issued_lt
      len := rfl
      len_lt := hlen
      frame := hholds
      whole := hlength ▸ hvalid.segmentSize_dvd
      bound := hlength ▸ husize }

theorem Stored.readable (h : Stored crc32 cfg s) (hvalid : cfg.Valid)
    (husize : cfg.segmentSize < 2 ^ 64) :
    ∀ e ∈ s.flush.curMem.entries, SegmentIndexIter.Readable e := by
  intro e he
  obtain ⟨lsn, issue, offset, -, rfl, hlen, hholds⟩ := h.mem_curMem hvalid husize he
  have hinside := hholds.inside
  rw [h.length_logs] at hinside
  exact ⟨_, _, rfl, decodeOffsetLen_encode (by omega) hlen⟩

/-- Without a sealed segment a scan yields what is in the active memtable, if the cache allows. -/
theorem Stored.scans_iff {w : ScannedWal ι} (h : Stored crc32 cfg w.wal) (hvalid : cfg.Valid)
    (husize : cfg.segmentSize < 2 ^ 64) (hfuel : 2 ≤ fuel) (range : LsnBound × LsnBound)
    (hsealed : w.wal.flush.sealedSegs = []) (yielded : List (ℕ × Bytes)) :
    w.Scans fuel crc32 cfg range yielded ↔
      yielded = (records (w.wal.shared.issued.map Issue.payload)).take
          w.wal.flush.curMem.entries.length ∧
        ∀ e ∈ w.wal.flush.curMem.entries.map
            (SegmentIndexIter.located (UInt32.ofNat w.wal.flush.curSeg)),
          (e.2.span cfg.blockSize).length ≤ cfg.readCacheBlocks := by
  have hseg : w.wal.flush.curSeg = 0 := by
    simpa [h.disk.sealedSegs] using hsealed
  have hpos : 0 < cfg.blockSize := lt_of_lt_of_le (by decide) hvalid.blockSize_ge
  have hreadable := h.readable hvalid husize
  rw [← w.memAt_clone] at hreadable
  obtain ⟨iter, hnew, hbefore⟩ := WalIter.new_nil_before (n := cfg.readCacheBlocks) hfuel hpos
    w.wal.logs (UInt32.ofNat w.wal.flush.curSeg) range hreadable
  have hscan : w.scan fuel crc32 cfg w.clone range = .ok iter := by
    rw [ScannedWal.scan, show w.clone.sealed = [] from hsealed]
    exact hnew
  rw [w.memAt_clone] at hbefore
  rw [← hbefore.reads_iff (h.points hvalid husize hseg) yielded]
  constructor
  · rintro ⟨iter', hscan', hreads⟩
    obtain rfl := Except.ok.inj (hscan.symm.trans hscan')
    exact hreads
  · exact fun hreads => ⟨iter, hscan, hreads⟩

/-- A scan yields the records of its range exactly when the state is `Scannable`. -/
theorem wal_scan_contract_iff [DecidableEq ι] (hcfg : cfg.validate = .ok ())
    (hbuffer : cfg.bufferSize < 2 ^ 32) (husize : cfg.segmentSize < 2 ^ 64) (hfuel : 2 ≤ fuel)
    {t : ι} {memory : BufId → ℕ → UInt8} {ls : List (Label ι)} {w : ScannedWal ι}
    (hls : Disciplined (System.step crc32 cfg) (OneSealed cfg t) ls (.init cfg memory))
    (hexec : execute (System.step crc32 cfg) ls (.init cfg memory) = some w.wal)
    (hidle : w.wal.pcs t = .idle) (range : LsnBound × LsnBound) :
    w.Scans fuel crc32 cfg range
        ((records (appended ls)).filter fun record => inRange range record.1) ↔
      Scannable cfg w.wal.flush range (appended ls).length := by
  have hvalid := WalConfig.validate_eq_ok.mp hcfg
  have hrun := (OneRun.init crc32 cfg t memory).execute hvalid husize hbuffer hls hexec
  have hpayloads : w.wal.shared.issued.map Issue.payload = appended ls := by
    simpa [hidle, Pc.unissued?] using hrun.tracks.issued
  by_cases hsealed : w.wal.flush.sealedSegs = []
  · rw [hrun.stored.scans_iff hvalid husize hfuel range hsealed, hpayloads,
      filter_records_eq_take]
    exact ⟨fun h => ⟨hsealed, h.1, h.2⟩, fun h => ⟨h.indexed, h.fits⟩⟩
  · refine iff_of_false ?_ fun h => hsealed h.unsealed
    rintro ⟨iter, hscan, -⟩
    rcases scan_cases fuel crc32 hcfg w w.clone range with ⟨e, herror⟩ | ⟨hnone, -⟩
    · rw [hscan] at herror
      cases herror
    · exact hsealed hnone

end Scans

/-- An append and a `sync` that returns once the record is on disk. -/
def oneRecord : List (Label (Fin 1)) :=
  [.call 0 (.append [7])] ++ turns 0 25 ++ [.call 0 .sync] ++ turns 0 18 ++
    List.replicate 18 .flush ++ turns 0 2

theorem execute_oneRecord :
    ∃ wal, execute stepOneBlock oneRecord (freshWal 1) = some wal ∧ wal.pcs 0 = .idle ∧
      wal.shared.syncs = [([0], 0)] ∧ wal.flush.sealedSegs = [] ∧ wal.flush.curSeg = 0 ∧
      wal.flush.curMem.entries = [indexEntry 0 0 17] := by
  have hobserved : (execute stepOneBlock oneRecord (freshWal 1)).map (fun wal =>
      (wal.pcs 0, wal.shared.syncs, wal.flush.sealedSegs)) =
        some (.idle, [([0], 0)], []) := by decide +kernel
  have hflush : (execute stepOneBlock oneRecord (freshWal 1)).map (fun wal =>
      (wal.flush.curSeg, wal.flush.curMem.entries)) = some (0, [indexEntry 0 0 17]) := by
    decide +kernel
  obtain ⟨wal, hwal, hobserved⟩ := Option.map_eq_some_iff.mp hobserved
  rw [hwal, Option.map_some, Option.some.injEq] at hflush
  simp only [Prod.mk.injEq] at hobserved hflush
  exact ⟨wal, hwal, hobserved.1, hobserved.2.1, hobserved.2.2, hflush⟩

/-- The record is found by a scan of everything. -/
theorem wal_scan_contract_unbounded :
    ∃ w : ScannedWal (Fin 1), execute stepOneBlock oneRecord (freshWal 1) = some w.wal ∧
      w.wal.shared.syncs = [([0], 0)] ∧
      w.Scans 2 (fun _ => 0) oneBlockConfig (.unbounded, .unbounded) [(0, [7])] := by
  obtain ⟨wal, hrun, hidle, hsyncs, hsealed, hseg, hmem⟩ := execute_oneRecord
  refine ⟨⟨wal, [], []⟩, hrun, hsyncs, ?_⟩
  have hscans := wal_scan_contract_iff (w := ⟨wal, [], []⟩) (t := 0) (by decide) (by decide)
    (by decide) le_rfl (by decide +kernel) hrun hidle (.unbounded, .unbounded)
  refine hscans.mpr ⟨hsealed, ?_, ?_⟩
  · simp only [hmem]
    decide +kernel
  · simp only [hmem, hseg]
    decide +kernel

/-- A scan from LSN 1 on yields the record of LSN 0, since the range is not used. -/
theorem wal_scan_ignores_range :
    oneBlockConfig.validate = .ok () ∧
      Disciplined stepOneBlock (OneSealed oneBlockConfig 0) oneRecord (freshWal 1) ∧
      ∃ w : ScannedWal (Fin 1), execute stepOneBlock oneRecord (freshWal 1) = some w.wal ∧
        w.wal.shared.syncs = [([0], 0)] ∧ inRange (.included 1, .unbounded) 0 = false ∧
        w.Scans 2 (fun _ => 0) oneBlockConfig (.included 1, .unbounded) [(0, [7])] ∧
        ¬ w.Scans 2 (fun _ => 0) oneBlockConfig (.included 1, .unbounded) [] := by
  have hvalid : oneBlockConfig.Valid := WalConfig.validate_eq_ok.mp (by decide)
  have hdisciplined :
      Disciplined stepOneBlock (OneSealed oneBlockConfig 0) oneRecord (freshWal 1) := by
    decide +kernel
  obtain ⟨wal, hrun, hidle, hsyncs, hsealed, hseg, hmem⟩ := execute_oneRecord
  have hone := (OneRun.init (fun _ => 0) oneBlockConfig (0 : Fin 1) _).execute hvalid (by decide)
    (by decide) hdisciplined hrun
  have hpayloads : wal.shared.issued.map Issue.payload = [[7]] := by
    have hissued := hone.tracks.issued
    rw [hidle] at hissued
    exact (List.append_nil _).symm.trans hissued
  have hscans := Stored.scans_iff (w := ⟨wal, [], []⟩) hone.stored hvalid (by decide) le_rfl
    (.included 1, .unbounded) hsealed
  simp only [hpayloads, hmem, hseg] at hscans
  refine ⟨by decide, hdisciplined, ⟨wal, [], []⟩, hrun, hsyncs, rfl, ?_, ?_⟩
  · exact (hscans _).mpr ⟨rfl, by decide +kernel⟩
  · exact fun hnone => absurd ((hscans _).mp hnone).1 (by decide)

end Todb.Wal

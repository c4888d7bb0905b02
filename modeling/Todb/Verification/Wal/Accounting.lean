import Todb.Library.Spans
import Todb.Model.Wal.FlushBuffer
import Todb.Verification.Wal.SealedIndex
import Todb.Verification.Wal.Stored

/-! # What the flush thread accounts for

Byte ranges, LSNs and headers over sequences of `flush_buffer` calls. -/

namespace Todb.Wal

open Library

/-! ## Buffers -/

/-- A buffer as appenders leave it: the slot words of frames that tile its start, with LSNs from
`n` on. -/
structure Tiled (cfg : WalConfig) (n : ℕ) (buf : WalBuffer) (spans : List (ℕ × ℕ)) : Prop where
  count_eq : buf.count = spans.length
  words : ∀ i (h : i < spans.length), buf.entries i = pack spans[i].1 (spans[i].2 % 2 ^ 32)
  minLsn_eq : spans ≠ [] → buf.minLsn = n
  lsn_le : n + spans.length ≤ 2 ^ 64
  header_le : ∀ f ∈ spans, headerLen ≤ f.2
  tiles : ∃ stop ≤ cfg.bufferSize, Tiles spans stop

/-- The position and the length of every frame fit the halves of a slot word. -/
def Narrow (spans : List (ℕ × ℕ)) : Prop := ∀ f ∈ spans, f.1 < 2 ^ 32 ∧ f.2 < 2 ^ 32

instance (spans : List (ℕ × ℕ)) : Decidable (Narrow spans) :=
  inferInstanceAs (Decidable (∀ f ∈ spans, _))

section Buffers

variable {cfg : WalConfig} {n : ℕ} {buf : WalBuffer} {spans : List (ℕ × ℕ)}

theorem Tiled.unpack_eq (h : Tiled cfg n buf spans) (hnarrow : Narrow spans) {i : ℕ}
    (hi : i < spans.length) : unpack (buf.entries i) = spans[i] := by
  obtain ⟨hpos, hlen⟩ := hnarrow spans[i] (List.getElem_mem hi)
  rw [h.words i hi, Nat.mod_eq_of_lt hlen, unpack_pack hpos hlen]

/-- There is a slot for every frame. -/
theorem Tiled.count_le (h : Tiled cfg n buf spans) : buf.count ≤ cfg.bufferSize / headerLen := by
  obtain ⟨stop, hstop, htiles⟩ := h.tiles
  have hsum : spans.length • headerLen ≤ (spans.map Prod.snd).sum := by
    have := List.card_nsmul_le_sum (spans.map Prod.snd) headerLen fun x hx => by
      obtain ⟨f, hf, rfl⟩ := List.mem_map.mp hx
      exact h.header_le f hf
    simpa using this
  rw [htiles.sum_eq, smul_eq_mul] at hsum
  rw [h.count_eq, Nat.le_div_iff_mul_le (by decide)]
  exact hsum.trans hstop

/-- `logical_end` is within the buffer, and no frame ends behind it. -/
theorem Tiled.logicalEnd_spec (h : Tiled cfg n buf spans) (hnarrow : Narrow spans) :
    buf.logicalEnd ≤ cfg.bufferSize ∧ ∀ f ∈ spans, f.1 + f.2 ≤ buf.logicalEnd := by
  obtain ⟨stop, hstop, htiles⟩ := h.tiles
  have hword : ∀ i (hi : i < spans.length),
      (unpack (buf.entries i)).1 + (unpack (buf.entries i)).2 = spans[i].1 + spans[i].2 := by
    intro i hi
    rw [h.unpack_eq hnarrow hi]
  constructor
  · refine foldl_max_le (Nat.zero_le _) fun i hi => ?_
    have hi' : i < spans.length := h.count_eq ▸ List.mem_range.mp hi
    exact (hword i hi').le.trans ((htiles.inside _ (List.getElem_mem hi')).trans hstop)
  · intro f hf
    obtain ⟨i, hi, rfl⟩ := List.getElem_of_mem hf
    rw [← hword i hi]
    exact (le_foldl_max (fun i => (unpack (buf.entries i)).1 + (unpack (buf.entries i)).2) _ 0).2 i
      (List.mem_range.mpr (h.count_eq ▸ hi))

/-- The index entries of the frames of a buffer that is written at `base`. -/
def framesAt (n base : ℕ) (spans : List (ℕ × ℕ)) : List (ℕ × ℕ × ℕ) :=
  spans.mapIdx fun i f => (n + i, base + f.1, f.2)

theorem map_fst_framesAt (n base : ℕ) (spans : List (ℕ × ℕ)) :
    (framesAt n base spans).map Prod.fst = List.range' n spans.length := by
  refine List.ext_getElem (by simp [framesAt]) fun i hi hi' => ?_
  simp [framesAt]

/-- LSNs that go on behind those of a memtable are appended to its entries. -/
theorem Tiled.entries_putEntries (h : Tiled cfg n buf spans) (hnarrow : Narrow spans) (base : ℕ)
    {mem : IndexMem} {frames : List (ℕ × ℕ × ℕ)} (hmem : mem.entries = indexEntries frames)
    (hlt : ∀ f ∈ frames, f.1 < n) (hne : spans ≠ []) :
    (buf.putEntries base mem).entries = indexEntries (frames ++ framesAt n base spans) := by
  -- The loop after `k` puts has the first `k` frames.
  have hloop : ∀ k ≤ spans.length, ((List.range k).foldl (fun mem i =>
      mem.put (lsnToKey ((buf.minLsn + i) % 2 ^ 64))
        (encodeOffsetLen (base + (unpack (buf.entries i)).1) (unpack (buf.entries i)).2))
      mem).entries = indexEntries (frames ++ (framesAt n base spans).take k) := by
    intro k
    induction k with
    | zero => simpa using hmem
    | succ k ih =>
        intro hk
        have hframes : k < (framesAt n base spans).length := by simpa [framesAt] using hk
        have hk64 : n + k < 2 ^ 64 := by
          have := h.lsn_le
          omega
        have hbefore := ih (by omega)
        rw [List.range_succ, List.foldl_append, List.foldl_cons, List.foldl_nil]
        set mem' := (List.range k).foldl (fun mem i =>
          mem.put (lsnToKey ((buf.minLsn + i) % 2 ^ 64))
            (encodeOffsetLen (base + (unpack (buf.entries i)).1) (unpack (buf.entries i)).2)) mem
        rw [h.minLsn_eq hne, Nat.mod_eq_of_lt hk64, h.unpack_eq hnarrow (by omega)]
        have hkeys : ∀ e ∈ mem'.map.entries, e.1 < lsnToKey (n + k) := by
          intro e he
          have he : e ∈ mem'.entries := he
          rw [hbefore] at he
          obtain ⟨f, hf, rfl⟩ := List.mem_map.mp he
          refine lsnToKey_lt ?_ hk64
          rcases List.mem_append.mp hf with hf | hf
          · have := hlt f hf
            omega
          · obtain ⟨i, hi, rfl⟩ := List.getElem_of_mem hf
            simp [framesAt] at hi ⊢
            omega
        refine (SortedMap.entries_insert_of_forall_lt _ hkeys).trans ?_
        change mem'.entries ++ _ = _
        rw [hbefore, List.take_succ_eq_append_getElem hframes, ← List.append_assoc]
        simp [indexEntries, framesAt, indexEntry]
  have hall := hloop spans.length le_rfl
  rw [List.take_of_length_le (by simp [framesAt])] at hall
  rw [WalBuffer.putEntries, h.count_eq]
  exact hall

end Buffers

/-! ## The accounts -/

/-- The header of a sealed segment against the frames in its index. -/
structure HeaderOf (seg : ℕ) (frames : List (ℕ × ℕ × ℕ)) (header : IdxHeader) : Prop where
  segId_eq : header.segId = seg
  min_eq : frames.head?.map Prod.fst = some header.minLiveLsn
  max_eq : frames.getLast?.map Prod.fst = some header.maxLiveLsn
  count_eq : frames.length < 2 ^ 32 →
    header.entryCount = header.maxLiveLsn - header.minLiveLsn + 1

/-- The `.idx` file of a sealed segment is the index of its frames, if the truncated number of
frames is not zero. -/
def SealedAs (cfg : WalConfig) (files : SegmentFiles) (frames : List (ℕ × ℕ × ℕ)) : Prop :=
  frames.length % 2 ^ 32 ≠ 0 → ∃ mem file, files.idx = some file ∧
    sealIdx cfg.blockSize mem none = .ok file ∧ mem.entries = indexEntries frames

/-- The accounts after the LSNs below `n` have been flushed, where `index` gives for every segment
the frames in its index: LSN, offset and length. -/
structure Accounted (cfg : WalConfig) (n : ℕ) (fl : FlushThread)
    (index : ℕ → List (ℕ × ℕ × ℕ)) : Prop where
  aligned : cfg.blockSize ∣ fl.segWritten
  written_le : fl.segWritten ≤ cfg.segmentSize
  apart : ∀ s, (index s).Pairwise fun f g => Apart f.2 g.2
  inside : ∀ s, ∀ f ∈ index s, f.2.1 + f.2.2 ≤ cfg.segmentSize
  before : ∀ f ∈ index fl.curSeg, f.2.1 + f.2.2 ≤ fl.segWritten
  lsns : (List.range (fl.curSeg + 1)).flatMap (fun s => (index s).map Prod.fst) = List.range n
  mem : fl.curMem.entries = indexEntries (index fl.curSeg)
  sealed : ∀ s < fl.curSeg, ∃ files header, fl.disk s = some files ∧ SealedAs cfg files (index s) ∧
    files.header = some header ∧ HeaderOf s (index s) header

/-- What the next call relies on. -/
structure Balanced (cfg : WalConfig) (n : ℕ) (fl : FlushThread)
    (index : ℕ → List (ℕ × ℕ × ℕ)) : Prop extends Accounted cfg n fl index where
  lsns_current : (index fl.curSeg).map Prod.fst =
    List.range' fl.segMinLsn (index fl.curSeg).length
  next_lsn : fl.segMinLsn + (index fl.curSeg).length = n
  maxLsn_eq : index fl.curSeg ≠ [] → fl.segMaxLsn + 1 = n
  started : index fl.curSeg = [] → fl.segWritten = 0
  later : ∀ s, fl.curSeg < s → index s = [] ∧ fl.disk s = none
  current : ∃ files, fl.disk fl.curSeg = some files ∧ files.idx = none
  nextSegId_eq : fl.nextSegId = (fl.curSeg + 1) % 2 ^ 32

section Accounts

variable {cfg : WalConfig} {n : ℕ} {fl fl' : FlushThread} {index : ℕ → List (ℕ × ℕ × ℕ)}

theorem balanced_init (cfg : WalConfig) : Balanced cfg 0 (.init cfg) fun _ => [] where
  aligned := dvd_zero _
  written_le := Nat.zero_le _
  apart _ := .nil
  inside _ := by simp
  before := by simp
  lsns := rfl
  mem := rfl
  sealed s hs := absurd hs (Nat.not_lt_zero s)
  lsns_current := rfl
  next_lsn := rfl
  maxLsn_eq h := absurd rfl h
  started _ := rfl
  later s hs := by
    have hne : s ≠ 0 := Nat.pos_iff_ne_zero.mp hs
    simp [FlushThread.init, hne]
  current := ⟨{ SegmentFiles.create cfg.segmentSize with header := some ⟨0, 0, 0, 0⟩ }, by
    simp [FlushThread.init], rfl⟩
  nextSegId_eq := rfl

theorem modifyFiles_modifyFiles (fl : FlushThread) (seg : ℕ) (f g : SegmentFiles → SegmentFiles) :
    (fl.modifyFiles seg f).modifyFiles seg g = fl.modifyFiles seg (g ∘ f) := by
  simp [FlushThread.modifyFiles]

/-- What `finalize_segment` does to the files of the current segment. -/
theorem finalizeSegment_eq_ok (h : fl.finalizeSegment cfg = .ok fl') :
    ∃ f : SegmentFiles → SegmentFiles, fl' = fl.modifyFiles fl.curSeg f ∧
      (∀ files, (f files).header =
        some ⟨fl.curSeg, fl.segMinLsn, fl.segMaxLsn, fl.curMem.len % 2 ^ 32⟩) ∧
      (fl.curMem.len % 2 ^ 32 ≠ 0 → ∃ file,
        sealIdx cfg.blockSize fl.curMem ((fl.disk fl.curSeg).bind (·.idx)) = .ok file ∧
        ∀ files, (f files).idx = some file) := by
  obtain ⟨mid, hmid, hret⟩ := bind_eq_ok.mp h
  obtain rfl := Except.ok.inj hret
  rw [FlushThread.writeIdx] at hmid
  by_cases hlen : 0 < fl.curMem.len % 2 ^ 32
  · rw [if_pos hlen] at hmid
    obtain ⟨file, hfile, hret⟩ := bind_eq_ok.mp hmid
    obtain rfl := Except.ok.inj hret
    exact ⟨_, modifyFiles_modifyFiles _ _ _ _, fun _ => rfl, fun _ => ⟨file, hfile, fun _ => rfl⟩⟩
  · rw [if_neg hlen] at hmid
    obtain rfl := Except.ok.inj hmid
    exact ⟨_, rfl, fun _ => rfl, fun hne => absurd (Nat.pos_of_ne_zero hne) hlen⟩

theorem Balanced.len_eq (h : Balanced cfg n fl index) :
    fl.curMem.len = (index fl.curSeg).length := by
  change fl.curMem.entries.length = _
  rw [h.mem, indexEntries, List.length_map]

/-- The header that is written for the current segment. -/
theorem Balanced.headerOf (h : Balanced cfg n fl index) (hne : index fl.curSeg ≠ []) :
    HeaderOf fl.curSeg (index fl.curSeg)
      ⟨fl.curSeg, fl.segMinLsn, fl.segMaxLsn, fl.curMem.len % 2 ^ 32⟩ := by
  have hpos : 0 < (index fl.curSeg).length := List.length_pos_iff.mpr hne
  have hmax := h.maxLsn_eq hne
  have hnext := h.next_lsn
  refine ⟨rfl, ?_, ?_, fun hlt => ?_⟩
  · rw [← List.head?_map, h.lsns_current, List.head?_range', if_neg hpos.ne']
  · rw [← List.getLast?_map, h.lsns_current, List.getLast?_range', if_neg hpos.ne']
    exact congrArg some (show fl.segMinLsn + (index fl.curSeg).length - 1 = fl.segMaxLsn by omega)
  · simp only [h.len_eq, Nat.mod_eq_of_lt hlt]
    omega

/-- Leaving a segment that has entries for a new one. -/
theorem Balanced.rollover (h : Balanced cfg n fl index) (hne : index fl.curSeg ≠ [])
    (hseg : fl.curSeg + 1 < 2 ^ 32) {mid : FlushThread}
    (hfinalize : fl.finalizeSegment cfg = .ok mid) :
    Balanced cfg n (mid.openSegment cfg n) index := by
  obtain ⟨f, rfl, hheader, hidx⟩ := finalizeSegment_eq_ok hfinalize
  have hnext : fl.nextSegId = fl.curSeg + 1 := h.nextSegId_eq.trans (Nat.mod_eq_of_lt hseg)
  obtain ⟨hnil, hnew⟩ := h.later (fl.curSeg + 1) (Nat.lt_succ_self _)
  have hfree : ((fl.modifyFiles fl.curSeg f).disk (fl.curSeg + 1)).isNone = true := by
    rw [disk_modifyFiles_of_ne fl (by omega), hnew]
    rfl
  have hopen : (fl.modifyFiles fl.curSeg f).openSegment cfg n =
      { fl with
        disk := Function.update (fl.modifyFiles fl.curSeg f).disk (fl.curSeg + 1)
          (some { SegmentFiles.create cfg.segmentSize with
            header := some ⟨fl.curSeg + 1, n, 0, 0⟩ })
        nextSegId := (fl.curSeg + 1 + 1) % 2 ^ 32
        sealedSegs := fl.sealedSegs ++ [fl.curSeg]
        curSeg := fl.curSeg + 1
        curMem := .new
        segWritten := 0
        segMinLsn := n
        segMaxLsn := n } := by
    simp only [FlushThread.openSegment]
    rw [show (fl.modifyFiles fl.curSeg f).nextSegId = fl.curSeg + 1 from hnext, if_pos hfree]
    rfl
  rw [hopen]
  obtain ⟨files, hfiles, hnone⟩ := h.current
  exact
    { aligned := dvd_zero _
      written_le := Nat.zero_le _
      apart := h.apart
      inside := h.inside
      before := by simp [hnil]
      lsns := by
        rw [List.range_succ, List.flatMap_append, h.lsns]
        simp [hnil]
      mem := by
        rw [hnil]
        rfl
      sealed := by
        intro s hs
        have hs' : s ≠ fl.curSeg + 1 := by
          have : s < fl.curSeg + 1 := hs
          omega
        simp only [Function.update_of_ne hs']
        rcases Nat.lt_succ_iff_lt_or_eq.mp hs with hlt | rfl
        · rw [disk_modifyFiles_of_ne fl (by omega)]
          exact h.sealed s hlt
        · rw [disk_modifyFiles_self, hfiles]
          refine ⟨f files, _, rfl, fun hlen => ?_, hheader files, h.headerOf hne⟩
          obtain ⟨file, hfile, hout⟩ := hidx (h.len_eq ▸ hlen)
          rw [hfiles] at hfile
          exact ⟨fl.curMem, file, hout files, by simpa [hnone] using hfile, h.mem⟩
      lsns_current := by simp [hnil]
      next_lsn := by simp [hnil]
      maxLsn_eq := fun hcur => absurd hnil hcur
      started := fun _ => rfl
      later := by
        intro s hs
        have hs' : fl.curSeg + 1 < s := hs
        simp only [Function.update_of_ne (show s ≠ fl.curSeg + 1 by omega)]
        rw [disk_modifyFiles_of_ne fl (by omega)]
        exact h.later s (by omega)
      current := ⟨_, Function.update_self _ _ _, rfl⟩
      nextSegId_eq := rfl }

/-- `ensure_segment` leaves room for the buffer. A segment is left only if it has entries. -/
theorem Balanced.ensureSegment (h : Balanced cfg n fl index) {padded : ℕ}
    (hpadded : padded ≤ cfg.segmentSize)
    (hseg : fl.needNew cfg padded → fl.curSeg + 1 < 2 ^ 32)
    (hensure : fl.ensureSegment cfg n padded = .ok fl') :
    Balanced cfg n fl' index ∧ fl'.segWritten + padded ≤ cfg.segmentSize := by
  rw [FlushThread.ensureSegment] at hensure
  by_cases hnew : fl.needNew cfg padded
  · rw [if_pos hnew] at hensure
    obtain ⟨mid, hfinalize, hret⟩ := bind_eq_ok.mp hensure
    obtain rfl := Except.ok.inj hret
    have hne : index fl.curSeg ≠ [] := by
      intro hnil
      have hzero := h.started hnil
      simp only [FlushThread.needNew] at hnew
      omega
    refine ⟨h.rollover hne (hseg hnew) hfinalize, ?_⟩
    simpa [FlushThread.openSegment] using hpadded
  · rw [if_neg hnew] at hensure
    obtain rfl := Except.ok.inj hensure
    exact ⟨h, Nat.le_of_not_lt hnew⟩

variable {buf : WalBuffer} {spans : List (ℕ × ℕ)}

theorem Tiled.apart_framesAt (htiled : Tiled cfg n buf spans) (base : ℕ) :
    (framesAt n base spans).Pairwise fun f g => Apart f.2 g.2 := by
  obtain ⟨stop, -, htiles⟩ := htiled.tiles
  refine List.pairwise_iff_getElem.mpr fun i j hi hj hij => ?_
  simp only [framesAt, List.length_mapIdx] at hi hj
  simp only [framesAt, List.getElem_mapIdx]
  exact (List.pairwise_iff_getElem.mp htiles.apart i j hi hj hij).shift base

theorem mem_framesAt {base : ℕ} {f : ℕ × ℕ × ℕ} (hf : f ∈ framesAt n base spans) :
    ∃ g ∈ spans, f.2 = (base + g.1, g.2) := by
  obtain ⟨i, hi, rfl⟩ := List.getElem_of_mem hf
  have hi' : i < spans.length := by simpa [framesAt] using hi
  exact ⟨spans[i], List.getElem_mem hi', by simp [framesAt]⟩

/-- Writing a buffer that the current segment has room for. -/
theorem Balanced.write (h : Balanced cfg n fl index) (htiled : Tiled cfg n buf spans)
    (hnarrow : Narrow spans) (hne : spans ≠ []) {padded : ℕ}
    (hinside : ∀ f ∈ spans, f.1 + f.2 ≤ padded) (haligned : cfg.blockSize ∣ padded)
    (hroom : fl.segWritten + padded ≤ cfg.segmentSize) :
    Balanced cfg (n + spans.length) (fl.writeBuffer buf padded)
      (Function.update index fl.curSeg
        (index fl.curSeg ++ framesAt n fl.segWritten spans)) := by
  have hlength : (framesAt n fl.segWritten spans).length = spans.length := by simp [framesAt]
  have hpos : 0 < spans.length := List.length_pos_iff.mpr hne
  have hbase : ∀ f ∈ framesAt n fl.segWritten spans,
      fl.segWritten ≤ f.2.1 ∧ f.2.1 + f.2.2 ≤ fl.segWritten + padded := by
    intro f hf
    obtain ⟨g, hg, heq⟩ := mem_framesAt hf
    have := hinside g hg
    rw [heq]
    simp only
    omega
  have hlsns := h.lsns
  rw [List.range_succ, List.flatMap_append, List.flatMap_singleton] at hlsns
  have hlt : ∀ f ∈ index fl.curSeg, f.1 < n := by
    intro f hf
    rw [← List.mem_range, ← hlsns]
    exact List.mem_append_right _ (List.mem_map_of_mem hf)
  have hsame : ∀ s ≠ fl.curSeg, Function.update index fl.curSeg
      (index fl.curSeg ++ framesAt n fl.segWritten spans) s = index s :=
    fun s hs => Function.update_of_ne hs _ _
  have hself : Function.update index fl.curSeg
      (index fl.curSeg ++ framesAt n fl.segWritten spans) fl.curSeg =
        index fl.curSeg ++ framesAt n fl.segWritten spans := Function.update_self _ _ _
  have hall : ∀ {P : ℕ → List (ℕ × ℕ × ℕ) → Prop}, (∀ s ≠ fl.curSeg, P s (index s)) →
      P fl.curSeg (index fl.curSeg ++ framesAt n fl.segWritten spans) →
      ∀ s, P s (Function.update index fl.curSeg
        (index fl.curSeg ++ framesAt n fl.segWritten spans) s) := by
    intro P hother hcur s
    by_cases hs : s = fl.curSeg
    · rw [hs, hself]
      exact hcur
    · rw [hsame s hs]
      exact hother s hs
  have hdisk : ∀ s ≠ fl.curSeg, (fl.writeBuffer buf padded).disk s = fl.disk s :=
    fun s hs => disk_modifyFiles_of_ne fl hs _
  generalize Function.update index fl.curSeg
    (index fl.curSeg ++ framesAt n fl.segWritten spans) = index' at hsame hself hall ⊢
  exact
    { aligned := h.aligned.add haligned
      written_le := hroom
      apart := by
        refine hall (fun s _ => h.apart s) (List.pairwise_append.mpr
          ⟨h.apart _, htiled.apart_framesAt _, fun f hf g hg => .inl ?_⟩)
        exact (h.before f hf).trans (hbase g hg).1
      inside := by
        refine hall (P := fun _ frames => ∀ f ∈ frames, f.2.1 + f.2.2 ≤ cfg.segmentSize)
          (fun s _ => h.inside s) fun f hf => ?_
        rcases List.mem_append.mp hf with hf | hf
        · exact h.inside _ f hf
        · exact (hbase f hf).2.trans hroom
      before := by
        intro f hf
        change f ∈ index' fl.curSeg at hf
        rw [hself] at hf
        change f.2.1 + f.2.2 ≤ fl.segWritten + padded
        rcases List.mem_append.mp hf with hf | hf
        · exact (h.before f hf).trans (Nat.le_add_right _ _)
        · exact (hbase f hf).2
      lsns := by
        change (List.range (fl.curSeg + 1)).flatMap (fun s => (index' s).map Prod.fst) = _
        rw [List.range_succ, List.flatMap_append, List.flatMap_singleton, hself, List.map_append,
          map_fst_framesAt, ← List.append_assoc]
        have hold : (List.range fl.curSeg).flatMap (fun s => (index' s).map Prod.fst) =
            (List.range fl.curSeg).flatMap fun s => (index s).map Prod.fst :=
          List.flatMap_congr fun s hs => by rw [hsame s (Nat.ne_of_lt (List.mem_range.mp hs))]
        rw [hold, hlsns, List.range_eq_range', List.range_eq_range', ← List.range'_append_1,
          Nat.zero_add]
      mem := by
        change (buf.putEntries fl.segWritten fl.curMem).entries = indexEntries (index' fl.curSeg)
        rw [hself]
        exact htiled.entries_putEntries hnarrow _ h.mem hlt hne
      sealed := by
        intro s hs
        have hs' : s ≠ fl.curSeg := Nat.ne_of_lt hs
        rw [hdisk s hs', hsame s hs']
        exact h.sealed s hs
      lsns_current := by
        change (index' fl.curSeg).map Prod.fst = List.range' fl.segMinLsn (index' fl.curSeg).length
        rw [hself, List.map_append, h.lsns_current, map_fst_framesAt, List.length_append, hlength,
          ← h.next_lsn, List.range'_append_1]
      next_lsn := by
        change fl.segMinLsn + (index' fl.curSeg).length = _
        have := h.next_lsn
        rw [hself, List.length_append, hlength]
        omega
      maxLsn_eq := by
        intro _
        change (buf.minLsn + buf.count - 1) % 2 ^ 64 + 1 = _
        have := htiled.lsn_le
        rw [htiled.minLsn_eq hne, htiled.count_eq, Nat.mod_eq_of_lt (by omega)]
        omega
      started := by
        intro hnil
        change index' fl.curSeg = [] at hnil
        rw [hself] at hnil
        rw [(List.append_eq_nil_iff.mp hnil).2, List.length_nil] at hlength
        omega
      later := by
        intro s hs
        have hs' : s ≠ fl.curSeg := Nat.ne_of_gt hs
        rw [hdisk s hs', hsame s hs']
        exact h.later s hs
      current := by
        obtain ⟨files, hfiles, hnone⟩ := h.current
        refine ⟨_, (disk_modifyFiles_self fl fl.curSeg _).trans (by rw [hfiles]; rfl), ?_⟩
        exact hnone
      nextSegId_eq := h.nextSegId_eq }

/-! ## Sequences of calls -/

/-- The condition on a call: the slot words do not truncate a position or a length, and a call
that leaves the current segment does not leave the last segment id. -/
structure CallOk (cfg : WalConfig) (fl : FlushThread) (buf : WalBuffer) (spans : List (ℕ × ℕ)) :
    Prop where
  narrow : Narrow spans
  id_left : fl.needNew cfg (alignUp buf.logicalEnd cfg.blockSize) → fl.curSeg + 1 < 2 ^ 32

/-- The states that calls of `flush_buffer` lead to on a fresh directory, when every call meets
the condition and the LSNs of the buffers go on from 0. -/
inductive Reached (cfg : WalConfig) : ℕ → FlushThread → Prop
  | init : Reached cfg 0 (.init cfg)
  | flush {n : ℕ} {fl fl' : FlushThread} {buf : WalBuffer} {spans : List (ℕ × ℕ)}
      (hfl : Reached cfg n fl) (htiled : Tiled cfg n buf spans) (hok : CallOk cfg fl buf spans)
      (hflush : fl.flushBuffer cfg buf = .ok fl') : Reached cfg (n + spans.length) fl'

theorem Balanced.flushBuffer (h : Balanced cfg n fl index) (hvalid : cfg.Valid)
    (husize : cfg.segmentSize < 2 ^ 64) (htiled : Tiled cfg n buf spans)
    (hok : CallOk cfg fl buf spans) (hflush : fl.flushBuffer cfg buf = .ok fl') :
    ∃ index', Balanced cfg (n + spans.length) fl' index' := by
  rw [FlushThread.flushBuffer] at hflush
  by_cases hcount : buf.count = 0
  · rw [if_pos hcount] at hflush
    obtain rfl := Except.ok.inj hflush
    have hlength : spans.length = 0 := htiled.count_eq.symm.trans hcount
    rw [hlength]
    exact ⟨index, h⟩
  · rw [if_neg hcount, if_neg (not_lt.mpr htiled.count_le)] at hflush
    have hne : spans ≠ [] := by
      rintro rfl
      exact hcount htiled.count_eq
    obtain ⟨hend, hframes⟩ := htiled.logicalEnd_spec hok.narrow
    obtain ⟨hle, haligned, hbuffer⟩ := hvalid.alignUp_spec husize hend
    rw [htiled.minLsn_eq hne] at hflush
    obtain ⟨mid, hensure, hwrite⟩ := bind_eq_ok.mp hflush
    rw [if_pos hbuffer] at hwrite
    obtain rfl := Except.ok.inj hwrite
    obtain ⟨hmid, hroom⟩ :=
      h.ensureSegment (hbuffer.trans hvalid.bufferSize_lt.le) hok.id_left hensure
    exact ⟨_, hmid.write htiled hok.narrow hne (fun f hf => (hframes f hf).trans hle) haligned hroom⟩

theorem Reached.balanced (h : Reached cfg n fl) (hvalid : cfg.Valid)
    (husize : cfg.segmentSize < 2 ^ 64) : ∃ index, Balanced cfg n fl index := by
  induction h with
  | init => exact ⟨_, balanced_init cfg⟩
  | flush _ htiled hok hflush ih =>
      obtain ⟨index, hindex⟩ := ih
      exact hindex.flushBuffer hvalid husize htiled hok hflush

/-- Sealing the current segment fails only where the file system does. -/
theorem Balanced.finalizeSegment_error (h : Balanced cfg n fl index) (hvalid : cfg.Valid)
    {fault : Fault} (herror : fl.finalizeSegment cfg = .error fault) : fault = fileTooLarge := by
  obtain ⟨files, hfiles, hnone⟩ := h.current
  have hplain : PlainIndex fl.curMem.entries := by
    rw [h.mem]
    exact plainIndex_indexEntries _
  have hmeets := sealIdx_meets hvalid.blockSize_ge hplain False False.elim
  rw [FlushThread.finalizeSegment, FlushThread.writeIdx, hfiles, Option.bind_some, hnone] at herror
  split at herror
  · cases hseal : sealIdx cfg.blockSize fl.curMem none with
    | ok file => simp [hseal, bind, Except.bind, pure, Except.pure] at herror
    | error e =>
        rw [hseal] at herror hmeets
        obtain rfl : e = fault := by simpa [bind, Except.bind] using herror
        exact hmeets.2
  · simp [bind, Except.bind, pure, Except.pure] at herror

theorem Balanced.flushBuffer_error (h : Balanced cfg n fl index) (hvalid : cfg.Valid)
    (husize : cfg.segmentSize < 2 ^ 64) (htiled : Tiled cfg n buf spans)
    (hok : CallOk cfg fl buf spans) {fault : Fault}
    (herror : fl.flushBuffer cfg buf = .error fault) : fault = fileTooLarge := by
  rw [FlushThread.flushBuffer] at herror
  by_cases hcount : buf.count = 0
  · rw [if_pos hcount] at herror
    cases herror
  · obtain ⟨hend, -⟩ := htiled.logicalEnd_spec hok.narrow
    obtain ⟨-, -, hbuffer⟩ := hvalid.alignUp_spec husize hend
    rw [if_neg hcount, if_neg (not_lt.mpr htiled.count_le)] at herror
    cases hensure : fl.ensureSegment cfg buf.minLsn (alignUp buf.logicalEnd cfg.blockSize) with
    | ok mid => simp [hensure, hbuffer, bind, Except.bind, pure, Except.pure] at herror
    | error e =>
        obtain rfl : e = fault := by simpa [hensure, bind, Except.bind] using herror
        rw [FlushThread.ensureSegment] at hensure
        split at hensure
        · cases hfinalize : fl.finalizeSegment cfg with
          | ok mid => simp [hfinalize, bind, Except.bind, pure, Except.pure] at hensure
          | error e' =>
              obtain rfl : e' = e := by simpa [hfinalize, bind, Except.bind] using hensure
              exact h.finalizeSegment_error hvalid hfinalize
        · cases hensure

/-- In every state that calls lead to, the bytes, the LSNs and the headers are accounted for, and
so is the header that sealing the current segment writes. The next call fails only where the file
system does. -/
theorem flush_accounting (hvalid : cfg.validate = .ok ()) (husize : cfg.segmentSize < 2 ^ 64)
    (h : Reached cfg n fl) :
    (∃ index, Accounted cfg n fl index ∧
      ∀ fl', fl.finalizeSegment cfg = .ok fl' → index fl.curSeg ≠ [] →
        ∃ files header, fl'.disk fl.curSeg = some files ∧ files.header = some header ∧
          HeaderOf fl.curSeg (index fl.curSeg) header) ∧
    ∀ buf spans fault, Tiled cfg n buf spans → CallOk cfg fl buf spans →
      fl.flushBuffer cfg buf = .error fault → fault = fileTooLarge := by
  rw [WalConfig.validate_eq_ok] at hvalid
  obtain ⟨index, hbalanced⟩ := h.balanced hvalid husize
  refine ⟨⟨index, hbalanced.toAccounted, fun fl' hfinalize hne => ?_⟩,
    fun buf spans fault htiled hok => hbalanced.flushBuffer_error hvalid husize htiled hok⟩
  obtain ⟨f, rfl, hheader, -⟩ := finalizeSegment_eq_ok hfinalize
  obtain ⟨files, hfiles, -⟩ := hbalanced.current
  refine ⟨f files, _, ?_, hheader files, hbalanced.headerOf hne⟩
  rw [disk_modifyFiles_self, hfiles]
  rfl

/-- A buffer that the current segment has room for is written there. -/
theorem flushBuffer_of_room (hcount : buf.count ≠ 0) (hslots : buf.count ≤ cfg.bufferSize / headerLen)
    (hroom : fl.segWritten + alignUp buf.logicalEnd cfg.blockSize ≤ cfg.segmentSize)
    (hbuffer : alignUp buf.logicalEnd cfg.blockSize ≤ cfg.bufferSize) :
    fl.flushBuffer cfg buf =
      .ok (fl.writeBuffer buf (alignUp buf.logicalEnd cfg.blockSize)) := by
  have hensure : fl.ensureSegment cfg buf.minLsn (alignUp buf.logicalEnd cfg.blockSize) = .ok fl :=
    if_neg (not_lt.mpr hroom)
  rw [FlushThread.flushBuffer, if_neg hcount, if_neg (not_lt.mpr hslots)]
  simp [hensure, hbuffer, bind, Except.bind, pure, Except.pure]

end Accounts

/-- A buffer with the slot words of the given spans. -/
def bufferOf (n : ℕ) (spans : List (ℕ × ℕ)) : WalBuffer :=
  { WalBuffer.new (fun _ => 0) n with
    entries := fun i => match spans[i]? with
      | some span => pack span.1 (span.2 % 2 ^ 32)
      | none => 0
    count := spans.length }

theorem tiled_bufferOf {cfg : WalConfig} {n stop : ℕ} {spans : List (ℕ × ℕ)}
    (hlsn : n + spans.length ≤ 2 ^ 64) (hheader : ∀ f ∈ spans, headerLen ≤ f.2)
    (hfollows : Follows 0 spans stop) (hstop : stop ≤ cfg.bufferSize) :
    Tiled cfg n (bufferOf n spans) spans where
  count_eq := rfl
  words i hi := by simp [bufferOf, hi]
  minLsn_eq _ := rfl
  lsn_le := hlsn
  header_le := hheader
  tiles := ⟨stop, hstop, spans, .refl _, hfollows⟩

/-- One frame of 20 bytes in a buffer of one block. -/
theorem flush_accounting_one :
    ∃ fl index, Reached ⟨1024, 512, 512, 2, 1, true⟩ 1 fl ∧
      Accounted ⟨1024, 512, 512, 2, 1, true⟩ 1 fl index ∧ fl.segWritten = 512 := by
  have htiled : Tiled ⟨1024, 512, 512, 2, 1, true⟩ 0 (bufferOf 0 [(0, 20)]) [(0, 20)] :=
    tiled_bufferOf (by decide) (by decide) (show Follows 0 [(0, 20)] 20 from ⟨rfl, rfl⟩) (by decide)
  have hreached := Reached.flush .init htiled ⟨by decide, fun _ => by decide⟩
    (flushBuffer_of_room (by decide) (by decide) (by decide) (by decide))
  obtain ⟨⟨index, haccounted, -⟩, -⟩ := flush_accounting rfl (by decide) hreached
  exact ⟨_, index, hreached, haccounted, by decide⟩

/-- A frame at position 2^32 of a buffer of 2^32 + 512 bytes is indexed at position 0, over the
first frame. -/
theorem flush_accounting_overlap :
    ∃ fl, WalConfig.validate ⟨2 ^ 33, 2 ^ 32 + 512, 512, 2, 1, true⟩ = .ok () ∧
      Tiled ⟨2 ^ 33, 2 ^ 32 + 512, 512, 2, 1, true⟩ 0
        (bufferOf 0 [(0, 32), (32, 2 ^ 32 - 32), (2 ^ 32, 32)])
        [(0, 32), (32, 2 ^ 32 - 32), (2 ^ 32, 32)] ∧
      (FlushThread.init ⟨2 ^ 33, 2 ^ 32 + 512, 512, 2, 1, true⟩).flushBuffer
        ⟨2 ^ 33, 2 ^ 32 + 512, 512, 2, 1, true⟩
        (bufferOf 0 [(0, 32), (32, 2 ^ 32 - 32), (2 ^ 32, 32)]) = .ok fl ∧
      fl.curMem.entries = indexEntries [(0, 0, 32), (1, 32, 2 ^ 32 - 32), (2, 0, 32)] ∧
      ¬ Apart (0, 32) (0, 32) := by
  refine ⟨_, by decide, tiled_bufferOf (by decide) (by decide) ⟨rfl, rfl, rfl, rfl⟩ (by decide),
    flushBuffer_of_room (by decide) (by decide) (by decide) (by decide), ?_, by decide⟩
  decide

end Todb.Wal

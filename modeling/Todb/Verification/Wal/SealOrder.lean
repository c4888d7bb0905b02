import Todb.Library.Spans
import Todb.Model.Wal.SegmentLife
import Todb.Verification.Wal.Meta
import Todb.Verification.Wal.SealedIndex

/-! # The commit order of a segment

The header of a sealed segment is the last thing that is written: by then the frames and the
whole `.idx` file are synced. The header counts its entries modulo 2³², though. -/

namespace Todb.Wal

open Library BlockFile

/-! ## Bytes of a buffer in the log -/

section Bytes

variable {blockSize : ℕ} {file : ℕ → Bytes}

theorem getElem?_blocksOf {bytes : Bytes} {i : ℕ} (h : i < bytes.length / blockSize) :
    (blocksOf blockSize bytes)[i]? = some ((bytes.drop (i * blockSize)).take blockSize) := by
  simp [blocksOf, h]

/-- Writes behind some bytes leave them alone. -/
theorem bytesAt_overlay_below {first offset len : ℕ} (hpos : 0 < blockSize) (blocks : List Bytes)
    (h : offset + len ≤ first * blockSize) :
    bytesAt blockSize (overlay first blocks file) offset len = bytesAt blockSize file offset len := by
  refine List.map_congr_left fun i hi => ?_
  have hlt : (offset + i) / blockSize < first := by
    rw [Nat.div_lt_iff_lt_mul hpos]
    have := List.mem_range.mp hi
    omega
  rw [overlay_of_lt hlt]

/-- Bytes that were written block by block are found where they were written. -/
theorem bytesAt_overlay_inside {base pos len : ℕ} {image : Bytes} (hpos : 0 < blockSize)
    (hbase : blockSize ∣ base) (himage : blockSize ∣ image.length)
    (h : pos + len ≤ image.length) :
    bytesAt blockSize (overlay (base / blockSize) (blocksOf blockSize image) file) (base + pos) len =
      (image.drop pos).take len := by
  obtain ⟨b, rfl⟩ := hbase
  obtain ⟨n, hn⟩ := himage
  refine List.ext_getElem (by simp [bytesAt]; omega) fun i hi hi' => ?_
  simp only [bytesAt, List.getElem_map, List.getElem_range, List.getElem_take, List.getElem_drop]
  have hi : i < len := by simpa [bytesAt] using hi
  have hblock : (pos + i) / blockSize < image.length / blockSize := by
    rw [hn, Nat.mul_div_cancel_left n hpos, Nat.div_lt_iff_lt_mul hpos, Nat.mul_comm, ← hn]
    omega
  have hdiv : (blockSize * b + pos + i) / blockSize = b + (pos + i) / blockSize := by
    rw [Nat.add_assoc, Nat.mul_add_div hpos]
  have hmod : (blockSize * b + pos + i) % blockSize = (pos + i) % blockSize := by
    rw [Nat.add_assoc, Nat.mul_add_mod]
  have hlt : (pos + i) % blockSize < blockSize := Nat.mod_lt _ hpos
  have hsum : (pos + i) / blockSize * blockSize + (pos + i) % blockSize = pos + i := by
    rw [Nat.mul_comm]
    exact Nat.div_add_mod _ _
  rw [hdiv, hmod, Nat.mul_div_cancel_left b hpos, overlay_add (getElem?_blocksOf hblock),
    List.getElem?_take_of_lt hlt, List.getElem?_drop, hsum,
    List.getElem?_eq_getElem (by omega), Option.getD_some]

end Bytes

/-! ## Filled buffers -/

theorem le_logicalEnd {entries : List UInt64} {word : UInt64} (h : word ∈ entries) :
    (unpack word.toNat).1 + (unpack word.toNat).2 ≤ logicalEnd entries :=
  (le_foldl_max (fun word : UInt64 => (unpack word.toNat).1 + (unpack word.toNat).2) entries 0).2
    word h

theorem unpack_le (word : UInt64) : (unpack word.toNat).1 + (unpack word.toNat).2 ≤ 2 ^ 33 := by
  have hpos : (unpack word.toNat).1 < 2 ^ 32 := by
    rw [unpack, Nat.shiftRight_eq_div_pow, Nat.div_lt_iff_lt_mul (by norm_num)]
    exact word.toNat_lt
  have hlen : (unpack word.toNat).2 < 2 ^ 32 := Nat.mod_lt _ (by norm_num)
  omega

theorem logicalEnd_le (entries : List UInt64) : logicalEnd entries ≤ 2 ^ 33 :=
  foldl_max_le (Nat.zero_le _) fun word _ => unpack_le word

/-- A block size that `validate` accepts and that is a machine word. -/
structure BlockSizeOk (blockSize : ℕ) : Prop where
  ge : 512 ≤ blockSize
  pow : blockSize.isPowerOfTwo
  lt : blockSize < 2 ^ 64

namespace BlockSizeOk

variable {blockSize : ℕ}

theorem exists_pow (h : BlockSizeOk blockSize) : ∃ k < 64, blockSize = 2 ^ k := by
  obtain ⟨k, rfl⟩ := h.pow
  exact ⟨k, (Nat.pow_lt_pow_iff_right (by norm_num)).mp h.lt, rfl⟩

theorem pos (h : BlockSizeOk blockSize) : 0 < blockSize := lt_of_lt_of_le (by norm_num) h.ge

theorem logicalEnd_le_alignUp (h : BlockSizeOk blockSize) (entries : List UInt64) :
    logicalEnd entries ≤ alignUp (logicalEnd entries) blockSize ∧
      blockSize ∣ alignUp (logicalEnd entries) blockSize := by
  obtain ⟨k, hk, rfl⟩ := h.exists_pow
  have hle := logicalEnd_le entries
  have hpow : 2 ^ k ≤ 2 ^ 63 := Nat.pow_le_pow_right (by norm_num) (by omega)
  have hfits : logicalEnd entries + 2 ^ k ≤ 2 ^ 64 := by omega
  refine ⟨le_alignUp (by omega) hfits, ?_⟩
  rw [alignUp_eq (by omega) hfits]
  exact Nat.dvd_mul_left _ _

end BlockSizeOk

namespace FilledBuffer

variable {blockSize : ℕ} {buf : FilledBuffer blockSize}

theorem length_image (h : BlockSizeOk blockSize) (buf : FilledBuffer blockSize) :
    buf.image.length = buf.padded := by
  have hle := (h.logicalEnd_le_alignUp buf.entries).1
  have hin := buf.inside
  simp only [image, padded, List.length_append, List.length_take, List.length_replicate]
  omega

/-- The frames are written as they are in the buffer. -/
theorem take_image (h : BlockSizeOk blockSize) {pos len : ℕ}
    (hle : pos + len ≤ logicalEnd buf.entries) :
    (buf.image.drop pos).take len = (buf.data.drop pos).take len := by
  have hend := (h.logicalEnd_le_alignUp buf.entries).1
  have hin := buf.inside
  have hlength : (buf.data.take (logicalEnd buf.entries)).length = logicalEnd buf.entries := by
    rw [List.length_take]
    omega
  rw [image, List.drop_append_of_le_length (by omega),
    List.take_append_of_le_length (by rw [List.length_drop]; omega), List.drop_take,
    List.take_take]
  congr 1
  omega

end FilledBuffer

/-! ## The index and the log after the flushes -/

section Flushes

variable {blockSize : ℕ} {bufs : List (FilledBuffer blockSize)} {seg : OpenSegment}
  {file : ℕ → Bytes} {mem : IndexMem} {base lsn : ℕ} {words : List UInt64}

theorem mem_putAll {e : Bytes × Entry Bytes}
    (h : e ∈ (OpenSegment.putAll base lsn words mem).entries) :
    e ∈ mem.entries ∨ ∃ (i : ℕ) (word : UInt64), words[i]? = some word ∧
      e = indexEntry ((lsn + i) % 2 ^ 64) (base + (unpack word.toNat).1) (unpack word.toNat).2 := by
  induction words generalizing lsn mem with
  | nil => exact .inl h
  | cons word words ih =>
      rcases ih h with h | ⟨i, word', hword, rfl⟩
      · rcases SortedMap.mem_insert.mp h with rfl | ⟨-, h⟩
        · exact .inr ⟨0, word, rfl, rfl⟩
        · exact .inl h
      · exact .inr ⟨i + 1, word', hword, by rw [Nat.add_right_comm lsn 1 i, Nat.add_assoc]⟩

/-- The index has an entry for the LSN. -/
def HasLsn (mem : IndexMem) (lsn : ℕ) : Prop := ∃ e ∈ mem.entries, e.1 = lsnToKey (lsn % 2 ^ 64)

theorem HasLsn.put {n : ℕ} (h : HasLsn mem n) (key value : Bytes) :
    HasLsn (mem.put key value) n := by
  obtain ⟨e, he, hkey⟩ := h
  by_cases heq : e.1 = key
  · exact ⟨(key, .put value), SortedMap.mem_insert.mpr (.inl rfl), heq ▸ hkey⟩
  · exact ⟨e, SortedMap.mem_insert.mpr (.inr ⟨heq, he⟩), hkey⟩

theorem HasLsn.putAll {n : ℕ} (h : HasLsn mem n) :
    HasLsn (OpenSegment.putAll base lsn words mem) n := by
  induction words generalizing lsn mem with
  | nil => exact h
  | cons word words ih => exact ih (h.put _ _)

theorem hasLsn_putAll {i : ℕ} (hi : i < words.length) :
    HasLsn (OpenSegment.putAll base lsn words mem) (lsn + i) := by
  induction words generalizing lsn mem i with
  | nil => simp at hi
  | cons word words ih =>
      cases i with
      | zero =>
          have hput : HasLsn (mem.put (lsnToKey (lsn % 2 ^ 64))
              (encodeOffsetLen (base + (unpack word.toNat).1) (unpack word.toNat).2)) lsn :=
            ⟨_, SortedMap.mem_insert.mpr (.inl rfl), rfl⟩
          exact hput.putAll
      | succ i =>
          have hrest : HasLsn (OpenSegment.putAll base lsn (word :: words) mem) (lsn + 1 + i) :=
            ih (Nat.lt_of_succ_lt_succ hi)
          rwa [Nat.add_right_comm, Nat.add_assoc] at hrest

/-- The entry belongs to a slot of a flushed buffer, and the file has the slot's frame at the
place that the entry gives. -/
def Locates (bufs : List (FilledBuffer blockSize)) (file : ℕ → Bytes) (stop : ℕ)
    (e : Bytes × Entry Bytes) : Prop :=
  ∃ buf ∈ bufs, ∃ (i : ℕ) (word : UInt64) (offset : ℕ), buf.entries[i]? = some word ∧
    e = indexEntry ((buf.minLsn.toNat + i) % 2 ^ 64) offset (unpack word.toNat).2 ∧
    offset + (unpack word.toNat).2 ≤ stop ∧
    bytesAt blockSize file offset (unpack word.toNat).2 =
      (buf.data.drop (unpack word.toNat).1).take (unpack word.toNat).2

/-- The index covers the flushed buffers, and the log has their frames. -/
structure LogOk (bufs : List (FilledBuffer blockSize)) (seg : OpenSegment) (file : ℕ → Bytes) :
    Prop where
  aligned : blockSize ∣ seg.written
  locates : ∀ e ∈ seg.mem.entries, Locates bufs file seg.written e
  covers : ∀ buf ∈ bufs, ∀ i < buf.entries.length, HasLsn seg.mem (buf.minLsn.toNat + i)

/-- The log after a buffer has been flushed. -/
def logAfter (seg : OpenSegment) (buf : FilledBuffer blockSize) (file : ℕ → Bytes) : ℕ → Bytes :=
  if buf.entries = [] then file
  else overlay (seg.written / blockSize) (blocksOf blockSize buf.image) file

theorem run_flushOps (seg : OpenSegment) (buf : FilledBuffer blockSize) (file : ℕ → Bytes) :
    BlockFile.run (Disk.opsOf .logFile (seg.flushOps buf)) ⟨file, []⟩ =
      ⟨logAfter seg buf file, []⟩ := by
  rw [OpenSegment.flushOps, logAfter]
  split
  · rfl
  · rw [Disk.opsOf_on_self, run_writes_sync, current_nil]

theorem LogOk.flush (hblock : BlockSizeOk blockSize) (h : LogOk bufs seg file)
    (buf : FilledBuffer blockSize) :
    LogOk (bufs ++ [buf]) (seg.flush buf) (logAfter seg buf file) := by
  by_cases hempty : buf.entries = []
  · rw [OpenSegment.flush, logAfter, if_pos hempty, if_pos hempty]
    refine ⟨h.aligned, fun e he => ?_, fun buf' hbuf => ?_⟩
    · obtain ⟨buf', hbuf, hslot⟩ := h.locates e he
      exact ⟨buf', List.mem_append_left _ hbuf, hslot⟩
    · rcases List.mem_append.mp hbuf with hbuf | hbuf
      · exact h.covers buf' hbuf
      · rw [List.mem_singleton.mp hbuf, hempty]
        simp
  · rw [OpenSegment.flush, logAfter, if_neg hempty, if_neg hempty]
    have halign := (hblock.logicalEnd_le_alignUp buf.entries)
    refine ⟨h.aligned.add halign.2, fun e he => ?_, fun buf' hbuf => ?_⟩
    · rcases mem_putAll he with he | ⟨i, word, hword, rfl⟩
      · obtain ⟨buf', hbuf, i, word, offset, hword, hentry, hstop, hbytes⟩ := h.locates e he
        refine ⟨buf', List.mem_append_left _ hbuf, i, word, offset, hword, hentry,
          hstop.trans (Nat.le_add_right _ _), ?_⟩
        rw [bytesAt_overlay_below hblock.pos _ (by rwa [Nat.div_mul_cancel h.aligned]), hbytes]
      · have hle := le_logicalEnd (List.mem_of_getElem? hword)
        have himage := buf.length_image hblock
        have hpadded : logicalEnd buf.entries ≤ buf.padded := halign.1
        refine ⟨buf, by simp, i, word, _, hword, rfl, ?_, ?_⟩
        · simp only
          omega
        · rw [bytesAt_overlay_inside hblock.pos h.aligned (himage ▸ halign.2) (by omega),
            FilledBuffer.take_image hblock hle]
    · rcases List.mem_append.mp hbuf with hbuf | hbuf
      · exact fun i hi => (h.covers buf' hbuf i hi).putAll
      · rw [List.mem_singleton.mp hbuf]
        exact fun i hi => hasLsn_putAll hi

/-- After all flushes the log is synced and has every frame of the index. -/
theorem LogOk.flushAll (hblock : BlockSizeOk blockSize) (more : List (FilledBuffer blockSize)) :
    ∀ {bufs : List (FilledBuffer blockSize)} {seg : OpenSegment} {file : ℕ → Bytes},
      LogOk bufs seg file → ∃ file',
        BlockFile.run (Disk.opsOf .logFile (seg.flushAllOps more)) ⟨file, []⟩ = ⟨file', []⟩ ∧
        LogOk (bufs ++ more) (seg.flushAll more) file' := by
  induction more with
  | nil =>
      intro bufs seg file h
      exact ⟨file, rfl, (List.append_nil bufs).symm ▸ h⟩
  | cons buf more ih =>
      intro bufs seg file h
      obtain ⟨file', hrun, hok⟩ := ih (h.flush hblock buf)
      refine ⟨file', ?_, List.append_cons bufs buf more ▸ hok⟩
      rw [OpenSegment.flushAllOps, Disk.opsOf_append, run_append, run_flushOps, hrun]

theorem logOk_new (segId : UInt32) (minLsn maxLsn : UInt64) (file : ℕ → Bytes) :
    LogOk ([] : List (FilledBuffer blockSize)) (.new segId minLsn maxLsn) file :=
  ⟨dvd_zero _, fun _ he => absurd he List.not_mem_nil, fun _ hbuf => absurd hbuf List.not_mem_nil⟩

theorem LogOk.plainIndex (h : LogOk bufs seg file) : PlainIndex seg.mem.entries := by
  intro e he
  obtain ⟨buf, -, i, word, offset, -, hentry, -⟩ := h.locates e he
  exact ⟨_, _, _, hentry⟩

end Flushes

/-! ## Headers after a crash -/

section Headers

variable {crc32 : Bytes → UInt32} {blockSize : ℕ}

/-- A header in this block that counts entries satisfies `Q`. -/
def Counts (crc32 : Bytes → UInt32) (Q : Meta.IdxHeader → Prop) (block : Bytes) : Prop :=
  ∀ header, Meta.IdxHeader.deserialize crc32 block = some header → 0 < header.entryCount → Q header

theorem counts_of_torn {Q : Meta.IdxHeader → Prop} (block : Bytes) (h : Meta.Torn crc32 block) :
    Counts crc32 Q block := by
  intro header hblock
  rw [h] at hblock
  cases hblock

theorem counts_zeros {Q : Meta.IdxHeader → Prop} (n : ℕ) :
    Counts crc32 Q (List.replicate n 0) := by
  intro header hblock hpos
  rw [Meta.IdxHeader.deserialize] at hblock
  split at hblock
  · cases hblock
  · rename_i hlen
    have hcount : ofLe (((List.replicate n (0 : UInt8)).drop 28).take 4) = 0 := by
      have hfield : ((List.replicate n (0 : UInt8)).drop 28).take 4 = List.replicate 4 0 := by
        simp only [Meta.idxHeaderLen, List.length_replicate] at hlen
        rw [List.drop_replicate, List.take_replicate]
        congr 1
        omega
      rw [hfield]
      rfl
    simp only [hcount] at hblock
    split at hblock
    · cases hblock
    · obtain rfl := Option.some.inj hblock
      exact absurd hpos (show ¬ (0 : UInt32) < UInt32.ofNat 0 by decide)

theorem counts_headerBlock {Q : Meta.IdxHeader → Prop} (segId : UInt32)
    (minLsn maxLsn : UInt64) (count : UInt32)
    (h : 0 < count → Q (Meta.IdxHeader.new crc32 segId minLsn maxLsn count)) :
    Counts crc32 Q (Meta.headerBlock blockSize
      (Meta.IdxHeader.new crc32 segId minLsn maxLsn count)) := by
  intro header hblock hpos
  have hnew : Meta.IdxHeader.deserialize crc32 (Meta.headerBlock blockSize
      (Meta.IdxHeader.new crc32 segId minLsn maxLsn count)) = some _ :=
    Meta.deserialize_headerBlock ⟨_, Meta.IdxHeader.complete_new segId minLsn maxLsn count⟩ blockSize
  obtain rfl := Option.some.inj (hnew.symm.trans hblock)
  exact h hpos

theorem deserialize_of_readMetaHeader {file : ℕ → Bytes} {header : Meta.IdxHeader}
    (h : Meta.readMetaHeader crc32 file = .ok header) :
    ∃ i, Meta.IdxHeader.deserialize crc32 (file i) = some header := by
  rw [Meta.readMetaHeader, Meta.selectValidHeader] at h
  split at h
  · rename_i hfirst
    exact ⟨0, hfirst.trans (congrArg some (Except.ok.inj h))⟩
  · rename_i hfirst hsecond
    exact ⟨1, hsecond.trans (congrArg some (Except.ok.inj h))⟩
  · cases h

theorem mem_writeMetaHeaderDouble {header : Meta.IdxHeader} {i : ℕ} {block : Bytes}
    (h : FileOp.write i block ∈ Meta.writeMetaHeaderDouble blockSize header) :
    block = Meta.headerBlock blockSize header := by
  rw [Meta.writeMetaHeaderDouble] at h
  split at h
  · simp only [List.mem_cons, FileOp.write.injEq, reduceCtorEq, List.not_mem_nil, false_or,
      or_false] at h
    rcases h with ⟨-, h⟩ | ⟨-, h⟩ <;> exact h
  · cases h

end Headers

/-! ## Crash points -/

section Crash

variable {crc32 : Bytes → UInt32} {blockSize : ℕ}

/-- A torn header fails its checksum; nothing is known of other torn blocks. -/
def tornBlock (crc32 : Bytes → UInt32) : SegmentFile → Bytes → Prop
  | .metaFile => Meta.Torn crc32
  | _ => fun _ => True

/-- What a crash after the given operations on a new segment may leave. -/
def Leaves (crc32 : Bytes → UInt32) (blockSize : ℕ) (ops : List SegmentOp)
    (after : SegmentFile → ℕ → Bytes) : Prop :=
  Disk.Survives (tornBlock crc32) (Disk.run ops (freshSegment blockSize)) after

/-- A header that was read counts only what the header writes before the crash allow. -/
theorem counts_of_leaves {Q : Meta.IdxHeader → Prop} {ops : List SegmentOp}
    {after : SegmentFile → ℕ → Bytes} {header : Meta.IdxHeader}
    (hops : ∀ i block, (.metaFile, .write i block) ∈ ops → Counts crc32 Q block)
    (hleaves : Leaves crc32 blockSize ops after)
    (hread : Meta.readMetaHeader crc32 (after .metaFile) = .ok header)
    (hpos : 0 < header.entryCount) : Q header := by
  obtain ⟨i, hblock⟩ := deserialize_of_readMetaHeader hread
  have hall : (Disk.run ops (freshSegment blockSize) .metaFile).All (Counts crc32 Q) := by
    rw [Disk.run_apply]
    refine All.run ⟨fun _ => counts_zeros _, by simp [freshSegment]⟩ fun i block hmem => ?_
    exact hops i block (Disk.mem_opsOf.mp hmem)
  exact hall.survives counts_of_torn (hleaves .metaFile) i header hblock hpos

section Life

variable {seg : OpenSegment} {bufs : List (FilledBuffer blockSize)}

theorem opsOf_flushAllOps {file : SegmentFile} (hfile : file ≠ .logFile) (seg : OpenSegment)
    (bufs : List (FilledBuffer blockSize)) : Disk.opsOf file (seg.flushAllOps bufs) = [] := by
  induction bufs generalizing seg with
  | nil => rfl
  | cons buf bufs ih =>
      rw [OpenSegment.flushAllOps, Disk.opsOf_append, ih, OpenSegment.flushOps]
      split
      · rfl
      · rw [Disk.opsOf_on_of_ne hfile.symm, List.append_nil]

theorem counts_createOps {Q : Meta.IdxHeader → Prop} {i : ℕ} {block : Bytes}
    (h : (.metaFile, .write i block) ∈ seg.createOps crc32 blockSize ++ seg.flushAllOps bufs) :
    Counts crc32 Q block := by
  rw [← Disk.mem_opsOf, Disk.opsOf_append, opsOf_flushAllOps (by decide), List.append_nil,
    OpenSegment.createOps, Disk.opsOf_on_self] at h
  rw [mem_writeMetaHeaderDouble h]
  exact counts_headerBlock _ _ _ _ fun hpos => absurd hpos (by decide)

/-- The sealed index with its file. -/
structure SealsTo (blockSize : ℕ) (seg : OpenSegment) (file : Bytes) : Prop where
  counted : 0 < UInt32.ofNat seg.mem.len
  sealed : sealIdx blockSize seg.mem none = .ok file

/-- Everything that is synced before the final header is written. -/
def beforeHeader (crc32 : Bytes → UInt32) (seg : OpenSegment)
    (bufs : List (FilledBuffer blockSize)) (file : Bytes) : List SegmentOp :=
  seg.createOps crc32 blockSize ++ seg.flushAllOps bufs ++
    Disk.on .idxFile (writes 0 (blocksOf blockSize file) ++ [.sync])

theorem lifeOps_eq {file : Bytes} (h : SealsTo blockSize (seg.flushAll bufs) file) :
    seg.lifeOps crc32 bufs = beforeHeader crc32 seg bufs file ++ Disk.on .metaFile
      (Meta.writeMetaHeaderDouble blockSize ((seg.flushAll bufs).finalHeader crc32)) := by
  rw [OpenSegment.lifeOps, OpenSegment.finalizeOps, if_pos h.counted, h.sealed, beforeHeader]
  simp only [List.append_assoc]

theorem counts_beforeHeader {Q : Meta.IdxHeader → Prop} {i : ℕ} {block file : Bytes}
    (h : (.metaFile, .write i block) ∈ beforeHeader crc32 seg bufs file) :
    Counts crc32 Q block := by
  rw [beforeHeader, ← Disk.mem_opsOf, Disk.opsOf_append, Disk.opsOf_on_of_ne (by decide),
    List.append_nil, Disk.mem_opsOf] at h
  exact counts_createOps h

theorem counts_finalHeader {Q : Meta.IdxHeader → Prop} {i : ℕ} {block : Bytes}
    (h : FileOp.write i block ∈ Meta.writeMetaHeaderDouble blockSize (seg.finalHeader crc32))
    (hQ : 0 < UInt32.ofNat seg.mem.len → Q (seg.finalHeader crc32)) : Counts crc32 Q block := by
  rw [mem_writeMetaHeaderDouble h]
  exact counts_headerBlock _ _ _ _ hQ

/-- The `.idx` blocks and the frames of a segment that a header with a count promises. -/
structure Committed (bufs : List (FilledBuffer blockSize)) (seg : OpenSegment)
    (header : Meta.IdxHeader) (after : SegmentFile → ℕ → Bytes) : Prop where
  count_eq : seg.mem.len = header.entryCount.toNat
  index : ∃ file, sealIdx blockSize seg.mem none = .ok file ∧ blockSize ∣ file.length ∧
    ∀ i block, (blocksOf blockSize file)[i]? = some block → after .idxFile i = block
  locates : ∀ e ∈ seg.mem.entries, Locates bufs (after .logFile) seg.written e
  covers : ∀ buf ∈ bufs, ∀ i < buf.entries.length, HasLsn seg.mem (buf.minLsn.toNat + i)

theorem opsOf_beforeHeader_log (crc32 : Bytes → UInt32) (seg : OpenSegment)
    (bufs : List (FilledBuffer blockSize)) (file : Bytes) :
    Disk.opsOf .logFile (beforeHeader crc32 seg bufs file) =
      Disk.opsOf .logFile (seg.flushAllOps bufs) := by
  rw [beforeHeader, Disk.opsOf_append, Disk.opsOf_append, OpenSegment.createOps,
    Disk.opsOf_on_of_ne (by decide), Disk.opsOf_on_of_ne (by decide), List.nil_append,
    List.append_nil]

theorem opsOf_beforeHeader_idx (crc32 : Bytes → UInt32) (seg : OpenSegment)
    (bufs : List (FilledBuffer blockSize)) (file : Bytes) :
    Disk.opsOf .idxFile (beforeHeader crc32 seg bufs file) =
      writes 0 (blocksOf blockSize file) ++ [.sync] := by
  rw [beforeHeader, Disk.opsOf_append, Disk.opsOf_append, OpenSegment.createOps,
    Disk.opsOf_on_of_ne (by decide), opsOf_flushAllOps (by decide), Disk.opsOf_on_self]
  rfl

/-- Once the final header is being written, the index and the frames survive every crash. -/
theorem committed_of_leaves {file : Bytes} {after : SegmentFile → ℕ → Bytes}
    {ops : List (FileOp Bytes)} (hblock : BlockSizeOk blockSize)
    (hlog : ∀ log, LogOk ([] : List (FilledBuffer blockSize)) seg log)
    (hseal : SealsTo blockSize (seg.flushAll bufs) file)
    (hdvd : blockSize ∣ file.length) (hsmall : (seg.flushAll bufs).mem.len < 2 ^ 32)
    (hleaves : Leaves crc32 blockSize (beforeHeader crc32 seg bufs file ++ Disk.on .metaFile ops)
      after) :
    Committed bufs (seg.flushAll bufs) ((seg.flushAll bufs).finalHeader crc32) after := by
  obtain ⟨log, hrun, hok⟩ := LogOk.flushAll hblock bufs (hlog fun _ => List.replicate blockSize 0)
  have hlogFile : after .logFile = log := by
    have hsurvives := hleaves .logFile
    rw [Disk.run_apply, Disk.opsOf_append, Disk.opsOf_on_of_ne (by decide), List.append_nil,
      opsOf_beforeHeader_log, freshSegment, hrun] at hsurvives
    exact hsurvives.eq_durable rfl
  have hidxFile : after .idxFile =
      overlay 0 (blocksOf blockSize file) fun _ => List.replicate blockSize 0 := by
    have hsurvives := hleaves .idxFile
    rw [Disk.run_apply, Disk.opsOf_append, Disk.opsOf_on_of_ne (by decide), List.append_nil,
      opsOf_beforeHeader_idx, freshSegment, run_writes_sync] at hsurvives
    exact hsurvives.eq_durable rfl
  refine ⟨?_, ⟨file, hseal.sealed, hdvd, fun i block hi => ?_⟩, ?_, hok.covers⟩
  · simp only [OpenSegment.finalHeader, Meta.IdxHeader.new, UInt32.toNat_ofNat']
    exact (Nat.mod_eq_of_lt hsmall).symm
  · rw [hidxFile, ← Nat.zero_add i]
    exact overlay_add hi _
  · rw [hlogFile]
    exact hok.locates

/-- A complete life leaves the final header. -/
theorem readMetaHeader_lifeOps {file : Bytes} (hblock : BlockSizeOk blockSize)
    (hseal : SealsTo blockSize (seg.flushAll bufs) file) :
    Meta.readMetaHeader crc32
      (Disk.run (seg.lifeOps crc32 bufs) (freshSegment blockSize) .metaFile).durable =
        .ok ((seg.flushAll bufs).finalHeader crc32) := by
  have hfits : Meta.idxHeaderLen ≤ blockSize := le_trans (by decide) hblock.ge
  rw [lifeOps_eq hseal, Disk.run_apply, Disk.opsOf_append, Disk.opsOf_on_self, run_append,
    Meta.writeMetaHeaderDouble, if_pos hfits]
  refine Meta.readMetaHeader_of_first ?_
  have hnew : Meta.IdxHeader.deserialize crc32 (Meta.headerBlock blockSize
      ((seg.flushAll bufs).finalHeader crc32)) = some ((seg.flushAll bufs).finalHeader crc32) :=
    Meta.deserialize_headerBlock ⟨_, Meta.IdxHeader.complete_new _ _ _ _⟩ blockSize
  rw [← hnew]
  congr 1
  simp [BlockFile.apply, current]

end Life

/-- After a crash at every point in the life of a segment, a header that counts entries tells
the truth. -/
def CrashSafe (crc32 : Bytes → UInt32) (seg : OpenSegment) (bufs : List (FilledBuffer blockSize)) :
    Prop :=
  ∀ k after header, Leaves crc32 blockSize ((seg.lifeOps crc32 bufs).take k) after →
    Meta.readMetaHeader crc32 (after .metaFile) = .ok header → 0 < header.entryCount →
    Committed bufs (seg.flushAll bufs) header after

/-- A new segment is safe exactly when its count of entries is not truncated, or truncated to
zero. -/
theorem committed_iff (hblock : BlockSizeOk blockSize) (segId : UInt32) (minLsn maxLsn : UInt64)
    (bufs : List (FilledBuffer blockSize))
    (hio : sealIdx blockSize ((OpenSegment.new segId minLsn maxLsn).flushAll bufs).mem none ≠
      .error fileTooLarge) :
    CrashSafe crc32 (.new segId minLsn maxLsn) bufs ↔
    ((OpenSegment.new segId minLsn maxLsn).flushAll bufs).mem.len < 2 ^ 32 ∨
      ((OpenSegment.new segId minLsn maxLsn).flushAll bufs).mem.len % 2 ^ 32 = 0 := by
  have hlog : ∀ log, LogOk ([] : List (FilledBuffer blockSize)) (.new segId minLsn maxLsn) log :=
    logOk_new segId minLsn maxLsn
  generalize OpenSegment.new segId minLsn maxLsn = seg at *
  obtain ⟨log, -, hok⟩ := LogOk.flushAll hblock bufs (hlog fun _ => [])
  obtain ⟨file, hsealed, hdvd⟩ := exists_sealIdx hblock.ge hok.plainIndex hio
  constructor
  · intro hsafe
    by_contra hcount
    obtain ⟨hge, hmod⟩ := not_or.mp hcount
    have hseal : SealsTo blockSize (seg.flushAll bufs) file := by
      refine ⟨?_, hsealed⟩
      rw [UInt32.lt_iff_toNat_lt, UInt32.toNat_ofNat']
      exact Nat.pos_of_ne_zero hmod
    have hcommitted := hsafe (seg.lifeOps crc32 bufs).length
      (fun file => (Disk.run (seg.lifeOps crc32 bufs) (freshSegment blockSize) file).durable) _
      (by rw [List.take_length]; exact fun file i => .inl rfl)
      (readMetaHeader_lifeOps hblock hseal) hseal.counted
    have hlt := hcommitted.count_eq.symm ▸
      ((seg.flushAll bufs).finalHeader crc32).entryCount.toNat_lt
    exact hge hlt
  · intro hcount k after header hleaves hread hpos
    by_cases hcounted : 0 < UInt32.ofNat (seg.flushAll bufs).mem.len
    · have hseal : SealsTo blockSize (seg.flushAll bufs) file := ⟨hcounted, hsealed⟩
      have hmod : (seg.flushAll bufs).mem.len % 2 ^ 32 ≠ 0 := by
        rw [UInt32.lt_iff_toNat_lt, UInt32.toNat_ofNat'] at hcounted
        exact Nat.ne_of_gt hcounted
      rw [lifeOps_eq hseal] at hleaves
      rcases Nat.le_total k (beforeHeader crc32 seg bufs file).length with hk | hk
      · -- The crash is before the final header: no header counts anything.
        rw [List.take_append_of_le_length hk] at hleaves
        exact (counts_of_leaves (Q := fun _ => False)
          (fun i block hmem => counts_beforeHeader (List.mem_of_mem_take hmem))
          hleaves hread hpos).elim
      · rw [List.take_append, List.take_of_length_le hk, Disk.on, ← List.map_take, ← Disk.on]
          at hleaves
        obtain rfl := counts_of_leaves (Q := fun h => h = (seg.flushAll bufs).finalHeader crc32)
          (fun i block hmem => by
            rcases List.mem_append.mp hmem with hmem | hmem
            · exact counts_beforeHeader hmem
            · rw [← Disk.mem_opsOf, Disk.opsOf_on_self] at hmem
              exact counts_finalHeader (List.mem_of_mem_take hmem) fun _ => rfl)
          hleaves hread hpos
        exact committed_of_leaves hblock hlog hseal hdvd (hcount.resolve_right hmod) hleaves
    · -- The count is zero in both headers.
      have hlife : seg.lifeOps crc32 bufs = seg.createOps crc32 blockSize ++ seg.flushAllOps bufs ++
          Disk.on .metaFile (Meta.writeMetaHeaderDouble blockSize
            ((seg.flushAll bufs).finalHeader crc32)) := by
        rw [OpenSegment.lifeOps, OpenSegment.finalizeOps, if_neg hcounted]
      rw [hlife] at hleaves
      refine (counts_of_leaves (Q := fun _ => False) (fun i block hmem => ?_) hleaves hread hpos).elim
      rcases List.mem_append.mp (List.mem_of_mem_take hmem) with hmem | hmem
      · exact counts_createOps hmem
      · rw [← Disk.mem_opsOf, Disk.opsOf_on_self] at hmem
        exact counts_finalHeader hmem fun h => hcounted h

end Crash

/-! ## Segments of many small buffers -/

section Small

variable (crc32 : Bytes → UInt32)

/-- A buffer of one block with a single empty record. -/
def oneFrame (lsn : ℕ) : FilledBuffer 512 where
  minLsn := UInt64.ofNat lsn
  entries := [16]
  data := encode crc32 lsn [] ++ List.replicate 496 0
  inside := by
    rw [List.length_append, length_encode, List.length_replicate]
    decide

def oneFrameEach (n : ℕ) : List (FilledBuffer 512) := (List.range n).map (oneFrame crc32)

def newSegment : OpenSegment := .new 0 0 0

theorem blockSizeOk_512 : BlockSizeOk 512 := ⟨le_rfl, ⟨9, rfl⟩, by norm_num⟩

/-- Every buffer adds its LSN behind the others. -/
theorem flushAll_oneFrameEach {n : ℕ} (hn : n < 2 ^ 64) :
    (∀ e ∈ (newSegment.flushAll (oneFrameEach crc32 n)).mem.entries, ∃ m < n, e.1 = lsnToKey m) ∧
      (newSegment.flushAll (oneFrameEach crc32 n)).mem.len = n := by
  induction n with
  | zero => exact ⟨fun _ he => absurd he List.not_mem_nil, rfl⟩
  | succ n ih =>
      obtain ⟨hkeys, hlen⟩ := ih (Nat.lt_of_succ_lt hn)
      have hstep : (newSegment.flushAll (oneFrameEach crc32 (n + 1))) =
          (newSegment.flushAll (oneFrameEach crc32 n)).flush (oneFrame crc32 n) := by
        rw [oneFrameEach, List.range_succ, List.map_append, OpenSegment.flushAll, List.foldl_append]
        rfl
      have hlsn : (UInt64.ofNat n).toNat % 2 ^ 64 = n := by
        rw [UInt64.toNat_ofNat', Nat.mod_mod, Nat.mod_eq_of_lt (Nat.lt_of_succ_lt hn)]
      generalize newSegment.flushAll (oneFrameEach crc32 n) = seg at hkeys hlen hstep
      rw [hstep]
      have hlt : ∀ e ∈ seg.mem.map.entries, e.1 < lsnToKey ((UInt64.ofNat n).toNat % 2 ^ 64) := by
        intro e he
        obtain ⟨m, hm, hkey⟩ := hkeys e he
        rw [hkey, hlsn]
        exact lsnToKey_lt hm (Nat.lt_of_succ_lt hn)
      have hentries : (seg.flush (oneFrame crc32 n)).mem.entries = seg.mem.entries ++
          [(lsnToKey ((UInt64.ofNat n).toNat % 2 ^ 64), .put (encodeOffsetLen (seg.written + 0) 16))] :=
        SortedMap.entries_insert_of_forall_lt _ hlt
      constructor
      · rw [hentries, hlsn]
        intro e he
        rcases List.mem_append.mp he with he | he
        · obtain ⟨m, hm, hkey⟩ := hkeys e he
          exact ⟨m, Nat.lt_succ_of_lt hm, hkey⟩
        · rw [List.mem_singleton.mp he]
          exact ⟨n, Nat.lt_succ_self n, rfl⟩
      · have hcount := congrArg List.length hentries
        rw [List.length_append, List.length_singleton] at hcount
        exact hcount.trans (congrArg (· + 1) hlen)

theorem sealIdx_oneFrameEach {n : ℕ} (hroom : (3 * n + 5) * 512 ≤ isizeMax) :
    sealIdx 512 (newSegment.flushAll (oneFrameEach crc32 n)).mem none ≠ .error fileTooLarge := by
  obtain ⟨log, -, hok⟩ := LogOk.flushAll blockSizeOk_512 (oneFrameEach crc32 n)
    (logOk_new 0 0 0 fun _ => [])
  have hn : n < 2 ^ 64 := by
    unfold isizeMax at hroom
    omega
  refine sealIdx_ne_fileTooLarge le_rfl hok.plainIndex ?_
  rw [(flushAll_oneFrameEach crc32 hn).2]
  exact hroom

/-- A checksum that adds up the bytes. -/
def byteSum (bytes : Bytes) : UInt32 := UInt32.ofNat (bytes.map UInt8.toNat).sum

theorem committed_iff_two_frames :
    (newSegment.flushAll (oneFrameEach byteSum 2)).mem.len = 2 ∧
      CrashSafe byteSum newSegment (oneFrameEach byteSum 2) := by
  have hlen := (flushAll_oneFrameEach byteSum (show 2 < 2 ^ 64 by norm_num)).2
  refine ⟨hlen, (committed_iff blockSizeOk_512 0 0 0 _ ?_).mpr (.inl ?_)⟩
  · exact sealIdx_oneFrameEach byteSum (by decide)
  · exact hlen.trans_lt (by norm_num)

/-- With one entry too many for the count, the sealed header promises too few. -/
theorem miscounts {n : ℕ} (hroom : (3 * n + 5) * 512 ≤ isizeMax) (hge : 2 ^ 32 ≤ n)
    (hmod : n % 2 ^ 32 ≠ 0) :
    (newSegment.flushAll (oneFrameEach crc32 n)).mem.len = n ∧ ∃ k after header,
      Leaves crc32 512 ((newSegment.lifeOps crc32 (oneFrameEach crc32 n)).take k) after ∧
      Meta.readMetaHeader crc32 (after .metaFile) = .ok header ∧
      header.entryCount.toNat = n % 2 ^ 32 ∧
      ¬ Committed (oneFrameEach crc32 n) (newSegment.flushAll (oneFrameEach crc32 n)) header
        after := by
  have hn : n < 2 ^ 64 := by
    unfold isizeMax at hroom
    omega
  have hlen := (flushAll_oneFrameEach crc32 hn).2
  obtain ⟨log, -, hok⟩ := LogOk.flushAll blockSizeOk_512 (oneFrameEach crc32 n)
    (logOk_new 0 0 0 fun _ => [])
  obtain ⟨file, hsealed, -⟩ := exists_sealIdx le_rfl hok.plainIndex (sealIdx_oneFrameEach crc32 hroom)
  have hseal : SealsTo 512 (newSegment.flushAll (oneFrameEach crc32 n)) file := by
    refine ⟨?_, hsealed⟩
    rw [hlen, UInt32.lt_iff_toNat_lt, UInt32.toNat_ofNat']
    exact Nat.pos_of_ne_zero hmod
  have hcount : ((newSegment.flushAll (oneFrameEach crc32 n)).finalHeader crc32).entryCount.toNat =
      n % 2 ^ 32 := by
    rw [OpenSegment.finalHeader, hlen]
    exact UInt32.toNat_ofNat'
  refine ⟨hlen, (newSegment.lifeOps crc32 (oneFrameEach crc32 n)).length,
    fun file => (Disk.run (newSegment.lifeOps crc32 (oneFrameEach crc32 n)) (freshSegment 512)
      file).durable, _, ?_, readMetaHeader_lifeOps blockSizeOk_512 hseal, hcount, ?_⟩
  · rw [List.take_length]
    exact fun file i => .inl rfl
  · intro hcommitted
    have hcount' := hcommitted.count_eq
    rw [hlen, hcount] at hcount'
    have := Nat.mod_lt n (show 0 < 2 ^ 32 by norm_num)
    omega

/-- A segment of 2³² + 1 records in blocks of their own: the header of the sealed segment
counts one entry. -/
theorem committed_fails :
    (newSegment.flushAll (oneFrameEach byteSum (2 ^ 32 + 1))).mem.len = 2 ^ 32 + 1 ∧
    ∃ k after header,
      Leaves byteSum 512
        ((newSegment.lifeOps byteSum (oneFrameEach byteSum (2 ^ 32 + 1))).take k) after ∧
      Meta.readMetaHeader byteSum (after .metaFile) = .ok header ∧
      header.entryCount.toNat = 1 ∧
      ¬ Committed (oneFrameEach byteSum (2 ^ 32 + 1))
        (newSegment.flushAll (oneFrameEach byteSum (2 ^ 32 + 1))) header after := by
  obtain ⟨hlen, k, after, header, hleaves, hread, hcount, hnot⟩ :=
    miscounts byteSum (show (3 * (2 ^ 32 + 1) + 5) * 512 ≤ isizeMax by decide)
      (show 2 ^ 32 ≤ 2 ^ 32 + 1 by norm_num) (by norm_num)
  exact ⟨hlen, k, after, header, hleaves, hread, hcount.trans (by norm_num), hnot⟩

end Small

end Todb.Wal

import Todb.Verification.Wal.Frame
import Todb.Verification.Wal.IterPins

/-! # Reading a frame

`load_current_frame` copies a frame out of the blocks that cover it. -/

namespace Todb.Wal

open Library

/-! ## The copy loops -/

section Blocks

variable {blockSize : ℕ} {log : Bytes}

/-- The `i`-th block of a log. -/
def logBlock (blockSize : ℕ) (log : Bytes) (i : ℕ) : Bytes :=
  (log.drop (i * blockSize)).take blockSize

/-- A part of a block that lies in the log. -/
theorem slice_logBlock {i skip len : ℕ} (hblock : skip + len ≤ blockSize)
    (hlog : i * blockSize + skip + len ≤ log.length) :
    slice (logBlock blockSize log i) skip (skip + len) =
      .ok ((log.drop (i * blockSize + skip)).take len) := by
  rw [slice_eq_ok (Nat.le_add_right ..) (by simp [logBlock]; omega), logBlock, List.drop_take,
    List.drop_drop, List.take_take, Nat.add_sub_cancel_left, min_eq_left (by omega)]

theorem copyRest_zero (blocks : List Bytes) : copyRest blockSize 0 blocks = .ok [] := by
  cases blocks <;> simp [copyRest]

/-- The blocks after the first are copied from their start. -/
theorem copyRest_logBlocks {count i remaining : ℕ} (hcover : remaining ≤ count * blockSize)
    (hlog : i * blockSize + remaining ≤ log.length) :
    copyRest blockSize remaining ((List.range' i count).map (logBlock blockSize log)) =
      .ok ((log.drop (i * blockSize)).take remaining) := by
  induction count generalizing i remaining with
  | zero =>
      obtain rfl : remaining = 0 := by omega
      simp [copyRest]
  | succ count ih =>
      rw [Nat.succ_mul] at hcover
      rw [List.range'_succ, List.map_cons, copyRest]
      split
      · have hslice : slice (logBlock blockSize log i) 0 (min remaining blockSize) =
            .ok ((log.drop (i * blockSize)).take (min remaining blockSize)) := by
          have hpart : 0 + min remaining blockSize ≤ blockSize := by omega
          simpa using slice_logBlock (i := i) hpart (by omega)
        simp only [hslice, bind, Except.bind, pure, Except.pure]
        rcases Nat.le_total remaining blockSize with hlast | hmore
        · rw [min_eq_left hlast, Nat.sub_self, copyRest_zero]
          simp
        · rw [min_eq_right hmore, ih (i := i + 1) (by omega) (by rw [Nat.succ_mul]; omega)]
          simp only [Except.ok.injEq]
          rw [Nat.succ_mul, ← List.drop_drop, ← List.take_add, Nat.add_sub_cancel' hmore]
      · obtain rfl : remaining = 0 := by omega
        simp

/-- The blocks that cover a frame. -/
def IndexEntry.span (blockSize : ℕ) (self : IndexEntry) : List ℕ :=
  List.range' (self.offset / blockSize)
    ((self.offset + self.len - 1) / blockSize + 1 - self.offset / blockSize)

/-- Put together from the blocks of the log, a frame is the bytes its entry points to. -/
theorem assemble_logBlocks (hsize : 0 < blockSize) {entry : IndexEntry} (hlen : 0 < entry.len)
    (hlog : entry.offset + entry.len ≤ log.length) :
    assemble blockSize entry ((entry.span blockSize).map (logBlock blockSize log)) =
      .ok ((log.drop entry.offset).take entry.len) := by
  obtain ⟨segId, offset, len⟩ := entry
  simp only [IndexEntry.span, assemble] at *
  have hoffset := Nat.div_add_mod' offset blockSize
  have hstart := Nat.mod_lt offset hsize
  have hlast := Nat.div_add_mod' (offset + len - 1) blockSize
  have hend := Nat.mod_lt (offset + len - 1) hsize
  have hmono : offset / blockSize ≤ (offset + len - 1) / blockSize :=
    Nat.div_le_div_right (by omega)
  generalize offset / blockSize = first at *
  generalize (offset + len - 1) / blockSize = last at *
  generalize offset % blockSize = skip at *
  have hblocks : last * blockSize = first * blockSize + (last - first) * blockSize := by
    rw [← Nat.add_mul, Nat.add_sub_cancel' hmono]
  have hfirst : slice (logBlock blockSize log first) skip
      (skip + min (blockSize - skip) len) =
        .ok ((log.drop offset).take (min (blockSize - skip) len)) := by
    rw [slice_logBlock (by omega) (by omega), hoffset]
  rw [show last + 1 - first = last - first + 1 by omega, List.range'_succ, List.map_cons]
  simp only [index, List.getElem?_cons_zero, hfirst, List.tail_cons, bind, Except.bind, pure,
    Except.pure]
  rcases Nat.le_total len (blockSize - skip) with hone | hmore
  · rw [min_eq_right hone, Nat.sub_self, copyRest_zero]
    simp
  · rw [min_eq_left hmore, copyRest_logBlocks (i := first + 1) (by omega)
      (by rw [Nat.succ_mul]; omega)]
    simp only [Except.ok.injEq]
    rw [Nat.succ_mul, show first * blockSize + blockSize = offset + (blockSize - skip) by omega,
      ← List.drop_drop, ← List.take_add, Nat.add_sub_cancel' hmore]

end Blocks

theorem IndexEntry.blocks_eq {blockSize : ℕ} (hsize : 0 < blockSize) {entry : IndexEntry}
    (hlen : 0 < entry.len) (hbound : entry.offset + entry.len < 2 ^ 64) :
    entry.blocks blockSize =
      .ok ((entry.span blockSize).map fun block => ⟨entry.segId, UInt64.ofNat block⟩) := by
  rw [IndexEntry.blocks, if_neg (by omega)]
  rfl

theorem content_block (blockSize : ℕ) (logs : UInt32 → Bytes) (segId : UInt32) {block : ℕ}
    (hblock : block < 2 ^ 64) :
    Disk.content blockSize logs ⟨segId, UInt64.ofNat block⟩ =
      logBlock blockSize (logs segId) block := by
  rw [Disk.content, logBlock, UInt64.toNat_ofNat', Nat.mod_eq_of_lt hblock]

/-! ## Blocks through a cache of one's own -/

namespace Disk.Pool

variable {n blockSize : ℕ} {files : UInt32 → Bytes} {key : BlockKey} {pool : Pool n}

theorem calls_readBlock (pool : Pool n) (blockSize : ℕ) (key : BlockKey) (file : Bytes)
    (failure : Option ReadFailure) :
    (pool.readBlock blockSize file failure key).state.calls = pool.calls := by
  unfold readBlock
  split
  · rfl
  · split
    · cases failure <;> rfl
    · rfl

variable (blockSize files) in
/-- A cache that its only user is not calling, with the files' bytes in it. -/
structure Clean (pool : Pool n) : Prop where
  kept : pool.Kept blockSize files
  single : pool.Single
  idle : pool.calls = []

theorem Clean.init (n blockSize : ℕ) (files : UInt32 → Bytes) :
    (Pool.init n blockSize).Clean blockSize files :=
  ⟨.init n blockSize files, .init n blockSize, rfl⟩

theorem Clean.disciplined (h : pool.Clean blockSize files) (hwhole : Whole blockSize files key)
    {failure : Option Bytes} {labels : List Label}
    (hlabels : labels = [.call key, .lock 0] ∨
      labels = [.call key, .lock 0, .pread 0 failure, .finish 0]) :
    Disciplined (Pool.step blockSize files) (fun s l => Reads blockSize files l ∧ Unsaturated s l)
      labels pool := by
  have hpins : ∀ f, (pool.cache.frames f).pinCount + 1 < 2 ^ 32 := by
    intro f
    rw [h.single.pins, h.single.guardsOn_eq]
    split <;> norm_num
  have hlock : ∀ pool' ∈ pool.step blockSize files (.call key), ∀ f,
      (pool'.cache.frames f).pinCount + 1 < 2 ^ 32 := by
    rintro pool' hpool'
    obtain rfl := Option.some.inj hpool'
    exact hpins
  rcases hlabels with rfl | rfl
  · exact ⟨⟨hwhole, trivial⟩, fun pool' hpool' => ⟨⟨trivial, hlock pool' hpool'⟩, fun _ _ => trivial⟩⟩
  · refine ⟨⟨hwhole, trivial⟩, fun pool' hpool' => ⟨⟨trivial, hlock pool' hpool'⟩, fun _ _ => ?_⟩⟩
    exact ⟨⟨trivial, trivial⟩, fun _ _ => ⟨⟨trivial, trivial⟩, fun _ _ => trivial⟩⟩

/-- A read of the only user is a run of the pool, so that it keeps what every run keeps. -/
theorem Clean.readBlock (h : pool.Clean blockSize files) (hwhole : Whole blockSize files key)
    (hkey : key ∉ pool.guards.map PinGuard.key) (hlt : pool.guards.length < n) :
    ∃ pool' : Pool n, pool.readBlock blockSize (files key.segId) none key = .ok pool' ∧
      pool'.Clean blockSize files ∧
      pool'.guards.map PinGuard.key = key :: pool.guards.map PinGuard.key := by
  obtain ⟨pool', hread, hsingle, hguards⟩ | ⟨hfail, -⟩ :=
    h.single.readBlock_of_lt blockSize (files key.segId) none hkey hlt
  · have hcalls : pool'.calls = pool.calls := by
      have hstate := pool.calls_readBlock blockSize key (files key.segId) none
      rwa [hread] at hstate
    refine ⟨pool', hread, ⟨?_, hsingle, hcalls.trans h.idle⟩, hguards⟩
    obtain ⟨hwaits, -⟩ | ⟨labels, hlabels, hexec⟩ := readBlock_execute files none h.idle
    · rw [hread] at hwaits
      cases hwaits
    · rw [hread] at hexec
      have hreaches := Reaches.start.of_execute (h.disciplined hwhole hlabels) hexec
      exact hreaches.invariant h.kept fun hs hok hstep => hs.step hok.1 hok.2 hstep
  · exact absurd rfl hfail

theorem Clean.readBlocks {keys : List BlockKey} (segId : UInt32) (h : pool.Clean blockSize files)
    (hkeys : ∀ key ∈ keys, key.segId = segId ∧ Whole blockSize files key)
    (hfresh : pool.Fresh keys) (hle : pool.guards.length + keys.length ≤ n) :
    ∃ pool' : Pool n,
      pool.readBlocks blockSize (files segId) (fun _ => none) keys = .ok pool' ∧
      pool'.Clean blockSize files ∧
      pool'.guards.map PinGuard.key = keys.reverse ++ pool.guards.map PinGuard.key := by
  induction keys generalizing pool with
  | nil => exact ⟨pool, rfl, h, rfl⟩
  | cons key keys ih =>
      obtain ⟨⟨rfl, hwhole⟩, hkeys⟩ := List.forall_mem_cons.mp hkeys
      rw [List.length_cons] at hle
      obtain ⟨mid, hmid, hclean, hguards⟩ :=
        h.readBlock hwhole (hfresh.unguarded key List.mem_cons_self) (by omega)
      have hlength : mid.guards.length = pool.guards.length + 1 := by
        simpa using congrArg List.length hguards
      obtain ⟨pool', hpool', hclean', hguards'⟩ :=
        ih hclean hkeys (hfresh.next hguards) (by omega)
      refine ⟨pool', ?_, hclean', ?_⟩
      · rw [Pool.readBlocks, hmid, Ran.bind_ok, hpool']
      · rw [hguards', hguards, List.reverse_cons, List.append_assoc, List.singleton_append]

/-- The guards show the blocks they were asked for. -/
theorem Clean.guarded_eq (h : pool.Clean blockSize files) :
    pool.guarded = (pool.guards.map PinGuard.key).reverse.map (content blockSize files) := by
  rw [guarded, ← List.map_reverse, List.map_map]
  refine List.map_congr_left fun guard hguard => ?_
  exact h.kept.bytes _ _ (h.kept.guardKey guard (List.mem_reverse.mp hguard))

theorem Clean.dropGuards (h : pool.Clean blockSize files) :
    pool.dropGuards.Clean blockSize files := by
  refine ⟨?_, h.single.dropGuards, h.idle⟩
  obtain ⟨hkept, -, -⟩ := h
  obtain ⟨cache, calls, guards⟩ := pool
  induction guards generalizing cache with
  | nil => exact hkept
  | cons guard guards ih =>
      have hdrop : (⟨cache, calls, guard :: guards⟩ : Pool n).step blockSize files (.drop 0) =
          some ⟨cache.unpin guard.idx, calls, guards⟩ := rfl
      exact ih _ (hkept.step (l := .drop 0) trivial trivial hdrop)

end Disk.Pool

/-! ## The iterator -/

namespace WalIter

variable {fuel n : ℕ} {crc32 : Bytes → UInt32} {self : WalIter fuel n} {logs : UInt32 → Bytes}
  {failures : Disk.BlockKey → Option ReadFailure} {entry : IndexEntry}

variable (logs failures self entry) in
/-- The reads of `read_block` for the frame of `entry` succeed and return the log's blocks. -/
def ReadsBlocks : Prop :=
  ∀ keys, entry.blocks self.blockSize = .ok keys →
    ∃ pool, self.dm.readBlocks self.blockSize (logs entry.segId) failures keys = .ok pool ∧
      pool.guarded = keys.map (Disk.content self.blockSize logs)

variable (crc32) in
/-- The frame's bytes are in the buffer, and the result is what decoding them gives. -/
theorem ReadsBlocks.loadCurrentFrame (hread : self.ReadsBlocks logs failures entry)
    (hentry : Cursor.value self.indexIter = .ok (some entry)) (hsize : 0 < self.blockSize)
    (hlen : 0 < entry.len) (hlog : entry.offset + entry.len ≤ (logs entry.segId).length)
    (hbound : (logs entry.segId).length < 2 ^ 64) :
    ∃ pool result, self.dm.readBlocks self.blockSize (logs entry.segId) failures
        ((entry.span self.blockSize).map fun block => ⟨entry.segId, UInt64.ofNat block⟩) =
          .ok pool ∧
      self.loadCurrentFrame crc32 logs failures = (result,
        { self with
          dm := pool.dropGuards
          buffer := ((logs entry.segId).drop entry.offset).take entry.len }) ∧
      result ≠ .error .panic ∧
      ∀ decoded, DecodedFrame.decodeAt crc32
        (((logs entry.segId).drop entry.offset).take entry.len) 0 = .ok (some decoded) →
          result = .ok decoded := by
  have hkeys := IndexEntry.blocks_eq hsize hlen (hlog.trans_lt hbound)
  obtain ⟨pool, hpool, hguarded⟩ := hread _ hkeys
  have hcontent : pool.guarded =
      (entry.span self.blockSize).map (logBlock self.blockSize (logs entry.segId)) := by
    rw [hguarded, List.map_map]
    refine List.map_congr_left fun block hblock => content_block _ _ _ ?_
    have hmem := List.mem_range'_1.mp hblock
    have hlast := Nat.div_le_self (entry.offset + entry.len - 1) self.blockSize
    omega
  have hassemble := assemble_logBlocks hsize hlen hlog
  cases hdecode : DecodedFrame.decodeAt crc32
      (((logs entry.segId).drop entry.offset).take entry.len) 0 with
  | error e =>
      refine ⟨pool, .error (.err e), hpool, ?_, by simp, by simp⟩
      simp only [WalIter.loadCurrentFrame, hentry, hkeys, hpool, Except.mapError, Ran.ok, hcontent,
        hassemble, hdecode]
  | ok found =>
      cases found with
      | none =>
          refine ⟨pool, .error (.err (.io "incomplete frame")), hpool, ?_, by simp, by simp⟩
          simp only [WalIter.loadCurrentFrame, hentry, hkeys, hpool, Except.mapError, Ran.ok,
            hcontent, hassemble, hdecode]
      | some decoded =>
          refine ⟨pool, .ok decoded, hpool, ?_, by simp, by simp⟩
          simp only [WalIter.loadCurrentFrame, hentry, hkeys, hpool, Except.mapError, Ran.ok,
            hcontent, hassemble, hdecode]

theorem valid_of_value (hentry : Cursor.value self.indexIter = .ok (some entry)) :
    self.valid = true := by
  simp only [WalIter.valid, Cursor.valid]
  simp only [Cursor.value] at hentry
  cases hcurrent : self.indexIter.current with
  | none => simp [hcurrent] at hentry
  | some side => rfl

/-- Every block that a frame in a log of whole blocks touches is a whole one. -/
theorem whole_of_mem_span (hsize : 0 < self.blockSize) (hlen : 0 < entry.len)
    (hdvd : self.blockSize ∣ (logs entry.segId).length)
    (hlog : entry.offset + entry.len ≤ (logs entry.segId).length)
    (hbound : (logs entry.segId).length < 2 ^ 64) {block : ℕ}
    (hblock : block ∈ entry.span self.blockSize) :
    Disk.Whole self.blockSize logs ⟨entry.segId, UInt64.ofNat block⟩ := by
  obtain ⟨count, hcount⟩ := hdvd
  have hmem := List.mem_range'_1.mp hblock
  have hlast : (entry.offset + entry.len - 1) / self.blockSize < count := by
    rw [Nat.div_lt_iff_lt_mul hsize, Nat.mul_comm]
    omega
  have hle : (block + 1) * self.blockSize ≤ count * self.blockSize :=
    Nat.mul_le_mul_right _ (by omega)
  have hdiv := Nat.div_le_self (entry.offset + entry.len - 1) self.blockSize
  rw [Disk.Whole, UInt64.toNat_ofNat', Nat.mod_eq_of_lt (by omega), hcount,
    Nat.mul_comm self.blockSize count]
  rwa [Nat.succ_mul] at hle

variable (hsize : 0 < self.blockSize) (hlen : 0 < entry.len)
  (hdvd : self.blockSize ∣ (logs entry.segId).length)
  (hlog : entry.offset + entry.len ≤ (logs entry.segId).length)
  (hbound : (logs entry.segId).length < 2 ^ 64)

include hsize hlen hdvd hlog hbound

/-- Between calls, with a frame of the cache for every block of the frame. -/
theorem readBlocks_of_clean (hclean : self.dm.Clean self.blockSize logs)
    (hreleased : self.dm.guards = []) (hspan : (entry.span self.blockSize).length ≤ n) :
    ∃ pool, self.dm.readBlocks self.blockSize (logs entry.segId) (fun _ => none)
        ((entry.span self.blockSize).map fun block => ⟨entry.segId, UInt64.ofNat block⟩) =
          .ok pool ∧ pool.Clean self.blockSize logs ∧
      pool.guards.map Disk.PinGuard.key =
        ((entry.span self.blockSize).map fun block =>
          (⟨entry.segId, UInt64.ofNat block⟩ : Disk.BlockKey)).reverse := by
  have hnodup := IndexEntry.blocks_nodup (IndexEntry.blocks_eq hsize hlen (hlog.trans_lt hbound))
  obtain ⟨pool, hpool, hclean', hguards⟩ := hclean.readBlocks entry.segId
    (List.forall_mem_map.mpr fun block hblock =>
      ⟨rfl, whole_of_mem_span hsize hlen hdvd hlog hbound hblock⟩)
    ⟨hnodup, fun key _ => by simp [hreleased]⟩ (by simpa [hreleased] using hspan)
  refine ⟨pool, hpool, hclean', ?_⟩
  rw [hguards, hreleased, List.map_nil, List.append_nil]

theorem readsBlocks_of_clean (hclean : self.dm.Clean self.blockSize logs)
    (hreleased : self.dm.guards = []) (hspan : (entry.span self.blockSize).length ≤ n) :
    self.ReadsBlocks logs (fun _ => none) entry := by
  intro keys hkeys
  rw [IndexEntry.blocks_eq hsize hlen (hlog.trans_lt hbound)] at hkeys
  obtain rfl := Except.ok.inj hkeys
  obtain ⟨pool, hpool, hclean', hguards⟩ :=
    readBlocks_of_clean hsize hlen hdvd hlog hbound hclean hreleased hspan
  exact ⟨pool, hpool, by rw [hclean'.guarded_eq, hguards, List.reverse_reverse]⟩

omit hsize hlen hdvd hlog hbound

/-- If the bytes are a frame, `value` returns its payload. -/
theorem ReadsBlocks.value (hread : self.ReadsBlocks logs failures entry)
    (hentry : Cursor.value self.indexIter = .ok (some entry)) (hsize : 0 < self.blockSize)
    (hwidth : entry.len < 2 ^ 32) (hlog : entry.offset + entry.len ≤ (logs entry.segId).length)
    (hbound : (logs entry.segId).length < 2 ^ 64) {lsn : ℕ} {payload : Bytes}
    (hlsn : lsn < 2 ^ 64)
    (hframe : ((logs entry.segId).drop entry.offset).take entry.len = encode crc32 lsn payload) :
    ∃ pool, self.dm.readBlocks self.blockSize (logs entry.segId) failures
        ((entry.span self.blockSize).map fun block => ⟨entry.segId, UInt64.ofNat block⟩) =
          .ok pool ∧
      self.value crc32 logs failures = (.ok payload,
        { self with dm := pool.dropGuards, buffer := encode crc32 lsn payload }) := by
  have hcount : entry.len = headerLen + payload.length := by
    have hcount := congrArg List.length hframe
    rw [length_encode, List.length_take, List.length_drop, frameLen] at hcount
    omega
  have hpos : 0 < entry.len := hcount ▸ Nat.add_pos_left (by decide) _
  have hpayload : payload.length < 2 ^ 32 := by omega
  obtain ⟨pool, result, hpool, hload, -, hresult⟩ :=
    hread.loadCurrentFrame crc32 hentry hsize hpos hlog hbound
  have hdecode : DecodedFrame.decodeAt crc32 (encode crc32 lsn payload) 0 =
      .ok (some ⟨lsn, headerLen + payload.length⟩) := by
    simpa using DecodedFrame.decodeAt_encode [] [] hlsn hpayload
  have hslice : slice (encode crc32 lsn payload) headerLen (headerLen + payload.length) =
      .ok payload := by
    rw [← List.append_nil (encode crc32 lsn payload), encode]
    exact slice_append_middle _ payload [] (by simp [headerLen]) (by simp [headerLen])
  obtain rfl := hresult _ (hframe ▸ hdecode)
  refine ⟨pool, hpool, ?_⟩
  simp only [WalIter.value, valid_of_value hentry, hload, hframe]
  simp [hslice, Except.mapError]

/-- Given the log's blocks, the buffer holds exactly the bytes the index entry points to, and
nothing is sliced out of range. If they are a frame, `value` returns its payload. -/
theorem loadCurrentFrame_exact (hread : self.ReadsBlocks logs failures entry)
    (hentry : Cursor.value self.indexIter = .ok (some entry)) (hsize : 0 < self.blockSize)
    (hlen : headerLen ≤ entry.len) (hwidth : entry.len < 2 ^ 32)
    (hlog : entry.offset + entry.len ≤ (logs entry.segId).length)
    (hbound : (logs entry.segId).length < 2 ^ 64) :
    (self.loadCurrentFrame crc32 logs failures).2.buffer =
        ((logs entry.segId).drop entry.offset).take entry.len ∧
      (self.loadCurrentFrame crc32 logs failures).1 ≠ .error .panic ∧
      ∀ lsn payload, lsn < 2 ^ 64 →
        ((logs entry.segId).drop entry.offset).take entry.len = encode crc32 lsn payload →
          (self.value crc32 logs failures).1 = .ok payload := by
  have hpos : 0 < entry.len := lt_of_lt_of_le (by decide) hlen
  obtain ⟨pool, result, -, hload, hpanic, -⟩ :=
    hread.loadCurrentFrame crc32 hentry hsize hpos hlog hbound
  rw [hload]
  refine ⟨rfl, hpanic, fun lsn payload hlsn hframe => ?_⟩
  obtain ⟨pool, -, hvalue⟩ := hread.value hentry hsize hwidth hlog hbound hlsn hframe
  rw [hvalue]

/-- A frame of 20 bytes across the boundary of the two blocks of a log. -/
def splitLog (_ : UInt32) : Bytes :=
  List.replicate 500 0 ++ encode (fun _ => 0) 7 [1, 2, 3, 4] ++ List.replicate 504 0

def splitEntry : Bytes × Entry Bytes := (lsnToKey 7, .put (encodeOffsetLen 500 20))

def splitIter : WalIter 1 2 where
  indexIter := ⟨.new [], ⟨⟨0, ⟨[splitEntry], List.pairwise_singleton ..⟩, splitEntry⟩, 3⟩, some .b⟩
  blockSize := 512
  dm := .init 2 512
  buffer := []

theorem loadCurrentFrame_exact_split :
    (splitIter.value (fun _ => 0) splitLog fun _ => none).1 = .ok [1, 2, 3, 4] := by
  have hread : splitIter.ReadsBlocks splitLog (fun _ => none) ⟨3, 500, 20⟩ :=
    readsBlocks_of_clean (by decide) (by decide) (by decide +kernel) (by decide +kernel)
      (by decide +kernel) (.init 2 512 splitLog) rfl (by decide +kernel)
  exact (loadCurrentFrame_exact hread (by decide +kernel) (by decide) (by decide) (by decide)
    (by decide +kernel) (by decide +kernel)).2.2 7 [1, 2, 3, 4] (by decide) (by decide +kernel)

end WalIter

end Todb.Wal

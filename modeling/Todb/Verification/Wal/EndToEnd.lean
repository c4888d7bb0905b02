import Todb.Library.Spans
import Todb.Verification.Wal.OneRun
import Todb.Verification.Wal.Snapshot

/-! # One caller, end to end

What a single caller has appended is on disk after `close`: each buffer that was flushed is the
concatenation of its frames, padded with zeros, and the index of exactly one segment says where
the frame of an LSN is. -/

namespace Todb.Wal

open Library

/-! ## The image of a buffer -/

section Image

variable {cfg : WalConfig} {issued : List Issue} {r : Region}

/-- The frames of consecutive slots lie one behind the other. -/
theorem Abutting.follows (h : Abutting issued) (crc32 : Bytes → UInt32) {first count : ℕ}
    (hslots : ∀ i < count, ∃ issue, issued[first + i]? = some issue ∧ issue.slot = i) :
    ∃ stop, Follows 0 ((List.range' first count).map fun n =>
        ((issuedFrames crc32 issued n).pos, (issuedFrames crc32 issued n).frame.length)) stop ∧
      ∀ k, count = k + 1 → (issuedFrames crc32 issued (first + k)).pos +
        (issuedFrames crc32 issued (first + k)).frame.length = stop := by
  induction count with
  | zero => exact ⟨0, rfl, nofun⟩
  | succ count ih =>
      obtain ⟨stop, hfollows, hlast⟩ := ih fun i hi => hslots i (Nat.lt_succ_of_lt hi)
      obtain ⟨b, hb, hslot⟩ := hslots count (Nat.lt_succ_self count)
      have hpos : b.pos = stop := by
        cases count with
        | zero => exact (h.first _ b hb hslot).trans hfollows
        | succ k =>
            obtain ⟨a, ha, -⟩ := hslots k (by omega)
            have hstop := hlast k rfl
            rw [issuedFrames_of_some ha, length_encode] at hstop
            exact (h.next (first + k) a b ha hb (by omega)).trans hstop
      refine ⟨stop + (issuedFrames crc32 issued (first + count)).frame.length, ?_, ?_⟩
      · rw [List.range'_concat, List.map_append, Nat.one_mul]
        refine hfollows.concat ?_
        change (issuedFrames crc32 issued (first + count)).pos = stop
        rw [issuedFrames_of_some hb]
        exact hpos
      · intro k hk
        obtain rfl : k = count := by omega
        rw [issuedFrames_of_some hb]
        exact congrArg (· + _) hpos

/-- What is written for a flushed buffer: its frames in the order of their LSNs, and zeros up to
a block boundary. -/
def Region.framed (crc32 : Bytes → UInt32) (cfg : WalConfig) (payloads : List Bytes)
    (r : Region) : Bytes :=
  let frames := r.lsns.flatMap fun lsn => encode crc32 lsn (payloads.getD lsn [])
  frames ++ List.replicate (alignUp frames.length cfg.blockSize - frames.length) 0

theorem Region.image_eq {frames : ℕ → Placement} {stop : ℕ} (hcomplete : r.Complete frames)
    (hpadded : r.Padded frames cfg)
    (hfollows : Follows 0 (r.lsns.map fun n => ((frames n).pos, (frames n).frame.length)) stop)
    (hlast : ∃ n ∈ r.lsns, (frames n).pos + (frames n).frame.length = stop) :
    (r.lsns.flatMap fun n => (frames n).frame).length = stop ∧
      r.image = r.lsns.flatMap (fun n => (frames n).frame) ++
        List.replicate (alignUp stop cfg.blockSize - stop) 0 := by
  obtain ⟨stop', hlength, hle, ⟨n, hn, hattained⟩, hzero⟩ := hpadded
  obtain ⟨last, hlast, hend⟩ := hlast
  -- the zeros start where the last frame ends
  obtain rfl : stop' = stop := by
    have hinside := (hfollows.inside _ (List.mem_map_of_mem hn)).2
    have := hle last hlast
    simp only at hinside
    omega
  have hstop : stop' ≤ r.image.length := hend ▸ hcomplete.inside last hlast
  have hitems : r.image.take stop' = r.lsns.flatMap fun n => (frames n).frame := by
    have hspans : Follows 0 ((r.lsns.map fun n => ((frames n).pos, (frames n).frame)).map
        fun f => (f.1, f.2.length)) stop' := by
      rw [List.map_map]
      exact hfollows
    have hbytes : ∀ f ∈ r.lsns.map fun n => ((frames n).pos, (frames n).frame),
        (r.image.drop f.1).take f.2.length = f.2 := by
      simpa using hcomplete.bytes
    simpa [List.flatMap_map] using hspans.take_eq hbytes
  have htail : r.image.drop stop' = List.replicate (alignUp stop' cfg.blockSize - stop') 0 := by
    refine List.eq_replicate_iff.mpr ⟨by rw [List.length_drop, hlength], fun b hb => ?_⟩
    obtain ⟨i, hi, rfl⟩ := List.getElem_of_mem hb
    rw [List.length_drop] at hi
    have hbyte := hzero (stop' + i) (Nat.le_add_right _ _) (by omega)
    rw [List.getElem?_eq_getElem (by omega)] at hbyte
    simpa using hbyte
  refine ⟨by rw [← hitems, List.length_take, Nat.min_eq_left hstop], ?_⟩
  rw [← hitems, ← htail, List.take_append_drop]

end Image

/-! ## Segments and LSNs -/

/-- The index of exactly one segment has the LSN, with the place of its frame in the log. -/
def LocatedOnce (crc32 : Bytes → UInt32) (fl : FlushThread)
    (index : ℕ → List (Bytes × Entry Bytes)) (lsn : ℕ) (payload : Bytes) : Prop :=
  ∃ seg value offset files, fl.disk seg = some files ∧ (lsnToKey lsn, .put value) ∈ index seg ∧
    decodeOffsetLen value = some (offset, headerLen + payload.length) ∧
    HoldsAt files.log offset (encode crc32 lsn payload) ∧
    ∀ seg' entry, entry ∈ index seg' → entry.1 = lsnToKey lsn →
      seg' = seg ∧ entry = (lsnToKey lsn, .put value)

/-- The payloads of all appends are on disk. -/
structure Persisted (crc32 : Bytes → UInt32) (cfg : WalConfig) (payloads : List Bytes)
    (fl : FlushThread) : Prop where
  lsns : fl.flushed.flatMap Region.lsns = List.range payloads.length
  regions : ∀ r ∈ fl.flushed, ∃ files, fl.disk r.seg = some files ∧
    HoldsAt files.log r.base (r.framed crc32 cfg payloads)
  index : ∃ index : ℕ → List (Bytes × Entry Bytes),
    (∀ seg, fl.disk seg ≠ none → IdxRecords cfg fl seg (index seg)) ∧
    (∀ seg, fl.disk seg = none → index seg = []) ∧
    ∀ lsn payload, payloads[lsn]? = some payload → LocatedOnce crc32 fl index lsn payload

section Segments

variable {frames : ℕ → Placement} {cfg : WalConfig} {core : Core} {fl : FlushThread}

/-- An LSN is in one flushed buffer only. -/
theorem OnDisk.region_unique (h : OnDisk frames cfg core fl) {r r' : Region} {lsn : ℕ}
    (hr : r ∈ fl.flushed) (hr' : r' ∈ fl.flushed) (hlsn : lsn ∈ r.lsns) (hlsn' : lsn ∈ r'.lsns) :
    r = r' := by
  have hnodup : (fl.flushed.flatMap Region.lsns).Nodup := h.lsns ▸ List.nodup_range
  have : Std.Symm (Function.onFun List.Disjoint Region.lsns) := ⟨fun _ _ hd => hd.symm⟩
  by_contra hne
  exact (List.nodup_flatMap.mp hnodup).2.forall hr hr' hne hlsn hlsn'

theorem mem_indexOf {flushed : List Region} {seg : ℕ} {entry : Bytes × Entry Bytes}
    (h : entry ∈ indexOf frames flushed seg) :
    ∃ r ∈ flushed, r.seg = seg ∧ ∃ lsn ∈ r.lsns, entry = entryAt frames r.base lsn := by
  obtain ⟨r, hr, hentry⟩ := List.mem_flatMap.mp h
  obtain ⟨hr, hseg⟩ := List.mem_filter.mp hr
  obtain ⟨lsn, hlsn, rfl⟩ := List.mem_map.mp hentry
  exact ⟨r, hr, by simpa using hseg, lsn, hlsn, rfl⟩

theorem lsnToKey_injective {m n : ℕ} (hm : m < 2 ^ 64) (hn : n < 2 ^ 64)
    (h : lsnToKey m = lsnToKey n) : m = n := by
  rcases Nat.lt_trichotomy m n with hlt | rfl | hlt
  · exact absurd (lsnToKey_lt hlt hn) (h ▸ lt_irrefl _)
  · rfl
  · exact absurd (lsnToKey_lt hlt hm) (h ▸ lt_irrefl _)

/-- Published frames are where the index of one segment says. -/
theorem OnDisk.locatedOnce {crc32 : Bytes → UInt32} {issued : List Issue}
    (h : OnDisk (issuedFrames crc32 issued) cfg core fl) (husize : cfg.segmentSize < 2 ^ 64)
    (hpublished : core.published < 2 ^ 64) {lsn : ℕ} {issue : Issue}
    (hissue : issued[lsn]? = some issue) (hlsn : lsn < core.published) :
    LocatedOnce crc32 fl (indexOf (issuedFrames crc32 issued) fl.flushed) lsn issue.payload := by
  obtain ⟨r, hr, hmem⟩ : ∃ r ∈ fl.flushed, lsn ∈ r.lsns := by
    rw [← List.mem_flatMap, h.lsns, List.mem_range]
    exact hlsn
  obtain ⟨files, hfiles, hlog, -⟩ := h.stored r hr
  have hcomplete := h.complete r hr
  have hinside := hcomplete.inside lsn hmem
  have hlength := hcomplete.length_lt lsn hmem
  have hpart := hlog.part hinside
  have hfits := h.fits r hr
  have hentry : entryAt (issuedFrames crc32 issued) r.base lsn ∈
      indexOf (issuedFrames crc32 issued) fl.flushed r.seg :=
    List.mem_flatMap.mpr ⟨r, List.mem_filter.mpr ⟨hr, by simp⟩, List.mem_map_of_mem hmem⟩
  rw [hcomplete.bytes lsn hmem] at hpart
  rw [issuedFrames_of_some hissue] at hpart
  simp only [issuedFrames_of_some hissue, length_encode] at hlength hinside
  rw [entryAt, issuedFrames_of_some hissue, length_encode] at hentry
  have hdecode : decodeOffsetLen (encodeOffsetLen (r.base + issue.pos) (frameLen issue.payload)) =
      some (r.base + issue.pos, headerLen + issue.payload.length) :=
    decodeOffsetLen_encode (by omega) hlength
  refine ⟨r.seg, _, _, files, hfiles, hentry, hdecode, hpart, fun seg' entry hentry' hkey => ?_⟩
  obtain ⟨r', hr', rfl, lsn', hmem', rfl⟩ := mem_indexOf hentry'
  obtain rfl := lsnToKey_injective ((h.lsn_lt hr' hmem').trans hpublished)
    (hlsn.trans hpublished) hkey
  obtain rfl := h.region_unique hr hr' hmem hmem'
  rw [entryAt, issuedFrames_of_some hissue, length_encode]
  exact ⟨rfl, rfl⟩

end Segments

/-! ## Runs -/

section Runs

variable {ι : Type} [Fintype ι] [DecidableEq ι] {crc32 : Bytes → UInt32} {cfg : WalConfig}
  {s : System ι} {t : ι} {payloads : List Bytes}

omit [DecidableEq ι] in
/-- A flushed buffer of the only caller is its frames and zeros. -/
theorem OneRun.image_eq (h : OneRun crc32 cfg t payloads s)
    (hpayloads : s.shared.issued.map Issue.payload = payloads) {r : Region}
    (hr : r ∈ s.flush.flushed) : r.image = r.framed crc32 cfg payloads := by
  have hcomplete := h.stored.disk.complete r hr
  have hpadded := h.padded.padded r hr
  obtain ⟨stop, hfollows, hlast⟩ := h.gapless.issued.follows crc32 (h.slotted r hr)
  have hend : ∃ n ∈ r.lsns, (issuedFrames crc32 s.shared.issued n).pos +
      (issuedFrames crc32 s.shared.issued n).frame.length = stop := by
    obtain ⟨-, -, -, ⟨n, hn, -⟩, -⟩ := hpadded
    have hne : r.count ≠ 0 := fun hzero => by simp [Region.lsns, hzero] at hn
    obtain ⟨k, hk⟩ := Nat.exists_eq_succ_of_ne_zero hne
    exact ⟨r.minLsn + k, List.mem_range'_1.mpr (by omega), hlast k hk⟩
  obtain ⟨hlength, himage⟩ := Region.image_eq hcomplete hpadded hfollows hend
  have hframes : (r.lsns.flatMap fun n => (issuedFrames crc32 s.shared.issued n).frame) =
      r.lsns.flatMap fun lsn => encode crc32 lsn (payloads.getD lsn []) := by
    refine List.flatMap_congr fun n hn => ?_
    obtain ⟨issue, hissue⟩ : ∃ issue, s.shared.issued[n]? = some issue :=
      ⟨_, List.getElem?_eq_getElem
        ((h.stored.disk.lsn_lt hr hn).trans_le h.stored.kept.published_le)⟩
    rw [issuedFrames_of_some hissue, ← hpayloads, List.getD_eq_getElem?_getD, List.getElem?_map,
      hissue]
    rfl
  rw [himage, Region.framed, ← hframes, hlength]

omit [DecidableEq ι] in
/-- After `close` everything is on disk. -/
theorem OneRun.persisted (hvalid : cfg.Valid) (husize : cfg.segmentSize < 2 ^ 64)
    (hbuffer : cfg.bufferSize < 2 ^ 32) (h : OneRun crc32 cfg t payloads s)
    (hcloses : s.shared.closes ≠ []) : Persisted crc32 cfg payloads s.flush := by
  have hdisk := h.stored.disk
  obtain ⟨before, hbefore⟩ := List.exists_mem_of_ne_nil _ hcloses
  obtain ⟨hdone, hpublished⟩ := h.closes.returned before hbefore
  rw [h.closed.closes before hbefore] at hpublished
  -- after `close` no append is under way
  have hpc : (s.pcs t).unissued? = none := by
    rcases h.alone.self.stopped (h.closed.stopped hcloses) with hpc | hpc | hpc
    · cases hp : s.pcs t with
      | swap caller =>
          rw [hp] at hpc
          cases caller with
          | close => rfl
          | append | sync => cases hpc
      | close => rfl
      | idle | append | claimed | holding | sync | panicked =>
          rw [hp] at hpc
          cases hpc
    · rw [hpc]
      rfl
    · rw [hpc]
      rfl
  have hpayloads : s.shared.issued.map Issue.payload = payloads := by
    simpa [hpc] using h.tracks.issued
  have hcount : s.shared.published = payloads.length := by
    have hlength := h.tracks.length_eq hpc
    have hle := h.stored.kept.published_le
    by_contra hne
    have hlt := hpublished s.shared.published (List.mem_range.mpr (by omega))
    omega
  have hlt : s.shared.published < 2 ^ 64 :=
    h.stored.kept.published_le.trans_lt h.stored.kept.num.issued_lt
  have hsmall : ∀ seg, SmallBlocks ⟨cfg.blockSize⟩
      (indexOf (issuedFrames crc32 s.shared.issued) s.flush.flushed seg) := by
    intro seg
    rcases Nat.eq_zero_or_pos cfg.bufferSize with hzero | hpos
    · -- nothing fits an empty buffer
      have hnone : indexOf (issuedFrames crc32 s.shared.issued) s.flush.flushed seg = [] := by
        refine List.eq_nil_iff_forall_not_mem.mpr fun entry hentry => ?_
        obtain ⟨r, hr, -, lsn, hlsn, -⟩ := mem_indexOf hentry
        have hlsn := hdisk.lsn_lt hr hlsn
        have hfit := h.fitting _ (List.getElem_mem (hcount ▸ hlsn))
        simp [frameLen, headerLen, hzero] at hfit
      rw [hnone]
      exact .inr (by decide)
    · exact .inl ((Nat.le_of_dvd hpos hvalid.bufferSize_dvd).trans_lt hbuffer)
  refine ⟨hcount ▸ hdisk.lsns, fun r hr => ?_,
    indexOf (issuedFrames crc32 s.shared.issued) s.flush.flushed, fun seg hseg => ?_,
    fun seg hnone => ?_, fun lsn payload hpayload => ?_⟩
  · obtain ⟨files, hfiles, hlog, -⟩ := hdisk.stored r hr
    exact ⟨files, hfiles, h.image_eq hpayloads hr ▸ hlog⟩
  · have hat := hdisk.diskAt
    simp only [DiskAt, hdone] at hat
    have hle : seg ≤ s.flush.curSeg := by
      by_contra hlt
      exact hseg (hat.1.fresh seg (by omega))
    obtain ⟨files, hfiles, hidx⟩ := hdisk.idxHolds_of_done hdone hle
    exact hidx.idxRecords hvalid (hsmall seg) (plainIndex_indexOf _ _) hfiles
  · refine List.eq_nil_iff_forall_not_mem.mpr fun entry hentry => ?_
    obtain ⟨r, hr, rfl, -⟩ := mem_indexOf hentry
    obtain ⟨files, hfiles, -⟩ := hdisk.stored r hr
    rw [hnone] at hfiles
    cases hfiles
  · have hlsn := (List.getElem?_eq_some_iff.mp hpayload).1
    rw [← hpayloads, List.getElem?_map] at hpayload
    obtain ⟨issue, hissue, rfl⟩ := Option.map_eq_some_iff.mp hpayload
    exact hdisk.locatedOnce husize hlt hissue (hcount.symm ▸ hlsn)

/-- What a single caller can rely on. Its appends return after a bounded number of steps of the
two threads, one of which can always go on; they return 0, 1, 2, ...; and after `close` all
payloads are on disk. -/
structure EndToEnd (crc32 : Bytes → UInt32) (cfg : WalConfig) (t : ι) (start : System ι)
    (ls : List (Label ι)) (s : System ι) : Prop where
  progress : s.pcs t = .idle ∨ (s.step crc32 cfg (.thread t)).isSome ∨
    (s.step crc32 cfg .flush).isSome
  bounded : ∀ pre payload work s₀, ls = pre ++ .call t (.append payload) :: work →
    (∀ l ∈ work, Working t l) → execute (System.step crc32 cfg) pre start = some s₀ →
    work.length ≤
      (frameLen payload + 26) * (flushSteps cfg + 1) + workLeft cfg s₀.shared s₀.flush.pc
  returned : s.pcs t = .idle → s.shared.returned = List.range (appended ls).length
  persisted : s.shared.closes ≠ [] → Persisted crc32 cfg (appended ls) s.flush

theorem single_appender_end_to_end (hvalid : cfg.validate = .ok ())
    (hbuffer : cfg.bufferSize < 2 ^ 32) (husize : cfg.segmentSize < 2 ^ 64)
    {memory : BufId → ℕ → UInt8} {ls : List (Label ι)}
    (hls : Disciplined (System.step crc32 cfg) (SoloOrderly cfg t) ls (.init cfg memory))
    (hexec : execute (System.step crc32 cfg) ls (.init cfg memory) = some s) :
    EndToEnd crc32 cfg t (.init cfg memory) ls s := by
  have hvalid := WalConfig.validate_eq_ok.mp hvalid
  have hinit := OneRun.init crc32 cfg t memory
  have hrun := hinit.execute hvalid husize hbuffer (hls.mono fun h => h.1) hexec
  refine ⟨hrun.progress, ?_, fun hidle => ?_, hrun.persisted hvalid husize hbuffer⟩
  · rintro pre payload work s₀ rfl hwork hpre
    obtain ⟨hfirst, ⟨hcall, hlater⟩, hrest⟩ := hls.append hpre hexec
    obtain ⟨mid, hmid, hrest⟩ := Option.bind_eq_some_iff.mp hrest
    have hs₀ := hinit.execute hvalid husize hbuffer (hfirst.mono fun h => h.1) hpre
    obtain ⟨happending, hbudget⟩ := hs₀.call_append hcall.1.1.1 hmid
    have hlength := (hs₀.step hvalid husize hbuffer hcall.1 hmid).append_bounded hvalid husize
      hbuffer happending hwork (hlater mid hmid) hrest
    omega
  · have htracks := hrun.tracks
    rw [hidle] at htracks
    rw [htracks.returned]
    simp [Pc.lsn?, Pc.held?, htracks.length_eq rfl]

omit [Fintype ι] in
instance (cfg : WalConfig) (t : ι) (s : System ι) (l : Label ι) :
    Decidable (ByOne cfg t s l) := by
  induction l using Label.casesOn with
  | call u call => induction call using Call.casesOn <;> unfold ByOne <;> infer_instance
  | _ =>
      unfold ByOne
      infer_instance

omit [Fintype ι] [DecidableEq ι] in
instance (s : System ι) (l : Label ι) : Decidable (LsnLeft s l) := by
  induction l using Label.casesOn with
  | thread u =>
      dsimp only [LsnLeft]
      induction s.pcs u using Pc.casesOn <;> infer_instance
  | _ =>
      unfold LsnLeft
      infer_instance

omit [Fintype ι] [DecidableEq ι] in
instance (cfg : WalConfig) (fl : FlushThread) : Decidable (IndexFits cfg fl) := by
  unfold IndexFits
  induction fl.pc using FlushPc.casesOn <;> infer_instance

instance (cfg : WalConfig) (t : ι) (s : System ι) (l : Label ι) : Decidable (OneSealed cfg t s l) :=
  inferInstanceAs (Decidable ((ByOne cfg t s l ∧ LsnLeft s l ∧ (l = .flush → FreshStep s.flush)) ∧
    (l = .flush → IndexFits cfg s.flush)))

instance (cfg : WalConfig) (t : ι) (s : System ι) (l : Label ι) : Decidable (SoloOrderly cfg t s l) :=
  inferInstanceAs (Decidable (OneSealed cfg t s l ∧ SwapsFresh cfg s l))

end Runs

/-- Two appends with a `sync` between them, and `close`. -/
def twoAppends : List (Label (Fin 1)) :=
  [.call 0 (.append [7])] ++ turns 0 25 ++ [.call 0 .sync] ++ turns 0 18 ++
    List.replicate 18 .flush ++ turns 0 2 ++ [.call 0 (.append [8])] ++ turns 0 25 ++
    [.call 0 .close] ++ turns 0 18 ++ List.replicate 14 .flush ++ turns 0 1

theorem single_appender_two :
    ∃ s, execute stepOneBlock twoAppends (freshWal 1) = some s ∧ s.shared.closes = [[0, 1]] ∧
      s.shared.returned = [0, 1] ∧ Persisted (fun _ => 0) oneBlockConfig [[7], [8]] s.flush := by
  have hobserved : (execute stepOneBlock twoAppends (freshWal 1)).map
      (fun s => (s.shared.closes, s.pcs 0)) = some ([[0, 1]], .idle) := by decide +kernel
  obtain ⟨s, hrun, hs⟩ := Option.map_eq_some_iff.mp hobserved
  obtain ⟨hcloses, hidle⟩ := Prod.mk.inj hs
  have h : EndToEnd (fun _ => 0) oneBlockConfig 0 (freshWal 1) twoAppends s :=
    single_appender_end_to_end (by decide) (by decide) (by decide) (by decide +kernel) hrun
  exact ⟨s, hrun, hcloses, h.returned hidle, h.persisted (by simp [hcloses])⟩

/-- A payload that fills a buffer. -/
def fullPayload : Bytes := List.replicate 496 0

/-- An append finds no room behind the first frame. While it is between the send and the pop of
its swap, the flush thread recycles the buffer. -/
def swapsBack : List (Label (Fin 1)) :=
  [.call 0 (.append [7])] ++ turns 0 25 ++ [.call 0 (.append fullPayload)] ++ turns 0 9 ++
    List.replicate 18 .flush ++ turns 0 1

/-- The second append never returns, although every step but the swap meets the condition: it
waits for the active buffer to change, which it has reinstalled itself. -/
theorem swapped_back_append_never_returns :
    oneBlockConfig.validate = .ok () ∧ appended swapsBack = [[7], fullPayload] ∧
      Disciplined stepOneBlock (OneSealed oneBlockConfig 0) swapsBack (freshWal 1) ∧
      ∃ s, execute stepOneBlock swapsBack (freshWal 1) = some s ∧
        ∀ work s', (∀ l ∈ work, Working 0 l) → execute stepOneBlock work s = some s' →
          s'.pcs 0 ≠ .idle := by
  have hdisciplined :
      Disciplined stepOneBlock (OneSealed oneBlockConfig 0) swapsBack (freshWal 1) := by
    decide +kernel
  have hobserved : (execute stepOneBlock swapsBack (freshWal 1)).map (·.pcs 0) =
      some (.swap (.append fullPayload) 0 (.reset 0 1 0)) := by decide +kernel
  obtain ⟨s, hrun, hs⟩ := Option.map_eq_some_iff.mp hobserved
  have hself := ((OneRun.init (fun _ => 0) oneBlockConfig 0 _).execute
    (WalConfig.validate_eq_ok.mp (by decide)) (by decide) (by decide) hdisciplined hrun).alone.self
  have hsolo : Solo oneBlockConfig s.shared s.flush.pc (s.pcs 0) :=
    (hself.running (hself.not_stopped (by rw [hs]; rfl) (by simp [hs]) (by simp [hs]))
      (by rw [hs]; rfl)).1
  have htrapped : Trapped oneBlockConfig s.shared.toCore (s.pcs 0) := by
    rw [hs]
    exact .inr rfl
  exact ⟨by decide, rfl, hdisciplined, s, hrun, fun work s' hwork hexec =>
    (htrapped.execute hsolo hwork hexec).ne_idle⟩

end Todb.Wal

import Todb.Verification.Iterators.Endless
import Todb.Verification.Lsm.Files
import Todb.Verification.Lsm.RangeScan

/-! # What a scan of a store yields

The memtables are merged, so are the L0 files, and the first merge is laid over the second. All
of this presumes that the files can be positioned again: with an index of several levels in one
of them the full scan has no end. -/

namespace Todb.Lsm

open Library

variable {fuel : ℕ} {disk : DiskManager} {mems : MemId → MemTable Bytes Bytes} {state : LsmState}

/-! ## Opening all files -/

theorem exists_mapM {α β : Type} {f : α → Outcome β} {P : α → β → Prop} {l : List α}
    (h : ∀ x ∈ l, ∃ y, f x = .ok y ∧ P x y) :
    ∃ ys, l.mapM f = .ok ys ∧ List.Forall₂ P l ys := by
  induction l with
  | nil => exact ⟨[], rfl, .nil⟩
  | cons x l ih =>
      obtain ⟨y, hy, hP⟩ := h x List.mem_cons_self
      obtain ⟨ys, hys, hall⟩ := ih fun x' hx' => h x' (.tail _ hx')
      exact ⟨y :: ys, by simp [List.mapM_cons, hy, hys, bind, Except.bind, pure, Except.pure],
        .cons hP hall⟩

theorem mem_of_mapM {α β : Type} {f : α → Outcome β} {l : List α} {ys : List β}
    (h : l.mapM f = .ok ys) {x : α} (hx : x ∈ l) {y : β} (hy : f x = .ok y) : y ∈ ys := by
  induction l generalizing ys with
  | nil => cases hx
  | cons x' l ih =>
      rw [List.mapM_cons] at h
      obtain ⟨y', hy', h⟩ := bind_eq_ok.mp h
      obtain ⟨ys', hys', h⟩ := bind_eq_ok.mp h
      obtain rfl := Except.ok.inj h
      rcases List.mem_cons.mp hx with rfl | hx
      · obtain rfl := Except.ok.inj (hy.symm.trans hy')
        exact List.mem_cons_self
      · exact List.mem_cons_of_mem _ (ih hys' hx)

/-! ## Merging all sources -/

section Merge

variable {κ ν : Type} [LinearOrder κ] {d : Direction} {sources : List (List (κ × ν))}
  {l : List (κ × ν)}

/-- `l` has the entries of all sources in scan order. -/
structure Collects (d : Direction) (sources : List (List (κ × ν))) (l : List (κ × ν)) : Prop where
  sorted : d.Sorted l
  perm : l.Perm sources.flatten
  repeats : ∀ k, l.countP (fun e => some e.1 = k) ≤ sources.length

theorem collects_of_merges (hasc : ∀ source ∈ sources, Ascending source)
    (h : Merges d ((List.range sources.length).map fun i => (i, MergeIter.ranked sources i d)) l) :
    Collects d sources l := by
  refine ⟨h.sorted, ?_, fun k => ?_⟩
  · have hentries := h.perm_entries
    have horder : (sources.mapIdx fun i source => (i, d.order source)).map Prod.snd =
        sources.map d.order := List.ext_getElem (by simp) fun i hi hi' => by simp
    rw [← MergeIter.mapIdx_order, List.flatMap_def, horder, ← List.flatMap_def] at hentries
    rw [← List.flatMap_id]
    refine hentries.trans (List.Perm.flatMap_left _ fun source _ => ?_)
    cases d
    · exact .refl _
    · exact List.reverse_perm _
  · have hcount := h.countP_le (fun source hsource => ?_) k
    · simpa using hcount
    · obtain ⟨i, -, rfl⟩ := List.mem_map.mp hsource
      exact MergeIter.strict_ranked hasc i d

theorem Collects.repeats_overlay {sources' : List (List (κ × ν))} {l' : List (κ × ν)}
    (h : Collects d sources l) (h' : Collects d sources' l') (k : Option κ) :
    (overlay d l l').countP (fun e => some e.1 = k) ≤ sources.length + sources'.length := by
  rw [overlay_perm.countP_eq, List.countP_append]
  exact Nat.add_le_add (h.repeats k) (List.filter_sublist.countP_le.trans (h'.repeats k))

theorem Collects.mem_keys (h : Collects d sources l) {k : κ} :
    k ∈ l.map Prod.fst ↔ ∃ source ∈ sources, ∃ x ∈ source, x.1 = k := by
  rw [(h.perm.map _).mem_iff]
  simp only [List.mem_map, List.mem_flatten]
  constructor
  · rintro ⟨x, ⟨source, hsource, hx⟩, heq⟩
    exact ⟨source, hsource, x, hx, heq⟩
  · rintro ⟨source, hsource, x, hx, heq⟩
    exact ⟨x, ⟨source, hsource, hx⟩, heq⟩

section Overlay

variable {sources' : List (List (κ × ν))} {l' : List (κ × ν)} (h : Collects d sources l)
  (h' : Collects d sources' l')
include h h'

theorem Collects.mem_overlay {e : κ × ν} :
    e ∈ overlay d l l' ↔ (∃ source ∈ sources, e ∈ source) ∨
      (∃ source ∈ sources', e ∈ source) ∧ ¬∃ source ∈ sources, ∃ x ∈ source, x.1 = e.1 := by
  rw [overlay_perm.mem_iff, List.mem_append, List.mem_filter, decide_eq_true_iff, h.mem_keys,
    h.perm.mem_iff, h'.perm.mem_iff, List.mem_flatten, List.mem_flatten]

/-- A key is repeated by the union if two of the first sources have it, or two of the second and
none of the first. -/
theorem Collects.strict_overlay_iff (hasc : ∀ source ∈ sources, Ascending source)
    (hasc' : ∀ source ∈ sources', Ascending source) :
    d.Strict (overlay d l l') ↔
      sources.Pairwise (fun a b => ∀ x ∈ a, ∀ y ∈ b, x.1 ≠ y.1) ∧
      sources'.Pairwise fun a b => ∀ x ∈ a, ∀ y ∈ b, x.1 = y.1 →
        ∃ source ∈ sources, ∃ z ∈ source, z.1 = x.1 := by
  have hdistinct : ∀ {l : List (κ × ν)}, Ascending l → l.Pairwise fun a b => a.1 ≠ b.1 :=
    fun hl => hl.imp fun hlt => hlt.ne
  rw [Library.strict_overlay_iff h.sorted h'.sorted, h.sorted.strict_iff,
    Direction.Sorted.strict_iff (h'.sorted.filter _), h.perm.pairwise_iff Ne.symm,
    (h'.perm.filter _).pairwise_iff Ne.symm, List.filter_flatten, List.pairwise_flatten,
    List.pairwise_flatten, List.pairwise_map]
  refine and_congr ?_ ?_
  · exact and_iff_right fun source hsource => hdistinct (hasc source hsource)
  · rw [and_iff_right]
    · refine List.Pairwise.iff fun {a b} => ?_
      simp only [List.mem_filter, decide_eq_true_iff, h.mem_keys]
      constructor
      · intro hne x hx y hy heq
        by_contra hnone
        exact hne x ⟨hx, hnone⟩ y ⟨hy, heq ▸ hnone⟩ heq
      · intro hsome x hx y hy heq
        exact hx.2 (hsome x hx.1 y hy.1 heq)
    · intro source hsource
      obtain ⟨a, ha, rfl⟩ := List.mem_map.mp hsource
      exact (hdistinct (hasc' a ha)).filter _

end Overlay

/-- Cursors over sources without repetition are merged. -/
theorem exists_merge {ι ε : Type} [Cursor ι κ ν ε] {iters : List ι}
    (hiters : List.Forall₂ (fun it l => Cursor.Iterates (fun d => d.order l) it) iters sources)
    (hasc : ∀ source ∈ sources, Ascending source) :
    ∃ merged : Direction → List (κ × ν),
      (∀ d, Collects d sources (merged d)) ∧ Cursor.Iterates merged (MergeIter.new iters) := by
  obtain ⟨merged, hmerged⟩ := MergeIter.exists_merged hasc
  refine ⟨merged, fun d => collects_of_merges hasc (hmerged d), ?_⟩
  exact (MergeIter.simulation (MergeIter.strict_ranked hasc) hmerged).iterates
    (MergeIter.keeps_new hiters)

end Merge

/-- The entries of the memtables, the newest first. -/
def memSources (mems : MemId → MemTable Bytes Bytes) (state : LsmState) :
    List (List (Bytes × Entry Bytes)) :=
  (state.activeMem :: state.immMemtables).map fun mem => (mems mem).entries

/-- The entries of the files, the oldest first. -/
def fileSources (state : LsmState) : List (List (Bytes × Entry Bytes)) :=
  state.l0.map SstMeta.entries

/-- The files can be opened and, however often they are positioned, yield what they were built
from. -/
def Readable (fuel : ℕ) (disk : DiskManager) (state : LsmState) : Prop :=
  ∀ sst ∈ state.l0, Ascending sst.entries ∧ ∃ it, openSst fuel disk sst = .ok it ∧
    Cursor.Iterates (fun d => d.order sst.entries) it

theorem exists_sstSide (hlevels : state.levels.length ≤ 1) (hfiles : Readable fuel disk state)
    (hfuel : 0 < fuel) :
    ∃ (files : Direction → List (Bytes × Entry Bytes)) (side : SstSide fuel),
      (∀ d, Collects d (fileSources state) (files d)) ∧ buildSstSide fuel disk state = .ok side ∧
      Cursor.Iterates files side := by
  obtain ⟨l0Iters, hl0, hiters⟩ := exists_mapM fun sst hsst => (hfiles sst hsst).2
  obtain ⟨files, hcollects, hiterates⟩ := exists_merge
    (List.forall₂_map_right_iff.mpr hiters.flip) fun source hsource => by
      obtain ⟨sst, hsst, rfl⟩ := List.mem_map.mp hsource
      exact (hfiles sst hsst).1
  have hbelow : Cursor.Iterates (fun _ => [])
      (MergeIter.new ([] : List (ConcatIter (SstIter fuel FileBlockReader)))) :=
    (MergeIter.simulation (n := 0) (fun _ _ => .nil) fun _ => merges_nil).iterates
      ⟨.nil, by simp [MergeIter.new]⟩
  have hrun : ∀ (d : Direction) (k : Option Bytes),
      ([] : List (Bytes × Entry Bytes)).countP (fun e => some e.1 = k) < fuel := fun _ _ => hfuel
  obtain ⟨side, hside, hat⟩ := TwoMergeIter.exists_new hiterates hbelow
    (fun d => (hcollects d).sorted) (fun d => .nil) hrun
  refine ⟨files, side, hcollects, ?_, by simpa using hat.iterates⟩
  have hdrop : state.levels.drop 1 = [] := List.drop_eq_nil_of_le hlevels
  simp [buildSstSide, hl0, hdrop, hside, bind, Except.bind, pure, Except.pure]

theorem exists_mergedIter (hlevels : state.levels.length ≤ 1) (hfiles : Readable fuel disk state)
    (hfuel : state.l0.length < fuel) :
    ∃ (tables files : Direction → List (Bytes × Entry Bytes)) (it : MergedIter fuel),
      (∀ d, Collects d (memSources mems state) (tables d)) ∧
      (∀ d, Collects d (fileSources state) (files d)) ∧
      buildMergedIter fuel disk mems state = .ok it ∧
      Cursor.Iterates (fun d => overlay d (tables d) (files d)) it := by
  obtain ⟨files, side, hside, hbuild, hiterates⟩ := exists_sstSide hlevels hfiles (by omega)
  have hmems : List.Forall₂ (fun (it : OwnedMemTableIter) l => Cursor.Iterates (fun d => d.order l) it)
      ((state.activeMem :: state.immMemtables).map (OwnedMemTableIter.new mems))
      (memSources mems state) := by
    rw [memSources, List.forall₂_map_left_iff, List.forall₂_map_right_iff, List.forall₂_same]
    exact fun mem _ => OwnedMemTableIter.iterates _
  obtain ⟨tables, htables, hmerge⟩ := exists_merge hmems fun source hsource => by
    obtain ⟨mem, -, rfl⟩ := List.mem_map.mp hsource
    exact (mems mem).map.ascending
  obtain ⟨it, hit, hat⟩ := TwoMergeIter.exists_new hmerge hiterates
    (fun d => (htables d).sorted) (fun d => (hside d).sorted)
    fun d k => ((hside d).repeats k).trans_lt (by simpa [fileSources] using hfuel)
  refine ⟨tables, files, it, htables, hside, ?_, hat.iterates⟩
  simpa [buildMergedIter, hbuild, bind, Except.bind] using hit

/-- A scan of readable files and any memtables. -/
theorem exists_scan (hlevels : state.levels.length ≤ 1) (hfiles : Readable fuel disk state)
    (hfuel : state.immMemtables.length + state.l0.length + 1 < fuel) :
    ∃ tables files : Direction → List (Bytes × Entry Bytes),
      (∀ d, Collects d (memSources mems state) (tables d)) ∧
      (∀ d, Collects d (fileSources state) (files d)) ∧
      ∀ range d, ∃ scan, openScan fuel disk mems state range d = .ok scan ∧
        scan.Yields ((overlay d (tables d) (files d)).filter fun e => range.contains e.1) := by
  obtain ⟨tables, files, it, htables, hfiles, hbuild, hiterates⟩ :=
    @exists_mergedIter _ _ mems _ hlevels hfiles (by omega)
  refine ⟨tables, files, htables, hfiles, fun range d => ?_⟩
  have hcount : ∀ key, (overlay d (tables d) (files d)).countP (fun e => e.1 = key) < fuel := by
    intro key
    have hrepeats := (htables d).repeats_overlay (hfiles d) (some key)
    simp only [Option.some.injEq, memSources, fileSources, List.length_map,
      List.length_cons] at hrepeats
    omega
  obtain ⟨scan, hscan, hat⟩ := LsmScan.init_eq hiterates
    (sorted_overlay (htables d).sorted (hfiles d).sorted) range hcount
  refine ⟨scan, ?_, hat.yields_range⟩
  simp [openScan, hbuild, hscan, bind, Except.bind]

/-! ## Files with several index levels -/

section Endless

variable {ι : Type} [Cursor ι Bytes (Entry Bytes) Fault] {d : Direction} {P : ι → Prop}

theorem LsmScan.nexts_endless (hP : Cursor.Endless d P) {n : ℕ} {scan scan' : LsmScan ι}
    (hnexts : LsmScan.nexts n scan = .ok scan') (hdir : scan.dir = d) (hinner : P scan.inner) :
    scan'.dir = d ∧ scan'.range = scan.range ∧ P scan'.inner := by
  induction n generalizing scan with
  | zero =>
      obtain rfl := Ran.ok_inj.mp hnexts
      exact ⟨hdir, rfl, hinner⟩
  | succ n ih =>
      obtain ⟨mid, hmid, hnexts⟩ := Ran.bind_eq_ok.mp hnexts
      obtain ⟨inner, hnext, rfl⟩ := Ran.map_eq_ok.mp hmid
      rw [hdir] at hnext
      have hrest := ih hnexts hdir (hP.next hinner hnext)
      exact hrest

/-- A scan whose cursor never ends yields nothing that ends, unless its range does. -/
theorem LsmScan.not_yields_of_endless (hP : Cursor.Endless d P) {scan : LsmScan ι}
    (hdir : scan.dir = d) (hstop : scan.range.stop d = .unbounded) (hinner : P scan.inner)
    (l : List (Bytes × Entry Bytes)) : ¬ scan.Yields l := by
  intro hyields
  obtain ⟨scan', hscan', hvalid, -⟩ := hyields l.length
  obtain ⟨hdir', hrange, hinner'⟩ := LsmScan.nexts_endless hP hscan' hdir hinner
  simp only [LsmScan.valid, hP.valid hinner', if_true, lt_irrefl, decide_false] at hvalid
  obtain ⟨key, -, hvalid⟩ := bind_eq_ok.mp hvalid
  cases key with
  | none => cases hvalid
  | some key =>
      rw [hdir', hrange, hstop] at hvalid
      cases hvalid

end Endless

section Tall

variable {reader : FileBlockReader} {h : ℕ} {root : Position} {ls : List Leaf}
  (htree : WellFormedTree reader h root ls) (hpos : 0 < h)

/-- A side over files with a cursor that is stuck. -/
def SideStuck (reader : FileBlockReader) (h : ℕ) (root : Position) : SstSide fuel → Prop :=
  TwoMergeIter.Has (MergeIter.Has .forward (SstIter.Pinned reader h root)) fun _ => False

/-- A merge over such a side. -/
def MergedStuck (reader : FileBlockReader) (h : ℕ) (root : Position) : MergedIter fuel → Prop :=
  TwoMergeIter.Has (fun _ => False) (SideStuck reader h root)

include hpos in
theorem endless_sideStuck :
    Cursor.Endless .forward (SideStuck reader h root : SstSide fuel → Prop) :=
  TwoMergeIter.endless (MergeIter.endless (SstIter.endless_pinned hpos .forward))
    (Cursor.endless_false _)

include hpos in
theorem endless_mergedStuck :
    Cursor.Endless .forward (MergedStuck reader h root : MergedIter fuel → Prop) :=
  TwoMergeIter.endless (Cursor.endless_false _) (endless_sideStuck hpos)

include htree hpos in
/-- Positioning a side again gets a cursor stuck that has loaded a data block. -/
theorem sideStuck_of_seek {side side' : SstSide fuel}
    (hside : MergeIter.Has .forward (SstIter.Loaded reader h root) side.a)
    (hseek : Cursor.seekToFirst .forward side = .ok side') : SideStuck reader h root side' := by
  refine TwoMergeIter.has_place (MergeIter.endless (SstIter.endless_pinned hpos .forward))
    (Cursor.endless_false _) (fun ha _ => .inl ?_) hseek
  obtain ⟨-, w, hw, hloaded⟩ := hside
  exact MergeIter.has_place (List.mem_append_right _ hw)
    (fun hiter => hloaded.seekToFirst htree hpos hiter) (fun hpinned => hpinned.loaded.valid) ha

include htree hpos in
theorem mergedStuck_of_seek {it it' : MergedIter fuel}
    (hside : MergeIter.Has .forward (SstIter.Loaded reader h root) it.b.a)
    (hseek : Cursor.seekToFirst .forward it = .ok it') : MergedStuck reader h root it' :=
  TwoMergeIter.has_place (Cursor.endless_false _) (endless_sideStuck hpos)
    (fun _ hb => .inr (sideStuck_of_seek htree hpos hside hb)) hseek

theorem MergedStuck.loaded {it : MergedIter fuel} (hit : MergedStuck reader h root it) :
    MergeIter.Has .forward (SstIter.Loaded reader h root) it.b.a := by
  obtain ⟨hactive, w, hw, hpinned⟩ := (hit.1.resolve_left id).1.resolve_right id
  exact ⟨hactive, w, hw, hpinned.loaded⟩

end Tall

/-- A file with several index levels is positioned for the second time by the construction of the
merged cursor, and for the third time by the scan. -/
theorem not_yields_of_tall {sst : SstMeta} (hsst : sst ∈ state.l0) {reader : FileBlockReader}
    {footer : SstFooter} (hopen : disk.open sst.id = .ok (reader, footer))
    (hwf : WellFormedSst reader footer sst.entries) (hheight : 2 < footer.treeHeight.toNat)
    {scan : LsmScan (MergedIter fuel)}
    (hscan : openScan fuel disk mems state ⟨.unbounded, .unbounded⟩ .forward = .ok scan)
    (l : List (Bytes × Entry Bytes)) : ¬ scan.Yields l := by
  obtain ⟨hzero, -⟩ | ⟨h, ls, htall, htree, -⟩ := hwf.cases
  · simp [hzero] at hheight
  have hpos : 0 < h := by omega
  obtain ⟨merged, hmerged, hinit⟩ := bind_eq_ok.mp hscan
  obtain ⟨side, hside, hnew⟩ := bind_eq_ok.mp hmerged
  obtain ⟨l0Iters, hl0, hside⟩ := bind_eq_ok.mp hside
  obtain ⟨lnIters, -, hside⟩ := bind_eq_ok.mp hside
  have hfile : openSst fuel disk sst = .ok (SstIter.new fuel reader footer) := by
    simp [openSst, hopen, bind, Except.bind, pure, Except.pure]
  obtain ⟨i, hi, hget⟩ := List.mem_iff_getElem.mp (mem_of_mapM hl0 hsst hfile)
  have hloaded : MergeIter.Has .forward
      (SstIter.Loaded reader h footer.rootIndexBlockPosition) side.a := by
    refine (TwoMergeIter.kept_place (R := fun a _ => MergeIter.Has .forward
      (SstIter.Loaded reader h footer.rootIndexBlockPosition) a) (fun h _ => h) (fun ha _ => ?_)
      (Ran.outcome_eq_ok.mp hside)).1
    refine MergeIter.has_place (w := ⟨i, l0Iters[i]⟩)
      (List.mem_append_left _ (List.mem_mapIdx.mpr ⟨i, hi, rfl⟩)) (fun hiter => ?_)
      (fun hloaded => hloaded.valid) ha
    rw [hget] at hiter
    exact SstIter.loaded_of_new htall htree hiter
  have hstuck := mergedStuck_of_seek htree hpos hloaded (Ran.outcome_eq_ok.mp hnew)
  obtain ⟨inner, hseek, rfl⟩ := Ran.map_eq_ok.mp (Ran.outcome_eq_ok.mp hinit)
  have hstuck := mergedStuck_of_seek htree hpos hstuck.loaded hseek
  exact LsmScan.not_yields_of_endless (endless_mergedStuck hpos) rfl rfl hstuck l

end Todb.Lsm

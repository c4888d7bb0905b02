import Todb.Verification.Lsm.Merged
import Todb.Verification.Lsm.Recency

/-! # The last writer wins

One thread writes batches, and switches and flushes happen in between. What it wrote is a map in
which every key has its last entry; a scan is compared with that map. -/

namespace Todb.Lsm

open Library

/-! ## What was written -/

def WriteEntry.version (w : WriteEntry) : Bytes × Entry Bytes := (w.key, w.entry)

def Event.version (ev : Event) : Bytes × Entry Bytes := (ev.key, ev.entry)

/-- The batch of a `write` call. -/
def Label.batch : Label Unit → WriteBatch
  | .write _ batch => batch
  | _ => []

/-- What the `write` calls of a run were given. -/
def written (ls : List (Label Unit)) : List WriteEntry := ls.flatMap Label.batch

/-- The map in which the last write of a key wins. -/
def lastWrites (ls : List (Label Unit)) : SortedMap Bytes (Entry Bytes) :=
  .ofList ((written ls).map WriteEntry.version)

/-- The entries of a `write` call that are not in a memtable yet. -/
def Pc.unapplied : Pc → List WriteEntry
  | .append batch => batch
  | .snapshot batch => batch
  | .apply _ call => call.batch.drop call.places.length
  | _ => []

/-- What was put so far, and what the call in progress is going to put. -/
def Store.versions (s : Store Unit) : List (Bytes × Entry Bytes) :=
  s.history.map Event.version ++ (s.pcs ()).unapplied.map WriteEntry.version

variable {opt : LsmTableOption} {s s' : Store Unit} {l : Label Unit}

theorem Store.versions_of_none (hnone : (s.pcs ()).unapplied = []) :
    s.versions = s.history.map Event.version := by
  rw [Store.versions, hnone, List.map_nil, List.append_nil]

/-- A step between two points at which nothing is left to put. -/
theorem versions_quiet {pc : Pc} (hpc : s.pcs () = pc) (hnone : pc.unapplied = [])
    (hnone' : (s'.pcs ()).unapplied = []) (hhistory : s'.history = s.history) :
    s'.versions = s.versions := by
  subst hpc
  rw [Store.versions_of_none hnone, Store.versions_of_none hnone', hhistory]

/-- Applying the next entry of a batch. -/
theorem versions_apply {mem : MemId} {call : WriteCall} {entry : WriteEntry}
    (hpc : s.pcs () = .apply mem call) (hentry : call.nextEntry = some entry) :
    ((s.applyEntry mem entry).goto () (.apply mem (call.applied s.history.length))).versions =
      s.versions := by
  obtain ⟨hlt, hget⟩ := List.getElem?_eq_some_iff.mp hentry
  have hdrop : call.batch.drop call.places.length =
      entry :: call.batch.drop (call.places.length + 1) := by
    rw [List.drop_eq_getElem_cons hlt, hget]
  simp [Store.versions, hpc, Pc.unapplied, hdrop, Store.goto, Store.applyEntry, WriteCall.applied,
    Event.version, WriteEntry.version]

theorem versions_advance (hstep : s.advance opt () = some s') : s'.versions = s.versions := by
  rw [Store.advance] at hstep
  split at hstep
  case h_1 => simp at hstep
  case h_2 hpc | h_3 hpc =>
    obtain rfl := Option.some.inj hstep
    rw [Store.versions, Store.versions, hpc]
    rfl
  case h_4 hpc =>
    split at hstep
    · rename_i hentry
      exact Option.some.inj hstep ▸ versions_apply hpc hentry
    · rename_i hnone
      have happlied := List.drop_eq_nil_of_le (List.getElem?_eq_none_iff.mp hnone)
      split at hstep <;> obtain rfl := Option.some.inj hstep
      · exact versions_quiet hpc happlied rfl rfl
      · exact versions_quiet hpc happlied rfl rfl
  case h_5 hpc | h_6 hpc =>
    obtain rfl := Option.some.inj hstep
    refine versions_quiet hpc rfl rfl ?_
    rw [Store.switchMemtable]
    split <;> rfl
  case h_7 hpc =>
    split at hstep <;> obtain rfl := Option.some.inj hstep <;>
      exact versions_quiet hpc rfl rfl rfl
  case h_8 hpc =>
    split at hstep
    · simp at hstep
    · exact Option.some.inj hstep ▸ versions_quiet hpc rfl rfl rfl
  case h_9 caller hpc =>
    split at hstep <;> obtain rfl := Option.some.inj hstep
    · cases caller <;> exact versions_quiet hpc rfl rfl rfl
    · exact versions_quiet hpc rfl rfl rfl
  case h_10 hpc | h_11 hpc =>
    exact Option.some.inj hstep ▸ versions_quiet hpc rfl rfl rfl
  case h_12 hpc | h_13 hpc =>
    split at hstep <;> obtain rfl := Option.some.inj hstep <;>
      exact versions_quiet hpc rfl rfl rfl
  case h_14 caller _ _ hpc =>
    obtain rfl := Option.some.inj hstep
    cases caller <;> exact versions_quiet hpc rfl rfl rfl

theorem versions_failing (hok : Supported s (.fail ())) (hstep : s.failing () = some s') :
    s'.versions = s.versions := by
  rw [Store.failing] at hstep
  split at hstep
  · rename_i hpc
    rw [Supported, hpc] at hok
    exact absurd rfl hok
  · rename_i hpc
    exact Option.some.inj hstep ▸ versions_quiet hpc rfl rfl rfl
  · rename_i hpc
    exact Option.some.inj hstep ▸ versions_quiet hpc rfl rfl rfl
  · simp at hstep

theorem versions_call {pc : Pc} (hstep : s.call () pc = some s') :
    s'.versions = s.versions ++ pc.unapplied.map WriteEntry.version := by
  rw [Store.call] at hstep
  split at hstep
  · rename_i hpc
    obtain rfl := Option.some.inj hstep
    rw [Store.versions_of_none (s := s) (by rw [hpc]; rfl), Store.versions, goto_pcs]
    rfl
  · simp at hstep

/-- A step adds the batch it is called with. -/
theorem versions_step (hok : Supported s l) (hstep : s.step opt l = some s') :
    s'.versions = s.versions ++ l.batch.map WriteEntry.version := by
  cases l with
  | write _ batch => exact versions_call hstep
  | switch _ | flush _ => exact versions_call hstep
  | step _ => simpa [Label.batch] using versions_advance hstep
  | fail _ => simpa [Label.batch] using versions_failing hok hstep

theorem versions_execute {ls : List (Label Unit)} (hok : Disciplined (Store.step opt) Supported ls s)
    (hexec : execute (Store.step opt) ls s = some s') :
    s'.versions = s.versions ++ (written ls).map WriteEntry.version := by
  induction ls generalizing s with
  | nil =>
      obtain rfl := Option.some.inj hexec
      simp [written]
  | cons l ls ih =>
      obtain ⟨mid, hmid, hrest⟩ := Option.bind_eq_some_iff.mp hexec
      rw [ih (hok.2 mid hmid) hrest, versions_step hok.1 hmid, List.append_assoc, ← List.map_append]
      rfl

/-! ## The newest memtable that has the key -/

theorem exists_latest {history : List Event} {ev : Event} (hev : ev ∈ history) :
    ∃ entry, latest history ev.mem ev.key = some entry := by
  have hfound : (history.reverse.find? fun ev' => ev'.mem = ev.mem ∧ ev'.key = ev.key).isSome :=
    List.find?_isSome.mpr ⟨ev, List.mem_reverse.mpr hev, by simp⟩
  obtain ⟨found, hfound⟩ := Option.isSome_iff_exists.mp hfound
  exact ⟨found.entry, by rw [latest, hfound]; rfl⟩

/-- The last version of a key is the one in the newest memtable, switched out or not, that has
the key. -/
theorem mem_lastWrites_iff (hseq : Sequential s) (hr : Retained s) {e : Bytes × Entry Bytes} :
    e ∈ (SortedMap.ofList (s.history.map Event.version)).entries ↔
      ∃ m ∈ s.switchedOut ++ [s.state.activeMem], e ∈ (s.mems m).entries ∧
        ∀ m' ∈ s.switchedOut ++ [s.state.activeMem], m < m' →
          ∀ x ∈ (s.mems m').entries, x.1 ≠ e.1 := by
  rw [SortedMap.mem_ofList]
  constructor
  · rintro ⟨earlier, later, hsplit, hlater⟩
    obtain ⟨before, rest, hhistory, rfl, hrest⟩ := List.map_eq_append_iff.mp hsplit
    obtain ⟨ev, after, rfl, rfl, rfl⟩ := List.map_eq_cons_iff.mp hrest
    have hplace : s.history[before.length]? = some ev := by simp [hhistory]
    have hafter : s.history.drop (before.length + 1) = after := by
      rw [hhistory, List.append_cons, List.drop_left' (by simp)]
    have hlast : ∀ ev' ∈ after, ev'.key ≠ ev.key := fun ev' hev' =>
      hlater ev'.version (List.mem_map_of_mem hev')
    have hlatest : latest s.history ev.mem ev.key = some ev.entry :=
      latest_of_getElem? hplace fun ev' hev' => not_and_of_not_right _ (hlast ev' (hafter ▸ hev'))
    refine ⟨ev.mem, hr.placed ev (List.mem_of_getElem? hplace), (hr.held ev.mem _).mpr hlatest, ?_⟩
    intro m' _ hlt x hx heq
    -- The version of the newer memtable would have been written later.
    obtain ⟨j, hj⟩ := exists_writtenAt ((hr.held m' x).mp hx)
    have hi : WrittenAt s.history ev.mem ev.version before.length :=
      ⟨hplace, fun ev' hev' => not_and_of_not_right _ (hlast ev' (hafter ▸ hev'))⟩
    have hij : before.length < j := hi.lt hseq.ordered hj hlt
    refine hlast (Event.of m' x) ?_ heq
    rw [← hafter]
    exact List.mem_of_getElem? (i := j - (before.length + 1)) (by
      rw [List.getElem?_drop, Nat.add_sub_cancel' hij]
      exact hj.1)
  · rintro ⟨m, -, he, hnewest⟩
    obtain ⟨i, hi, hlast⟩ := exists_writtenAt ((hr.held m e).mp he)
    obtain ⟨hlt, hget⟩ := List.getElem?_eq_some_iff.mp hi
    have hsplit : s.history = s.history.take i ++ Event.of m e :: s.history.drop (i + 1) := by
      rw [← hget, List.getElem_cons_drop, List.take_append_drop]
    refine ⟨(s.history.take i).map Event.version, (s.history.drop (i + 1)).map Event.version, ?_, ?_⟩
    · conv_lhs => rw [hsplit]
      simp [Event.version, Event.of]
    · intro e' he' heq
      obtain ⟨ev, hev, rfl⟩ := List.mem_map.mp he'
      -- A later event of the key is one of a newer memtable.
      have hle : m ≤ ev.mem := by
        have hordered := hseq.ordered
        rw [hsplit] at hordered
        exact (List.pairwise_cons.mp (List.pairwise_append.mp hordered).2.1).1 ev hev
      have hne : m ≠ ev.mem := fun hmem => hlast ev hev ⟨hmem.symm, heq⟩
      have hmem : ev ∈ s.history := List.mem_of_mem_drop hev
      obtain ⟨entry, hentry⟩ := exists_latest hmem
      exact hnewest ev.mem (hr.placed ev hmem) (lt_of_le_of_ne hle hne) (ev.key, entry)
        ((hr.held ev.mem _).mpr hentry) heq

/-! ## What a scan merges -/

/-- No key is in two memtables, and none is in two files unless a memtable has it. -/
def ScansOnce (s : Store Unit) : Prop :=
  (memSources s.mems s.state).Pairwise (fun a b => ∀ x ∈ a, ∀ y ∈ b, x.1 ≠ y.1) ∧
    (fileSources s.state).Pairwise fun a b => ∀ x ∈ a, ∀ y ∈ b, x.1 = y.1 →
      ∃ source ∈ memSources s.mems s.state, ∃ z ∈ source, z.1 = x.1

instance (s : Store Unit) : Decidable (ScansOnce s) :=
  inferInstanceAs (Decidable (_ ∧ _))

theorem FlushInOrder.placed_iff (h : FlushInOrder s) {m : MemId} :
    m ∈ s.switchedOut ++ [s.state.activeMem] ↔
      m ∈ s.state.activeMem :: s.state.immMemtables ∨ m ∈ s.state.l0.map SstMeta.origin := by
  rw [← h.order]
  simp only [List.mem_append, List.mem_reverse, List.mem_cons, List.not_mem_nil, or_false]
  tauto

section Scan

variable {d : Direction} {tables files : List (Bytes × Entry Bytes)}
  (htables : Collects d (memSources s.mems s.state) tables)
  (hfiles : Collects d (fileSources s.state) files)
include htables hfiles

/-- What is merged from memtables and files is in the map, as long as no key is repeated. -/
theorem mem_overlay_iff (hseq : Sequential s) (hr : Retained s) (hf : FlushInOrder s)
    (honce : ScansOnce s) {e : Bytes × Entry Bytes} :
    e ∈ overlay d tables files ↔
      e ∈ (SortedMap.ofList (s.history.map Event.version)).entries := by
  obtain ⟨hmems, horigins, hcross⟩ := hf.descending
  have hmemOnce := List.pairwise_map.mp honce.1
  have hfileOnce := List.pairwise_map.mp honce.2
  rw [htables.mem_overlay hfiles, mem_lastWrites_iff hseq hr]
  simp only [memSources, fileSources, List.mem_map, exists_exists_and_eq_and]
  constructor
  · rintro (⟨m, hm, he⟩ | ⟨⟨sst, hsst, he⟩, hnone⟩)
    · refine ⟨m, hf.placed_iff.mpr (.inl hm), he, fun m' hm' hlt x hx heq => ?_⟩
      rcases hf.placed_iff.mp hm' with hm' | hm'
      · exact @List.Pairwise.forall _ _ _ ⟨fun a b hab x hx y hy heq => hab y hy x hx heq.symm⟩
          hmemOnce _ hm' _ hm hlt.ne' x hx e he heq
      · exact absurd hlt (hcross m hm m' hm').asymm
    · have horigin : sst.origin ∈ s.state.l0.map SstMeta.origin := List.mem_map_of_mem hsst
      refine ⟨sst.origin, hf.placed_iff.mpr (.inr horigin), hr.kept sst hsst ▸ he,
        fun m' hm' hlt x hx heq => hnone ?_⟩
      rcases hf.placed_iff.mp hm' with hm' | hm'
      · exact ⟨m', hm', x, hx, heq⟩
      · obtain ⟨sst', hsst', rfl⟩ := List.mem_map.mp hm'
        have hne : sst ≠ sst' := fun hsame => hlt.ne (congrArg SstMeta.origin hsame)
        have hboth := @List.Pairwise.forall _ _ _
          ⟨fun a b hab x hx y hy heq => heq ▸ hab y hy x hx heq.symm⟩ hfileOnce _ hsst _ hsst' hne
          e he x (hr.kept sst' hsst' ▸ hx) heq.symm
        simpa only [memSources, List.mem_map, exists_exists_and_eq_and] using hboth
  · rintro ⟨m, hm, he, hnewest⟩
    rcases hf.placed_iff.mp hm with hm | hm
    · exact .inl ⟨m, hm, he⟩
    · obtain ⟨sst, hsst, rfl⟩ := List.mem_map.mp hm
      refine .inr ⟨⟨sst, hsst, (hr.kept sst hsst).symm ▸ he⟩, ?_⟩
      rintro ⟨mem, hmem, x, hx, heq⟩
      exact hnewest mem (hf.placed_iff.mpr (.inl hmem))
        (hcross mem hmem sst.origin (List.mem_map_of_mem hsst)) x hx heq

/-- The merged sequence is the map in scan order exactly when no key is repeated. -/
theorem overlay_eq_iff (hseq : Sequential s) (hr : Retained s) (hf : FlushInOrder s) :
    overlay d tables files = d.order (SortedMap.ofList (s.history.map Event.version)).entries ↔
      ScansOnce s := by
  have hstrict := Direction.strict_order
    (SortedMap.ofList (s.history.map Event.version)).ascending d
  have honce : d.Strict (overlay d tables files) ↔ ScansOnce s := by
    refine htables.strict_overlay_iff hfiles (fun source hsource => ?_) fun source hsource => ?_
    · obtain ⟨mem, -, rfl⟩ := List.mem_map.mp hsource
      exact (s.mems mem).map.ascending
    · obtain ⟨sst, hsst, rfl⟩ := List.mem_map.mp hsource
      rw [hr.kept sst hsst]
      exact (s.mems sst.origin).map.ascending
  refine ⟨fun heq => honce.mp (heq ▸ hstrict), fun h => ?_⟩
  refine Direction.Strict.eq_of_mem_iff (honce.mpr h) hstrict fun e => ?_
  rw [mem_overlay_iff htables hfiles hseq hr hf h, Direction.mem_order]

end Scan

/-! ## Runs of one thread -/

theorem option_of_reaches {ok : Store Unit → Label Unit → Prop} {blockSize : ℕ}
    (h : Reaches (Store.step opt) ok (Store.new blockSize) s) : s.disk.option = ⟨blockSize⟩ := by
  refine h.invariant (P := fun s => s.disk.option = ⟨blockSize⟩) rfl ?_
  intro s l s' hs _ hstep
  cases step_effect hstep with
  | switch =>
      rw [Store.switchMemtable]
      split <;> exact hs
  | @empty caller => cases caller <;> exact hs
  | @publish caller => cases caller <;> exact hs
  | fails disk _ hdisk => exact (congrArg SstOption.mk hdisk).trans hs
  | _ => exact hs

/-- What the proofs about a run use of the state it ends in. -/
structure Rests (blockSize : ℕ) (ls : List (Label Unit)) (s : Store Unit) : Prop where
  intact : Intact s
  sequential : Sequential s
  retained : Retained s
  inOrder : FlushesRight s
  option_eq : s.disk.option = ⟨blockSize⟩
  history_eq : s.history.map Event.version = (written ls).map WriteEntry.version

theorem rests_of_execute {blockSize : ℕ} {ls : List (Label Unit)}
    (hok : Disciplined (Store.step opt) Supported ls (Store.new blockSize))
    (hexec : execute (Store.step opt) ls (Store.new blockSize) = some s)
    (hidle : s.pcs () = .idle) : Rests blockSize ls s := by
  have hreaches := Reaches.start.of_execute hok hexec
  obtain ⟨hseq, hretained, hflushes⟩ := sequential_of_reaches (hreaches.mono fun _ => trivial)
  refine ⟨hreaches.invariant (intact_new blockSize) fun h hok hstep => h.step hok hstep, hseq, hretained, hflushes,
    option_of_reaches hreaches, ?_⟩
  rw [← Store.versions_of_none (by rw [hidle]; rfl), versions_execute hok hexec]
  simp [Store.versions, Store.new, Pc.unapplied]

theorem order_filter {α : Type} (d : Direction) (p : α → Bool) (l : List α) :
    d.order (l.filter p) = (d.order l).filter p := by
  cases d with
  | forward => rfl
  | reverse => exact List.filter_reverse.symm

/-- The scans show the map of the last writes, over every range and in both directions. -/
def Refines (fuel : ℕ) (ls : List (Label Unit)) (s : Store Unit) : Prop :=
  ∀ range d, ∃ scan, openScan fuel s.disk s.mems s.state range d = .ok scan ∧
    scan.Yields (d.order ((lastWrites ls).entries.filter fun e => range.contains e.1))

namespace Rests

variable {blockSize : ℕ} {ls : List (Label Unit)} (h : Rests blockSize ls s)
include h

theorem key_written {mem : MemId} {e : Bytes × Entry Bytes} (he : e ∈ (s.mems mem).entries) :
    ∃ w ∈ written ls, w.key = e.1 := by
  have hversion := List.mem_map_of_mem (f := Event.version) (h.inOrder.recorded mem e he)
  rw [h.history_eq] at hversion
  obtain ⟨w, hw, heq⟩ := List.mem_map.mp hversion
  exact ⟨w, hw, congrArg Prod.fst heq⟩

/-- Every file opens as it was built. -/
theorem opens (hsize : blockSize < 2 ^ 32)
    (hpairs : ∀ a ∈ written ls, ∀ b ∈ written ls, indexFull ⟨blockSize⟩ [a.key] b.key = false)
    {sst : SstMeta} (hsst : sst ∈ s.state.l0) :
    Ascending sst.entries ∧ ∃ reader footer, s.disk.open sst.id = .ok (reader, footer) ∧
      WellFormedSst reader footer sst.entries ∧
      (footer.treeHeight.toNat ≤ 2 ↔ OneIndexBlock s.disk.option sst.entries) := by
  have hkept := h.retained.kept sst hsst
  have hasc : Ascending sst.entries := hkept ▸ (s.mems sst.origin).map.ascending
  refine ⟨hasc, (h.intact.onDisk sst hsst).opens ?_ hasc fun a ha b hb => ?_⟩
  · exact (congrArg SstOption.blockSize h.option_eq).trans_lt hsize
  · rw [hkept] at ha hb
    obtain ⟨v, hv, hav⟩ := h.key_written ha
    obtain ⟨w, hw, hbw⟩ := h.key_written hb
    rw [h.option_eq, ← hav, ← hbw]
    exact hpairs v hv w hw

/-- A full scan ends, so every file has one index block. -/
theorem oneIndexBlock_of_refines {fuel : ℕ} (hsize : blockSize < 2 ^ 32)
    (hpairs : ∀ a ∈ written ls, ∀ b ∈ written ls, indexFull ⟨blockSize⟩ [a.key] b.key = false)
    (hscans : Refines fuel ls s) {sst : SstMeta} (hsst : sst ∈ s.state.l0) :
    OneIndexBlock s.disk.option sst.entries := by
  obtain ⟨-, reader, footer, hopen, hwf, hheight⟩ := h.opens hsize hpairs hsst
  by_contra htall
  obtain ⟨scan, hscan, hyields⟩ := hscans ⟨.unbounded, .unbounded⟩ .forward
  have hlt : 2 < footer.treeHeight.toNat := not_le.mp fun hle => htall (hheight.mp hle)
  exact not_yields_of_tall hsst hopen hwf hlt hscan _ hyields

/-- With one index block in every file, the scans yield what is merged. -/
theorem refines_iff_scansOnce {fuel : ℕ} (hreadable : Readable fuel s.disk s.state)
    (hfuel : s.state.immMemtables.length + s.state.l0.length + 1 < fuel) :
    Refines fuel ls s ↔ ScansOnce s := by
  obtain ⟨tables, files, htables, hfiles, hyields⟩ :=
    @exists_scan _ _ s.mems _ h.intact.levels hreadable hfuel
  have heq := fun d => overlay_eq_iff (htables d) (hfiles d) h.sequential h.retained
    h.inOrder.toFlushInOrder
  rw [h.history_eq] at heq
  constructor
  · intro hscans
    obtain ⟨scan, hscan, hmap⟩ := hscans ⟨.unbounded, .unbounded⟩ .forward
    obtain ⟨scan', hscan', hover⟩ := hyields ⟨.unbounded, .unbounded⟩ .forward
    obtain rfl := Except.ok.inj (hscan.symm.trans hscan')
    have hall : ∀ l : List (Bytes × Entry Bytes),
        l.filter (fun e => ScanRange.contains ⟨.unbounded, .unbounded⟩ e.1) = l := fun l =>
      List.filter_eq_self.mpr fun _ _ => rfl
    rw [hall] at hover hmap
    exact (heq .forward).mp (hover.unique hmap)
  · intro honce range d
    obtain ⟨scan, hscan, hover⟩ := hyields range d
    refine ⟨scan, hscan, ?_⟩
    rw [(heq d).mpr honce, ← order_filter] at hover
    exact hover

theorem refines_iff {fuel : ℕ} (hsize : blockSize < 2 ^ 32)
    (hpairs : ∀ a ∈ written ls, ∀ b ∈ written ls, indexFull ⟨blockSize⟩ [a.key] b.key = false)
    (hfuel : s.state.immMemtables.length + s.state.l0.length + 1 < fuel) :
    Refines fuel ls s ↔
      (∀ sst ∈ s.state.l0, OneIndexBlock s.disk.option sst.entries) ∧ ScansOnce s := by
  have hreadable : (∀ sst ∈ s.state.l0, OneIndexBlock s.disk.option sst.entries) →
      Readable fuel s.disk s.state := by
    intro hblocks sst hsst
    obtain ⟨hasc, reader, footer, hopen, hwf, hheight⟩ := h.opens hsize hpairs hsst
    refine ⟨hasc, SstIter.new fuel reader footer, ?_,
      hwf.iterates (hheight.mpr (hblocks sst hsst)) (by omega)⟩
    simp [openSst, hopen, bind, Except.bind, pure, Except.pure]
  constructor
  · intro hscans
    have hblocks : ∀ sst ∈ s.state.l0, OneIndexBlock s.disk.option sst.entries :=
      fun _ hsst => h.oneIndexBlock_of_refines hsize hpairs hscans hsst
    exact ⟨hblocks, (h.refines_iff_scansOnce (hreadable hblocks) hfuel).mp hscans⟩
  · rintro ⟨hblocks, honce⟩
    exact (h.refines_iff_scansOnce (hreadable hblocks) hfuel).mpr honce

end Rests

/-- After every run of one thread whose WAL appends succeed, the scans show the map of the last
writes exactly when every file has one index block and no key is repeated: neither by two
memtables, nor by two files without a memtable over them. -/
theorem scans_lastWrites_iff {blockSize fuel : ℕ} {ls : List (Label Unit)}
    (hok : Disciplined (Store.step opt) Supported ls (Store.new blockSize))
    (hexec : execute (Store.step opt) ls (Store.new blockSize) = some s) (hidle : s.pcs () = .idle)
    (hsize : blockSize < 2 ^ 32)
    (hpairs : ∀ a ∈ written ls, ∀ b ∈ written ls, indexFull ⟨blockSize⟩ [a.key] b.key = false)
    (hfuel : s.state.immMemtables.length + s.state.l0.length + 1 < fuel) :
    Refines fuel ls s ↔
      (∀ sst ∈ s.state.l0, OneIndexBlock s.disk.option sst.entries) ∧ ScansOnce s :=
  (rests_of_execute hok hexec hidle).refines_iff hsize hpairs hfuel

/-- Two keys, each flushed to its own file. -/
theorem scans_lastWrites_two_keys : ∃ s : Store Unit,
    execute (Store.step ⟨0, 4⟩) (flushEach (.put [1] [2]) (.put [3] [4])) (Store.new 64) = some s ∧
      s.state.l0.length = 2 ∧ Refines 4 (flushEach (.put [1] [2]) (.put [3] [4])) s := by
  have hrun : (execute (Store.step ⟨0, 4⟩) (flushEach (.put [1] [2]) (.put [3] [4]))
      (Store.new 64 : Store Unit)).map (fun s => ((s.pcs ()).isIdle, s.state.immMemtables.length,
        s.state.l0.length, decide (∀ sst ∈ s.state.l0, OneIndexBlock s.disk.option sst.entries),
        decide (ScansOnce s))) = some (true, 0, 2, true, true) := by decide +kernel
  obtain ⟨s, hs, hobs⟩ := Option.map_eq_some_iff.mp hrun
  simp only [Prod.mk.injEq, decide_eq_true_eq] at hobs
  obtain ⟨hidle, himm, hl0, hblocks, honce⟩ := hobs
  refine ⟨s, hs, hl0, (scans_lastWrites_iff ?_ hs (Pc.eq_idle hidle) (by decide)
    (by decide) (by omega)).mpr ⟨hblocks, honce⟩⟩
  decide +kernel

/-- A key flushed twice is shown twice, the older version first. -/
theorem scans_lastWrites_fails : ∃ s : Store Unit,
    execute (Store.step ⟨0, 4⟩) (flushEach (.put [1] [2]) (.put [1] [3])) (Store.new 64) = some s ∧
      (lastWrites (flushEach (.put [1] [2]) (.put [1] [3]))).entries = [([1], .put [3])] ∧
      (Scanner.static ⟨s.state, ⟨.unbounded, .unbounded⟩, .forward, s.disk⟩ s.mems 2 :
        Scanner 4).outcome = ⟨[([1], .put [2]), ([1], .put [3])], .finished⟩ ∧
      ¬Refines 4 (flushEach (.put [1] [2]) (.put [1] [3])) s := by
  have hrun : (execute (Store.step ⟨0, 4⟩) (flushEach (.put [1] [2]) (.put [1] [3]))
      (Store.new 64 : Store Unit)).map (fun s => ((s.pcs ()).isIdle, s.state.immMemtables.length,
        s.state.l0.length, decide (ScansOnce s),
        (Scanner.static ⟨s.state, ⟨.unbounded, .unbounded⟩, .forward, s.disk⟩ s.mems 2 :
          Scanner 4).outcome)) =
      some (true, 0, 2, false, ⟨[([1], .put [2]), ([1], .put [3])], .finished⟩) := by decide +kernel
  obtain ⟨s, hs, hobs⟩ := Option.map_eq_some_iff.mp hrun
  simp only [Prod.mk.injEq, decide_eq_false_iff_not] at hobs
  obtain ⟨hidle, himm, hl0, honce, hscan⟩ := hobs
  have hrests := @rests_of_execute _ _ 64 _ (by decide +kernel) hs (Pc.eq_idle hidle)
  refine ⟨s, hs, by decide +kernel, hscan, fun hrefines => honce ?_⟩
  exact ((hrests.refines_iff (by decide) (by decide) (by omega)).mp hrefines).2

end Todb.Lsm

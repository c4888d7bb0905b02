import Todb.Verification.Iterators.Alike
import Todb.Verification.Lsm.Steps
import Todb.Model.Lsm.Scan

/-! # Batches and scans

A batch goes into the memtable entry by entry, and a scan reads the same memtable. What a scan
yields is that of one state as long as it is positioned before or after the whole batch, and
every entry put meanwhile falls behind its cursor in that memtable. -/

namespace Todb.Lsm

open Library List

/-! ## Cursors over two contents of one memtable -/

section Cursors

variable {d : Direction} {live world : MemId → MemTable Bytes Bytes}

theorem comesBefore_trans {κ : Type} [LinearOrder κ] {a b c : κ} (hab : d.comesBefore a b)
    (hbc : d.comesBefore b c) : d.comesBefore a c := by
  cases d with
  | forward => exact lt_trans hab hbc
  | reverse => exact lt_trans hbc hab

/-- The entries of a table that come after a key. -/
def entriesAfter (d : Direction) (mem : MemTable Bytes Bytes) (key : Bytes) : List (Bytes × Entry Bytes) :=
  mem.map.entries.filter fun e => d.comesBefore key e.1

/-- The cursors hold the same entry, and beyond it the two contents are the same. -/
structure Alike (d : Direction) (live world : MemId → MemTable Bytes Bytes)
    (it it' : OwnedMemTableIter) : Prop where
  mem : it.mem = it'.mem
  item : it.item = it'.item
  after : ∀ {e}, it.item = some e → entriesAfter d (live it.mem) e.1 = entriesAfter d (world it.mem) e.1

/-- The cursors see the two contents. -/
structure AlikeNow (d : Direction) (live world : MemId → MemTable Bytes Bytes)
    (it it' : OwnedMemTableIter) : Prop extends Alike d live world it it' where
  live : it.map = (live it.mem).map
  world : it'.map = (world it'.mem).map

theorem Alike.refresh {it it' : OwnedMemTableIter} (h : Alike d live world it it') :
    AlikeNow d live world (it.refresh live) (it'.refresh world) :=
  ⟨⟨h.mem, h.item, h.after⟩, rfl, rfl⟩

theorem OwnedMemTableIter.next_item (it : OwnedMemTableIter) {e : Bytes × Entry Bytes}
    (h : it.item = some e) :
    (it.next d).item = (it.entries d).find? fun e' => d.comesBefore e.1 e'.1 := by
  simp [OwnedMemTableIter.next, h]

theorem find?_entries (it : OwnedMemTableIter) (mem : MemTable Bytes Bytes)
    (hmap : it.map = mem.map) (key : Bytes) :
    (it.entries d).find? (fun e => d.comesBefore key e.1) =
      match d with
      | .forward => (entriesAfter d mem key).head?
      | .reverse => (entriesAfter d mem key).getLast? := by
  cases d with
  | forward => simp [OwnedMemTableIter.entries, entriesAfter, hmap]
  | reverse =>
      rw [OwnedMemTableIter.entries, entriesAfter, hmap, ← List.head?_filter, List.filter_reverse,
        List.head?_reverse]

/-- Beyond an entry that comes later, the contents are the same all the more. -/
theorem entriesAfter_of_comesBefore {mem : MemTable Bytes Bytes} {key key' : Bytes}
    (h : d.comesBefore key key') :
    entriesAfter d mem key' = (entriesAfter d mem key).filter fun e => d.comesBefore key' e.1 := by
  rw [entriesAfter, entriesAfter, List.filter_filter]
  refine List.filter_congr fun e _ => ?_
  by_cases hlater : d.comesBefore key' e.1
  · simp [hlater, comesBefore_trans h hlater]
  · simp [hlater]

theorem alikeNow_bisimulation : Cursor.Bisimulation d (AlikeNow d live world) := by
  refine ⟨?_, ?_, ?_, ?_⟩
  · intro it it' h
    exact congrArg Option.isSome h.item
  · intro it it' h
    exact congrArg (fun item : Option (Bytes × Entry Bytes) => Except.ok (item.map Prod.fst)) h.item
  · intro it it' h
    exact congrArg (fun item : Option (Bytes × Entry Bytes) => Except.ok (item.map Prod.snd)) h.item
  · intro it it' h
    refine .ok ?_
    cases hitem : it.item with
    | none =>
        have hitem' : it'.item = none := h.item ▸ hitem
        exact ⟨⟨h.mem, by simp [OwnedMemTableIter.next, hitem, hitem'],
          by simp [OwnedMemTableIter.next, hitem]⟩, h.live, h.world⟩
    | some e =>
        have hitem' : it'.item = some e := h.item ▸ hitem
        have hsame : (it.next d).item = (it'.next d).item := by
          rw [it.next_item hitem, it'.next_item hitem', find?_entries it _ h.live,
            find?_entries it' _ h.world, ← h.mem, h.after hitem]
        refine ⟨⟨h.mem, hsame, ?_⟩, h.live, h.world⟩
        intro e' he'
        have hlater : d.comesBefore e.1 e'.1 := by
          rw [it.next_item hitem] at he'
          simpa using List.find?_some he'
        change entriesAfter d (live it.mem) e'.1 = entriesAfter d (world it.mem) e'.1
        rw [entriesAfter_of_comesBefore hlater, h.after hitem, ← entriesAfter_of_comesBefore hlater]

/-- Inserting what a filter drops. -/
theorem filter_insertSorted {p : Bytes × Entry Bytes → Bool} {key : Bytes} {entry : Entry Bytes}
    {l : List (Bytes × Entry Bytes)} (h : ∀ e, e.1 = key → p e = false) :
    (insertSorted key entry l).filter p = l.filter p := by
  induction l with
  | nil => simp [insertSorted, h]
  | cons e l ih =>
      rw [insertSorted]
      split
      · simp [h (key, entry) rfl]
      · rename_i hge
        split
        · simp [List.filter_cons, ih]
        · rename_i hle
          have heq : e.1 = key := le_antisymm (not_lt.mp hge) (not_lt.mp hle)
          simp [h (key, entry) rfl, h e heq]

/-- An entry that goes behind the cursor is not seen. -/
theorem Alike.put {it it' : OwnedMemTableIter} (h : Alike d live world it it') {mem : MemId}
    {entry : WriteEntry}
    (hpassed : it.mem = mem → ∀ {e}, it.item = some e → ¬d.comesBefore e.1 entry.key) :
    Alike d (Function.update live mem (entry.apply (live mem))) world it it' := by
  refine ⟨h.mem, h.item, ?_⟩
  intro e he
  by_cases hmem : it.mem = mem
  · rw [hmem, Function.update_self, ← hmem, ← h.after he, entriesAfter, WriteEntry.apply_map]
    refine filter_insertSorted fun e' he' => ?_
    simpa [he'] using hpassed hmem he
  · rw [Function.update_of_ne hmem]
    exact h.after he

end Cursors

/-! ## Scans over two contents -/

section Scans

variable {fuel : ℕ} {d : Direction} {live world : MemId → MemTable Bytes Bytes}

/-- The scans stand at the same entry and go on alike. -/
structure ScanRel (d : Direction) (R : OwnedMemTableIter → OwnedMemTableIter → Prop)
    (scan scan' : LsmScan (MergedIter fuel)) : Prop where
  inner : TwoMergeIter.Rel (MergeIter.Rel R) Eq scan.inner scan'.inner
  range : scan.range = scan'.range
  dir : scan.dir = d
  dir' : scan'.dir = d

theorem ScanRel.refresh {scan scan' : LsmScan (MergedIter fuel)}
    (h : ScanRel d (Alike d live world) scan scan') :
    ScanRel d (AlikeNow d live world) (refresh live scan) (refresh world scan') := by
  have hwraps : ∀ {ws ws' : List (HeapWrap OwnedMemTableIter)},
      Forall₂ (Todb.HeapWrap.Rel (Alike d live world)) ws ws' →
        Forall₂ (Todb.HeapWrap.Rel (AlikeNow d live world)) (ws.map (HeapWrap.refresh live))
          (ws'.map (HeapWrap.refresh world)) := by
    intro ws ws' hws
    rw [forall₂_map_left_iff, forall₂_map_right_iff]
    exact hws.imp fun _ _ hw => ⟨hw.1, hw.2.refresh⟩
  exact ⟨⟨⟨h.inner.a.active, hwraps h.inner.a.items, hwraps h.inner.a.heap⟩, h.inner.b,
    h.inner.current⟩, h.range, h.dir, h.dir'⟩

theorem ScanRel.mono {R R' : OwnedMemTableIter → OwnedMemTableIter → Prop}
    {scan scan' : LsmScan (MergedIter fuel)} (h : ScanRel d R scan scan')
    (hR : ∀ w ∈ scan.inner.a.items ++ scan.inner.a.heap, ∀ it', R w.iter it' → R' w.iter it') :
    ScanRel d R' scan scan' := by
  have hwraps : ∀ {ws ws' : List (HeapWrap OwnedMemTableIter)},
      (∀ w ∈ ws, ∀ it', R w.iter it' → R' w.iter it') → Forall₂ (Todb.HeapWrap.Rel R) ws ws' →
        Forall₂ (Todb.HeapWrap.Rel R') ws ws' := by
    intro ws ws' hsub hws
    induction hws with
    | nil => exact .nil
    | cons hw _ ih =>
        exact .cons ⟨hw.1, hsub _ (by simp) _ hw.2⟩ (ih fun w hmem => hsub w (by simp [hmem]))
  exact ⟨⟨⟨h.inner.a.active, hwraps (fun w hw => hR w (mem_append_left _ hw)) h.inner.a.items,
    hwraps (fun w hw => hR w (mem_append_right _ hw)) h.inner.a.heap⟩, h.inner.b,
    h.inner.current⟩, h.range, h.dir, h.dir'⟩

theorem scanRel_refl (scan : LsmScan (MergedIter fuel)) (hdir : scan.dir = d) :
    ScanRel d (Alike d world world) scan scan := by
  have hwraps : ∀ ws : List (HeapWrap OwnedMemTableIter),
      Forall₂ (Todb.HeapWrap.Rel (Alike d world world)) ws ws :=
    fun ws => forall₂_same.mpr fun w _ => ⟨rfl, rfl, rfl, fun _ => rfl⟩
  exact ⟨⟨⟨rfl, hwraps _, hwraps _⟩, rfl, rfl⟩, rfl, hdir, hdir⟩

theorem merged_bisimulation : Cursor.Bisimulation d
    (TwoMergeIter.Rel (MergeIter.Rel (AlikeNow d live world)) Eq : MergedIter fuel → _ → Prop) :=
  TwoMergeIter.bisimulation (MergeIter.bisimulation alikeNow_bisimulation)
    (Cursor.bisimulation_eq d)

/-- Clients of scans that go on alike. -/
inductive ScannerRel (live world : MemId → MemTable Bytes Bytes) :
    Scanner fuel → Scanner fuel → Prop
  | reading {query : Query} {scan scan' : LsmScan (MergedIter fuel)}
      {read : List (Bytes × Entry Bytes)}
      (h : ScanRel query.dir (Alike query.dir live world) scan scan') :
      ScannerRel live world (.reading query scan read) (.reading query scan' read)
  | finished {query : Query} {read : List (Bytes × Entry Bytes)} :
      ScannerRel live world (.finished query read) (.finished query read)
  | failed {query : Query} {fault : Fault} {read : List (Bytes × Entry Bytes)} :
      ScannerRel live world (.failed query fault read) (.failed query fault read)

/-- Clients that read the same from two scans. -/
theorem look_of_reads {query : Query} {read : List (Bytes × Entry Bytes)}
    {scan scan' : LsmScan (MergedIter fuel)} (hvalid : scan.valid = scan'.valid)
    (hkey : scan.key = scan'.key) (hvalue : scan.value = scan'.value)
    (h : ScanRel query.dir (Alike query.dir live world) scan scan') :
    ScannerRel live world (Scanner.look query read scan) (Scanner.look query read scan') := by
  rw [Scanner.look, Scanner.look, hvalid, hkey, hvalue]
  generalize scan'.valid = valid
  generalize scan'.key = key
  generalize scan'.value = value
  rcases valid with fault | _ | _
  · exact .failed
  · exact .finished
  · rcases key with fault | _ | key
    · exact .failed
    · rcases value with fault | _ | value <;> exact .failed
    · rcases value with fault | _ | value
      · exact .failed
      · exact .failed
      · exact .reading h

theorem look_rel {query : Query} {read : List (Bytes × Entry Bytes)}
    {scan scan' : LsmScan (MergedIter fuel)}
    (h : ScanRel query.dir (AlikeNow query.dir live world) scan scan') :
    ScannerRel live world (Scanner.look query read scan) (Scanner.look query read scan') := by
  have hvalid : scan.valid = scan'.valid := by
    rw [LsmScan.valid, LsmScan.valid, merged_bisimulation.valid h.inner,
      merged_bisimulation.key h.inner, h.range, h.dir, h.dir']
  refine look_of_reads hvalid ?_ ?_ (h.mono fun _ _ _ hit => hit.toAlike)
  · rw [LsmScan.key, LsmScan.key, hvalid, merged_bisimulation.key h.inner]
  · rw [LsmScan.value, LsmScan.value, hvalid, merged_bisimulation.value h.inner]

theorem advance_rel {scanner scanner' : Scanner fuel} (h : ScannerRel live world scanner scanner') :
    ScannerRel live world (scanner.advance live) (scanner'.advance world) := by
  cases h with
  | @reading query scan scan' read hscan =>
      have hfresh := hscan.refresh
      have hrel : Ran.Rel (ScanRel query.dir (AlikeNow query.dir live world))
          (refresh live scan).next (refresh world scan').next := by
        rw [LsmScan.next, LsmScan.next, hfresh.dir, hfresh.dir']
        refine (merged_bisimulation.next hfresh.inner).map ?_
        intro inner inner' hinner
        exact ⟨hinner, hfresh.range, rfl, rfl⟩
      rw [Scanner.advance, Scanner.advance, Ran.outcome, Ran.outcome, hrel.1]
      cases (refresh world scan').next.result with
      | ok => exact look_rel hrel.2
      | error fault => exact .failed
  | finished => exact .finished
  | failed => exact .failed

theorem openScan_dir {disk : DiskManager} {state : LsmState} {range : ScanRange}
    {scan : LsmScan (MergedIter fuel)} (h : openScan fuel disk live state range d = .ok scan) :
    scan.dir = d := by
  rw [openScan] at h
  cases hbuild : buildMergedIter fuel disk live state with
  | error fault => simp [hbuild, bind, Except.bind] at h
  | ok merged =>
      have h : (LsmScan.init fuel ⟨d, merged, range⟩).outcome = .ok scan := by
        simpa [hbuild, bind, Except.bind] using h
      rw [Ran.outcome] at h
      split at h
      · rw [← Except.ok.inj h]
        rfl
      · simp at h

/-- A scan that has just been positioned goes on as over the contents it found. -/
theorem position_rel (query : Query) (mems : MemId → MemTable Bytes Bytes) :
    ScannerRel mems mems (Scanner.position query mems : Scanner fuel)
      (Scanner.position query mems) := by
  rw [Scanner.position]
  cases hopen : openScan fuel query.disk mems query.state query.range query.dir with
  | error fault => exact .failed
  | ok scan => exact look_of_reads rfl rfl rfl (scanRel_refl scan (openScan_dir hopen))

end Scans

/-! ## One batch among scans -/

section Runs

variable {fuel : ℕ} {ξ : Type} {opt : LsmTableOption} {store : Store Unit} {batch : WriteBatch}

/-- The memtables after the first entries of the batch. -/
def afterEntries (store : Store Unit) (batch : WriteBatch) (j : ℕ) :
    MemId → MemTable Bytes Bytes :=
  Function.update store.mems store.state.activeMem
    ((batch.take j).foldl (fun mem entry => entry.apply mem) (store.mems store.state.activeMem))

/-- The memtables after the whole batch. -/
def afterBatch (store : Store Unit) (batch : WriteBatch) : MemId → MemTable Bytes Bytes :=
  afterEntries store batch batch.length

@[simp] theorem afterEntries_zero : afterEntries store batch 0 = store.mems := by
  simp [afterEntries]

theorem afterEntries_succ {j : ℕ} {entry : WriteEntry} (h : batch[j]? = some entry) :
    afterEntries store batch (j + 1) =
      Function.update (afterEntries store batch j) store.state.activeMem
        (entry.apply (afterEntries store batch j store.state.activeMem)) := by
  simp [afterEntries, List.take_add_one, h]

/-- Which query a scanner is at, once it is positioned. -/
def Scanner.query? : Scanner fuel → Option Query
  | .reading query _ _ | .finished query _ | .failed query _ _ => some query
  | _ => none

/-- Every cursor of the scan over the memtable has come to the key or gone past it. -/
def Scanner.Passed (mem : MemId) (key : Bytes) : Scanner fuel → Prop
  | .reading _ scan _ => ∀ w ∈ scan.inner.a.items ++ scan.inner.a.heap, w.iter.mem = mem →
      ∀ e ∈ w.iter.item, ¬scan.dir.comesBefore e.1 key
  | _ => True

instance (mem : MemId) (key : Bytes) (scanner : Scanner fuel) :
    Decidable (scanner.Passed mem key) := by
  unfold Scanner.Passed
  split <;> infer_instance

/-- The condition on a step: a scan is positioned before the first or after the last put of the
batch, and an entry is put behind the cursor of every scan that is going on. -/
def Unmixed (s : Readers fuel ξ) : ReadersLabel ξ → Prop
  | .write => match s.store.pcs () with
      | .apply mem call => ∀ entry ∈ call.nextEntry, ∀ x, (s.scanners x).Passed mem entry.key
      | _ => True
  | .position _ => match s.store.pcs () with
      | .apply _ call => call.places = [] ∨ call.nextEntry = none
      | _ => True
  | _ => True

instance [Fintype ξ] (s : Readers fuel ξ) (l : ReadersLabel ξ) : Decidable (Unmixed s l) := by
  unfold Unmixed
  split
  · split <;> infer_instance
  · split <;> infer_instance
  · infer_instance

theorem ScannerRel.put {live world : MemId → MemTable Bytes Bytes} {scanner scanner' : Scanner fuel}
    (h : ScannerRel live world scanner scanner') {mem : MemId} {entry : WriteEntry}
    (hpassed : scanner.Passed mem entry.key) :
    ScannerRel (Function.update live mem (entry.apply (live mem))) world scanner scanner' := by
  cases h with
  | reading hscan =>
      refine .reading (hscan.mono fun w hw it' hit => hit.put fun hmem e he => ?_)
      rw [← hscan.dir]
      exact hpassed w hw hmem e he
  | finished => exact .finished
  | failed => exact .failed

/-- How far the writer has got with its batch. -/
def WriterAt (store : Store Unit) (batch : WriteBatch) (j : ℕ) (now : Store Unit) : Prop :=
  match now.pcs () with
  | .append b | .snapshot b => b = batch ∧ j = 0 ∧ now.state.activeMem = store.state.activeMem
  | .apply mem call => mem = store.state.activeMem ∧ call.batch = batch ∧ call.places.length = j
  | _ => j = 0 ∨ j = batch.length

/-- The memtables are those after `j` entries, and every scan goes on as over the memtables
before or after the batch. -/
structure AtomicAt (store : Store Unit) (batch : WriteBatch) (j : ℕ) (s : Readers fuel ξ) : Prop where
  mems : s.store.mems = afterEntries store batch j
  le : j ≤ batch.length
  writer : WriterAt store batch j s.store
  scans : ∀ x query, (s.scanners x).query? = some query → ∃ n world,
    (world = store.mems ∨ world = afterBatch store batch) ∧
      ScannerRel s.store.mems world (s.scanners x) (Scanner.static query world n)

theorem ScannerRel.outcome_eq {live world : MemId → MemTable Bytes Bytes}
    {scanner scanner' : Scanner fuel} (h : ScannerRel live world scanner scanner') :
    scanner.outcome = scanner'.outcome := by
  cases h <;> rfl

/-- Past the loop over the entries. -/
def Pc.late : Pc → Bool
  | .append _ | .snapshot _ | .apply _ _ => false
  | _ => true

section Writer

variable {now now' : Store Unit} {j : ℕ}

theorem writerAt_of_late (h : (now.pcs ()).late = true) :
    WriterAt store batch j now ↔ j = 0 ∨ j = batch.length := by
  rw [WriterAt]
  cases hpc : now.pcs () <;> simp_all [Pc.late]

/-- Past its loop, the writer puts nothing. -/
theorem advance_late (h : now.advance opt () = some now') (hlate : (now.pcs ()).late = true) :
    now'.mems = now.mems ∧ (now'.pcs ()).late = true := by
  rw [Store.advance] at h
  split at h
  case h_1 => simp at h
  case h_2 hpc => simp [hpc, Pc.late] at hlate
  case h_3 hpc => simp [hpc, Pc.late] at hlate
  case h_4 hpc => simp [hpc, Pc.late] at hlate
  case h_5 | h_6 =>
    rw [← Option.some.inj h, Store.switchMemtable]
    split <;> exact ⟨rfl, by simp [Store.goto, Pc.late]⟩
  case h_9 caller _ =>
    split at h <;> rw [← Option.some.inj h]
    · cases caller <;> exact ⟨rfl, by simp [Store.flushReturns, Store.ack, Store.goto, Pc.late]⟩
    · exact ⟨rfl, by simp [Store.goto, Pc.late]⟩
  case h_14 caller _ _ _ =>
    rw [← Option.some.inj h]
    cases caller <;> exact ⟨rfl, by simp [Store.flushReturns, Store.ack, Store.goto, Pc.late]⟩
  case h_10 | h_11 =>
    rw [← Option.some.inj h]
    exact ⟨rfl, by simp [Store.goto, Pc.late]⟩
  case h_8 =>
    split at h
    · simp at h
    · rw [← Option.some.inj h]
      exact ⟨rfl, by simp [Store.goto, Pc.late]⟩
  case h_7 | h_12 | h_13 =>
    split at h <;> rw [← Option.some.inj h] <;>
      exact ⟨rfl, by simp [Store.ack, Store.flushFails, Store.goto, Pc.late]⟩

/-- A step of the writer puts the next entry or leaves the memtables alone. -/
theorem writer_step (h : now.advance opt () = some now') (hat : WriterAt store batch j now)
    (hle : j ≤ batch.length) :
    (now'.mems = now.mems ∧ WriterAt store batch j now') ∨
      ∃ mem call entry, now.pcs () = .apply mem call ∧ mem = store.state.activeMem ∧
        call.nextEntry = some entry ∧ batch[j]? = some entry ∧
        now'.mems = Function.update now.mems mem (entry.apply (now.mems mem)) ∧
        WriterAt store batch (j + 1) now' := by
  by_cases hlate : (now.pcs ()).late = true
  · obtain ⟨hmems, hlate'⟩ := advance_late h hlate
    exact .inl ⟨hmems, (writerAt_of_late hlate').mpr ((writerAt_of_late hlate).mp hat)⟩
  · rw [Store.advance] at h
    rw [WriterAt] at hat
    cases hpc : now.pcs () with
    | append batch' =>
        rw [hpc] at h hat
        refine .inl ?_
        rw [← Option.some.inj h]
        exact ⟨rfl, by simpa [WriterAt, Store.goto] using hat⟩
    | snapshot batch' =>
        rw [hpc] at h hat
        obtain ⟨rfl, rfl, hactive⟩ := hat
        refine .inl ?_
        rw [← Option.some.inj h]
        exact ⟨rfl, by simpa [WriterAt, Store.goto] using hactive⟩
    | apply mem call =>
        rw [hpc] at hat
        simp only [hpc] at h
        obtain ⟨rfl, rfl, rfl⟩ := hat
        cases hentry : call.nextEntry with
        | some entry =>
            refine .inr ⟨_, call, entry, rfl, rfl, hentry, hentry, ?_⟩
            simp only [hentry] at h
            rw [← Option.some.inj h]
            exact ⟨rfl, by simp [WriterAt, Store.goto, WriteCall.applied]⟩
        | none =>
            have hdone : call.places.length = call.batch.length :=
              le_antisymm hle (List.getElem?_eq_none_iff.mp hentry)
            simp only [hentry] at h
            refine .inl ?_
            split at h <;> rw [← Option.some.inj h] <;>
              exact ⟨rfl, by simp [WriterAt, Store.ack, Store.goto, hdone]⟩
    | _ => simp [hpc, Pc.late] at hlate

theorem writer_fails (h : now.failing () = some now') (hat : WriterAt store batch j now) :
    now'.mems = now.mems ∧ WriterAt store batch j now' := by
  rw [Store.failing] at h
  rw [WriterAt] at hat
  split at h
  case h_1 hpc =>
    rw [hpc] at hat
    rw [← Option.some.inj h]
    exact ⟨rfl, by simp [WriterAt, Store.goto, hat.2.1]⟩
  case h_2 hpc =>
    rw [hpc] at hat
    rw [← Option.some.inj h]
    exact ⟨rfl, by simpa [WriterAt, Store.flushFails, Store.goto] using hat⟩
  case h_3 hpc =>
    rw [hpc] at hat
    rw [← Option.some.inj h]
    exact ⟨rfl, by simpa [WriterAt, Store.flushFails, Store.goto] using hat⟩
  case h_4 => simp at h

end Writer

/-! ## The run -/

/-- The writer leaves the memtables alone. -/
theorem AtomicAt.quiet {s : Readers fuel ξ} {j : ℕ} (h : AtomicAt store batch j s)
    {now : Store Unit}
    (hmems : now.mems = s.store.mems) (hat : WriterAt store batch j now) :
    AtomicAt store batch j { s with store := now } := by
  refine ⟨hmems.trans h.mems, h.le, hat, ?_⟩
  rw [hmems]
  exact h.scans

theorem look_query (query : Query) (read : List (Bytes × Entry Bytes))
    (scan : LsmScan (MergedIter fuel)) : (Scanner.look query read scan).query? = some query := by
  rw [Scanner.look]
  split <;> rfl

theorem position_query (query : Query) (mems : MemId → MemTable Bytes Bytes) :
    (Scanner.position query mems : Scanner fuel).query? = some query := by
  rw [Scanner.position]
  split
  · exact look_query _ _ _
  · rfl

theorem advance_query (mems : MemId → MemTable Bytes Bytes) (query : Query)
    (scan : LsmScan (MergedIter fuel)) (read : List (Bytes × Entry Bytes)) :
    (Scanner.advance mems (.reading query scan read)).query? = some query := by
  rw [Scanner.advance]
  split
  · exact look_query _ _ _
  · rfl

section Run

variable [DecidableEq ξ] {s s' : Readers fuel ξ} {l : ReadersLabel ξ} {j : ℕ}

/-- A step of one scanner. -/
theorem AtomicAt.setScanner (h : AtomicAt store batch j s) {x : ξ} {scanner : Scanner fuel}
    (hscan : ∀ query, scanner.query? = some query → ∃ n world,
      (world = store.mems ∨ world = afterBatch store batch) ∧
        ScannerRel s.store.mems world scanner (Scanner.static query world n)) :
    AtomicAt store batch j (s.setScanner x scanner) := by
  refine ⟨h.mems, h.le, h.writer, ?_⟩
  intro y query hquery
  by_cases hy : y = x
  · subst hy
    simp only [Readers.setScanner, Function.update_self] at hquery ⊢
    exact hscan query hquery
  · simp only [Readers.setScanner, Function.update_of_ne hy] at hquery ⊢
    exact h.scans y query hquery

theorem AtomicAt.step (h : AtomicAt store batch j s) (hok : Unmixed s l)
    (hstep : s.step opt l = some s') : ∃ j', AtomicAt store batch j' s' := by
  cases l with
  | write =>
      obtain ⟨now, hnow, rfl⟩ := Option.map_eq_some_iff.mp hstep
      rcases writer_step hnow h.writer h.le with
        ⟨hmems, hat⟩ | ⟨mem, call, entry, hpc, rfl, hentry, hj, hmems, hat⟩
      · exact ⟨j, h.quiet hmems hat⟩
      · have hpassed : ∀ x, (s.scanners x).Passed store.state.activeMem entry.key := by
          simp only [Unmixed, hpc] at hok
          exact hok entry hentry
        refine ⟨j + 1, ?_, (List.getElem?_eq_some_iff.mp hj).1, hat, ?_⟩
        · change now.mems = _
          rw [hmems, afterEntries_succ hj, h.mems]
        · intro x query hquery
          obtain ⟨n, world, hworld, hrel⟩ := h.scans x query hquery
          refine ⟨n, world, hworld, ?_⟩
          change ScannerRel now.mems world (s.scanners x) _
          rw [hmems]
          exact hrel.put (hpassed x)
  | writeFails =>
      obtain ⟨now, hnow, rfl⟩ := Option.map_eq_some_iff.mp hstep
      obtain ⟨hmems, hat⟩ := writer_fails hnow h.writer
      exact ⟨j, h.quiet hmems hat⟩
  | snapshot x range d =>
      rw [← Option.some.inj hstep]
      exact ⟨j, h.setScanner (by simp [Scanner.query?])⟩
  | position x =>
      rw [Readers.step] at hstep
      split at hstep
      · rename_i state range d _
        rw [← Option.some.inj hstep]
        refine ⟨j, h.setScanner ?_⟩
        intro query hquery
        obtain rfl := Option.some.inj ((position_query _ _).symm.trans hquery)
        -- The memtables are those before or after the whole batch.
        have hworld : s.store.mems = store.mems ∨ s.store.mems = afterBatch store batch := by
          have hends : j = 0 ∨ j = batch.length := by
            have hwriter := h.writer
            rw [WriterAt] at hwriter
            rw [Unmixed] at hok
            cases hpc : s.store.pcs () with
            | append => rw [hpc] at hwriter; exact .inl hwriter.2.1
            | snapshot => rw [hpc] at hwriter; exact .inl hwriter.2.1
            | apply mem call =>
                rw [hpc] at hwriter hok
                obtain ⟨-, rfl, rfl⟩ := hwriter
                rcases hok with hnone | hnone
                · exact .inl (by simp [hnone])
                · exact .inr (le_antisymm h.le (List.getElem?_eq_none_iff.mp hnone))
            | _ => rw [hpc] at hwriter; exact hwriter
          rcases hends with rfl | rfl
          · exact .inl (by simp [h.mems])
          · exact .inr h.mems
        exact ⟨0, s.store.mems, hworld, position_rel _ _⟩
      · simp at hstep
  | next x =>
      rw [Readers.step] at hstep
      split at hstep
      · rename_i query scan read hreading
        rw [← Option.some.inj hstep]
        refine ⟨j, h.setScanner ?_⟩
        intro query' hquery'
        obtain ⟨n, world, hworld, hrel⟩ := h.scans x query (by rw [hreading]; rfl)
        rw [hreading] at hrel
        have hadvance := advance_rel hrel
        obtain rfl := Option.some.inj ((advance_query _ _ _ _).symm.trans hquery')
        refine ⟨n + 1, world, hworld, ?_⟩
        rw [Scanner.static, Function.iterate_succ_apply']
        exact hadvance
      · simp at hstep

/-- In every run whose steps are unmixed, what a scan has yielded, and how it ended, is that of
the same scan over the memtables before the batch or over those after it. -/
theorem scan_atomic (h : Reaches (Readers.step opt) Unmixed (Readers.start store batch) s)
    {x : ξ} {query : Query} (hquery : (s.scanners x).query? = some query) :
    ∃ n, (s.scanners x).outcome = (Scanner.static query store.mems n : Scanner fuel).outcome ∨
      (s.scanners x).outcome =
        (Scanner.static query (afterBatch store batch) n : Scanner fuel).outcome := by
  have hinv : ∃ j, AtomicAt store batch j s := by
    refine h.invariant (P := fun s => ∃ j, AtomicAt store batch j s) ⟨0, ?_⟩
      fun ⟨_, hj⟩ hok hstep => hj.step hok hstep
    exact ⟨by simp [Readers.start, Store.goto], Nat.zero_le _,
      by simp [WriterAt, Readers.start, Store.goto], by simp [Readers.start, Scanner.query?]⟩
  obtain ⟨j, hj⟩ := hinv
  obtain ⟨n, world, rfl | rfl, hrel⟩ := hj.scans x query hquery
  · exact ⟨n, .inl hrel.outcome_eq⟩
  · exact ⟨n, .inr hrel.outcome_eq⟩

/-- Two entries. -/
def twoEntries : WriteBatch := [.put [1] [1], .put [2] [2]]

/-- A forward scan of everything. -/
def scanAll : ReadersLabel Unit := .snapshot () ⟨.unbounded, .unbounded⟩ .forward

/-- A store whose memtable has one key. -/
def oneKey : Store Unit := (Store.new 64).applyEntry 0 (.put [5] [5])

/-- A scan that stands at a later key while the batch is put misses all of it. -/
theorem scan_atomic_behind : ∃ s : Readers 8 Unit,
    Reaches (Readers.step ⟨100, 4⟩) Unmixed (Readers.start oneKey twoEntries) s ∧
      ∃ query n, (s.scanners ()).query? = some query ∧
        (s.scanners ()).outcome = ⟨[([5], .put [5])], .finished⟩ ∧
        ((s.scanners ()).outcome = (Scanner.static query oneKey.mems n : Scanner 8).outcome ∨
          (s.scanners ()).outcome =
            (Scanner.static query (afterBatch oneKey twoEntries) n : Scanner 8).outcome) := by
  have hrun : ∃ s : Readers 8 Unit,
      Reaches (Readers.step ⟨100, 4⟩) Unmixed (Readers.start oneKey twoEntries) s ∧
        ((s.scanners ()).outcome, (s.scanners ()).query?.isSome) =
          (⟨[([5], .put [5])], .finished⟩, true) :=
    Reaches.exists_of_execute
      [scanAll, .position (), .write, .write, .write, .write, .write, .next ()]
      (fun s : Readers 8 Unit => ((s.scanners ()).outcome, (s.scanners ()).query?.isSome)) _
      (by decide +kernel) (by decide +kernel)
  obtain ⟨s, hs, hobs⟩ := hrun
  obtain ⟨houtcome, hsome⟩ := Prod.mk.inj hobs
  obtain ⟨query, hquery⟩ := Option.isSome_iff_exists.mp hsome
  obtain ⟨n, hn⟩ := scan_atomic hs hquery
  exact ⟨s, hs, query, n, hquery, houtcome, hn⟩

/-- A finished scan stays as it is. -/
theorem static_of_finished {query : Query} {mems : MemId → MemTable Bytes Bytes} {m n : ℕ}
    {q : Query} {read : List (Bytes × Entry Bytes)}
    (h : (Scanner.static query mems m : Scanner fuel) = .finished q read) (hle : m ≤ n) :
    (Scanner.static query mems n : Scanner fuel) = .finished q read := by
  obtain ⟨k, rfl⟩ := Nat.exists_eq_add_of_le hle
  induction k with
  | zero => exact h
  | succ k ih =>
      rw [Scanner.static, ← Nat.add_assoc, Function.iterate_succ_apply']
      change Scanner.advance mems (Scanner.static query mems (m + k)) = _
      rw [ih (Nat.le_add_right _ _)]
      rfl

/-- What the scan of the counterexample was asked for. -/
def wholeQuery : Query := ⟨.new 0, ⟨.unbounded, .unbounded⟩, .forward, .new 64⟩

/-- A scan positioned between the two puts of a batch yields one entry of the two. -/
theorem scan_not_atomic : ∃ s : Readers 8 Unit,
    Reaches (Readers.step ⟨100, 4⟩) (fun _ _ => True) (Readers.start (.new 64) twoEntries) s ∧
      (s.scanners ()).query? = some wholeQuery ∧
      (s.scanners ()).outcome = ⟨[([1], .put [1])], .finished⟩ ∧
      ∀ n, (s.scanners ()).outcome ≠
          (Scanner.static wholeQuery (Store.new 64 : Store Unit).mems n : Scanner 8).outcome ∧
        (s.scanners ()).outcome ≠
          (Scanner.static wholeQuery (afterBatch (.new 64) twoEntries) n : Scanner 8).outcome := by
  have hrun : ∃ s : Readers 8 Unit,
      Reaches (Readers.step ⟨100, 4⟩) (fun _ _ => True) (Readers.start (.new 64) twoEntries) s ∧
        s.scanners () = .finished wholeQuery [([1], .put [1])] :=
    Reaches.exists_of_execute [scanAll, .write, .write, .write, .position (), .next ()]
      (fun s : Readers 8 Unit => s.scanners ()) _ (by decide +kernel) rfl
  obtain ⟨s, hs, hscan⟩ := hrun
  have hbefore : (Scanner.static wholeQuery (Store.new 64 : Store Unit).mems 0 : Scanner 8) =
      .finished wholeQuery [] := rfl
  have hafter : (Scanner.static wholeQuery (afterBatch (.new 64) twoEntries) 2 : Scanner 8) =
      .finished wholeQuery [([1], .put [1]), ([2], .put [2])] := rfl
  refine ⟨s, hs, by rw [hscan]; rfl, by rw [hscan]; rfl, ?_⟩
  rw [hscan]
  intro n
  refine ⟨?_, ?_⟩
  · rw [static_of_finished hbefore (Nat.zero_le n)]
    decide
  · -- Up to the second entry the scan over the whole batch is still going on.
    rcases Nat.lt_or_ge n 2 with hlt | hge
    · interval_cases n <;> decide +kernel
    · rw [static_of_finished hafter hge]
      decide

end Run

end Runs

end Todb.Lsm

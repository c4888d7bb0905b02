import Todb.Verification.Lsm.Retention
import Todb.Verification.Sst.Assertions

/-! # Which memtables can be flushed

`write` puts entries of any size into a memtable; the block builders check them when the
memtable is flushed. A flush that runs by itself removes its memtable exactly when the entries
pass the builders' assertions. -/

namespace Todb.Lsm

open Library

variable {ι : Type} [DecidableEq ι] {opt : LsmTableOption} {s s' : Store ι} {t : ι}

/-- Thread `t` runs alone from `s` to `s'`. -/
def RunsTo (opt : LsmTableOption) (t : ι) (s s' : Store ι) : Prop :=
  ∃ n, execute (Store.step opt) (List.replicate n (.step t)) s = some s'

/-- Thread `t` runs alone until its call has returned. -/
def Returns (opt : LsmTableOption) (t : ι) (s s' : Store ι) : Prop :=
  RunsTo opt t s s' ∧ s'.pcs t = .idle

theorem RunsTo.refl (s : Store ι) : RunsTo opt t s s := ⟨0, rfl⟩

theorem RunsTo.head {mid : Store ι} (hstep : s.advance opt t = some mid)
    (h : RunsTo opt t mid s') : RunsTo opt t s s' := by
  obtain ⟨n, hn⟩ := h
  exact ⟨n + 1, by simpa [List.replicate_succ, execute, Store.step, hstep] using hn⟩

theorem RunsTo.trans {mid : Store ι} (h : RunsTo opt t s mid) (h' : RunsTo opt t mid s') :
    RunsTo opt t s s' := by
  obtain ⟨n, hn⟩ := h
  induction n generalizing s with
  | zero => exact Option.some.inj hn ▸ h'
  | succ n ih =>
      obtain ⟨next, hnext, hn⟩ := Option.bind_eq_some_iff.mp hn
      exact .head hnext (ih hn)

theorem Returns.unique {s'' : Store ι} (h : Returns opt t s s') (h' : Returns opt t s s'') :
    s' = s'' := by
  obtain ⟨⟨m, hm⟩, hidle⟩ := h
  obtain ⟨⟨n, hn⟩, hidle'⟩ := h'
  refine execute_replicate_unique hm ?_ hn ?_
  · simp [Store.step, Store.advance, hidle]
  · simp [Store.step, Store.advance, hidle']

@[simp] theorem goto_goto (s : Store ι) (t : ι) (pc pc' : Pc) :
    (s.goto t pc).goto t pc' = s.goto t pc' := by
  simp [Store.goto]

@[simp] theorem goto_pcs (s : Store ι) (t : ι) (pc : Pc) : (s.goto t pc).pcs t = pc := by
  simp [Store.goto]

/-! ## The loop over the memtable -/

/-- The writer of a file keeps its id. -/
theorem steady_memtableWriter (blockSize : ℕ) (id : SstId) :
    Steady blockSize fun writer : DefaultSstWriter SstFileWriter =>
      writer.option.blockSize = blockSize ∧ writer.inner.sstId = id :=
  steady_default blockSize (fun writer : SstFileWriter => writer.sstId = id) fun writer data hid =>
    (FileBlockWriter.blames writer.inner data).bind fun _ _ => hid

/-- Where a flush is once its builder has been given the rest of the memtable. -/
def afterLoop (s : Store ι) (t : ι) (caller : Caller) (mem : MemId)
    (added : List (Bytes × Entry Bytes)) : Outcome MemtableBuilder → Store ι
  | .ok builder => s.goto t (.build caller mem builder none added)
  | .error _ => s.flushFails t

theorem afterLoop_goto (s : Store ι) (pc : Pc) (caller : Caller) (mem : MemId)
    (added : List (Bytes × Entry Bytes)) (x : Outcome MemtableBuilder) :
    afterLoop (s.goto t pc) t caller mem added x = afterLoop s t caller mem added x := by
  cases x with
  | ok builder => exact goto_goto s t _ _
  | error fault => simp [afterLoop, Store.flushFails]

theorem runsTo_loop {caller : Caller} {mem : MemId} {builder : MemtableBuilder}
    {added rest : List (Bytes × Entry Bytes)}
    (hpc : s.pcs t = .build caller mem builder rest.head? added)
    (hentries : (s.mems mem).entries = added ++ rest) :
    RunsTo opt t s
      (afterLoop s t caller mem (added ++ rest) (SstBuilder.addAll rest builder)) := by
  induction rest generalizing s builder added with
  | nil =>
      have hsame : s.goto t (.build caller mem builder none added) = s := by
        rw [Store.goto, ← show s.pcs t = .build caller mem builder none added from hpc,
          Function.update_eq_self]
      rw [SstBuilder.addAll, afterLoop, List.append_nil, hsame]
      exact .refl s
  | cons e rest ih =>
      rw [SstBuilder.addAll]
      cases hadd : builder.add e.1 e.2 with
      | error fault =>
          have hstep : s.advance opt t = some (s.flushFails t) := by
            simp [Store.advance, hpc, hadd]
          exact .head hstep (.refl _)
      | ok builder' =>
          have hnext : Store.entryAfter (s.mems mem) e.1 = rest.head? := entryAfter_eq_head? hentries
          have hrest := @ih (s.goto t (.build caller mem builder' rest.head? (added ++ [e]))) builder'
            (added ++ [e]) (goto_pcs _ _ _) (by rw [List.append_assoc]; exact hentries)
          rw [afterLoop_goto, List.append_assoc] at hrest
          exact .head (by simp [Store.advance, hpc, hadd, hnext]) hrest

/-! ## One flush -/

/-- What `build_sst_from_memtable` computes for a memtable that nobody changes. -/
def buildMemtable (s : Store ι) (mem : MemId) :
    Outcome (SstFooter × DefaultSstWriter SstFileWriter) :=
  buildSst (s.disk.writer s.disk.nextSstId) s.disk.option (s.mems mem).entries

theorem returns_of_publish {caller : Caller} {mem : MemId} {sst : SstMeta}
    (hpc : s.pcs t = .publish caller mem sst) :
    ∃ s', Returns opt t s s' ∧ s'.state = s.state.flushed sst := by
  have hstep : s.advance opt t =
      some ({ s with state := s.state.flushed sst }.flushReturns t caller) := by
    simp [Store.advance, hpc]
  refine ⟨_, ⟨.head hstep (.refl _), ?_⟩, ?_⟩ <;> cases caller <;>
    simp [Store.flushReturns, Store.ack, Store.goto]

/-- A flush that has built its file publishes it; one that could not returns an error. -/
theorem returns_of_loop {caller : Caller} {mem : MemId} {added : List (Bytes × Entry Bytes)}
    (x : Outcome MemtableBuilder) :
    ∃ s', Returns opt t (afterLoop s t caller mem added x) s' ∧
      s'.state.immMemtables = if (x >>= SstBuilder.finish).isOk then
        s.state.immMemtables.dropLast else s.state.immMemtables := by
  cases x with
  | error fault => exact ⟨_, ⟨.refl _, goto_pcs s t .idle⟩, rfl⟩
  | ok builder =>
      have hbind : (.ok builder >>= SstBuilder.finish) = builder.finish := rfl
      rw [hbind]
      cases hfinish : builder.finish with
      | error fault =>
          refine ⟨s.flushFails t, ⟨.head ?_ (.refl _), goto_pcs s t .idle⟩, rfl⟩
          simp [afterLoop, Store.advance, hfinish, Store.flushFails]
      | ok file =>
          let sst : SstMeta := ⟨file.2.inner.sstId, (file.1.firstKey, file.1.lastKey),
            file.2.inner.fileSize, mem, added⟩
          let mid : Store ι :=
            { s.goto t (.publish caller mem sst) with disk := s.disk.store file.2.inner }
          obtain ⟨s', ⟨hruns, hidle⟩, hstate⟩ :=
            @returns_of_publish ι _ opt mid t caller mem sst (goto_pcs s t _)
          refine ⟨s', ⟨.head ?_ hruns, hidle⟩, ?_⟩
          · simp [afterLoop, Store.advance, hfinish, mid, sst, Store.goto]
          · rw [hstate]
            rfl

/-- The flush returns, having removed the memtable if its file was built. -/
theorem returns_of_lock {caller : Caller} {mem : MemId} (hpc : s.pcs t = .lock caller)
    (hfree : s.flushLock = false) (holdest : s.state.immMemtables.getLast? = some mem) :
    ∃ s', Returns opt t s s' ∧ s'.state.immMemtables =
      if (buildMemtable s mem).isOk then s.state.immMemtables.dropLast
      else s.state.immMemtables := by
  let entries := (s.mems mem).entries
  let builder : MemtableBuilder := .new (s.disk.writer s.disk.nextSstId) s.disk.option
  let locked : Store ι := { s.goto t (.choose caller) with flushLock := true }
  let chosen := locked.goto t (.create caller mem)
  let created : Store ι :=
    { chosen.goto t (.seek caller mem builder) with disk := s.disk.createSst.2 }
  let seeked := created.goto t (.build caller mem builder entries.head? [])
  have hlock : s.advance opt t = some locked := by simp [Store.advance, hpc, hfree, locked]
  have hchoose : locked.advance opt t = some chosen := by
    simp [Store.advance, locked, chosen, Store.goto, holdest]
  have hcreate : chosen.advance opt t = some created := by
    simp [Store.advance, created, chosen, locked, Store.goto, builder, DiskManager.writer,
      DiskManager.createSst, DiskManager.option]
  have hseek : created.advance opt t = some seeked := by
    simp [Store.advance, created, seeked, chosen, locked, Store.goto, entries]
  have hloop := @runsTo_loop ι _ opt seeked t caller mem builder [] entries (goto_pcs _ _ _) rfl
  obtain ⟨s', ⟨hruns, hidle⟩, hstate⟩ := @returns_of_loop ι _ opt seeked t caller mem entries
    (SstBuilder.addAll entries builder)
  exact ⟨s', ⟨.head hlock (.head hchoose (.head hcreate (.head hseek (hloop.trans hruns)))), hidle⟩,
    hstate⟩

omit [DecidableEq ι] in
theorem buildMemtable_asserts (s : Store ι) (mem : MemId) :
    Meets (Blames (Passes s.disk.option (s.mems mem).entries))
      (fun _ => Passes s.disk.option (s.mems mem).entries) (buildMemtable s mem) :=
  (buildSst_asserts (steady_memtableWriter s.disk.option.blockSize s.disk.nextSstId)
    ⟨rfl, rfl⟩).mono fun _ h => h.1

section Flush

variable {caller : Caller} {mem : MemId} (hpc : s.pcs t = .lock caller)
  (hfree : s.flushLock = false) (holdest : s.state.immMemtables.getLast? = some mem)

include hpc hfree holdest

theorem removes_of_passes (hio : ∀ fault, buildMemtable s mem = .error fault → fault = .panic)
    (hpasses : Passes s.disk.option (s.mems mem).entries) :
    ∃ s', Returns opt t s s' ∧ s'.state.immMemtables = s.state.immMemtables.dropLast := by
  obtain ⟨s', hreturns, hstate⟩ := @returns_of_lock ι _ opt s t caller mem hpc hfree holdest
  obtain ⟨file, hbuild, -⟩ := (buildMemtable_asserts s mem).exists_ok
    fun fault hblames herror => hblames (hio fault herror) hpasses
  rw [hbuild] at hstate
  exact ⟨s', hreturns, hstate⟩

theorem passes_of_removes (hreturns : Returns opt t s s')
    (hremoved : s'.state.immMemtables = s.state.immMemtables.dropLast) :
    Passes s.disk.option (s.mems mem).entries := by
  have hasserts := buildMemtable_asserts s mem
  obtain ⟨s'', hreturns', hstate⟩ := @returns_of_lock ι _ opt s t caller mem hpc hfree holdest
  obtain rfl := hreturns.unique hreturns'
  cases hbuild : buildMemtable s mem with
  | ok file =>
      rw [hbuild] at hasserts
      exact hasserts
  | error fault =>
      -- The list keeps its last element, so nothing was removed.
      rw [hbuild, if_neg (by simp [Except.isOk, Except.toBool])] at hstate
      have hlength := congrArg List.length (hremoved.symm.trans hstate)
      have hpos := List.length_pos_of_mem (List.mem_of_getLast? holdest)
      rw [List.length_dropLast] at hlength
      omega

/-- A flush whose I/O succeeds, run by itself from taking the lock to its return, removes the
oldest immutable memtable exactly when the memtable's entries pass the assertions of the block
builders. -/
theorem flush_removes_iff_passes
    (hio : ∀ fault, buildMemtable s mem = .error fault → fault = .panic) :
    (∃ s', Returns opt t s s' ∧ s'.state.immMemtables = s.state.immMemtables.dropLast) ↔
      Passes s.disk.option (s.mems mem).entries :=
  ⟨fun ⟨_, hreturns, hremoved⟩ => passes_of_removes hpc hfree holdest hreturns hremoved,
    removes_of_passes hpc hfree holdest hio⟩

end Flush

/-- A store that has switched out a memtable with one small entry, and a flush of it. -/
def oneSwitchedOut : Store (Fin 2) :=
  { (Store.new 64 : Store (Fin 2)) with
    mems := fun _ => MemTable.new.put [1] [2]
    state := (LsmState.new 0).switched 1
    pcs := fun _ => .lock .scheduler }

theorem flush_removes_small : ∃ s', Returns ⟨64, 4⟩ 1 oneSwitchedOut s' ∧
    s'.state.immMemtables = [] := by
  have hbuild : (buildMemtable oneSwitchedOut 0).isOk = true := by decide +kernel
  refine (flush_removes_iff_passes (s := oneSwitchedOut) (t := 1) rfl rfl
    (show oneSwitchedOut.state.immMemtables.getLast? = some 0 from rfl) ?_).mpr (by decide +kernel)
  intro fault hfault
  rw [hfault] at hbuild
  cases hbuild

/-- A write of a value as large as a block, which fills a memtable. -/
def largeWrite : List (Label (Fin 2)) :=
  .write 0 [.put [1] (List.replicate 64 0)] :: List.replicate 6 (.step 0)

def Pc.isIdle : Pc → Bool
  | .idle => true
  | _ => false

theorem Pc.eq_idle {pc : Pc} (h : pc.isIdle = true) : pc = .idle := by
  cases pc <;> first | rfl | cases h

/-- The file of a memtable cannot be built because of an assertion. -/
def flushPanics (s : Store ι) (mem : MemId) : Bool :=
  match buildMemtable s mem with
  | .error .panic => true
  | _ => false

omit [DecidableEq ι] in
theorem buildMemtable_of_flushPanics {mem : MemId} (h : flushPanics s mem = true) :
    buildMemtable s mem = .error .panic := by
  rw [flushPanics] at h
  split at h
  · assumption
  · cases h

/-- The write is acknowledged and its memtable switched out; the flush trips the assertion of
the data block builder and the memtable stays. -/
theorem flush_trips_on_large : ∃ s s' : Store (Fin 2),
    Reaches (Store.step ⟨64, 4⟩) (fun _ _ => True) (Store.new 64) s ∧
      s.acked.map WriteCall.batch = [[.put [1] (List.replicate 64 0)]] ∧
      s.state.immMemtables = [0] ∧
      buildMemtable (s.goto 1 (.lock .scheduler)) 0 = .error .panic ∧
      Returns ⟨64, 4⟩ 1 (s.goto 1 (.lock .scheduler)) s' ∧ s'.state.immMemtables = [0] := by
  -- The flush takes the lock, chooses, creates its file, seeks and fails at the first entry.
  let stays : Store (Fin 2) → Bool := fun s =>
    (execute (Store.step ⟨64, 4⟩) (List.replicate 5 (.step 1)) s).any fun s' =>
      (s'.pcs 1).isIdle && s'.state.immMemtables == [0]
  let observe : Store (Fin 2) → List WriteBatch × List MemId × Bool × Bool := fun s =>
    (s.acked.map WriteCall.batch, s.state.immMemtables, flushPanics (s.goto 1 (.lock .scheduler)) 0,
      stays (s.goto 1 (.lock .scheduler)))
  obtain ⟨s, hs, hobs⟩ : ∃ s : Store (Fin 2),
      Reaches (Store.step ⟨64, 4⟩) (fun _ _ => True) (Store.new 64) s ∧
        observe s = ([[.put [1] (List.replicate 64 0)]], [0], true, true) :=
    Reaches.exists_of_execute largeWrite observe _ (by decide +kernel) (by decide +kernel)
  obtain ⟨hacked, hrest⟩ := Prod.mk.inj hobs
  obtain ⟨himm, hrest⟩ := Prod.mk.inj hrest
  obtain ⟨hpanics, hstays⟩ := Prod.mk.inj hrest
  obtain ⟨s', hs', hobs'⟩ := (Option.any_eq_true _ _).mp hstays
  obtain ⟨hidle, himm'⟩ := Bool.and_eq_true_iff.mp hobs'
  exact ⟨s, s', hs, hacked, himm, buildMemtable_of_flushPanics hpanics,
    ⟨⟨5, hs'⟩, Pc.eq_idle hidle⟩, eq_of_beq himm'⟩

/-! ## Batches of small entries -/

/-- The entry fits an empty data block, and its key an empty index block. -/
def Fitting (option : SstOption) (key : Bytes) (entry : Entry Bytes) : Prop :=
  EntryFits option (key, entry) ∧ KeyFits option key

/-- A step that puts an entry into a memtable puts one that fits. -/
def AppliesFitting (option : SstOption) (s : Store ι) (l : Label ι) : Prop :=
  ∀ mem call entry, s.pcs l.thread = .apply mem call →
    call.nextEntry = some entry → Fitting option entry.key entry.entry

/-- Everything that was put fits, and the block size is the store's. -/
structure FittingHistory (option : SstOption) (s : Store ι) : Prop where
  option_eq : s.disk.option = option
  fits : ∀ ev ∈ s.history, Fitting option ev.key ev.entry

theorem FittingHistory.step {option : SstOption} {l : Label ι} (h : FittingHistory option s)
    (hok : AppliesFitting option s l) (heffect : Effect opt s l.thread s') :
    FittingHistory option s' := by
  cases heffect with
  | apply hpc hentry =>
      refine ⟨h.option_eq, List.forall_mem_append.mpr ⟨h.fits, ?_⟩⟩
      simpa using hok _ _ _ hpc hentry
  | switch =>
      rw [Store.switchMemtable]
      split
      · exact ⟨h.option_eq, h.fits⟩
      · exact ⟨h.option_eq, h.fits⟩
  | @empty caller => cases caller <;> exact ⟨h.option_eq, h.fits⟩
  | @publish caller => cases caller <;> exact ⟨h.option_eq, h.fits⟩
  | fails disk _ hdisk =>
      exact ⟨(congrArg SstOption.mk hdisk).trans h.option_eq, h.fits⟩
  | _ => exact ⟨h.option_eq, h.fits⟩

/-- In every run that puts fitting entries only, every memtable passes the assertions. -/
theorem passes_of_fitting {blockSize : ℕ}
    (h : Reaches (Store.step opt) (AppliesFitting ⟨blockSize⟩) (Store.new blockSize) s)
    (mem : MemId) : Passes s.disk.option (s.mems mem).entries := by
  have hfits : FittingHistory ⟨blockSize⟩ s :=
    h.invariant ⟨rfl, by simp [Store.new]⟩ fun hs hok hstep => hs.step hok (step_effect hstep)
  have hrecorded := (flushesRight_of_reaches h).recorded mem
  rw [hfits.option_eq]
  refine ⟨fun e he => (hfits.fits _ (hrecorded e he)).1, fun key hkey => ?_⟩
  obtain ⟨e, he, rfl⟩ := List.mem_map.mp hkey
  exact (hfits.fits _ (hrecorded e ((ends_sublist _).subset he))).2

/-- In every run that puts fitting entries only, every flush whose I/O succeeds removes its
memtable. -/
theorem flush_removes_of_fitting {blockSize : ℕ} {caller : Caller} {mem : MemId}
    (h : Reaches (Store.step opt) (AppliesFitting ⟨blockSize⟩) (Store.new blockSize) s)
    (hpc : s.pcs t = .lock caller) (hfree : s.flushLock = false)
    (holdest : s.state.immMemtables.getLast? = some mem)
    (hio : ∀ fault, buildMemtable s mem = .error fault → fault = .panic) :
    ∃ s', Returns opt t s s' ∧ s'.state.immMemtables = s.state.immMemtables.dropLast :=
  removes_of_passes hpc hfree holdest hio (passes_of_fitting h mem)

end Todb.Lsm

import Todb.Verification.Lsm.Steps

/-! # Flushing in switch order

The flush lock leaves one thread between choosing a memtable and publishing its file, and
switches push at the other end of the list: the memtable chosen is the one that is popped. -/

namespace Todb.Lsm

open Library

variable {ι : Type} {opt : LsmTableOption} {s s' : Store ι} {t : ι}

/-! ## One flush at a time, oldest first -/

/-- Memtables are switched out in the order of their addresses, flushed in that order, and
the one a flush has chosen stays the last of the list. -/
structure FlushInOrder (s : Store ι) : Prop where
  holder : ∀ {t u a b}, (s.pcs t).flushing? = some a → (s.pcs u).flushing? = some b → t = u
  locked : ∀ {t a}, (s.pcs t).flushing? = some a → s.flushLock = true
  chosen : ∀ {t m}, (s.pcs t).flushing? = some (some m) →
    s.state.immMemtables.getLast? = some m
  order : s.state.l0.map SstMeta.origin ++ s.state.immMemtables.reverse = s.switchedOut
  ascending : (s.switchedOut ++ [s.state.activeMem]).Pairwise (· < ·)
  allocated : s.state.activeMem < s.nextMem

theorem flushInOrder_new (blockSize : ℕ) : FlushInOrder (Store.new blockSize : Store ι) := by
  refine ⟨?_, ?_, ?_, rfl, by simp [Store.new], by simp [Store.new, LsmState.new]⟩ <;>
    simp [Store.new, Pc.flushing?]

namespace FlushInOrder

theorem sole (h : FlushInOrder s) {a : Option MemId} (ht : (s.pcs t).flushing? = some a)
    {u : ι} (hu : u ≠ t) : (s.pcs u).flushing? = none := by
  cases hrole : (s.pcs u).flushing? with
  | none => rfl
  | some b => exact absurd (h.holder hrole ht) hu

theorem nobody (h : FlushInOrder s) (hfree : s.flushLock = false) (u : ι) :
    (s.pcs u).flushing? = none := by
  cases hrole : (s.pcs u).flushing? with
  | none => rfl
  | some b => simp [h.locked hrole] at hfree

/-- A switch pushes at the front, away from the memtable a flush has chosen. -/
theorem switchMemtable (h : FlushInOrder s) : FlushInOrder (s.switchMemtable opt) := by
  rw [Store.switchMemtable]
  split
  · exact h
  · refine ⟨h.holder, h.locked, ?_, ?_, ?_, Nat.lt_succ_self _⟩
    · intro t m ht
      have hlast := h.chosen ht
      have hne : s.state.immMemtables ≠ [] := by
        intro hnil
        simp [hnil] at hlast
      change (s.state.activeMem :: s.state.immMemtables).getLast? = some m
      rwa [List.getLast?_cons_of_ne_nil hne]
    · change s.state.l0.map SstMeta.origin ++ (s.state.activeMem :: s.state.immMemtables).reverse =
        s.switchedOut ++ [s.state.activeMem]
      rw [List.reverse_cons, ← List.append_assoc, h.order]
    · refine List.pairwise_append.mpr ⟨h.ascending, List.pairwise_singleton _ _, ?_⟩
      intro a ha b hb
      obtain rfl : b = s.nextMem := by simpa [LsmState.switched] using hb
      rcases List.mem_append.mp ha with ha | ha
      · exact ((List.pairwise_append.mp h.ascending).2.2 a ha _ (by simp)).trans h.allocated
      · rw [List.mem_singleton.mp ha]
        exact h.allocated

/-- Publishing pops the memtable that was chosen. -/
theorem imm_eq_of_publish (h : FlushInOrder s) {caller : Caller} {mem : MemId} {sst : SstMeta}
    (hpc : s.pcs t = .publish caller mem sst) :
    s.state.immMemtables = (s.state.flushed sst).immMemtables ++ [mem] := by
  have hlast : s.state.immMemtables.getLast? = some mem := h.chosen (t := t) (by rw [hpc]; rfl)
  exact (List.dropLast_append_getLast? mem hlast).symm

theorem order_of_publish (h : FlushInOrder s) {caller : Caller} {mem : MemId} {sst : SstMeta}
    (hpc : s.pcs t = .publish caller mem sst) (horigin : sst.origin = mem) :
    (s.state.flushed sst).l0.map SstMeta.origin ++
      (s.state.flushed sst).immMemtables.reverse = s.switchedOut := by
  have horder := h.order
  rw [h.imm_eq_of_publish hpc] at horder
  simpa [horigin] using horder

variable [DecidableEq ι]

/-- A thread moves on inside or outside the lock. -/
theorem moved (h : FlushInOrder s) {pc : Pc} (hstate : s'.state = s.state)
    (hout : s'.switchedOut = s.switchedOut) (hnext : s'.nextMem = s.nextMem)
    (hlock : s'.flushLock = s.flushLock) (hpcs : s'.pcs = Function.update s.pcs t pc)
    (hrole : pc.flushing? = (s.pcs t).flushing?) : FlushInOrder s' := by
  have hroles : ∀ u, (s'.pcs u).flushing? = (s.pcs u).flushing? := by
    intro u
    rw [hpcs]
    by_cases hu : u = t
    · rw [hu, Function.update_self, hrole]
    · rw [Function.update_of_ne hu]
  refine ⟨?_, ?_, ?_, ?_, ?_, ?_⟩
  · intro t u a b ht hu
    rw [hroles] at ht hu
    exact h.holder ht hu
  · intro t a ht
    rw [hroles] at ht
    rw [hlock]
    exact h.locked ht
  · intro t m ht
    rw [hroles] at ht
    rw [hstate]
    exact h.chosen ht
  · rw [hstate, hout]
    exact h.order
  · rw [hstate, hout]
    exact h.ascending
  · rw [hstate, hnext]
    exact h.allocated

/-- Nobody else is inside: the thread may take the lock, choose, or leave. -/
theorem alone {pc : Pc} (hpcs : s'.pcs = Function.update s.pcs t pc)
    (hsole : ∀ u ≠ t, (s.pcs u).flushing? = none)
    (hlock : ∀ a, pc.flushing? = some a → s'.flushLock = true)
    (hchosen : ∀ m, pc.flushing? = some (some m) → s'.state.immMemtables.getLast? = some m)
    (horder : s'.state.l0.map SstMeta.origin ++ s'.state.immMemtables.reverse = s'.switchedOut)
    (hasc : (s'.switchedOut ++ [s'.state.activeMem]).Pairwise (· < ·))
    (halloc : s'.state.activeMem < s'.nextMem) : FlushInOrder s' := by
  have honly : ∀ {u a}, (s'.pcs u).flushing? = some a → u = t ∧ pc.flushing? = some a := by
    intro u a ha
    rw [hpcs] at ha
    rcases update_cases ha with hthis | ⟨hu, ha⟩
    · exact hthis
    · simp [hsole u hu] at ha
  refine ⟨?_, ?_, ?_, horder, hasc, halloc⟩
  · intro u v a b hu hv
    exact (honly hu).1.trans (honly hv).1.symm
  · intro u a hu
    exact hlock a (honly hu).2
  · intro u m hu
    exact hchosen m (honly hu).2

end FlushInOrder

/-! ## What a file is built from -/

/-- An entry of a memtable as the event that put it there. -/
def Event.of (mem : MemId) (e : Bytes × Entry Bytes) : Event := ⟨mem, e.1, e.2⟩

/-- The writer of an empty file. -/
def DiskManager.writer (disk : DiskManager) (id : SstId) : DefaultSstWriter SstFileWriter :=
  ⟨⟨id, FileBlockWriter.create disk.blockSize⟩, disk.option⟩

/-- The file on disk holds entries that were all put into the memtable. -/
structure BuiltFrom (s : Store ι) (mem : MemId) (sst : SstMeta) : Prop where
  origin : sst.origin = mem
  entries : ∀ e ∈ sst.entries, Event.of mem e ∈ s.history
  file : ∃ id footer writer,
    buildSst (s.disk.writer id) s.disk.option sst.entries = .ok (footer, writer) ∧
      sst.keyRange = (footer.firstKey, footer.lastKey) ∧ sst.fileSize = writer.inner.fileSize ∧
      s.disk.files sst.id = some writer.inner.inner.file

/-- How far a thread that builds a file has got. -/
def BuildsFrom (s : Store ι) : Pc → Prop
  | .seek _ _ builder => ∃ id, builder = .new (s.disk.writer id) s.disk.option
  | .build _ mem builder item added =>
      (∃ id, SstBuilder.addAll added (.new (s.disk.writer id) s.disk.option) = .ok builder) ∧
        ∀ e ∈ added ++ item.toList, Event.of mem e ∈ s.history
  | .publish _ mem sst => BuiltFrom s mem sst
  | _ => True

theorem buildsFrom_of_not_flushing {pc : Pc} (h : pc.flushing? = none) : BuildsFrom s pc := by
  cases pc <;> simp [Pc.flushing?] at h <;> trivial

theorem BuildsFrom.mono {pc : Pc} (h : BuildsFrom s pc) (hdisk : s'.disk = s.disk)
    (hhistory : ∀ ev ∈ s.history, ev ∈ s'.history) : BuildsFrom s' pc := by
  cases pc with
  | seek _ _ builder => simpa only [BuildsFrom, hdisk] using h
  | build _ mem builder item added =>
      simp only [BuildsFrom, hdisk]
      exact ⟨h.1, fun e he => hhistory _ (h.2 e he)⟩
  | publish _ mem sst =>
      have h : BuiltFrom s mem sst := h
      exact ⟨h.origin, fun e he => hhistory _ (h.entries e he), by rw [hdisk]; exact h.file⟩
  | _ => trivial

theorem SstBuilder.addAll_append {ω : Type} [SstWriter ω] {xs ys : List (Bytes × Entry Bytes)}
    {a b : SstBuilder ω} (h : SstBuilder.addAll xs a = .ok b) :
    SstBuilder.addAll (xs ++ ys) a = SstBuilder.addAll ys b := by
  induction xs generalizing a with
  | nil => rw [Except.ok.inj h, List.nil_append]
  | cons e xs ih =>
      simp only [SstBuilder.addAll, List.cons_append] at h ⊢
      cases hadd : a.add e.1 e.2 with
      | error fault => simp [hadd, bind, Except.bind] at h
      | ok a' =>
          simp only [hadd, bind, Except.bind] at h ⊢
          exact ih h

/-- What is in a memtable has been put there. -/
def Recorded (s : Store ι) : Prop :=
  ∀ mem, ∀ e ∈ (s.mems mem).entries, Event.of mem e ∈ s.history

/-- Flushes go in order, and every file under construction holds the chosen memtable's data. -/
structure FlushesRight (s : Store ι) : Prop extends FlushInOrder s where
  builds : ∀ t, BuildsFrom s (s.pcs t)
  recorded : Recorded s

theorem flushesRight_new (blockSize : ℕ) : FlushesRight (Store.new blockSize : Store ι) where
  toFlushInOrder := flushInOrder_new blockSize
  builds := fun _ => trivial
  recorded := by
    intro mem e he
    simp [Store.new, MemTable.new, MemTable.entries] at he

theorem Recorded.applyEntry (h : Recorded s) (mem : MemId) (entry : WriteEntry) :
    Recorded (s.applyEntry mem entry) := by
  intro m e he
  rw [Store.applyEntry] at he
  by_cases hm : m = mem
  · subst hm
    have he : e ∈ (entry.apply (s.mems m)).map.entries := by simpa [MemTable.entries] using he
    rw [WriteEntry.apply_map, SortedMap.mem_insert] at he
    rcases he with rfl | ⟨-, he⟩
    · simp [Store.applyEntry, Event.of]
    · exact List.mem_append_left _ (h m e he)
  · have he : e ∈ (s.mems m).entries := by simpa [hm] using he
    exact List.mem_append_left _ (h m e he)

theorem FlushesRight.acked (h : FlushesRight s) (call : WriteCall) :
    FlushesRight { s with acked := call :: s.acked } where
  toFlushInOrder := ⟨h.holder, h.locked, h.chosen, h.order, h.ascending, h.allocated⟩
  builds := fun u => (h.builds u).mono rfl fun _ hev => hev
  recorded := h.recorded

section Steps

variable [DecidableEq ι]

/-- A step outside the lock leaves every file under construction alone. -/
theorem builds_of_outside {pc : Pc} (h : ∀ u, BuildsFrom s (s.pcs u))
    (hpcs : s'.pcs = Function.update s.pcs t pc) (hpc : pc.flushing? = none)
    (hdisk : s'.disk = s.disk) (hhistory : ∀ ev ∈ s.history, ev ∈ s'.history) (u : ι) :
    BuildsFrom s' (s'.pcs u) := by
  rw [hpcs]
  by_cases hu : u = t
  · rw [hu, Function.update_self]
    exact buildsFrom_of_not_flushing hpc
  · rw [Function.update_of_ne hu]
    exact (h u).mono hdisk hhistory

/-- A step inside the lock: nobody else builds a file. -/
theorem FlushInOrder.builds_of_inside (h : FlushInOrder s) {pc : Pc} {a : Option MemId}
    (ht : (s.pcs t).flushing? = some a) (hpcs : s'.pcs = Function.update s.pcs t pc)
    (hpc : BuildsFrom s' pc) (u : ι) : BuildsFrom s' (s'.pcs u) := by
  rw [hpcs]
  by_cases hu : u = t
  · rwa [hu, Function.update_self]
  · rw [Function.update_of_ne hu]
    exact buildsFrom_of_not_flushing (h.sole ht hu)

/-- A thread outside the lock moves on. -/
theorem FlushesRight.outside (h : FlushesRight s) {pc : Pc} (ht : (s.pcs t).flushing? = none)
    (hpc : pc.flushing? = none) : FlushesRight (s.goto t pc) where
  toFlushInOrder := h.toFlushInOrder.moved rfl rfl rfl rfl rfl (hpc.trans ht.symm)
  builds := builds_of_outside h.builds rfl hpc rfl fun _ hev => hev
  recorded := h.recorded

/-- The thread inside the lock moves on. -/
theorem FlushesRight.inside (h : FlushesRight s) {pc : Pc} {disk : DiskManager} {m : MemId}
    (ht : (s.pcs t).flushing? = some (some m)) (hpc : pc.flushing? = some (some m))
    (hbuilds : BuildsFrom { s.goto t pc with disk } pc) :
    FlushesRight { s.goto t pc with disk } where
  toFlushInOrder := h.toFlushInOrder.moved rfl rfl rfl rfl rfl (hpc.trans ht.symm)
  builds := h.toFlushInOrder.builds_of_inside ht rfl hbuilds
  recorded := h.recorded

/-- The thread inside the lock leaves it. -/
theorem FlushesRight.leaves (h : FlushesRight s) {a : Option MemId}
    (ht : (s.pcs t).flushing? = some a) (hpcs : s'.pcs = Function.update s.pcs t .idle)
    (horder : s'.state.l0.map SstMeta.origin ++ s'.state.immMemtables.reverse = s'.switchedOut)
    (hout : s'.switchedOut = s.switchedOut) (hactive : s'.state.activeMem = s.state.activeMem)
    (hnext : s'.nextMem = s.nextMem) (hmems : s'.mems = s.mems)
    (hhistory : s'.history = s.history) : FlushesRight s' where
  toFlushInOrder := by
    refine .alone hpcs (fun u hu => h.sole ht hu) (by simp [Pc.flushing?]) (by simp [Pc.flushing?])
      horder ?_ ?_
    · rw [hout, hactive]
      exact h.ascending
    · rw [hactive, hnext]
      exact h.allocated
  builds := h.toFlushInOrder.builds_of_inside ht hpcs trivial
  recorded := by
    rw [Recorded, hmems, hhistory]
    exact h.recorded

theorem FlushesRight.flushReturns (h : FlushesRight s) {a : Option MemId} (state : LsmState)
    (ht : (s.pcs t).flushing? = some a) (caller : Caller)
    (horder : state.l0.map SstMeta.origin ++ state.immMemtables.reverse = s.switchedOut)
    (hactive : state.activeMem = s.state.activeMem) :
    FlushesRight ({ s with state }.flushReturns t caller) := by
  cases caller with
  | write call => exact h.leaves ht rfl horder rfl hactive rfl rfl rfl
  | scheduler => exact h.leaves ht rfl horder rfl hactive rfl rfl rfl

theorem mem_of_entryAfter {mem : MemTable Bytes Bytes} {key : Bytes} {e : Bytes × Entry Bytes}
    (h : Store.entryAfter mem key = some e) : e ∈ mem.entries :=
  List.mem_of_find?_eq_some h

theorem FlushesRight.step (h : FlushesRight s) (hstep : Effect opt s t s') :
    FlushesRight s' := by
  cases hstep with
  | start ht hpc => exact h.outside ht.flushing hpc.flushing
  | snapshot ht => exact h.outside ht.flushing rfl
  | @apply mem call entry hpc hentry =>
      refine ⟨h.toFlushInOrder.moved (t := t) rfl rfl rfl rfl rfl (by rw [hpc]; rfl),
        builds_of_outside h.builds rfl rfl rfl fun _ hev => List.mem_append_left _ hev,
        h.recorded.applyEntry mem entry⟩
  | pass _ hflush _ _ hpc => exact h.outside hflush hpc
  | ack _ hflush => exact (h.outside hflush rfl).acked _
  | @switch pc hflush hpc _ _ =>
      have hswitched : FlushesRight (s.switchMemtable opt) := by
        refine ⟨h.toFlushInOrder.switchMemtable, ?_, ?_⟩
        · intro u
          have := h.builds u
          rw [Store.switchMemtable]
          split
          · exact this
          · exact this.mono rfl fun _ hev => hev
        · rw [Store.switchMemtable]
          split
          · exact h.recorded
          · exact h.recorded
      have hpcs : (s.switchMemtable opt).pcs = s.pcs := by
        rw [Store.switchMemtable]
        split <;> rfl
      exact hswitched.outside (by rw [hpcs]; exact hflush) hpc
  | @lock caller hpc hfree =>
      have hpcs : (s.goto t (.choose caller)).pcs = Function.update s.pcs t (.choose caller) := rfl
      refine ⟨.alone hpcs (fun u _ => h.nobody hfree u) (fun _ _ => rfl)
        (by simp [Pc.flushing?]) h.order h.ascending h.allocated, ?_, h.recorded⟩
      intro u
      by_cases hu : u = t
      · simp [hu, Store.goto, BuildsFrom]
      · have hothers : BuildsFrom { s.goto t (.choose caller) with flushLock := true } (s.pcs u) :=
          (h.builds u).mono rfl fun _ hev => hev
        simpa [Store.goto, hu] using hothers
  | @empty caller hpc hlast =>
      exact h.flushReturns s.state (by rw [hpc]; rfl) caller h.order rfl
  | @choose caller oldest hpc hlast =>
      have ht : (s.pcs t).flushing? = some none := by rw [hpc]; rfl
      have hpcs : (s.goto t (.create caller oldest)).pcs =
          Function.update s.pcs t (.create caller oldest) := rfl
      refine ⟨.alone hpcs (fun u hu => h.sole ht hu)
        (fun _ _ => h.locked ht) ?_ h.order h.ascending h.allocated,
        h.toFlushInOrder.builds_of_inside ht rfl trivial, h.recorded⟩
      intro m hm
      obtain rfl : oldest = m := by simpa [Pc.flushing?] using hm
      exact hlast
  | create hpc => exact h.inside (by rw [hpc]; rfl) rfl ⟨_, rfl⟩
  | @seek caller mem builder hpc =>
      have hbuilds := h.builds t
      rw [hpc] at hbuilds
      obtain ⟨id, rfl⟩ := hbuilds
      refine h.inside (by rw [hpc]; rfl) rfl ⟨⟨id, rfl⟩, ?_⟩
      intro e he
      exact h.recorded mem e (List.mem_of_mem_head? (by simpa using he))
  | @add caller mem builder builder' key entry added hpc hadd =>
      have hbuilds := h.builds t
      rw [hpc] at hbuilds
      obtain ⟨⟨id, hid⟩, hentries⟩ := hbuilds
      refine h.inside (by rw [hpc]; rfl) rfl ⟨⟨id, ?_⟩, ?_⟩
      · refine (SstBuilder.addAll_append hid).trans ?_
        simp [SstBuilder.addAll, hadd, bind, Except.bind]
      · intro e he
        rcases List.mem_append.mp he with he | he
        · exact hentries e (by simpa using he)
        · exact h.recorded mem e (mem_of_entryAfter (by simpa using he))
  | @finish caller mem builder added footer writer hpc hfinish =>
      have hbuilds := h.builds t
      rw [hpc] at hbuilds
      obtain ⟨⟨id, hid⟩, hentries⟩ := hbuilds
      refine h.inside (by rw [hpc]; rfl) rfl ⟨rfl, ?_, id, footer, writer, ?_, rfl, rfl, ?_⟩
      · intro e he
        exact hentries e (by simpa using he)
      · have hid : SstBuilder.addAll added (.new ((s.disk.store writer.inner).writer id)
          (s.disk.store writer.inner).option) = .ok builder := hid
        simp only [buildSst, hid, bind, Except.bind]
        exact hfinish
      · simp [DiskManager.store]
  | @publish caller mem sst hpc =>
      have hbuilds := h.builds t
      rw [hpc] at hbuilds
      exact h.flushReturns (s.state.flushed sst) (by rw [hpc]; rfl) caller
        (h.toFlushInOrder.order_of_publish hpc hbuilds.origin) rfl
  | fails disk ht hdisk =>
      obtain ⟨a, ha⟩ := Option.isSome_iff_exists.mp ht
      exact h.leaves ha rfl h.order rfl rfl rfl rfl rfl

theorem flushesRight_of_reaches {ok : Store ι → Label ι → Prop} {blockSize : ℕ}
    (h : Reaches (Store.step opt) ok (Store.new blockSize) s) : FlushesRight s :=
  h.invariant (flushesRight_new blockSize) fun hs _ hstep => hs.step (step_effect hstep)

/-- Two writes that each fill a memtable, and a flush. -/
def twoWritesOneFlush : List (Label (Fin 2)) :=
  .write 0 [.put [1] [2]] :: List.replicate 6 (.step 0) ++
    .write 0 [.put [3] [4]] :: List.replicate 6 (.step 0) ++
    .flush 1 :: List.replicate 7 (.step 1)

end Steps

end Todb.Lsm

import Todb.Verification.Lsm.Retention

/-! # Rank and recency

A scan asks the active memtable, the immutable ones from the front, then the L0 files from the
front. Memtables are pushed at the front and files at the back, so files are asked oldest
first. -/

namespace Todb.Lsm

open Library

/-! ## Versions -/

/-- The version of a key that a memtable holds was written at a place of the history. -/
def WrittenAt (history : List Event) (mem : MemId) (e : Bytes × Entry Bytes) (place : ℕ) : Prop :=
  history[place]? = some (Event.of mem e) ∧
    ∀ ev ∈ history.drop (place + 1), ¬(ev.mem = mem ∧ ev.key = e.1)

theorem exists_writtenAt {history : List Event} {mem : MemId} {e : Bytes × Entry Bytes}
    (h : latest history mem e.1 = some e.2) : ∃ place, WrittenAt history mem e place := by
  obtain ⟨ev, hfind, hentry⟩ := Option.map_eq_some_iff.mp h
  obtain ⟨hev, later, earlier, hsplit, hlater⟩ := List.find?_eq_some_iff_append.mp hfind
  have hhistory : history = earlier.reverse ++ ev :: later.reverse := by
    rw [← List.reverse_reverse history, hsplit]
    simp
  obtain rfl : ev = Event.of mem e := by
    obtain ⟨hmem, hkey⟩ := of_decide_eq_true hev
    cases ev
    simp_all [Event.of]
  refine ⟨earlier.reverse.length, by rw [hhistory]; simp, ?_⟩
  intro ev' hev'
  rw [hhistory, List.append_cons, List.drop_left' (by simp)] at hev'
  have hnot := hlater ev' (by simpa using hev')
  exact fun hsame => by simp [hsame] at hnot

/-- Along a history that goes through the memtables in the order of their addresses, the
version of the later memtable was written later. -/
theorem WrittenAt.lt {history : List Event} (hordered : history.Pairwise (·.mem ≤ ·.mem))
    {a b : MemId} {x y : Bytes × Entry Bytes} {i j : ℕ} (hi : WrittenAt history a x i)
    (hj : WrittenAt history b y j) (hab : a < b) : i < j := by
  obtain ⟨hilt, hi⟩ := List.getElem?_eq_some_iff.mp hi.1
  obtain ⟨hjlt, hj⟩ := List.getElem?_eq_some_iff.mp hj.1
  by_contra hle
  have hba : b ≤ a := by
    rcases Nat.lt_or_eq_of_le (not_lt.mp hle) with hlt | rfl
    · have hmono := List.pairwise_iff_getElem.mp hordered j i hjlt hilt hlt
      rw [hi, hj] at hmono
      exact hmono
    · rw [hi] at hj
      exact (congrArg Event.mem hj).symm.le
  exact absurd hab hba.not_gt

/-! ## Sources -/

/-- A memtable or a file, with the memtable its entries were put into. -/
structure Source where
  mem : MemId
  entries : List (Bytes × Entry Bytes)
deriving DecidableEq

variable {ι : Type} {opt : LsmTableOption} {s s' : Store ι} {t : ι}

/-- The sources in the order that `build_merged_iter` ranks them. -/
def Store.sources (s : Store ι) : List Source :=
  (s.state.activeMem :: s.state.immMemtables).map (fun mem => ⟨mem, (s.mems mem).entries⟩) ++
    s.state.l0.map fun sst => ⟨sst.origin, sst.entries⟩

/-- Of every key that both sources have, the first one's version was written later. -/
def Newer (history : List Event) (a b : Source) : Prop :=
  ∀ {key x y}, (key, x) ∈ a.entries → (key, y) ∈ b.entries →
    ∃ i j, WrittenAt history a.mem (key, x) i ∧ WrittenAt history b.mem (key, y) j ∧ j < i

def RankIsRecency (s : Store ι) : Prop := s.sources.Pairwise (Newer s.history)

/-- No key is in two L0 files. -/
def FlushedOnce (s : Store ι) : Prop :=
  s.state.l0.Pairwise fun a b => ∀ x ∈ a.entries, ∀ y ∈ b.entries, x.1 ≠ y.1

instance (s : Store ι) : Decidable (FlushedOnce s) :=
  inferInstanceAs (Decidable (List.Pairwise _ _))

/-! ## One thread -/

/-- One thread goes through the memtables in order. -/
structure Sequential (s : Store Unit) : Prop where
  ordered : s.history.Pairwise (·.mem ≤ ·.mem)
  writing : ∀ {mem call}, (s.pcs ()).writing? = some (mem, call) → mem = s.state.activeMem

theorem settled_of_unit (s : Store Unit) (l : Label Unit) : Settled s l := by
  intro hchoosing oldest _ u hpending
  change (s.pcs u).choosing = true at hchoosing
  cases hpc : s.pcs u <;> simp [hpc, Pc.choosing, Pc.pending?] at hchoosing hpending

theorem FlushInOrder.mem_le_active (h : FlushInOrder s) {m : MemId}
    (hm : m ∈ s.switchedOut ++ [s.state.activeMem]) : m ≤ s.state.activeMem := by
  rcases List.mem_append.mp hm with hm | hm
  · exact ((List.pairwise_append.mp h.ascending).2.2 m hm _ (by simp)).le
  · exact (List.mem_singleton.mp hm).le

theorem Sequential.moved {s s' : Store Unit} (h : Sequential s) (hhistory : s'.history = s.history)
    (hwriting : (s'.pcs ()).writing? = none) : Sequential s' := by
  refine ⟨by rw [hhistory]; exact h.ordered, ?_⟩
  intro mem call hcall
  simp [hwriting] at hcall

theorem Sequential.step {s s' : Store Unit} (h : Sequential s) (hr : Retained s)
    (hf : FlushInOrder s) (hstep : Effect opt s () s') : Sequential s' := by
  cases hstep with
  | start _ hpc => exact h.moved rfl (by simpa [Store.goto] using hpc.writing)
  | snapshot _ =>
      refine ⟨h.ordered, ?_⟩
      intro mem call hcall
      obtain ⟨rfl, -⟩ : s.state.activeMem = mem ∧ _ := by
        simpa [Store.goto, Pc.writing?] using hcall
      rfl
  | @apply mem call entry hpc hentry =>
      have hwriting : (s.pcs ()).writing? = some (mem, call) := by rw [hpc]; rfl
      obtain rfl : mem = s.state.activeMem := h.writing hwriting
      refine ⟨?_, ?_⟩
      · refine List.pairwise_append.mpr ⟨h.ordered, List.pairwise_singleton _ _, ?_⟩
        intro ev hev ev' hev'
        rw [List.mem_singleton.mp hev']
        exact hf.mem_le_active (hr.placed ev hev)
      · intro mem call' hcall
        obtain ⟨rfl, -⟩ : s.state.activeMem = mem ∧ _ := by
          simpa [Store.goto, Store.applyEntry, Pc.writing?] using hcall
        rfl
  | pass _ _ _ hwriting _ => exact h.moved rfl (by simpa [Store.goto] using hwriting)
  | switch _ _ hwriting _ =>
      rw [Store.switchMemtable]
      split <;> exact h.moved rfl (by simpa [Store.goto] using hwriting)
  | @empty caller _ _ => cases caller <;> exact h.moved rfl rfl
  | @publish caller _ _ _ => cases caller <;> exact h.moved rfl rfl
  | _ => exact h.moved rfl rfl

theorem sequential_of_reaches {blockSize : ℕ} {s : Store Unit}
    (h : Reaches (Store.step opt) (fun _ _ => True) (Store.new blockSize) s) :
    Sequential s ∧ Retained s ∧ FlushesRight s := by
  have hsettled : Reaches (Store.step opt) Settled (Store.new blockSize) s :=
    h.mono fun _ => settled_of_unit _ _
  refine ⟨?_, retained_of_reaches hsettled⟩
  induction hsettled with
  | start => exact ⟨.nil, by simp [Store.new, Pc.writing?]⟩
  | next hreach _ hstep ih =>
      obtain ⟨hretained, hflushes⟩ := retained_of_reaches hreach
      exact (ih (hreach.mono fun _ => trivial)).step hretained hflushes.toFlushInOrder
        (step_effect hstep)

/-! ## Ranks -/

section Ranks

variable {s : Store Unit}

/-- Every source has what was last put into its memtable. -/
theorem Retained.exists_writtenAt (h : Retained s) {a : Source} (ha : a ∈ s.sources)
    {e : Bytes × Entry Bytes} (he : e ∈ a.entries) :
    ∃ place, WrittenAt s.history a.mem e place := by
  have hentries : a.entries = (s.mems a.mem).entries := by
    rcases List.mem_append.mp ha with ha | ha
    · obtain ⟨mem, -, rfl⟩ := List.mem_map.mp ha
      rfl
    · obtain ⟨sst, hsst, rfl⟩ := List.mem_map.mp ha
      exact h.kept sst hsst
  rw [hentries] at he
  exact Lsm.exists_writtenAt ((h.held a.mem e).mp he)

theorem newer_of_lt (h : Sequential s) (hr : Retained s) {a b : Source} (ha : a ∈ s.sources)
    (hb : b ∈ s.sources) (hlt : b.mem < a.mem) : Newer s.history a b := by
  intro key x y hx hy
  obtain ⟨i, hi⟩ := hr.exists_writtenAt ha hx
  obtain ⟨j, hj⟩ := hr.exists_writtenAt hb hy
  exact ⟨i, j, hi, hj, hj.lt h.ordered hi hlt⟩

theorem not_newer_of_lt (h : Sequential s) {a b : Source} (hlt : a.mem < b.mem) {key : Bytes}
    {x y : Entry Bytes} (hx : (key, x) ∈ a.entries) (hy : (key, y) ∈ b.entries) :
    ¬Newer s.history a b := by
  intro hnewer
  obtain ⟨i, j, hi, hj, hji⟩ := hnewer hx hy
  exact absurd (hi.lt h.ordered hj hlt) hji.not_gt

theorem FlushInOrder.descending (h : FlushInOrder s) :
    (s.state.activeMem :: s.state.immMemtables).Pairwise (· > ·) ∧
      (s.state.l0.map SstMeta.origin).Pairwise (· < ·) ∧
      ∀ a ∈ s.state.activeMem :: s.state.immMemtables, ∀ b ∈ s.state.l0.map SstMeta.origin,
        b < a := by
  have hasc := h.ascending
  rw [← h.order, List.append_assoc, ← List.reverse_cons] at hasc
  obtain ⟨hfiles, hmems, hcross⟩ := List.pairwise_append.mp hasc
  refine ⟨List.pairwise_reverse.mp hmems, hfiles, ?_⟩
  intro a ha b hb
  exact hcross b hb a (List.mem_reverse.mpr ha)

/-- Two writes, each flushed before the next. -/
def flushEach (first second : WriteEntry) : List (Label Unit) :=
  [first, second].flatMap fun entry =>
    .write () [entry] :: List.replicate 6 (.step ()) ++ .flush () :: List.replicate 7 (.step ())

end Ranks

end Todb.Lsm

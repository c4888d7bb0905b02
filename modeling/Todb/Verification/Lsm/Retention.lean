import Todb.Verification.Lsm.FlushOrder

/-! # Acknowledged writes stay

A writer puts its entries into the memtable of its snapshot. As long as no flush starts on a
memtable that a writer still puts into, what was put there is there, or in its file. -/

namespace Todb.Lsm

open Library

variable {ι : Type} {opt : LsmTableOption} {s s' : Store ι} {t : ι}

/-! ## The latest event of a key in a memtable -/

/-- The entry that was last put into a memtable under a key. -/
def latest (history : List Event) (mem : MemId) (key : Bytes) : Option (Entry Bytes) :=
  (history.reverse.find? fun ev => ev.mem = mem ∧ ev.key = key).map Event.entry

@[simp] theorem latest_nil (mem : MemId) (key : Bytes) : latest [] mem key = none := rfl

theorem latest_concat (history : List Event) (ev : Event) (mem : MemId) (key : Bytes) :
    latest (history ++ [ev]) mem key =
      if ev.mem = mem ∧ ev.key = key then some ev.entry else latest history mem key := by
  simp only [latest, List.reverse_append, List.reverse_cons, List.reverse_nil, List.nil_append,
    List.singleton_append, List.find?_cons]
  by_cases h : ev.mem = mem ∧ ev.key = key
  · simp [h]
  · simp [h]

/-- An event that no later one overwrites is the latest. -/
theorem latest_of_getElem? {history : List Event} {i : ℕ} {ev : Event} (h : history[i]? = some ev)
    (hlast : ∀ ev' ∈ history.drop (i + 1), ¬(ev'.mem = ev.mem ∧ ev'.key = ev.key)) :
    latest history ev.mem ev.key = some ev.entry := by
  have hlt : i < history.length := (List.getElem?_eq_some_iff.mp h).1
  have hev : history[i] = ev := (List.getElem?_eq_some_iff.mp h).2
  have hsplit : history = history.take i ++ ev :: history.drop (i + 1) := by
    rw [← hev, List.getElem_cons_drop, List.take_append_drop]
  rw [latest, hsplit, List.reverse_append, List.reverse_cons, List.append_assoc,
    List.find?_append, List.find?_eq_none.mpr]
  · simp
  · intro ev' hev'
    simpa using hlast ev' (by simpa using hev')

/-- The memtables hold what was last put into them. -/
def Held (s : Store ι) : Prop :=
  ∀ mem e, e ∈ (s.mems mem).entries ↔ latest s.history mem e.1 = some e.2

theorem Held.applyEntry (h : Held s) (mem : MemId) (entry : WriteEntry) :
    Held (s.applyEntry mem entry) := by
  intro m e
  change e ∈ (Function.update s.mems mem (entry.apply (s.mems mem)) m).entries ↔
    latest (s.history ++ [⟨mem, entry.key, entry.entry⟩]) m e.1 = some e.2
  rw [latest_concat]
  by_cases hm : m = mem
  · subst hm
    rw [Function.update_self, MemTable.entries, WriteEntry.apply_map, SortedMap.mem_insert]
    by_cases hk : entry.key = e.1
    · simp [hk, Prod.ext_iff, eq_comm]
    · have hk' : e.1 ≠ entry.key := fun heq => hk heq.symm
      simpa [hk, hk', Prod.ext_iff, MemTable.entries] using h m e
  · have hm' : mem ≠ m := fun heq => hm heq.symm
    rw [Function.update_of_ne hm]
    simpa [hm'] using h m e

/-! ## Calls and their events -/

/-- Every entry applied so far is in the history, under the memtable of the snapshot. -/
def WriteCall.Logged (call : WriteCall) (history : List Event) (mem : MemId) : Prop :=
  ∀ j place : ℕ, call.places[j]? = some place → ∃ entry, call.batch[j]? = some entry ∧
    history[place]? = some ⟨mem, entry.key, entry.entry⟩

/-- A call past its loop: all its entries were applied. -/
def WriteCall.Complete (call : WriteCall) (history : List Event) : Prop :=
  call.nextEntry = none ∧ ∃ mem, call.Logged history mem

theorem getElem?_append_of_eq_some {α : Type*} {xs : List α} {i : ℕ} {x : α} (h : xs[i]? = some x)
    (ys : List α) : (xs ++ ys)[i]? = some x := by
  rw [List.getElem?_append_left (List.getElem?_eq_some_iff.mp h).1, h]

theorem WriteCall.Logged.mono {call : WriteCall} {history : List Event} {mem : MemId}
    (h : call.Logged history mem) (more : List Event) : call.Logged (history ++ more) mem := by
  intro j place hj
  obtain ⟨entry, hentry, hev⟩ := h j place hj
  exact ⟨entry, hentry, getElem?_append_of_eq_some hev more⟩

theorem WriteCall.Complete.mono {call : WriteCall} {history : List Event}
    (h : call.Complete history) (more : List Event) : call.Complete (history ++ more) := by
  obtain ⟨hnext, mem, hlogged⟩ := h
  exact ⟨hnext, mem, hlogged.mono more⟩

/-- Applying the next entry logs it. -/
theorem WriteCall.Logged.applied {call : WriteCall} {history : List Event} {mem : MemId}
    {entry : WriteEntry} (h : call.Logged history mem) (hentry : call.nextEntry = some entry) :
    (call.applied history.length).Logged (history ++ [⟨mem, entry.key, entry.entry⟩]) mem := by
  intro j place hj
  change (call.places ++ [history.length])[j]? = some place at hj
  rw [List.getElem?_append] at hj
  split at hj
  · exact h.mono _ j place hj
  · rename_i hge
    obtain ⟨hlt, rfl⟩ := List.getElem?_eq_some_iff.mp hj
    obtain rfl : j = call.places.length := by simp at hlt; omega
    exact ⟨entry, hentry, by simp⟩

theorem WriteCall.Complete.place {call : WriteCall} {history : List Event}
    (h : call.Complete history) {j : ℕ} {entry : WriteEntry} (hentry : call.batch[j]? = some entry) :
    ∃ place mem, call.places[j]? = some place ∧
      history[place]? = some ⟨mem, entry.key, entry.entry⟩ := by
  obtain ⟨hnext, mem, hlogged⟩ := h
  have hj : j < call.places.length := by
    have hbatch : call.batch.length ≤ call.places.length := List.getElem?_eq_none_iff.mp hnext
    exact (List.getElem?_eq_some_iff.mp hentry).1.trans_le hbatch
  have hplace : call.places[j]? = some call.places[j] := List.getElem?_eq_getElem hj
  obtain ⟨entry', hentry', hev⟩ := hlogged j _ hplace
  obtain rfl : entry' = entry := Option.some.inj (hentry'.symm.trans hentry)
  exact ⟨_, mem, hplace, hev⟩

/-- The calls in progress and the acknowledged ones are in the history. -/
structure CallsLogged (s : Store ι) : Prop where
  writing : ∀ {u mem call}, (s.pcs u).writing? = some (mem, call) → call.Logged s.history mem
  done : ∀ {u call}, (s.pcs u).done? = some call → call.Complete s.history
  acked : ∀ call ∈ s.acked, call.Complete s.history

theorem callsLogged_new (blockSize : ℕ) : CallsLogged (Store.new blockSize : Store ι) := by
  refine ⟨?_, ?_, ?_⟩ <;> simp [Store.new, Pc.writing?, Pc.done?]

theorem CallsLogged.complete (h : CallsLogged s) {call : WriteCall}
    (hfinished : (s.pcs t).Finished call) : call.Complete s.history := by
  rcases hfinished with ⟨mem, hwriting, hnext⟩ | hdone
  · exact ⟨hnext, mem, h.writing hwriting⟩
  · exact h.done hdone

section Steps

variable [DecidableEq ι]

theorem CallsLogged.moved (h : CallsLogged s) {pc : Pc}
    (hpcs : s'.pcs = Function.update s.pcs t pc) (hhistory : s'.history = s.history)
    (hwriting : ∀ mem call, pc.writing? = some (mem, call) → call.Logged s.history mem)
    (hdone : ∀ call, pc.done? = some call → call.Complete s.history)
    (hacked : ∀ call ∈ s'.acked, call ∈ s.acked ∨ call.Complete s.history) : CallsLogged s' := by
  refine ⟨?_, ?_, ?_⟩
  · intro u mem call hu
    rw [hpcs] at hu
    rw [hhistory]
    rcases update_cases hu with ⟨-, hu⟩ | ⟨-, hu⟩
    · exact hwriting mem call hu
    · exact h.writing hu
  · intro u call hu
    rw [hpcs] at hu
    rw [hhistory]
    rcases update_cases hu with ⟨-, hu⟩ | ⟨-, hu⟩
    · exact hdone call hu
    · exact h.done hu
  · intro call hcall
    rw [hhistory]
    rcases hacked call hcall with hcall | hcall
    · exact h.acked call hcall
    · exact hcall

/-- A step that takes the call along without changing it. -/
theorem CallsLogged.carried (h : CallsLogged s) {pc : Pc}
    (hpcs : s'.pcs = Function.update s.pcs t pc) (hhistory : s'.history = s.history)
    (hwriting : pc.writing? = none) (hdone : pc.done? = (s.pcs t).done?)
    (hacked : s'.acked = s.acked) : CallsLogged s' := by
  refine h.moved hpcs hhistory ?_ ?_ ?_
  · simp [hwriting]
  · intro call hcall
    exact h.done (hdone ▸ hcall)
  · intro call hcall
    exact .inl (hacked ▸ hcall)

theorem CallsLogged.flushReturns (h : CallsLogged s) (state : LsmState) {caller : Caller}
    (hcaller : (s.pcs t).done? = caller.call?) :
    CallsLogged ({ s with state }.flushReturns t caller) := by
  have hidle : (s.goto t .idle).pcs = Function.update s.pcs t .idle := rfl
  cases caller with
  | write call =>
      refine h.moved hidle rfl (by simp [Pc.writing?]) (by simp [Pc.done?]) ?_
      intro c hc
      rcases List.mem_cons.mp hc with rfl | hc
      · exact .inr (h.done hcaller)
      · exact .inl hc
  | scheduler =>
      exact h.moved hidle rfl (by simp [Pc.writing?]) (by simp [Pc.done?])
        fun _ hc => .inl hc

theorem CallsLogged.step (h : CallsLogged s) (hstep : Effect opt s t s') : CallsLogged s' := by
  cases hstep with
  | start ht hpc => exact h.carried rfl rfl hpc.writing (hpc.done.trans ht.done.symm) rfl
  | snapshot ht =>
      refine h.moved rfl rfl ?_ (by simp [Pc.done?]) fun _ hc => .inl hc
      intro mem call hcall
      obtain ⟨rfl, rfl⟩ : s.state.activeMem = mem ∧ _ = call := by simpa [Pc.writing?] using hcall
      simp [WriteCall.Logged]
  | @apply mem call entry hpc hentry =>
      have hlogged : call.Logged s.history mem := h.writing (by rw [hpc]; rfl)
      refine ⟨?_, ?_, ?_⟩
      · intro u mem' call' hu
        rcases update_cases hu with ⟨-, hu⟩ | ⟨-, hu⟩
        · obtain ⟨rfl, rfl⟩ : mem = mem' ∧ call.applied s.history.length = call' := by
            simpa [Pc.writing?] using hu
          exact hlogged.applied hentry
        · exact (h.writing hu).mono _
      · intro u call' hu
        rcases update_cases hu with ⟨-, hu⟩ | ⟨-, hu⟩
        · simp [Pc.done?] at hu
        · exact (h.done hu).mono _
      · intro call' hcall
        exact (h.acked call' hcall).mono _
  | pass hfinished _ hdone hwriting _ =>
      refine h.moved rfl rfl (by simp [hwriting]) ?_ fun _ hc => .inl hc
      intro call' hcall'
      obtain rfl := Option.some.inj (hdone.symm.trans hcall')
      exact h.complete hfinished
  | ack hfinished _ =>
      refine h.moved rfl rfl (by simp [Pc.writing?]) (by simp [Pc.done?]) ?_
      intro c hc
      rcases List.mem_cons.mp hc with rfl | hc
      · exact .inr (h.complete hfinished)
      · exact .inl hc
  | switch _ _ hwriting hdone =>
      rw [Store.switchMemtable]
      split
      · exact h.carried rfl rfl hwriting hdone rfl
      · exact h.carried rfl rfl hwriting hdone rfl
  | lock hpc => exact h.carried rfl rfl rfl (by rw [hpc]; rfl) rfl
  | empty hpc => exact h.flushReturns s.state (by rw [hpc]; rfl)
  | choose hpc => exact h.carried rfl rfl rfl (by rw [hpc]; rfl) rfl
  | create hpc => exact h.carried rfl rfl rfl (by rw [hpc]; rfl) rfl
  | seek hpc => exact h.carried rfl rfl rfl (by rw [hpc]; rfl) rfl
  | add hpc _ => exact h.carried rfl rfl rfl (by rw [hpc]; rfl) rfl
  | finish hpc _ => exact h.carried rfl rfl rfl (by rw [hpc]; rfl) rfl
  | publish hpc => exact h.flushReturns _ (by rw [hpc]; rfl)
  | fails disk _ _ =>
      exact h.moved rfl rfl (by simp [Pc.writing?]) (by simp [Pc.done?]) fun _ hc => .inl hc

end Steps

/-! ## Nothing is put into a memtable that is being flushed -/

namespace Pc

/-- The memtable a writer still has entries to put into. -/
def pending? : Pc → Option MemId
  | .apply mem call => call.nextEntry.map fun _ => mem
  | _ => none

/-- About to choose the memtable to flush. -/
def choosing : Pc → Bool
  | .choose _ => true
  | _ => false

theorem pending?_of_writing? {pc : Pc} (h : pc.writing? = none) : pc.pending? = none := by
  cases pc <;> simp_all [writing?, pending?]

end Pc

/-- The condition on a step: a flush chooses no memtable that a writer with an older snapshot
still has entries to put into. -/
def Settled (s : Store ι) (l : Label ι) : Prop :=
  (s.pcs l.thread).choosing = true → ∀ oldest ∈ s.state.immMemtables.getLast?, ∀ u,
    (s.pcs u).pending? ≠ some oldest

instance [Fintype ι] (s : Store ι) (l : Label ι) : Decidable (Settled s l) :=
  inferInstanceAs (Decidable (_ → _))

/-- How much of its memtable a thread that builds a file has added. -/
def Scans (s : Store ι) : Pc → Prop
  | .build _ mem _ item added =>
      ∃ rest, (s.mems mem).entries = added ++ rest ∧ item = rest.head?
  | .publish _ mem sst => sst.entries = (s.mems mem).entries
  | _ => True

theorem scans_of_not_flushing {pc : Pc} (h : pc.flushing? = none) : Scans s pc := by
  cases pc <;> simp [Pc.flushing?] at h <;> trivial

/-- The scan of a thread depends on the memtable it has chosen only. -/
theorem Scans.congr {pc : Pc} (h : Scans s pc)
    (hmems : ∀ m, pc.flushing? = some (some m) → s'.mems m = s.mems m) : Scans s' pc := by
  cases pc with
  | build _ mem _ item added => simpa only [Scans, hmems mem rfl] using h
  | publish _ mem sst => simpa only [Scans, hmems mem rfl] using h
  | _ => trivial

theorem entryAfter_eq_head? {mem : MemTable Bytes Bytes} {added rest : List (Bytes × Entry Bytes)}
    {key : Bytes} {entry : Entry Bytes} (h : mem.entries = added ++ (key, entry) :: rest) :
    Store.entryAfter mem key = rest.head? := by
  have hasc : (added ++ (key, entry) :: rest).Pairwise fun a b => a.1 < b.1 :=
    h ▸ mem.map.ascending
  obtain ⟨-, hrest, hbefore⟩ := List.pairwise_append.mp hasc
  have hafter := (List.pairwise_cons.mp hrest).1
  rw [Store.entryAfter, h, List.find?_append, List.find?_eq_none.mpr, Option.none_or,
    List.find?_cons_of_neg (by simp)]
  · cases rest with
    | nil => rfl
    | cons e rest => simp [hafter e (by simp)]
  · intro e he
    simpa using (hbefore e he (key, entry) (by simp)).le

/-- Every entry put is in its memtable, and a file has all of its memtable. -/
structure Retained (s : Store ι) : Prop where
  live : ∀ {u m}, (s.pcs u).pending? = some m →
    m = s.state.activeMem ∨ m ∈ s.state.immMemtables
  settled : ∀ {t m}, (s.pcs t).flushing? = some (some m) → ∀ u, (s.pcs u).pending? ≠ some m
  held : Held s
  scans : ∀ t, Scans s (s.pcs t)
  kept : ∀ sst ∈ s.state.l0, sst.entries = (s.mems sst.origin).entries
  placed : ∀ ev ∈ s.history, ev.mem ∈ s.switchedOut ++ [s.state.activeMem]

theorem retained_new (blockSize : ℕ) : Retained (Store.new blockSize : Store ι) := by
  refine ⟨?_, ?_, ?_, fun _ => trivial, ?_, ?_⟩
  · simp [Store.new, Pc.pending?]
  · simp [Store.new, Pc.flushing?]
  · intro mem e
    simp [Store.new, MemTable.new, MemTable.entries]
  · simp [Store.new]
  · simp [Store.new]

namespace FlushInOrder

/-- The memtable a flush has chosen is not the active one. -/
theorem chosen_ne_active (h : FlushInOrder s) {m : MemId}
    (ht : (s.pcs t).flushing? = some (some m)) : m ≠ s.state.activeMem := by
  have hmem : m ∈ s.switchedOut := by
    rw [← h.order]
    simp [List.mem_of_getLast? (h.chosen ht)]
  exact ((List.pairwise_append.mp h.ascending).2.2 m hmem _ (by simp)).ne

/-- A memtable is in one place. -/
theorem origin_ne (h : FlushInOrder s) {sst : SstMeta} (hsst : sst ∈ s.state.l0) {m : MemId}
    (hm : m = s.state.activeMem ∨ m ∈ s.state.immMemtables) : sst.origin ≠ m := by
  have hasc := h.ascending
  rw [← h.order, List.append_assoc] at hasc
  have hlt := (List.pairwise_append.mp hasc).2.2 sst.origin (List.mem_map_of_mem hsst) m
  refine (hlt ?_).ne
  rcases hm with rfl | hm
  · simp
  · simp [hm]

theorem mem_of_live (h : FlushInOrder s) {m : MemId}
    (hm : m = s.state.activeMem ∨ m ∈ s.state.immMemtables) :
    m ∈ s.switchedOut ++ [s.state.activeMem] := by
  rw [← h.order]
  rcases hm with rfl | hm
  · simp
  · simp [hm]

end FlushInOrder

theorem Retained.switchMemtable (h : Retained s) : Retained (s.switchMemtable opt) := by
  rw [Store.switchMemtable]
  split
  · exact h
  · refine ⟨?_, h.settled, h.held, fun u => (h.scans u).congr fun _ _ => rfl, h.kept, ?_⟩
    · intro u m hu
      rcases h.live hu with rfl | hm
      · exact .inr List.mem_cons_self
      · exact .inr (List.mem_cons_of_mem _ hm)
    · intro ev hev
      exact List.mem_append_left _ (h.placed ev hev)

section Steps

variable [DecidableEq ι] {l : Label ι}

/-- Every scan goes on, as long as no memtable that is being flushed changes. -/
theorem scans_update {pc : Pc} (h : ∀ u, Scans s (s.pcs u))
    (hpcs : s'.pcs = Function.update s.pcs t pc) (hpc : Scans s' pc)
    (hmems : ∀ {u m}, (s.pcs u).flushing? = some (some m) → s'.mems m = s.mems m) (u : ι) :
    Scans s' (s'.pcs u) := by
  rw [hpcs]
  by_cases hu : u = t
  · rwa [hu, Function.update_self]
  · rw [Function.update_of_ne hu]
    exact (h u).congr fun m hm => hmems hm

/-- A step that puts nothing and publishes nothing. -/
theorem Retained.moved (h : Retained s) {pc : Pc} (hpcs : s'.pcs = Function.update s.pcs t pc)
    (hmems : s'.mems = s.mems) (hhistory : s'.history = s.history) (hstate : s'.state = s.state)
    (hout : s'.switchedOut = s.switchedOut) (hpending : pc.pending? = none)
    (hflush : ∀ m, pc.flushing? = some (some m) → ∀ u, (s.pcs u).pending? ≠ some m)
    (hscans : Scans s pc) : Retained s' := by
  have hpend : ∀ {u m}, (s'.pcs u).pending? = some m → (s.pcs u).pending? = some m := by
    intro u m hu
    rw [hpcs] at hu
    rcases update_cases hu with ⟨-, hu⟩ | ⟨-, hu⟩
    · simp [hpending] at hu
    · exact hu
  refine ⟨?_, ?_, ?_, ?_, ?_, ?_⟩
  · intro u m hu
    rw [hstate]
    exact h.live (hpend hu)
  · intro v m hv u hu
    rw [hpcs] at hv
    rcases update_cases hv with ⟨-, hv⟩ | ⟨-, hv⟩
    · exact hflush m hv u (hpend hu)
    · exact h.settled hv u (hpend hu)
  · rw [Held, hmems, hhistory]
    exact h.held
  · have hsame : ∀ m, s'.mems m = s.mems m := fun m => by rw [hmems]
    exact scans_update h.scans hpcs (hscans.congr fun m _ => hsame m) fun _ => hsame _
  · rw [hstate, hmems]
    exact h.kept
  · rw [hhistory, hout, hstate]
    exact h.placed

/-- A writer takes its snapshot: nobody flushes the active memtable. -/
theorem Retained.snapshot (h : Retained s) (hf : FlushInOrder s) (batch : WriteBatch) :
    Retained (s.goto t (.apply s.state.activeMem ⟨batch, []⟩)) := by
  have hpend : ∀ {u m}, ((s.goto t (.apply s.state.activeMem ⟨batch, []⟩)).pcs u).pending? = some m →
      m = s.state.activeMem ∨ (s.pcs u).pending? = some m := by
    intro u m hu
    rcases update_cases hu with ⟨-, hu⟩ | ⟨-, hu⟩
    · obtain ⟨-, -, rfl⟩ := Option.map_eq_some_iff.mp hu
      exact .inl rfl
    · exact .inr hu
  refine ⟨?_, ?_, h.held, ?_, h.kept, h.placed⟩
  · intro u m hu
    rcases hpend hu with rfl | hu
    · exact .inl rfl
    · exact h.live hu
  · intro v m hv u hu
    rcases update_cases hv with ⟨-, hv⟩ | ⟨-, hv⟩
    · simp [Pc.flushing?] at hv
    · rcases hpend hu with rfl | hu
      · exact hf.chosen_ne_active hv rfl
      · exact h.settled hv u hu
  · exact scans_update h.scans rfl trivial fun _ => rfl

/-- A put into a memtable that nobody flushes and no file was built from. -/
theorem Retained.apply (h : Retained s) (hf : FlushInOrder s) {mem : MemId} {call : WriteCall}
    {entry : WriteEntry} (hpc : s.pcs t = .apply mem call) (hentry : call.nextEntry = some entry) :
    Retained
      ((s.applyEntry mem entry).goto t (.apply mem (call.applied s.history.length))) := by
  have ht : (s.pcs t).pending? = some mem := by simp [hpc, Pc.pending?, hentry]
  have hpend : ∀ {u m}, (Function.update s.pcs t
      (.apply mem (call.applied s.history.length)) u).pending? = some m →
        ∃ v, (s.pcs v).pending? = some m := by
    intro u m hu
    rcases update_cases hu with ⟨-, hu⟩ | ⟨-, hu⟩
    · obtain ⟨-, -, rfl⟩ := Option.map_eq_some_iff.mp hu
      exact ⟨t, ht⟩
    · exact ⟨u, hu⟩
  refine ⟨?_, ?_, h.held.applyEntry mem entry, ?_, ?_, ?_⟩
  · intro u m hu
    obtain ⟨v, hv⟩ := hpend hu
    exact h.live hv
  · intro v m hv u hu
    rcases update_cases hv with ⟨-, hv⟩ | ⟨-, hv⟩
    · simp [Pc.flushing?] at hv
    · obtain ⟨w, hw⟩ := hpend hu
      exact h.settled hv w hw
  · refine scans_update h.scans rfl trivial fun hm => Function.update_of_ne ?_ _ _
    rintro rfl
    exact h.settled hm t ht
  · intro sst hsst
    have hne : sst.origin ≠ mem := hf.origin_ne hsst (h.live ht)
    simpa [Store.applyEntry, Store.goto, hne] using h.kept sst hsst
  · intro ev hev
    rcases List.mem_append.mp hev with hev | hev
    · exact h.placed ev hev
    · rw [List.mem_singleton.mp hev]
      exact hf.mem_of_live (h.live ht)

/-- Publishing a file that has all of its memtable. -/
theorem Retained.published (h : Retained s) (hf : FlushesRight s) {caller : Caller} {mem : MemId}
    {sst : SstMeta} (hpc : s.pcs t = .publish caller mem sst)
    (hpcs : s'.pcs = Function.update s.pcs t .idle) (hmems : s'.mems = s.mems)
    (hhistory : s'.history = s.history) (hstate : s'.state = s.state.flushed sst)
    (hout : s'.switchedOut = s.switchedOut) : Retained s' := by
  have ht : (s.pcs t).flushing? = some (some mem) := by rw [hpc]; rfl
  have hbuilt := hf.builds t
  have hscans := h.scans t
  rw [hpc] at hbuilt hscans
  have hpend : ∀ {u m}, (s'.pcs u).pending? = some m → (s.pcs u).pending? = some m := by
    intro u m hu
    rw [hpcs] at hu
    rcases update_cases hu with ⟨-, hu⟩ | ⟨-, hu⟩
    · simp [Pc.pending?] at hu
    · exact hu
  refine ⟨?_, ?_, ?_, ?_, ?_, ?_⟩
  · intro u m hu
    rw [hstate]
    have hne : m ≠ mem := by
      rintro rfl
      exact h.settled ht u (hpend hu)
    refine (h.live (hpend hu)).imp_right fun hm => ?_
    rw [hf.toFlushInOrder.imm_eq_of_publish hpc] at hm
    simpa [hne] using hm
  · intro v m hv u hu
    rw [hpcs] at hv
    rcases update_cases hv with ⟨-, hv⟩ | ⟨-, hv⟩
    · simp [Pc.flushing?] at hv
    · exact h.settled hv u (hpend hu)
  · rw [Held, hmems, hhistory]
    exact h.held
  · exact scans_update h.scans hpcs trivial fun _ => by rw [hmems]
  · intro sst' hsst'
    rw [hmems]
    rw [hstate, LsmState.l0_flushed] at hsst'
    rcases List.mem_append.mp hsst' with hsst' | hsst'
    · exact h.kept sst' hsst'
    · rw [List.mem_singleton.mp hsst', hbuilt.origin]
      exact hscans
  · rw [hhistory, hout, hstate]
    exact h.placed

theorem Retained.step (h : Retained s) (hf : FlushesRight s) (hok : Settled s l)
    (hstep : Effect opt s l.thread s') : Retained s' := by
  generalize ht : l.thread = t at hstep
  have hchosen : ∀ {pc : Pc}, pc.flushing? = (s.pcs t).flushing? →
      ∀ m, pc.flushing? = some (some m) → ∀ u, (s.pcs u).pending? ≠ some m :=
    fun hsame m hm => h.settled (hsame ▸ hm)
  cases hstep with
  | start _ hpc =>
      exact h.moved rfl rfl rfl rfl rfl (Pc.pending?_of_writing? hpc.writing)
        (by simp [hpc.flushing]) (scans_of_not_flushing hpc.flushing)
  | snapshot _ => exact h.snapshot hf.toFlushInOrder _
  | apply hpc hentry => exact h.apply hf.toFlushInOrder hpc hentry
  | pass _ _ _ hwriting hpc =>
      exact h.moved rfl rfl rfl rfl rfl (Pc.pending?_of_writing? hwriting)
        (by simp [hpc]) (scans_of_not_flushing hpc)
  | ack _ _ => exact h.moved rfl rfl rfl rfl rfl rfl (by simp [Pc.flushing?]) trivial
  | switch _ hpc hwriting _ =>
      exact (show Retained (s.switchMemtable opt) from h.switchMemtable).moved rfl rfl rfl rfl rfl
        (Pc.pending?_of_writing? hwriting) (by simp [hpc]) (scans_of_not_flushing hpc)
  | lock _ _ => exact h.moved rfl rfl rfl rfl rfl rfl (by simp [Pc.flushing?]) trivial
  | @empty caller _ _ =>
      cases caller <;> exact h.moved rfl rfl rfl rfl rfl rfl (by simp [Pc.flushing?]) trivial
  | @choose caller oldest hpc hlast =>
      refine h.moved rfl rfl rfl rfl rfl rfl ?_ trivial
      intro m hm
      obtain rfl : oldest = m := by simpa [Pc.flushing?] using hm
      exact hok (by rw [ht, hpc]; rfl) oldest hlast
  | create hpc => exact h.moved rfl rfl rfl rfl rfl rfl (hchosen (by rw [hpc]; rfl)) trivial
  | seek hpc =>
      exact h.moved rfl rfl rfl rfl rfl rfl (hchosen (by rw [hpc]; rfl)) ⟨_, rfl, rfl⟩
  | @add caller mem builder builder' key entry added hpc _ =>
      have hscans := h.scans t
      rw [hpc] at hscans
      obtain ⟨rest, hrest, hitem⟩ := hscans
      obtain ⟨rest', rfl⟩ : ∃ rest', rest = (key, entry) :: rest' := by
        cases rest with
        | nil => simp at hitem
        | cons e rest' => exact ⟨rest', by simpa using hitem.symm⟩
      exact h.moved rfl rfl rfl rfl rfl rfl (hchosen (by rw [hpc]; rfl))
        ⟨rest', by simpa using hrest, entryAfter_eq_head? hrest⟩
  | @finish caller mem builder added footer writer hpc _ =>
      have hscans := h.scans t
      rw [hpc] at hscans
      obtain ⟨rest, hrest, hitem⟩ := hscans
      obtain rfl : rest = [] := by simpa using hitem.symm
      exact h.moved rfl rfl rfl rfl rfl rfl (hchosen (by rw [hpc]; rfl))
        (by simpa [Scans] using hrest.symm)
  | @publish caller mem sst hpc => cases caller <;> exact h.published hf hpc rfl rfl rfl rfl rfl
  | fails _ _ _ => exact h.moved rfl rfl rfl rfl rfl rfl (by simp [Pc.flushing?]) trivial

end Steps

/-! ## Containment -/

/-- A source of the published state holds the entry. -/
def Store.Contains (s : Store ι) (key : Bytes) (entry : Entry Bytes) : Prop :=
  (key, entry) ∈ (s.mems s.state.activeMem).entries ∨
    (∃ mem ∈ s.state.immMemtables, (key, entry) ∈ (s.mems mem).entries) ∨
    ∃ sst ∈ s.state.l0, (key, entry) ∈ sst.entries

instance (s : Store ι) (key : Bytes) (entry : Entry Bytes) : Decidable (s.Contains key entry) :=
  inferInstanceAs (Decidable (_ ∨ _ ∨ _))

theorem Retained.contains (h : Retained s) (hf : FlushInOrder s) {place : ℕ} {ev : Event}
    (hev : s.history[place]? = some ev)
    (hlast : ∀ ev' ∈ s.history.drop (place + 1), ¬(ev'.mem = ev.mem ∧ ev'.key = ev.key)) :
    s.Contains ev.key ev.entry := by
  have hheld : (ev.key, ev.entry) ∈ (s.mems ev.mem).entries :=
    (h.held ev.mem (ev.key, ev.entry)).mpr (latest_of_getElem? hev hlast)
  have hplaced := h.placed ev (List.mem_of_getElem? hev)
  rw [← hf.order, List.append_assoc] at hplaced
  rcases List.mem_append.mp hplaced with hfile | hlive
  · obtain ⟨sst, hsst, horigin⟩ := List.mem_map.mp hfile
    refine .inr (.inr ⟨sst, hsst, ?_⟩)
    rw [h.kept sst hsst, horigin]
    exact hheld
  · rcases List.mem_append.mp hlive with himm | hactive
    · exact .inr (.inl ⟨ev.mem, by simpa using himm, hheld⟩)
    · rw [List.mem_singleton.mp hactive] at hheld
      exact .inl hheld

section Runs

variable [DecidableEq ι]

theorem retained_of_reaches {blockSize : ℕ}
    (h : Reaches (Store.step opt) Settled (Store.new blockSize) s) :
    Retained s ∧ FlushesRight s := by
  refine h.invariant (P := fun s => Retained s ∧ FlushesRight s)
    ⟨retained_new blockSize, flushesRight_new blockSize⟩ ?_
  intro s l s' hs hok hstep
  exact ⟨hs.1.step hs.2 hok (step_effect hstep), hs.2.step (step_effect hstep)⟩

theorem callsLogged_of_reaches {ok : Store ι → Label ι → Prop} {blockSize : ℕ}
    (h : Reaches (Store.step opt) ok (Store.new blockSize) s) : CallsLogged s :=
  h.invariant (callsLogged_new blockSize) fun hs _ hstep => hs.step (step_effect hstep)

/-- In every run whose flushes choose settled memtables, every entry of an acknowledged write
that no later write of its key overwrites is in a source of the published state. -/
theorem acked_contained {blockSize : ℕ}
    (h : Reaches (Store.step opt) Settled (Store.new blockSize) s) {call : WriteCall}
    (hcall : call ∈ s.acked) {j : ℕ} {entry : WriteEntry} (hentry : call.batch[j]? = some entry) :
    ∃ place mem, call.places[j]? = some place ∧
      s.history[place]? = some ⟨mem, entry.key, entry.entry⟩ ∧
        ((∀ ev ∈ s.history.drop (place + 1), ev.key ≠ entry.key) →
          s.Contains entry.key entry.entry) := by
  obtain ⟨hretained, hflushes⟩ := retained_of_reaches h
  obtain ⟨place, mem, hplace, hev⟩ := ((callsLogged_of_reaches h).acked call hcall).place hentry
  refine ⟨place, mem, hplace, hev, ?_⟩
  intro hlast
  refine hretained.contains hflushes.toFlushInOrder hev ?_
  rintro ev' hev' ⟨-, hkey⟩
  exact hlast ev' hev' hkey

theorem acked_contained_first : ∃ s : Store (Fin 2),
    Reaches (Store.step ⟨0, 4⟩) Settled (Store.new 64) s ∧ ⟨[.put [1] [2]], [0]⟩ ∈ s.acked ∧
      s.Contains [1] (.put [2]) := by
  have hrun : ∃ s : Store (Fin 2),
      Reaches (Store.step ⟨0, 4⟩) Settled (Store.new 64) s ∧
        (s.acked, s.history) = ([⟨[.put [3] [4]], [1]⟩, ⟨[.put [1] [2]], [0]⟩],
          [⟨0, [1], .put [2]⟩, ⟨1, [3], .put [4]⟩]) :=
    Reaches.exists_of_execute twoWritesOneFlush
      (fun s : Store (Fin 2) => (s.acked, s.history)) _ (by decide +kernel) (by decide +kernel)
  obtain ⟨s, hs, hobs⟩ := hrun
  obtain ⟨hacked, hhistory⟩ := Prod.mk.inj hobs
  have hcall : (⟨[.put [1] [2]], [0]⟩ : WriteCall) ∈ s.acked := by simp [hacked]
  have hentry : (⟨[.put [1] [2]], [0]⟩ : WriteCall).batch[0]? = some (.put [1] [2]) := rfl
  obtain ⟨place, mem, hplace, hev, hcontains⟩ := acked_contained hs hcall hentry
  obtain rfl : 0 = place := by simpa using hplace
  exact ⟨s, hs, hcall, hcontains (by simp [hhistory, WriteEntry.key])⟩

/-- A writer takes its snapshot and pauses; the memtable is switched out by another writer,
flushed and dropped; then the first writer puts its entry. -/
def lateWriter : List (Label (Fin 3)) :=
  .write 0 [.put [1] [2]] :: List.replicate 2 (.step 0) ++
    .write 1 [.put [3] [4]] :: List.replicate 6 (.step 1) ++
    .flush 2 :: List.replicate 7 (.step 2) ++ List.replicate 4 (.step 0)

/-- The late writer's entry is acknowledged and in no source. -/
theorem acked_lost : ∃ s : Store (Fin 3),
    Reaches (Store.step ⟨0, 4⟩) (fun _ _ => True) (Store.new 64) s ∧
      ⟨[.put [1] [2]], [1]⟩ ∈ s.acked ∧ s.history[1]? = some ⟨0, [1], .put [2]⟩ ∧
      (∀ ev ∈ s.history.drop 2, ev.key ≠ [1]) ∧ ¬s.Contains [1] (.put [2]) := by
  have hrun : ∃ s : Store (Fin 3),
      Reaches (Store.step ⟨0, 4⟩) (fun _ _ => True) (Store.new 64) s ∧
        (s.acked, s.history, decide (s.Contains [1] (.put [2]))) =
          ([⟨[.put [1] [2]], [1]⟩, ⟨[.put [3] [4]], [0]⟩],
            [⟨0, [3], .put [4]⟩, ⟨0, [1], .put [2]⟩], false) :=
    Reaches.exists_of_execute lateWriter
      (fun s : Store (Fin 3) => (s.acked, s.history, decide (s.Contains [1] (.put [2])))) _
      (by decide +kernel) (by decide +kernel)
  obtain ⟨s, hs, hobs⟩ := hrun
  obtain ⟨hacked, hrest⟩ := Prod.mk.inj hobs
  obtain ⟨hhistory, hcontains⟩ := Prod.mk.inj hrest
  exact ⟨s, hs, by simp [hacked], by simp [hhistory], by simp [hhistory], by simpa using hcontains⟩

end Runs

end Todb.Lsm

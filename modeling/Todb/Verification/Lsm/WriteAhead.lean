import Todb.Model.Storage.Database
import Todb.Verification.Lsm.LastWriter
import Todb.Verification.Lsm.SharedDisk

/-! # What a `write` puts into the log and into the memtables -/

namespace Todb.Lsm

open Library

/-- The entries of a `write` call that are in the log but not in a memtable yet. -/
def Pc.pending : Pc → List WriteEntry
  | .snapshot batch => batch
  | .apply _ call => call.batch.drop call.places.length
  | _ => []

variable {ι : Type} [DecidableEq ι] {opt : LsmTableOption} {s s' : Store ι} {t : ι} {l : Label ι}

/-- The effect of a step of `t` on what is logged and what is applied: the thread applies `events`
and goes on at `pc`; what it applies or keeps is what it had, and what it gave to the log. -/
structure Applies (s : Store ι) (t : ι) (batches : List WriteBatch) (s' : Store ι)
    (pc : Pc) (events : List Event) : Prop where
  pcs : s'.pcs = Function.update s.pcs t pc
  history : s'.history = s.history ++ events
  balance : events.map Event.version ++ pc.pending.map WriteEntry.version =
    (s.pcs t).pending.map WriteEntry.version ++ batches.flatten.map WriteEntry.version

/-- A step that applies nothing and gives nothing to the log. -/
theorem Applies.quiet {pc pc' : Pc} (hpc : s.pcs t = pc) (hpcs : s'.pcs = Function.update s.pcs t pc')
    (hhistory : s'.history = s.history) (hpending : pc'.pending = pc.pending) :
    Applies s t [] s' pc' [] where
  pcs := hpcs
  history := by rw [hhistory, List.append_nil]
  balance := by simp [hpc, hpending]

theorem Applies.entry {mem : MemId} {call : WriteCall} {entry : WriteEntry}
    (hpc : s.pcs t = .apply mem call) (hentry : call.nextEntry = some entry) :
    Applies s t [] ((s.applyEntry mem entry).goto t (.apply mem (call.applied s.history.length)))
      (.apply mem (call.applied s.history.length)) [⟨mem, entry.key, entry.entry⟩] := by
  obtain ⟨hlt, hget⟩ := List.getElem?_eq_some_iff.mp hentry
  have hdrop : call.batch.drop call.places.length =
      entry :: call.batch.drop (call.places.length + 1) := by
    rw [List.drop_eq_getElem_cons hlt, hget]
  refine ⟨rfl, rfl, ?_⟩
  simp [hpc, Pc.pending, hdrop, WriteCall.applied, Event.version, WriteEntry.version]

theorem call_applies {pc : Pc} (hpc : pc.pending = []) (hstep : s.call t pc = some s') :
    Applies s t [] s' pc [] := by
  rw [Store.call] at hstep
  split at hstep
  · rename_i hidle
    exact Option.some.inj hstep ▸ .quiet hidle rfl rfl hpc
  · simp at hstep

theorem failing_applies (hstep : s.failing t = some s') : ∃ pc, Applies s t [] s' pc [] := by
  rw [Store.failing] at hstep
  split at hstep
  case h_4 => simp at hstep
  all_goals
    rename_i hpc
    exact ⟨.idle, Option.some.inj hstep ▸ .quiet hpc rfl rfl rfl⟩

omit [DecidableEq ι] in
theorem switchMemtable_history : (s.switchMemtable opt).history = s.history := by
  rw [Store.switchMemtable]
  split <;> rfl

theorem flushReturns_applies {pc : Pc} {state : LsmState} (hpc : s.pcs t = pc)
    (hpending : pc.pending = []) (caller : Caller) :
    Applies s t [] ({ s with state }.flushReturns t caller) .idle [] := by
  cases caller <;> exact .quiet hpc rfl rfl hpending.symm

/-- The steps of a thread after its append. -/
theorem advance_applies (hstep : s.advance opt t = some s')
    (hlogged : ∀ batch, s.pcs t ≠ .append batch) : ∃ pc events, Applies s t [] s' pc events := by
  rw [Store.advance] at hstep
  split at hstep
  case h_1 => simp at hstep
  case h_2 hpc => exact absurd hpc (hlogged _)
  case h_4 hpc =>
    split at hstep
    · rename_i hentry
      obtain rfl := Option.some.inj hstep
      exact ⟨_, _, .entry hpc hentry⟩
    · rename_i hnone
      have hpending := List.drop_eq_nil_of_le (List.getElem?_eq_none_iff.mp hnone)
      split at hstep <;> obtain rfl := Option.some.inj hstep
      · exact ⟨.idle, [], .quiet hpc rfl rfl hpending.symm⟩
      · exact ⟨.switch _, [], .quiet hpc rfl rfl hpending.symm⟩
  case h_3 hpc | h_10 hpc | h_11 hpc =>
    obtain rfl := Option.some.inj hstep
    exact ⟨_, [], .quiet hpc rfl rfl rfl⟩
  case h_5 hpc | h_6 hpc =>
    obtain rfl := Option.some.inj hstep
    exact ⟨_, [], .quiet hpc (switchMemtable_pcs ..) switchMemtable_history rfl⟩
  case h_7 hpc | h_12 hpc | h_13 hpc =>
    split at hstep <;> obtain rfl := Option.some.inj hstep <;>
      exact ⟨_, [], .quiet hpc rfl rfl rfl⟩
  case h_8 hpc =>
    split at hstep
    · simp at hstep
    · obtain rfl := Option.some.inj hstep
      exact ⟨_, [], .quiet hpc rfl rfl rfl⟩
  case h_9 caller hpc =>
    split at hstep <;> obtain rfl := Option.some.inj hstep
    · exact ⟨.idle, [], flushReturns_applies hpc rfl caller⟩
    · exact ⟨_, [], .quiet hpc rfl rfl rfl⟩
  case h_14 caller _ _ hpc =>
    obtain rfl := Option.some.inj hstep
    exact ⟨.idle, [], flushReturns_applies hpc rfl caller⟩

theorem step_applies (hstep : s.step opt l = some s') :
    ∃ pc events, Applies s l.thread (s.appends l) s' pc events := by
  cases l with
  | write t batch => exact ⟨_, [], call_applies rfl hstep⟩
  | switch t => exact ⟨_, [], call_applies rfl hstep⟩
  | flush t => exact ⟨_, [], call_applies rfl hstep⟩
  | fail t =>
      obtain ⟨pc, h⟩ := failing_applies hstep
      exact ⟨pc, [], h⟩
  | step t =>
      by_cases hlogged : ∃ batch, s.pcs t = .append batch
      · obtain ⟨batch, hpc⟩ := hlogged
        simp only [Store.step, Store.advance, hpc, Option.some.injEq] at hstep
        subst hstep
        refine ⟨.snapshot batch, [], rfl, (List.append_nil _).symm, ?_⟩
        simp [Store.appends, hpc, Pc.pending, Label.thread]
      · rw [not_exists] at hlogged
        have happends : s.appends (.step t) = [] := by
          rw [Store.appends]
          split
          · rename_i hpc
            exact absurd hpc (hlogged _)
          · rfl
        rw [happends]
        exact advance_applies hstep hlogged

/-! ## All threads -/

/-- Every entry given to the log is in the history or pending in one thread, as often as it was
given to the log. -/
def Balanced [Fintype ι] (s : Store ι) (entries : List WriteEntry) : Prop :=
  (s.history.map Event.version : Multiset (Bytes × Entry Bytes)) +
      ∑ t, ((s.pcs t).pending.map WriteEntry.version : Multiset (Bytes × Entry Bytes)) =
    (entries.map WriteEntry.version : Multiset (Bytes × Entry Bytes))

theorem Balanced.step [Fintype ι] {entries : List WriteEntry} (h : Balanced s entries)
    (hstep : s.step opt l = some s') : Balanced s' (entries ++ (s.appends l).flatten) := by
  obtain ⟨pc, events, happlies⟩ := step_applies hstep
  have hsum := sum_update s.pcs l.thread pc fun pc =>
    (pc.pending.map WriteEntry.version : Multiset (Bytes × Entry Bytes))
  have hbalance : (events.map Event.version : Multiset (Bytes × Entry Bytes)) +
      (pc.pending.map WriteEntry.version : Multiset _) =
      ((s.pcs l.thread).pending.map WriteEntry.version : Multiset _) +
        ((s.appends l).flatten.map WriteEntry.version : Multiset _) := by
    rw [Multiset.coe_add, Multiset.coe_add, happlies.balance]
  rw [Balanced, happlies.pcs, happlies.history, List.map_append, List.map_append,
    ← Multiset.coe_add, ← Multiset.coe_add, ← h]
  -- The thread's share from before is added on both sides.
  refine add_right_cancel (b := ((s.pcs l.thread).pending.map WriteEntry.version : Multiset _)) ?_
  rw [add_assoc, hsum, add_add_add_comm, hbalance]
  abel

/-! ## One thread -/

/-- With one thread the entries are applied in the order of the log. -/
theorem logged_step {s s' : Store Unit} {l : Label Unit} {entries : List WriteEntry}
    (h : s.history.map Event.version ++ (s.pcs ()).pending.map WriteEntry.version =
      entries.map WriteEntry.version) (hstep : s.step opt l = some s') :
    s'.history.map Event.version ++ (s'.pcs ()).pending.map WriteEntry.version =
      (entries ++ (s.appends l).flatten).map WriteEntry.version := by
  obtain ⟨pc, events, happlies⟩ := step_applies hstep
  have hthread : l.thread = () := rfl
  rw [hthread] at happlies
  rw [happlies.pcs, happlies.history, Function.update_self, List.map_append, List.append_assoc,
    happlies.balance, ← List.append_assoc, h, ← List.map_append]

end Todb.Lsm

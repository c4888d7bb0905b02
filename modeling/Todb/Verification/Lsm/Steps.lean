import Todb.Library.Machine
import Todb.Model.Lsm.Store

/-! # What a step of the store can do -/

namespace Todb.Lsm

open Library

/-! ## Roles -/

def Caller.call? : Caller → Option WriteCall
  | .write call => some call
  | .scheduler => none

namespace Pc

/-- The memtable a `write` puts its entries into. -/
def writing? : Pc → Option (MemId × WriteCall)
  | .apply mem call => some (mem, call)
  | _ => none

/-- A `write` call past its loop. -/
def done? : Pc → Option WriteCall
  | .switch call => call
  | .backlog call => some call
  | .lock caller | .choose caller | .create caller _ | .seek caller _ _
  | .build caller _ _ _ _ | .publish caller _ _ => caller.call?
  | _ => none

/-- Inside `flush_oldest_imm` with the lock held; the memtable once it is chosen. -/
def flushing? : Pc → Option (Option MemId)
  | .choose _ => some none
  | .create _ mem | .seek _ mem _ | .build _ mem _ _ _ | .publish _ mem _ => some (some mem)
  | _ => none

/-- Every entry of the call's batch has been applied. -/
def Finished (pc : Pc) (call : WriteCall) : Prop :=
  (∃ mem, pc.writing? = some (mem, call) ∧ call.nextEntry = none) ∨ pc.done? = some call

/-- A thread that has applied nothing and holds no lock. -/
structure Fresh (pc : Pc) : Prop where
  writing : pc.writing? = none
  done : pc.done? = none
  flushing : pc.flushing? = none

end Pc

/-! ## Effects -/

variable {ι : Type} [DecidableEq ι] {opt : LsmTableOption} {s s' : Store ι} {l : Label ι} {t : ι}

/-- The effect of a step of thread `t`. -/
inductive Effect (opt : LsmTableOption) (s : Store ι) (t : ι) : Store ι → Prop
  | start {pc : Pc} (h : (s.pcs t).Fresh) (hpc : pc.Fresh) : Effect opt s t (s.goto t pc)
  | snapshot {batch : WriteBatch} (h : (s.pcs t).Fresh) :
      Effect opt s t (s.goto t (.apply s.state.activeMem ⟨batch, []⟩))
  | apply {mem : MemId} {call : WriteCall} {entry : WriteEntry} (h : s.pcs t = .apply mem call)
      (hentry : call.nextEntry = some entry) :
      Effect opt s t
        ((s.applyEntry mem entry).goto t (.apply mem (call.applied s.history.length)))
  | pass {call : WriteCall} {pc : Pc} (h : (s.pcs t).Finished call)
      (hflush : (s.pcs t).flushing? = none) (hpc : pc.done? = some call)
      (hwriting : pc.writing? = none) (hpcFlush : pc.flushing? = none) :
      Effect opt s t (s.goto t pc)
  | ack {call : WriteCall} (h : (s.pcs t).Finished call) (hflush : (s.pcs t).flushing? = none) :
      Effect opt s t (s.ack t call)
  | switch {pc : Pc} (h : (s.pcs t).flushing? = none) (hpc : pc.flushing? = none)
      (hwriting : pc.writing? = none) (hdone : pc.done? = (s.pcs t).done?) :
      Effect opt s t ((s.switchMemtable opt).goto t pc)
  | lock {caller : Caller} (h : s.pcs t = .lock caller) (hfree : s.flushLock = false) :
      Effect opt s t { s.goto t (.choose caller) with flushLock := true }
  | empty {caller : Caller} (h : s.pcs t = .choose caller)
      (hlast : s.state.immMemtables.getLast? = none) : Effect opt s t (s.flushReturns t caller)
  | choose {caller : Caller} {oldest : MemId} (h : s.pcs t = .choose caller)
      (hlast : s.state.immMemtables.getLast? = some oldest) :
      Effect opt s t (s.goto t (.create caller oldest))
  | create {caller : Caller} {mem : MemId} (h : s.pcs t = .create caller mem) :
      Effect opt s t { s.goto t (.seek caller mem
        (.new ⟨s.disk.createSst.1, s.disk.option⟩ s.disk.option)) with disk := s.disk.createSst.2 }
  | seek {caller : Caller} {mem : MemId} {builder : MemtableBuilder}
      (h : s.pcs t = .seek caller mem builder) :
      Effect opt s t (s.goto t (.build caller mem builder (s.mems mem).entries.head? []))
  | add {caller : Caller} {mem : MemId} {builder builder' : MemtableBuilder} {key : Bytes}
      {entry : Entry Bytes} {added : List (Bytes × Entry Bytes)}
      (h : s.pcs t = .build caller mem builder (some (key, entry)) added)
      (hadd : builder.add key entry = .ok builder') :
      Effect opt s t (s.goto t (.build caller mem builder'
        (Store.entryAfter (s.mems mem) key) (added ++ [(key, entry)])))
  | finish {caller : Caller} {mem : MemId} {builder : MemtableBuilder}
      {added : List (Bytes × Entry Bytes)} {footer : SstFooter}
      {writer : DefaultSstWriter SstFileWriter}
      (h : s.pcs t = .build caller mem builder none added)
      (hfinish : builder.finish = .ok (footer, writer)) :
      Effect opt s t { s.goto t (.publish caller mem
        ⟨writer.inner.sstId, (footer.firstKey, footer.lastKey), writer.inner.fileSize,
          mem, added⟩) with disk := s.disk.store writer.inner }
  | publish {caller : Caller} {mem : MemId} {sst : SstMeta} (h : s.pcs t = .publish caller mem sst) :
      Effect opt s t ({ s with state := s.state.flushed sst }.flushReturns t caller)
  | fails (disk : DiskManager) (h : (s.pcs t).flushing?.isSome)
      (hdisk : disk.blockSize = s.disk.blockSize) : Effect opt s t { s.flushFails t with disk }

def Label.thread : Label ι → ι
  | .write t _ | .switch t | .flush t | .step t | .fail t => t

theorem call_effect {pc : Pc} (hpc : pc.Fresh) (h : s.call t pc = some s') :
    Effect opt s t s' := by
  rw [Store.call] at h
  split at h
  · rename_i hidle
    exact Option.some.inj h ▸ .start (by rw [hidle]; exact ⟨rfl, rfl, rfl⟩) hpc
  · simp at h

theorem failing_effect (h : s.failing t = some s') : Effect opt s t s' := by
  rw [Store.failing] at h
  split at h
  · rename_i hpc
    exact Option.some.inj h ▸ .start (by rw [hpc]; exact ⟨rfl, rfl, rfl⟩) ⟨rfl, rfl, rfl⟩
  · rename_i hpc
    exact Option.some.inj h ▸ .fails _ (by rw [hpc]; rfl) rfl
  · rename_i hpc
    exact Option.some.inj h ▸ .fails s.disk (by rw [hpc]; rfl) rfl
  · simp at h

theorem advance_effect (h : s.advance opt t = some s') : Effect opt s t s' := by
  rw [Store.advance] at h
  split at h
  case h_1 => simp at h
  case h_2 hpc =>
    exact Option.some.inj h ▸ .start (by rw [hpc]; exact ⟨rfl, rfl, rfl⟩) ⟨rfl, rfl, rfl⟩
  case h_3 hpc =>
    exact Option.some.inj h ▸ .snapshot (by rw [hpc]; exact ⟨rfl, rfl, rfl⟩)
  case h_4 mem call hpc =>
    split at h
    · rename_i hentry
      exact Option.some.inj h ▸ .apply hpc hentry
    · rename_i hentry
      have hfinished : (s.pcs t).Finished call := .inl ⟨mem, by rw [hpc]; rfl, hentry⟩
      split at h
      · exact Option.some.inj h ▸ .ack hfinished (by rw [hpc]; rfl)
      · exact Option.some.inj h ▸ .pass hfinished (by rw [hpc]; rfl) rfl rfl rfl
  case h_5 hpc =>
    exact Option.some.inj h ▸ .switch (by rw [hpc]; rfl) rfl rfl (by rw [hpc]; rfl)
  case h_6 hpc =>
    exact Option.some.inj h ▸ .switch (by rw [hpc]; rfl) rfl rfl (by rw [hpc]; rfl)
  case h_7 call hpc =>
    have hfinished : (s.pcs t).Finished call := .inr (by rw [hpc]; rfl)
    split at h
    · exact Option.some.inj h ▸ .ack hfinished (by rw [hpc]; rfl)
    · exact Option.some.inj h ▸ .pass hfinished (by rw [hpc]; rfl) rfl rfl rfl
  case h_8 hpc =>
    split at h
    · simp at h
    · rename_i hfree
      exact Option.some.inj h ▸ .lock hpc (by simpa using hfree)
  case h_9 hpc =>
    split at h
    · rename_i hlast
      exact Option.some.inj h ▸ .empty hpc hlast
    · rename_i hlast
      exact Option.some.inj h ▸ .choose hpc hlast
  case h_10 hpc => exact Option.some.inj h ▸ .create hpc
  case h_11 hpc => exact Option.some.inj h ▸ .seek hpc
  case h_12 hpc =>
    split at h
    · rename_i hadd
      exact Option.some.inj h ▸ .add hpc hadd
    · exact Option.some.inj h ▸ .fails s.disk (by rw [hpc]; rfl) rfl
  case h_13 hpc =>
    split at h
    · rename_i hfinish
      exact Option.some.inj h ▸ .finish hpc hfinish
    · exact Option.some.inj h ▸ .fails s.disk (by rw [hpc]; rfl) rfl
  case h_14 hpc => exact Option.some.inj h ▸ .publish hpc

theorem step_effect (h : s.step opt l = some s') : Effect opt s l.thread s' := by
  cases l with
  | write t batch => exact call_effect ⟨rfl, rfl, rfl⟩ h
  | switch t => exact call_effect ⟨rfl, rfl, rfl⟩ h
  | flush t => exact call_effect ⟨rfl, rfl, rfl⟩ h
  | step t => exact advance_effect h
  | fail t => exact failing_effect h

end Todb.Lsm

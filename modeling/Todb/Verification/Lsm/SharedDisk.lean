import Todb.Model.Lsm.Shards
import Todb.Verification.Lsm.Files
import Todb.Verification.Sst.Writers

/-! # Files of many shards in one directory

A file id is held by the thread that builds the file and then by the level that lists it. The
shards take their ids from one counter, so no id has two holders in the whole engine, and no step
of any shard touches a file that is held elsewhere. -/

namespace Todb.Lsm

open Library

/-! ## Builders and ids -/

/-- The writer of the same file under another id. -/
def relabelWriter (ρ : SstId → SstId) (writer : DefaultSstWriter SstFileWriter) :
    DefaultSstWriter SstFileWriter :=
  { writer with inner := { writer.inner with sstId := ρ writer.inner.sstId } }

theorem writeBlock_relabel (ρ : SstId → SstId) (writer : SstFileWriter) (data : Bytes) :
    BlockWriter.writeBlock { writer with sstId := ρ writer.sstId } data =
      (BlockWriter.writeBlock writer data).map
        (Prod.map id fun writer => { writer with sstId := ρ writer.sstId }) := by
  by_cases hfits : writer.inner.file.length + data.length ≤ isizeMax
  · simp [BlockWriter.writeBlock, hfits, bind, Except.bind, Except.map, pure, Except.pure]
  · simp [BlockWriter.writeBlock, hfits, bind, Except.bind, Except.map]

theorem writesAlike_relabel (ρ : SstId → SstId) : WritesAlike (relabelWriter ρ) where
  writeBlock writer data := by
    by_cases hsize : data.length = writer.option.blockSize
    · simp only [SstWriter.writeBlock, relabelWriter, hsize, ite_true, writeBlock_relabel]
      cases BlockWriter.writeBlock writer.inner data <;> rfl
    · simp only [SstWriter.writeBlock, relabelWriter, hsize, ite_false]
      rfl
  writeFooter writer footer := by
    simp only [SstWriter.writeFooter, relabelWriter, writeBlock_relabel]
    cases BlockWriter.writeBlock writer.inner footer.encode <;> rfl

/-- A builder leaves the id of its file as it is. -/
theorem sstId_add {builder builder' : MemtableBuilder} {key : Bytes} {entry : Entry Bytes}
    (h : builder.add key entry = .ok builder') :
    builder'.writer.inner.sstId = builder.writer.inner.sstId := by
  have hmap := SstBuilder.add_map
    (writesAlike_relabel fun _ => builder.writer.inner.sstId) builder key entry
  have hsame : builder.mapWriter (relabelWriter fun _ => builder.writer.inner.sstId) = builder := rfl
  rw [hsame, h, Except.map, Except.ok.injEq] at hmap
  have hid := congrArg (fun b : MemtableBuilder => b.writer.inner.sstId) hmap
  exact hid

theorem sstId_finish {builder : MemtableBuilder} {footer : SstFooter}
    {writer : DefaultSstWriter SstFileWriter} (h : builder.finish = .ok (footer, writer)) :
    writer.inner.sstId = builder.writer.inner.sstId := by
  have hmap := SstBuilder.finish_map
    (writesAlike_relabel fun _ => builder.writer.inner.sstId) builder
  have hsame : builder.mapWriter (relabelWriter fun _ => builder.writer.inner.sstId) = builder := rfl
  rw [hsame, h, Except.map, Except.ok.injEq] at hmap
  exact congrArg (fun file : SstFooter × DefaultSstWriter SstFileWriter => file.2.inner.sstId) hmap

/-! ## Who holds an id -/

/-- The id of the file that a thread builds. -/
def Pc.building? : Pc → Option SstId
  | .seek _ _ builder | .build _ _ builder _ _ => some builder.writer.inner.sstId
  | .publish _ _ sst => some sst.id
  | _ => none

theorem Pc.building?_of_flushing? {pc : Pc} (h : pc.flushing? = none) : pc.building? = none := by
  cases pc <;> simp_all [Pc.flushing?, Pc.building?]

def LsmState.sst? (self : LsmState) (level n : ℕ) : Option SstMeta :=
  self.levels[level]?.bind fun found => found.ssts[n]?

/-- A place in a level, or a thread. -/
inductive Holder (ι : Type)
  | file (level n : ℕ)
  | thread (t : ι)

def Store.holds {ι : Type} (s : Store ι) : Holder ι → Option SstId
  | .file level n => (s.state.sst? level n).map SstMeta.id
  | .thread t => (s.pcs t).building?

/-- A flushed file is at the end of the first level, and the others are where they were. -/
theorem LsmState.sst?_flushed {self : LsmState} {sst found : SstMeta} {level n : ℕ}
    (h : (self.flushed sst).sst? level n = some found) :
    self.sst? level n = some found ∨ (level = 0 ∧ n = self.l0.length) ∧ found = sst := by
  cases hlevels : self.levels with
  | nil =>
      cases level with
      | zero => cases n <;> simp_all [sst?, flushed, l0]
      | succ level => simp [sst?, flushed, hlevels] at h
  | cons first rest =>
      cases level with
      | zero =>
          simp only [sst?, flushed, hlevels, List.getElem?_cons_zero, Option.bind_some] at h ⊢
          rcases Nat.lt_trichotomy n first.ssts.length with hlt | heq | hgt
          · exact .inl (by rwa [List.getElem?_append_left hlt] at h)
          · subst heq
            rw [List.getElem?_concat_length, Option.some.injEq] at h
            exact .inr ⟨by simp [l0, hlevels], h.symm⟩
          · rw [List.getElem?_eq_none (by simpa using hgt)] at h
            simp at h
      | succ level => exact .inl (by simpa [sst?, flushed, hlevels] using h)

theorem LsmState.sst?_flushed_of_some {self : LsmState} {sst found : SstMeta} {level n : ℕ}
    (h : self.sst? level n = some found) : (self.flushed sst).sst? level n = some found := by
  cases hlevels : self.levels with
  | nil => simp [sst?, hlevels] at h
  | cons first rest =>
      cases level with
      | zero =>
          simp only [sst?, hlevels, flushed, List.getElem?_cons_zero, Option.bind_some] at h ⊢
          exact getElem?_append_of_eq_some h _
      | succ level => simpa [sst?, flushed, hlevels] using h

variable {κ ι : Type} [DecidableEq κ] [DecidableEq ι] {opt : LsmTableOption} {s s' : Store ι}
  {t : ι} {l : Label ι}

/-- What a step of thread `t` does to the holders. -/
inductive Moves (s s' : Store ι) (t : ι) : Prop
  /-- Nobody takes an id. -/
  | loses (h : ∀ {x id}, s'.holds x = some id → s.holds x = some id)
  /-- The thread takes the id that the counter gives out. -/
  | takes (hnext : s'.disk.nextSstId = s.disk.nextSstId + 1)
      (h : ∀ {x id}, s'.holds x = some id →
        s.holds x = some id ∨ x = .thread t ∧ id = s.disk.nextSstId)
  /-- The thread's id passes to a new place in a level. -/
  | hands (level n : ℕ)
      (h : ∀ {x id}, s'.holds x = some id →
        x ≠ .thread t ∧ s.holds x = some id ∨
          x = .file level n ∧ s.holds (.thread t) = some id)

omit [DecidableEq κ] in
theorem building_cases {pcs : ι → Pc} {pc : Pc} {u : ι} {id : SstId}
    (h : (Function.update pcs t pc u).building? = some id) :
    u = t ∧ pc.building? = some id ∨ u ≠ t ∧ (pcs u).building? = some id := update_cases h

/-- The thread goes on with the file it had, if any. -/
theorem holds_goto {pc : Pc} {x : Holder ι} {id : SstId} (hx : s'.holds x = some id)
    (hstate : s'.state.levels = s.state.levels) (hpcs : s'.pcs = Function.update s.pcs t pc)
    (hpc : ∀ {id}, pc.building? = some id → (s.pcs t).building? = some id) :
    s.holds x = some id := by
  cases x with
  | file level n => simpa only [Store.holds, LsmState.sst?, hstate] using hx
  | thread u =>
      simp only [Store.holds, hpcs] at hx ⊢
      rcases building_cases hx with ⟨rfl, hid⟩ | ⟨-, hid⟩
      · exact hpc hid
      · exact hid

theorem Moves.of_goto {pc : Pc} (hstate : s'.state.levels = s.state.levels)
    (hpcs : s'.pcs = Function.update s.pcs t pc)
    (hpc : ∀ {id}, pc.building? = some id → (s.pcs t).building? = some id) : Moves s s' t :=
  .loses fun hx => holds_goto hx hstate hpcs hpc

theorem holds_create {caller : Caller} {mem : MemId} {x : Holder ι} {id : SstId}
    (hx : ({ s.goto t (.seek caller mem
      (.new ⟨s.disk.createSst.1, s.disk.option⟩ s.disk.option)) with
        disk := s.disk.createSst.2 } : Store ι).holds x = some id) :
    s.holds x = some id ∨ x = .thread t ∧ id = s.disk.nextSstId := by
  cases x with
  | file level n => exact .inl hx
  | thread u =>
      rcases building_cases hx with ⟨rfl, hid⟩ | ⟨-, hid⟩
      · exact .inr ⟨rfl, (Option.some.inj hid).symm⟩
      · exact .inl hid

omit [DecidableEq κ] in
theorem switchMemtable_levels (s : Store ι) (t : ι) (pc : Pc) :
    ((s.switchMemtable opt).goto t pc).state.levels = s.state.levels := by
  rw [Store.switchMemtable]
  split <;> rfl

omit [DecidableEq κ] in
theorem switchMemtable_pcs (s : Store ι) (t : ι) (pc : Pc) :
    ((s.switchMemtable opt).goto t pc).pcs = Function.update s.pcs t pc := by
  rw [Store.switchMemtable]
  split <;> rfl

theorem Effect.moves (h : Effect opt s t s') : Moves s s' t := by
  have hnone : ∀ {pc : Pc}, pc.building? = none →
      ∀ {id}, pc.building? = some id → (s.pcs t).building? = some id := by
    intro pc hpc id hid
    rw [hpc] at hid
    cases hid
  cases h with
  | start _ hpc => exact .of_goto rfl rfl (hnone (Pc.building?_of_flushing? hpc.flushing))
  | snapshot => exact .of_goto rfl rfl (hnone rfl)
  | apply => exact .of_goto rfl rfl (hnone rfl)
  | pass _ _ _ _ hpc => exact .of_goto rfl rfl (hnone (Pc.building?_of_flushing? hpc))
  | ack => exact .of_goto rfl rfl (@hnone .idle rfl)
  | @switch pc _ hpc =>
      exact .of_goto (switchMemtable_levels s t pc) (switchMemtable_pcs s t pc)
        (hnone (Pc.building?_of_flushing? hpc))
  | lock => exact .of_goto rfl rfl (hnone rfl)
  | @empty caller => cases caller <;> exact .of_goto rfl rfl (@hnone .idle rfl)
  | choose => exact .of_goto rfl rfl (hnone rfl)
  | create => exact .takes rfl holds_create
  | seek hpc => exact .of_goto rfl rfl fun hid => by rw [hpc]; exact hid
  | add hpc hadd =>
      refine .of_goto rfl rfl fun hid => ?_
      rw [hpc, Pc.building?, ← sstId_add hadd]
      exact hid
  | finish hpc hfinish =>
      refine .of_goto rfl rfl fun hid => ?_
      rw [hpc, Pc.building?, ← sstId_finish hfinish]
      exact hid
  | @publish caller mem sst hpc =>
      refine .hands 0 s.state.l0.length fun {x id} hx => ?_
      have hx : ({ s.goto t .idle with state := s.state.flushed sst } : Store ι).holds x =
          some id := by cases caller <;> exact hx
      cases x with
      | file level n =>
          obtain ⟨found, hfound, rfl⟩ := Option.map_eq_some_iff.mp hx
          rcases LsmState.sst?_flushed hfound with hold | ⟨⟨rfl, rfl⟩, rfl⟩
          · exact .inl ⟨(by rintro ⟨⟩), by rw [Store.holds, hold]; rfl⟩
          · exact .inr ⟨rfl, by rw [Store.holds, hpc]; rfl⟩
      | thread u =>
          rcases building_cases hx with ⟨rfl, hid⟩ | ⟨hne, hid⟩
          · cases hid
          · exact .inl ⟨fun heq => hne (Holder.thread.inj heq), hid⟩
  | fails disk => exact .of_goto rfl rfl (@hnone .idle rfl)

/-! ## What a step does to the directory -/

/-- Only the file that is created and the file that the thread builds can change. -/
structure DiskStep (building : Option SstId) (disk disk' : DiskManager) : Prop where
  blockSize : disk'.blockSize = disk.blockSize
  next : disk'.nextSstId = disk.nextSstId ∨ disk'.nextSstId = disk.nextSstId + 1
  files : ∀ {id}, id ≠ disk.nextSstId → building ≠ some id → disk'.files id = disk.files id

theorem DiskStep.refl (building : Option SstId) (disk : DiskManager) :
    DiskStep building disk disk := ⟨rfl, .inl rfl, fun _ _ => rfl⟩

theorem call_disk {pc : Pc} (h : s.call t pc = some s') : s'.disk = s.disk := by
  rw [Store.call] at h
  split at h
  · exact Option.some.inj h ▸ rfl
  · simp at h

theorem failing_disk (h : s.failing t = some s') :
    DiskStep (s.pcs t).building? s.disk s'.disk := by
  rw [Store.failing] at h
  split at h
  · exact Option.some.inj h ▸ .refl _ _
  · exact Option.some.inj h ▸ ⟨rfl, .inr rfl, fun _ _ => rfl⟩
  · exact Option.some.inj h ▸ .refl _ _
  · simp at h

theorem advance_disk (h : s.advance opt t = some s') :
    DiskStep (s.pcs t).building? s.disk s'.disk := by
  rw [Store.advance] at h
  split at h
  case h_1 => simp at h
  case h_2 => exact Option.some.inj h ▸ .refl _ _
  case h_3 => exact Option.some.inj h ▸ .refl _ _
  case h_4 =>
    split at h
    · exact Option.some.inj h ▸ .refl _ _
    · split at h <;> exact Option.some.inj h ▸ .refl _ _
  case h_5 | h_6 =>
    obtain rfl := Option.some.inj h
    rw [Store.switchMemtable]
    split <;> exact .refl _ _
  case h_7 => split at h <;> exact Option.some.inj h ▸ .refl _ _
  case h_8 =>
    split at h
    · simp at h
    · exact Option.some.inj h ▸ .refl _ _
  case h_9 caller _ =>
    split at h
    · obtain rfl := Option.some.inj h
      cases caller <;> exact .refl _ _
    · exact Option.some.inj h ▸ .refl _ _
  case h_10 =>
    exact Option.some.inj h ▸ ⟨rfl, .inr rfl, fun hne _ => Function.update_of_ne hne _ _⟩
  case h_11 => exact Option.some.inj h ▸ .refl _ _
  case h_12 => split at h <;> exact Option.some.inj h ▸ .refl _ _
  case h_13 hpc =>
    split at h
    · rename_i hfinish
      obtain rfl := Option.some.inj h
      refine ⟨rfl, .inl rfl, fun _ hne => Function.update_of_ne (fun heq => hne ?_) _ _⟩
      rw [hpc, Pc.building?, heq, sstId_finish hfinish]
    · exact Option.some.inj h ▸ .refl _ _
  case h_14 caller _ _ _ =>
    obtain rfl := Option.some.inj h
    cases caller <;> exact .refl _ _

theorem step_disk (h : s.step opt l = some s') :
    DiskStep (s.pcs l.thread).building? s.disk s'.disk := by
  cases l with
  | write t batch => exact call_disk h ▸ .refl _ _
  | switch t => exact call_disk h ▸ .refl _ _
  | flush t => exact call_disk h ▸ .refl _ _
  | step t => exact advance_disk h
  | fail t => exact failing_disk h

/-! ## One holder in all shards -/

/-- The ids that are held were given out, each to one holder. -/
structure Numbered (disk : DiskManager) (stores : κ → Store ι) : Prop where
  below : ∀ {k x id}, (stores k).holds x = some id → id.toNat < disk.nextSstId.toNat
  once : ∀ {k k' x x' id}, (stores k).holds x = some id → (stores k').holds x' = some id →
    k = k' ∧ x = x'

/-- The counter has ids left. -/
def HasRoom (disk : DiskManager) : Prop := disk.nextSstId.toNat + 1 < 2 ^ 64

instance (disk : DiskManager) : Decidable (HasRoom disk) := inferInstanceAs (Decidable (_ < _))

theorem HasRoom.toNat_next {disk : DiskManager} (h : HasRoom disk) :
    (disk.nextSstId + 1).toNat = disk.nextSstId.toNat + 1 := by
  rw [UInt64.toNat_add]
  exact Nat.mod_eq_of_lt h

theorem DiskStep.next_le {building : Option SstId} {disk disk' : DiskManager}
    (h : DiskStep building disk disk') (hroom : HasRoom disk) :
    disk.nextSstId.toNat ≤ disk'.nextSstId.toNat := by
  rcases h.next with heq | heq
  · rw [heq]
  · rw [heq, hroom.toNat_next]
    exact Nat.le_succ _

omit [DecidableEq ι] in
theorem holds_cases {stores : κ → Store ι} {k k' : κ} {x : Holder ι} {id : SstId}
    (h : (Function.update stores k s' k').holds x = some id) :
    k' = k ∧ s'.holds x = some id ∨ k' ≠ k ∧ (stores k').holds x = some id :=
  @update_cases _ _ _ _ _ _ _ _ (fun s : Store ι => s.holds x) _ h

namespace Numbered

variable {disk : DiskManager} {stores : κ → Store ι} {k : κ}

omit [DecidableEq κ] [DecidableEq ι] in
theorem init (blockSize : ℕ) :
    Numbered (.new blockSize) (fun _ : κ => (Store.new blockSize : Store ι)) := by
  have hnone : ∀ {x id}, (Store.new blockSize : Store ι).holds x ≠ some id := by
    intro x id hx
    cases x with
    | file level n => simp [Store.holds, Store.new, LsmState.new, LsmState.sst?] at hx
    | thread t => cases hx
  exact ⟨fun hx => absurd hx hnone, fun hx => absurd hx hnone⟩

omit [DecidableEq κ] [DecidableEq ι] in
theorem ne_next (h : Numbered disk stores) {x : Holder ι} {id : SstId}
    (hx : (stores k).holds x = some id) : id ≠ disk.nextSstId := by
  rintro rfl
  exact lt_irrefl _ (h.below hx)

theorem step (h : Numbered disk stores) (hroom : HasRoom disk)
    (hstep : Store.step opt { stores k with disk := disk } l = some s') :
    Numbered s'.disk (Function.update stores k s') := by
  have hgrows := (step_disk hstep).next_le hroom
  have hold : ∀ {x id}, ({ stores k with disk := disk } : Store ι).holds x = some id →
      (stores k).holds x = some id := fun hx => hx
  cases (step_effect hstep).moves with
  | loses hmoves =>
      have hback : ∀ {k' x id}, (Function.update stores k s' k').holds x = some id →
          (stores k').holds x = some id := by
        intro k' x id hx
        rcases holds_cases hx with ⟨rfl, hnew⟩ | ⟨-, hkept⟩
        · exact hold (hmoves hnew)
        · exact hkept
      exact ⟨fun hx => (h.below (hback hx)).trans_le hgrows,
        fun hx hx' => h.once (hback hx) (hback hx')⟩
  | takes hnext hmoves =>
      have hback : ∀ {k' x id}, (Function.update stores k s' k').holds x = some id →
          (stores k').holds x = some id ∨
            (k' = k ∧ x = .thread l.thread) ∧ id = disk.nextSstId := by
        intro k' x id hx
        rcases holds_cases hx with ⟨rfl, hnew⟩ | ⟨-, hkept⟩
        · rcases hmoves hnew with hkept | ⟨hthread, hid⟩
          · exact .inl (hold hkept)
          · exact .inr ⟨⟨rfl, hthread⟩, hid⟩
        · exact .inl hkept
      refine ⟨fun hx => ?_, fun hx hx' => ?_⟩
      · rcases hback hx with hkept | ⟨-, hid⟩
        · exact (h.below hkept).trans_le hgrows
        · rw [hid, hnext, hroom.toNat_next]
          exact Nat.lt_succ_self _
      · rcases hback hx with hkept | ⟨⟨hk, hthread⟩, hid⟩ <;>
          rcases hback hx' with hkept' | ⟨⟨hk', hthread'⟩, hid'⟩
        · exact h.once hkept hkept'
        · exact absurd hid' (h.ne_next hkept)
        · exact absurd hid (h.ne_next hkept')
        · exact ⟨hk.trans hk'.symm, hthread.trans hthread'.symm⟩
  | hands level n hmoves =>
      -- Every holder but the new place held its id before, and the new place has the thread's.
      have hback : ∀ {k' x id}, (Function.update stores k s' k').holds x = some id →
          (stores k').holds x = some id ∧ ¬(k' = k ∧ x = .thread l.thread) ∨
            (k' = k ∧ x = .file level n) ∧ (stores k).holds (.thread l.thread) = some id := by
        intro k' x id hx
        rcases holds_cases hx with ⟨rfl, hnew⟩ | ⟨hne, hkept⟩
        · rcases hmoves hnew with ⟨hne, hkept⟩ | ⟨hplace, hthread⟩
          · exact .inl ⟨hold hkept, fun hsame => hne hsame.2⟩
          · exact .inr ⟨⟨rfl, hplace⟩, hold hthread⟩
        · exact .inl ⟨hkept, fun hsame => hne hsame.1⟩
      refine ⟨fun hx => ?_, fun hx hx' => ?_⟩
      · rcases hback hx with ⟨hkept, -⟩ | ⟨-, hkept⟩ <;> exact (h.below hkept).trans_le hgrows
      · rcases hback hx with ⟨hkept, hother⟩ | ⟨⟨hk, hplace⟩, hthread⟩ <;>
          rcases hback hx' with ⟨hkept', hother'⟩ | ⟨⟨hk', hplace'⟩, hthread'⟩
        · exact h.once hkept hkept'
        · exact absurd (h.once hkept hthread') hother
        · exact absurd (h.once hkept' hthread) hother'
        · exact ⟨hk.trans hk'.symm, hplace.trans hplace'.symm⟩

omit [DecidableEq κ] in
/-- A step of a shard leaves the files that others hold. -/
theorem files_eq (h : Numbered disk stores)
    (hstep : Store.step opt { stores k with disk := disk } l = some s') {k' : κ} {x : Holder ι}
    {id : SstId} (hx : (stores k').holds x = some id) (hother : ¬(k' = k ∧ x = .thread l.thread)) :
    s'.disk.files id = disk.files id := by
  refine (step_disk hstep).files (h.ne_next hx) fun hbuilding => hother ?_
  exact h.once hx (show (stores k).holds (.thread l.thread) = some id from hbuilding)

end Numbered

/-! ## Files stay as they were built -/

/-- The builder of a thread has been given what the thread has read so far. -/
def Working (disk : DiskManager) : Pc → Prop
  | .seek _ _ builder => ∃ id, builder = .new (disk.writer id) disk.option
  | .build _ _ builder _ added =>
      ∃ id, SstBuilder.addAll added (.new (disk.writer id) disk.option) = .ok builder
  | .publish _ _ sst => OnDisk disk sst
  | _ => True

theorem Working.of_none {disk : DiskManager} {pc : Pc} (h : pc.building? = none) :
    Working disk pc := by
  cases pc <;> simp_all [Pc.building?, Working]

theorem Working.congr {disk disk' : DiskManager} {pc : Pc} (h : Working disk pc)
    (hsize : disk'.blockSize = disk.blockSize)
    (hfile : ∀ id, pc.building? = some id → disk'.files id = disk.files id) : Working disk' pc := by
  cases pc with
  | seek caller mem builder =>
      obtain ⟨id, hnew⟩ := h
      refine ⟨id, hnew.trans ?_⟩
      simp only [DiskManager.writer, DiskManager.option, hsize]
  | build caller mem builder item added =>
      obtain ⟨id, hadded⟩ := h
      refine ⟨id, Eq.trans ?_ hadded⟩
      simp only [DiskManager.writer, DiskManager.option, hsize]
  | publish caller mem sst => exact OnDisk.congr h hsize (hfile sst.id rfl)
  | _ => trivial

/-- The files of the levels are on disk as they were built, and so will be those in progress. -/
structure Kept (s : Store ι) : Prop where
  files : ∀ {level n sst}, s.state.sst? level n = some sst → OnDisk s.disk sst
  work : ∀ t, Working s.disk (s.pcs t)

namespace Kept

omit [DecidableEq ι] in
theorem init (blockSize : ℕ) : Kept (Store.new blockSize : Store ι) :=
  ⟨fun h => by simp [Store.new, LsmState.new, LsmState.sst?] at h, fun _ => trivial⟩

omit [DecidableEq ι] in
/-- The directory changes, but none of the files that the store holds. -/
theorem withDisk (h : Kept s) {disk : DiskManager} (hsize : disk.blockSize = s.disk.blockSize)
    (hfile : ∀ x id, s.holds x = some id → disk.files id = s.disk.files id) :
    Kept { s with disk } where
  files := by
    intro level n sst hsst
    exact (h.files hsst).congr hsize (hfile (.file level n) sst.id (by rw [Store.holds, hsst]; rfl))
  work := fun u => (h.work u).congr hsize fun id hid => hfile (.thread u) id hid

/-- The thread moves on; the other threads and the levels are as before. -/
theorem goto {pc : Pc} (h : Kept s) (hsize : s'.disk.blockSize = s.disk.blockSize)
    (hfile : ∀ x id, s.holds x = some id → x ≠ .thread t → s'.disk.files id = s.disk.files id)
    (hlevels : s'.state.levels = s.state.levels) (hpcs : s'.pcs = Function.update s.pcs t pc)
    (hpc : Working s'.disk pc) : Kept s' where
  files := by
    intro level n sst hsst
    simp only [LsmState.sst?, hlevels] at hsst
    exact (h.files hsst).congr hsize
      (hfile (.file level n) sst.id (by rw [Store.holds, LsmState.sst?, hsst]; rfl) (by rintro ⟨⟩))
  work := by
    intro u
    by_cases hu : u = t
    · subst hu
      simpa [hpcs] using hpc
    · rw [hpcs, Function.update_of_ne hu]
      exact (h.work u).congr hsize fun id hid =>
        hfile (.thread u) id hid fun heq => hu (Holder.thread.inj heq)

omit [DecidableEq ι] in
theorem finish {caller : Caller} {mem : MemId} {builder : MemtableBuilder}
    {added : List (Bytes × Entry Bytes)} {footer : SstFooter}
    {writer : DefaultSstWriter SstFileWriter}
    (h : Working s.disk (.build caller mem builder none added))
    (hfinish : builder.finish = .ok (footer, writer)) :
    OnDisk (s.disk.store writer.inner) ⟨writer.inner.sstId, (footer.firstKey, footer.lastKey),
      writer.inner.fileSize, mem, added⟩ := by
  obtain ⟨id, hadded⟩ := h
  refine ⟨id, footer, writer, ?_, Function.update_self _ _ _⟩
  change buildSst (s.disk.writer id) s.disk.option added = .ok (footer, writer)
  simp only [buildSst, hadded, bind, Except.bind]
  exact hfinish

theorem step (h : Kept s)
    (hfile : ∀ x id, s.holds x = some id → x ≠ .thread l.thread →
      s'.disk.files id = s.disk.files id)
    (hstep : s.step opt l = some s') : Kept s' := by
  have hsize := (step_disk hstep).blockSize
  have hwork := h.work l.thread
  have hnone : ∀ {pc : Pc}, pc.flushing? = none → Working s'.disk pc := fun hpc =>
    .of_none (Pc.building?_of_flushing? hpc)
  cases step_effect hstep with
  | start _ hpc => exact h.goto hsize hfile rfl rfl (hnone hpc.flushing)
  | snapshot => exact h.goto hsize hfile rfl rfl trivial
  | apply => exact h.goto hsize hfile rfl rfl trivial
  | pass _ _ _ _ hpc => exact h.goto hsize hfile rfl rfl (hnone hpc)
  | ack => exact @goto _ _ _ _ _ .idle h hsize hfile rfl rfl trivial
  | @switch pc _ hpc =>
      exact h.goto hsize hfile (switchMemtable_levels s _ pc) (switchMemtable_pcs s _ pc)
        (hnone hpc)
  | lock => exact h.goto hsize hfile rfl rfl trivial
  | @empty caller =>
      cases caller <;> exact @goto _ _ _ _ _ .idle h hsize hfile rfl rfl trivial
  | choose => exact h.goto hsize hfile rfl rfl trivial
  | create => exact h.goto hsize hfile rfl rfl ⟨s.disk.nextSstId, rfl⟩
  | seek hpc =>
      rw [hpc] at hwork
      obtain ⟨id, rfl⟩ := hwork
      exact h.goto hsize hfile rfl rfl ⟨id, rfl⟩
  | add hpc hadd =>
      rw [hpc] at hwork
      obtain ⟨id, hadded⟩ := hwork
      refine h.goto hsize hfile rfl rfl ⟨id, (SstBuilder.addAll_append hadded).trans ?_⟩
      simp [SstBuilder.addAll, hadd, bind, Except.bind]
  | finish hpc hfinish =>
      rw [hpc] at hwork
      exact h.goto hsize hfile rfl rfl (finish hwork hfinish)
  | @publish caller mem sst hpc =>
      rw [hpc] at hwork
      have hidle : Kept (s.goto l.thread .idle) :=
        @goto _ _ _ _ _ .idle h rfl (fun _ _ _ _ => rfl) rfl rfl trivial
      suffices hflushed : Kept { s.goto l.thread .idle with state := s.state.flushed sst } by
        cases caller <;> exact ⟨hflushed.files, hflushed.work⟩
      refine ⟨fun hsst => ?_, hidle.work⟩
      rcases LsmState.sst?_flushed hsst with hold | ⟨-, rfl⟩
      · exact h.files hold
      · exact hwork
  | fails disk => exact @goto _ _ _ _ _ .idle h hsize hfile rfl rfl trivial

end Kept

/-- A step keeps what the levels list. -/
theorem Effect.sst?_kept (h : Effect opt s t s') {level n : ℕ} {sst : SstMeta}
    (hsst : s.state.sst? level n = some sst) : s'.state.sst? level n = some sst := by
  cases h with
  | @switch =>
      rw [Store.switchMemtable]
      split <;> exact hsst
  | @empty caller => cases caller <;> exact hsst
  | @publish caller => cases caller <;> exact LsmState.sst?_flushed_of_some hsst
  | _ => exact hsst

/-! ## Runs -/

/-- What holds of the shards of an engine in every state. -/
structure Apart (e : Shards κ ι) : Prop where
  numbered : Numbered e.diskManager e.stores
  kept : ∀ k, Kept (e.store k)

variable {opts : κ → LsmTableOption} {e e' : Shards κ ι}

theorem Shards.step_eq_some {x : κ × Label ι} (h : e.step opts x = some e') :
    ∃ s', (e.store x.1).step (opts x.1) x.2 = some s' ∧
      e' = ⟨s'.disk, Function.update e.stores x.1 s'⟩ := by
  obtain ⟨s', hs', rfl⟩ := Option.map_eq_some_iff.mp h
  exact ⟨s', hs', rfl⟩

omit [DecidableEq ι] in
theorem Shards.store_update_self (e : Shards κ ι) (k : κ) (s' : Store ι) :
    Shards.store ⟨s'.disk, Function.update e.stores k s'⟩ k = s' := by
  simp [Shards.store]

omit [DecidableEq ι] in
theorem Shards.store_update_of_ne {k k' : κ} (e : Shards κ ι) (hne : k' ≠ k) (s' : Store ι) :
    Shards.store ⟨s'.disk, Function.update e.stores k s'⟩ k' =
      { e.store k' with disk := s'.disk } := by
  simp [Shards.store, hne]

omit [DecidableEq κ] [DecidableEq ι] in
theorem Apart.init (blockSize : ℕ) : Apart (Shards.new blockSize : Shards κ ι) :=
  ⟨.init blockSize, fun _ => .init blockSize⟩

theorem Apart.step (h : Apart e) (hroom : HasRoom e.diskManager) {x : κ × Label ι}
    (hstep : e.step opts x = some e') : Apart e' := by
  obtain ⟨s', hs', rfl⟩ := Shards.step_eq_some hstep
  refine ⟨h.numbered.step hroom hs', fun k' => ?_⟩
  by_cases hk : k' = x.1
  · subst hk
    rw [Shards.store_update_self]
    exact (h.kept x.1).step
      (fun y id hy hne => h.numbered.files_eq hs' hy fun hsame => hne hsame.2) hs'
  · rw [Shards.store_update_of_ne e hk]
    exact (h.kept k').withDisk (step_disk hs').blockSize
      fun y id hy => h.numbered.files_eq hs' hy fun hsame => hk hsame.1

/-- The ids that the counter can give out last for the run. -/
def RoomFor (opts : κ → LsmTableOption) (ls : List (κ × Label ι)) (e : Shards κ ι) : Prop :=
  Disciplined (Shards.step opts) (fun e _ => HasRoom e.diskManager) ls e

theorem apart_of_execute {blockSize : ℕ} {ls : List (κ × Label ι)}
    (hroom : RoomFor opts ls (.new blockSize))
    (hexec : execute (Shards.step opts) ls (.new blockSize) = some e) : Apart e :=
  (Reaches.start.of_execute hroom hexec).invariant (.init blockSize) fun h hok hstep =>
    h.step hok hstep

/-- One step leaves a file that some level lists, and the level lists it still. -/
theorem Apart.file_kept (h : Apart e) {x : κ × Label ι} (hstep : e.step opts x = some e') {k : κ}
    {level n : ℕ} {sst : SstMeta} (hsst : (e.stores k).state.sst? level n = some sst) :
    (e'.stores k).state.sst? level n = some sst ∧
      e'.diskManager.files sst.id = e.diskManager.files sst.id := by
  obtain ⟨s', hs', rfl⟩ := Shards.step_eq_some hstep
  have hholds : (e.stores k).holds (.file level n) = some sst.id := by rw [Store.holds, hsst]; rfl
  refine ⟨?_, h.numbered.files_eq hs' hholds (by rintro ⟨-, ⟨⟩⟩)⟩
  by_cases hk : k = x.1
  · subst hk
    simpa using (step_effect hs').sst?_kept hsst
  · simpa [hk] using hsst

/-- Whatever the threads of all shards do, a file that a level lists is on disk as it was built and
stays so, and no other level of any shard lists it. -/
theorem published_files_kept {blockSize : ℕ} {ls ls' : List (κ × Label ι)}
    (hroom : RoomFor opts ls (.new blockSize))
    (hexec : execute (Shards.step opts) ls (.new blockSize) = some e)
    (hroom' : RoomFor opts ls' e) (hexec' : execute (Shards.step opts) ls' e = some e') :
    (∀ k level n sst, (e.stores k).state.sst? level n = some sst →
      OnDisk e.diskManager sst ∧ (e'.stores k).state.sst? level n = some sst ∧
        e'.diskManager.files sst.id = e.diskManager.files sst.id) ∧
    ∀ k k' level level' n n' sst sst', (e.stores k).state.sst? level n = some sst →
      (e.stores k').state.sst? level' n' = some sst' → sst.id = sst'.id →
        k = k' ∧ level = level' ∧ n = n' := by
  have hapart := apart_of_execute hroom hexec
  refine ⟨fun k level n sst hsst => ⟨(hapart.kept k).files hsst, ?_⟩, ?_⟩
  · -- The later run, one step after the other.
    clear hexec hroom
    induction ls' generalizing e with
    | nil =>
        obtain rfl := Option.some.inj hexec'
        exact ⟨hsst, rfl⟩
    | cons l ls' ih =>
        obtain ⟨mid, hmid, hrest⟩ := Option.bind_eq_some_iff.mp hexec'
        obtain ⟨hlisted, hsame⟩ := hapart.file_kept hmid hsst
        obtain ⟨hlisted', hsame'⟩ := ih (hroom'.2 mid hmid) hrest (hapart.step hroom'.1 hmid) hlisted
        exact ⟨hlisted', hsame'.trans hsame⟩
  · intro k k' level level' n n' sst sst' hsst hsst' hid
    have hholds : (e.stores k).holds (.file level n) = some sst.id := by rw [Store.holds, hsst]; rfl
    have hholds' : (e.stores k').holds (.file level' n') = some sst.id := by
      rw [Store.holds, hsst', hid]
      rfl
    obtain ⟨hk, hplace⟩ := hapart.numbered.once hholds hholds'
    exact ⟨hk, Holder.file.inj hplace⟩

/-- One write and its flush. -/
def writeAndFlush : List (Label Unit) :=
  .write () [.put [1] [2]] :: List.replicate 6 (.step ()) ++
    .flush () :: List.replicate 7 (.step ())

/-- Two shards write a key and flush it, taking turns. -/
def takingTurns : List (Bool × Label Unit) :=
  writeAndFlush.flatMap fun l => [(false, l), (true, l)]

instance (opts : κ → LsmTableOption) (ls : List (κ × Label ι)) (e : Shards κ ι) :
    Decidable (RoomFor opts ls e) :=
  inferInstanceAs (Decidable (Disciplined _ _ ls e))

/-- The ids that a shard's first level lists. -/
def Shards.listed (e : Shards κ ι) (k : κ) : List SstId := (e.stores k).state.l0.map SstMeta.id

theorem published_files_kept_turns : ∃ e e' : Shards Bool Unit,
    (e.listed false, e.listed true, e'.listed false, e'.listed true) =
        ([1], [2], [1, 3], [2, 4]) ∧
      e'.diskManager.files 1 = e.diskManager.files 1 := by
  have hrun : ((execute (Shards.step fun _ => ⟨0, 4⟩) takingTurns (.new 64 : Shards Bool Unit)).bind
      fun e => (execute (Shards.step fun _ => ⟨0, 4⟩) takingTurns e).map fun e' =>
        ((e.listed false, e.listed true, e'.listed false, e'.listed true),
          ((e.stores false).state.sst? 0 0).map SstMeta.id,
          decide (RoomFor (fun _ => ⟨0, 4⟩) takingTurns e))) =
      some (([1], [2], [1, 3], [2, 4]), some 1, true) := by decide +kernel
  obtain ⟨e, he, hrun⟩ := Option.bind_eq_some_iff.mp hrun
  obtain ⟨e', he', hobs⟩ := Option.map_eq_some_iff.mp hrun
  obtain ⟨hlisted, hobs⟩ := Prod.mk.inj hobs
  obtain ⟨hfirst, hroom⟩ := Prod.mk.inj hobs
  obtain ⟨sst, hsst, hid⟩ := Option.map_eq_some_iff.mp hfirst
  have hkept := (published_files_kept (by decide +kernel) he (of_decide_eq_true hroom) he').1
    false 0 0 sst hsst
  exact ⟨e, e', hlisted, hid ▸ hkept.2.2⟩

end Todb.Lsm

import Todb.Verification.Lsm.Flushable
import Todb.Verification.Sst.Footer
import Todb.Verification.Sst.Repositioned

/-! # The files of a store

A flush creates its file under a new id, so the files of earlier flushes stay as they were built,
and a scan finds in them what was flushed. -/

namespace Todb.Lsm

open Library

instance : LawfulBlockWriter SstFileWriter where
  Wrote writer file := LawfulBlockWriter.Wrote writer.inner file
  writeBlock_ok := by
    intro writer writer' file data position hwrote hwrite
    obtain ⟨⟨position', inner⟩, hinner, hret⟩ := bind_eq_ok.mp hwrite
    obtain ⟨rfl, rfl⟩ := Prod.mk.inj (Except.ok.inj hret)
    exact LawfulBlockWriter.writeBlock_ok hwrote hinner

theorem DiskManager.wrote_writer (disk : DiskManager) (id : SstId) :
    LawfulSstWriter.Wrote (disk.writer id) [] := ⟨rfl, rfl⟩

/-- Building a file leaves its id. -/
theorem DiskManager.sstId_of_build {disk : DiskManager} {id : SstId}
    {entries : List (Bytes × Entry Bytes)} {footer : SstFooter}
    {writer : DefaultSstWriter SstFileWriter}
    (h : buildSst (disk.writer id) disk.option entries = .ok (footer, writer)) :
    writer.inner.sstId = id := by
  have hasserts := @buildSst_asserts _ _ disk.option _ entries
    (steady_memtableWriter disk.option.blockSize id) (disk.writer id) ⟨rfl, rfl⟩
  rw [h] at hasserts
  exact hasserts.2.2

/-! ## What is on disk -/

/-- The file is on disk as it was built from its entries. -/
def OnDisk (disk : DiskManager) (sst : SstMeta) : Prop :=
  ∃ id footer writer, buildSst (disk.writer id) disk.option sst.entries = .ok (footer, writer) ∧
    disk.files sst.id = some writer.inner.inner.file

theorem OnDisk.congr {disk disk' : DiskManager} {sst : SstMeta} (h : OnDisk disk sst)
    (hsize : disk'.blockSize = disk.blockSize) (hfile : disk'.files sst.id = disk.files sst.id) :
    OnDisk disk' sst := by
  obtain ⟨id, footer, writer, hbuild, hwritten⟩ := h
  refine ⟨id, footer, writer, ?_, hfile.trans hwritten⟩
  rw [DiskManager.writer, DiskManager.option, hsize]
  exact hbuild

/-- The id was allocated last, and no L0 file has it. -/
structure LastId (s : Store Unit) (id : SstId) : Prop where
  next : id.toNat + 1 = s.disk.nextSstId.toNat
  unused : ∀ sst ∈ s.state.l0, sst.id ≠ id

/-- The file that is being built, under its id. -/
def Allocated (s : Store Unit) : Pc → Prop
  | .seek _ _ builder => ∃ id, LastId s id ∧ builder = .new (s.disk.writer id) s.disk.option
  | .build _ _ builder _ added => ∃ id, LastId s id ∧
      SstBuilder.addAll added (.new (s.disk.writer id) s.disk.option) = .ok builder
  | .publish _ _ sst => LastId s sst.id ∧ OnDisk s.disk sst
  | _ => True

/-- There is one level, and its files are on disk under ids that are not given out again. -/
structure Intact (s : Store Unit) : Prop where
  levels : s.state.levels.length ≤ 1
  onDisk : ∀ sst ∈ s.state.l0, OnDisk s.disk sst
  numbered : ∀ sst ∈ s.state.l0, sst.id.toNat < s.disk.nextSstId.toNat
  allocated : Allocated s (s.pcs ())

/-- The condition on a step: `wal.append` succeeds, and the counter of file ids does not wrap. -/
def Supported (s : Store Unit) (l : Label Unit) : Prop :=
  match s.pcs () with
  | .append _ => l ≠ .fail ()
  | .create _ _ => s.disk.nextSstId.toNat + 1 < 2 ^ 64
  | _ => True

instance (s : Store Unit) (l : Label Unit) : Decidable (Supported s l) := by
  unfold Supported
  split <;> infer_instance

variable {opt : LsmTableOption} {s s' : Store Unit}

theorem intact_new (blockSize : ℕ) : Intact (Store.new blockSize) :=
  ⟨by simp [Store.new, LsmState.new], by simp [Store.new], by simp [Store.new], trivial⟩

namespace Intact

/-- A step that touches neither the files nor the levels. -/
theorem quiet (h : Intact s) (hlevels : s'.state.levels = s.state.levels)
    (hdisk : s'.disk = s.disk) (hallocated : Allocated s' (s'.pcs ())) : Intact s' := by
  have hl0 : s'.state.l0 = s.state.l0 := by rw [LsmState.l0, hlevels, LsmState.l0]
  refine ⟨hlevels ▸ h.levels, ?_, ?_, hallocated⟩
  · rw [hl0, hdisk]
    exact h.onDisk
  · rw [hl0, hdisk]
    exact h.numbered

theorem flushReturns (h : Intact s) (caller : Caller) : Intact (s.flushReturns () caller) := by
  cases caller <;> exact h.quiet rfl rfl trivial

theorem switchMemtable (h : Intact s) {pc : Pc} (hpc : ∀ s, Allocated s pc) :
    Intact ((s.switchMemtable opt).goto () pc) := by
  rw [Store.switchMemtable]
  split <;> exact h.quiet rfl rfl (hpc _)

theorem create (h : Intact s) {caller : Caller} {mem : MemId}
    (hnext : s.disk.nextSstId.toNat + 1 < 2 ^ 64) :
    Intact { s.goto () (.seek caller mem
      (.new ⟨s.disk.createSst.1, s.disk.option⟩ s.disk.option)) with disk := s.disk.createSst.2 } := by
  have hcounter : (s.disk.nextSstId + 1).toNat = s.disk.nextSstId.toNat + 1 := by
    rw [UInt64.toNat_add]
    exact Nat.mod_eq_of_lt hnext
  have hne : ∀ sst ∈ s.state.l0, sst.id ≠ s.disk.nextSstId := by
    rintro sst hsst heq
    exact absurd (h.numbered sst hsst) (by rw [heq]; exact lt_irrefl _)
  refine ⟨h.levels, fun sst hsst => ?_, fun sst hsst => ?_, s.disk.nextSstId,
    ⟨hcounter.symm, hne⟩, rfl⟩
  · refine (h.onDisk sst hsst).congr rfl ?_
    exact Function.update_of_ne (hne sst hsst) _ _
  · exact (h.numbered sst hsst).trans (by
      rw [DiskManager.createSst, hcounter]
      exact Nat.lt_succ_self _)

theorem finish (h : Intact s) {caller : Caller} {mem : MemId} {builder : MemtableBuilder}
    {added : List (Bytes × Entry Bytes)} {footer : SstFooter}
    {writer : DefaultSstWriter SstFileWriter}
    (hpc : s.pcs () = .build caller mem builder none added)
    (hfinish : builder.finish = .ok (footer, writer)) :
    Intact { s.goto () (.publish caller mem
      ⟨writer.inner.sstId, (footer.firstKey, footer.lastKey), writer.inner.fileSize,
        mem, added⟩) with disk := s.disk.store writer.inner } := by
  have hallocated := h.allocated
  rw [hpc] at hallocated
  obtain ⟨id, hid, hadded⟩ := hallocated
  have hbuild : buildSst (s.disk.writer id) s.disk.option added = .ok (footer, writer) := by
    simp only [buildSst, hadded, bind, Except.bind]
    exact hfinish
  obtain rfl := DiskManager.sstId_of_build hbuild
  refine ⟨h.levels, fun sst hsst => ?_, h.numbered, ⟨hid.next, hid.unused⟩, _, footer, writer,
    hbuild, ?_⟩
  · refine (h.onDisk sst hsst).congr rfl ?_
    exact Function.update_of_ne (hid.unused sst hsst) _ _
  · exact Function.update_self _ _ _

theorem publish (h : Intact s) {caller : Caller} {mem : MemId} {sst : SstMeta}
    (hpc : s.pcs () = .publish caller mem sst) :
    Intact { s.goto () .idle with state := s.state.flushed sst } := by
  have hallocated := h.allocated
  rw [hpc] at hallocated
  obtain ⟨hid, hdisk⟩ := hallocated
  refine ⟨?_, ?_, ?_, trivial⟩
  · have hlevels := h.levels
    cases hcase : s.state.levels with
    | nil => simp [LsmState.flushed, hcase]
    | cons first rest =>
        rw [hcase] at hlevels
        simpa [LsmState.flushed, hcase] using hlevels
  · rw [LsmState.l0_flushed]
    exact List.forall_mem_append.mpr ⟨h.onDisk, by simpa [Store.goto] using hdisk⟩
  · rw [LsmState.l0_flushed]
    refine List.forall_mem_append.mpr ⟨h.numbered, ?_⟩
    have := hid.next
    simp only [List.mem_singleton, forall_eq]
    exact Nat.lt_of_succ_le this.le

theorem advance (h : Intact s) (hok : Supported s (.step ())) (hstep : s.advance opt () = some s') :
    Intact s' := by
  rw [Store.advance] at hstep
  split at hstep
  case h_1 => simp at hstep
  case h_2 => exact Option.some.inj hstep ▸ h.quiet rfl rfl trivial
  case h_3 => exact Option.some.inj hstep ▸ h.quiet rfl rfl trivial
  case h_4 =>
    split at hstep
    · exact Option.some.inj hstep ▸ h.quiet rfl rfl trivial
    · split at hstep <;> exact Option.some.inj hstep ▸ h.quiet rfl rfl trivial
  case h_5 => exact Option.some.inj hstep ▸ h.switchMemtable fun _ => trivial
  case h_6 => exact Option.some.inj hstep ▸ h.switchMemtable fun _ => trivial
  case h_7 => split at hstep <;> exact Option.some.inj hstep ▸ h.quiet rfl rfl trivial
  case h_8 =>
    split at hstep
    · simp at hstep
    · exact Option.some.inj hstep ▸ h.quiet rfl rfl trivial
  case h_9 =>
    split at hstep
    · exact Option.some.inj hstep ▸ h.flushReturns _
    · exact Option.some.inj hstep ▸ h.quiet rfl rfl trivial
  case h_10 hpc =>
    rw [Supported, hpc] at hok
    exact Option.some.inj hstep ▸ h.create hok
  case h_11 hpc =>
    have hallocated := h.allocated
    rw [hpc] at hallocated
    obtain ⟨id, hid, rfl⟩ := hallocated
    exact Option.some.inj hstep ▸ h.quiet rfl rfl ⟨id, ⟨hid.next, hid.unused⟩, rfl⟩
  case h_12 hpc =>
    split at hstep
    · rename_i hadd
      have hallocated := h.allocated
      rw [hpc] at hallocated
      obtain ⟨id, hid, hadded⟩ := hallocated
      refine Option.some.inj hstep ▸ h.quiet rfl rfl ⟨id, ⟨hid.next, hid.unused⟩, ?_⟩
      refine (SstBuilder.addAll_append hadded).trans ?_
      simp [SstBuilder.addAll, hadd, bind, Except.bind]
    · exact Option.some.inj hstep ▸ h.quiet rfl rfl trivial
  case h_13 hpc =>
    split at hstep
    · rename_i hfinish
      exact Option.some.inj hstep ▸ h.finish hpc hfinish
    · exact Option.some.inj hstep ▸ h.quiet rfl rfl trivial
  case h_14 caller _ _ hpc =>
    obtain rfl := Option.some.inj hstep
    cases caller <;> exact (h.publish hpc).quiet rfl rfl trivial

theorem failing (h : Intact s) (hok : Supported s (.fail ())) (hstep : s.failing () = some s') :
    Intact s' := by
  rw [Store.failing] at hstep
  split at hstep
  · exact Option.some.inj hstep ▸ h.quiet rfl rfl trivial
  · rename_i hpc
    rw [Supported, hpc] at hok
    have hcounter : (s.disk.nextSstId + 1).toNat = s.disk.nextSstId.toNat + 1 := by
      rw [UInt64.toNat_add]
      exact Nat.mod_eq_of_lt hok
    refine Option.some.inj hstep ▸ ⟨h.levels, fun sst hsst => ?_, fun sst hsst => ?_, trivial⟩
    · exact (h.onDisk sst hsst).congr rfl rfl
    · exact (h.numbered sst hsst).trans (by rw [hcounter]; exact Nat.lt_succ_self _)
  · exact Option.some.inj hstep ▸ h.quiet rfl rfl trivial
  · simp at hstep

theorem call (h : Intact s) {pc : Pc} (hstep : s.call () pc = some s') (hpc : ∀ s, Allocated s pc) :
    Intact s' := by
  rw [Store.call] at hstep
  split at hstep
  · exact Option.some.inj hstep ▸ h.quiet rfl rfl (hpc _)
  · simp at hstep

theorem step (h : Intact s) {l : Label Unit} (hok : Supported s l) (hstep : s.step opt l = some s') :
    Intact s' := by
  cases l with
  | write _ _ | switch _ | flush _ => exact h.call hstep fun _ => trivial
  | step _ => exact h.advance hok hstep
  | fail _ => exact h.failing hok hstep

end Intact

/-! ## Opening a file -/

/-- A file of keys of which any two share an index block opens as it was built. Its index has one
level if one index block takes the last keys of its data blocks. -/
theorem OnDisk.opens {disk : DiskManager} {sst : SstMeta} (h : OnDisk disk sst)
    (hsize : disk.blockSize < 2 ^ 32) (hasc : Ascending sst.entries)
    (hpairs : ∀ a ∈ sst.entries, ∀ b ∈ sst.entries, indexFull disk.option [a.1] b.1 = false) :
    ∃ reader footer, disk.open sst.id = .ok (reader, footer) ∧
      WellFormedSst reader footer sst.entries ∧
      (footer.treeHeight.toNat ≤ 2 ↔ OneIndexBlock disk.option sst.entries) := by
  obtain ⟨id, footer, writer, hbuild, hfile⟩ := h
  obtain ⟨hfirst, hlast, file, trailer, hwrote, rfl, hcases⟩ :=
    buildSst_spec (disk.wrote_writer id) (SmallBlocks.short (.inl hsize)) hbuild
  rw [show writer.inner.inner.file = file ++ footer.encode from hwrote.1] at hfile
  have hbody : footer.body.length < 2 ^ 32 := by
    rw [SstFooter.length_body, hfirst, hlast]
    by_cases hne : sst.entries = []
    · simp [hne]
    · have hends := hpairs _ (List.head_mem hne) _ (List.getLast_mem hne)
      simp only [indexFull, blockFixedHeaderSize, IndexBlockBuilder.entrySize, List.map_cons,
        List.map_nil, List.sum_cons, List.sum_nil, decide_eq_false_iff_not, not_lt,
        DiskManager.option] at hends
      rw [List.head?_eq_some_head hne, List.getLast?_eq_some_getLast hne]
      simp only [Option.map_some, Option.getD_some]
      omega
  refine ⟨_, footer, DiskManager.open_append hfile hbody, ?_⟩
  rcases hcases with ⟨hnil, hheight⟩ | ⟨n, rs, tail, hfinished, hone⟩
  · rw [hnil, hheight]
    exact ⟨.empty hheight, iff_of_true (by decide) rfl⟩
  · have hroot : rootFits (indexFull disk.option) (blockEndKeys disk.option sst.entries) = true := by
      refine rootFits_of_pairs fun a ha b hb => ?_
      obtain ⟨e, he, rfl⟩ := List.mem_map.mp ha
      obtain ⟨e', he', rfl⟩ := List.mem_map.mp hb
      exact hpairs e ((ends_sublist _).subset he) e' ((ends_sublist _).subset he')
    have hentries := hfinished.entries_eq
    rw [hfinished.tail_iff.mpr hroot, List.append_nil] at hentries
    have hwf := hfinished.wellFormed hasc (serves_file (file ++ footer.encode) disk.blockSize).blocks
    rw [hentries] at hwf
    refine ⟨hwf, ?_⟩
    rw [hfinished.height_eq, ← hone]
    omega

end Todb.Lsm

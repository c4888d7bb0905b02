import Todb.Verification.Lsm.LastWriter
import Todb.Verification.Lsm.SharedDisk

/-! # A shard among others and a store alone

What a shard does in an engine is what a store with a directory of its own would do under the
same calls, except that its files have other ids. -/

namespace Todb.Lsm

open Library

/-! ## Other ids -/

def SstMeta.relabel (ρ : SstId → SstId) (sst : SstMeta) : SstMeta := { sst with id := ρ sst.id }

def LevelMeta.relabel (ρ : SstId → SstId) (level : LevelMeta) : LevelMeta :=
  { level with ssts := level.ssts.map (SstMeta.relabel ρ) }

def LsmState.relabel (ρ : SstId → SstId) (self : LsmState) : LsmState :=
  { self with levels := self.levels.map (LevelMeta.relabel ρ) }

def Pc.relabel (ρ : SstId → SstId) : Pc → Pc
  | .seek caller mem builder => .seek caller mem (builder.mapWriter (relabelWriter ρ))
  | .build caller mem builder item added =>
      .build caller mem (builder.mapWriter (relabelWriter ρ)) item added
  | .publish caller mem sst => .publish caller mem (sst.relabel ρ)
  | pc => pc

/-- The store with its file ids renamed, over another directory. -/
def Store.relabel {ι : Type} (ρ : SstId → SstId) (disk : DiskManager) (s : Store ι) : Store ι :=
  { s with
    state := s.state.relabel ρ
    disk
    pcs := fun t => (s.pcs t).relabel ρ }

variable {ρ : SstId → SstId} {disk : DiskManager}

@[simp] theorem LsmState.relabel_flushed (self : LsmState) (sst : SstMeta) :
    (self.flushed sst).relabel ρ = (self.relabel ρ).flushed (sst.relabel ρ) := by
  cases h : self.levels <;> simp [flushed, relabel, h, LevelMeta.relabel]

theorem LsmState.sst?_relabel (self : LsmState) (level n : ℕ) :
    (self.relabel ρ).sst? level n = (self.sst? level n).map (SstMeta.relabel ρ) := by
  simp only [sst?, relabel, List.getElem?_map]
  cases self.levels[level]? <;> simp [LevelMeta.relabel]

@[simp] theorem Pc.building?_relabel (pc : Pc) :
    (pc.relabel ρ).building? = pc.building?.map ρ := by
  cases pc <;> rfl

variable {ι : Type} {opt : LsmTableOption} {s s' v v' : Store ι} {t : ι} {l : Label ι}

theorem Store.holds_relabel (s : Store ι) (x : Holder ι) :
    (s.relabel ρ disk).holds x = (s.holds x).map ρ := by
  cases x with
  | file level n =>
      simp only [holds, relabel, LsmState.sst?_relabel, Option.map_map]
      rfl
  | thread t => exact Pc.building?_relabel (s.pcs t)

@[simp] theorem Store.relabel_mems (s : Store ι) : (s.relabel ρ disk).mems = s.mems := rfl

@[simp] theorem Store.relabel_pcs (s : Store ι) (t : ι) :
    (s.relabel ρ disk).pcs t = (s.pcs t).relabel ρ := rfl

@[simp] theorem Store.relabel_activeMem (s : Store ι) :
    (s.relabel ρ disk).state.activeMem = s.state.activeMem := rfl

@[simp] theorem Store.relabel_immMemtables (s : Store ι) :
    (s.relabel ρ disk).state.immMemtables = s.state.immMemtables := rfl

@[simp] theorem Store.relabel_flushLock (s : Store ι) :
    (s.relabel ρ disk).flushLock = s.flushLock := rfl

@[simp] theorem Store.relabel_history (s : Store ι) :
    (s.relabel ρ disk).history = s.history := rfl

@[simp] theorem Store.relabel_applyEntry (s : Store ι) (mem : MemId) (entry : WriteEntry) :
    (s.applyEntry mem entry).relabel ρ disk = (s.relabel ρ disk).applyEntry mem entry := rfl

@[simp] theorem Store.relabel_switchMemtable (s : Store ι) :
    (s.switchMemtable opt).relabel ρ disk = (s.relabel ρ disk).switchMemtable opt := by
  by_cases hsmall : (s.mems s.state.activeMem).estimateMemory < opt.memtableSizeLimit
  · simp only [switchMemtable, relabel_mems, relabel_activeMem, hsmall, ite_true]
  · simp only [switchMemtable, relabel_mems, relabel_activeMem, hsmall, ite_false]
    rfl

variable [DecidableEq ι]

@[simp] theorem Store.relabel_goto (s : Store ι) (t : ι) (pc : Pc) :
    (s.goto t pc).relabel ρ disk = (s.relabel ρ disk).goto t (pc.relabel ρ) := by
  have hpcs : (fun u => (Function.update s.pcs t pc u).relabel ρ) =
      Function.update (fun u => (s.pcs u).relabel ρ) t (pc.relabel ρ) :=
    Function.comp_update (Pc.relabel ρ) s.pcs t pc
  simp only [relabel, goto, hpcs]

@[simp] theorem Store.relabel_ack (s : Store ι) (t : ι) (call : WriteCall) :
    (s.ack t call).relabel ρ disk = (s.relabel ρ disk).ack t call := by
  have hgoto := @relabel_goto ρ disk _ _ s t .idle
  rw [ack, ack, show Pc.idle = Pc.idle.relabel ρ from rfl, ← hgoto]
  rfl

@[simp] theorem Store.relabel_flushReturns (s : Store ι) (t : ι) (caller : Caller) :
    (s.flushReturns t caller).relabel ρ disk = (s.relabel ρ disk).flushReturns t caller := by
  cases caller with
  | write call =>
      rw [flushReturns, flushReturns, ← relabel_ack]
      rfl
  | scheduler =>
      rw [flushReturns, flushReturns, show Pc.idle = Pc.idle.relabel ρ from rfl, ← relabel_goto]
      rfl

@[simp] theorem Store.relabel_flushFails (s : Store ι) (t : ι) :
    (s.flushFails t).relabel ρ disk = (s.relabel ρ disk).flushFails t := by
  rw [flushFails, flushFails, show Pc.idle = Pc.idle.relabel ρ from rfl, ← relabel_goto]
  rfl

/-! ## Steps under other ids -/

/-- The steps that neither create nor finish a file. -/
def Pc.Quiet : Pc → Prop
  | .create _ _ | .build _ _ _ none _ => False
  | _ => True

theorem advance_relabel (hquiet : (s.pcs t).Quiet) :
    (s.relabel ρ disk).advance opt t =
      (s.advance opt t).map (Store.relabel ρ disk) := by
  cases hpc : s.pcs t with
  | idle => simp [Store.advance, hpc, Pc.relabel]
  | append batch => simp [Store.advance, hpc, Pc.relabel]
  | snapshot batch => simp [Store.advance, hpc, Pc.relabel]
  | apply mem call =>
      simp only [Store.advance, Store.relabel_pcs, hpc, Pc.relabel]
      cases call.nextEntry with
      | some entry => simp [Pc.relabel]
      | none =>
          by_cases hsmall : (s.mems mem).estimateMemory < opt.memtableSizeLimit <;>
            simp [hsmall, Pc.relabel]
  | switch call => cases call <;> simp [Store.advance, hpc, Pc.relabel]
  | backlog call =>
      by_cases hfew : s.state.immMemtables.length < opt.maxImmMemtables <;>
        simp [Store.advance, hpc, Pc.relabel, hfew]
  | lock caller =>
      by_cases hlock : s.flushLock
      · simp [Store.advance, hpc, Pc.relabel, hlock]
      · have hgoto := @Store.relabel_goto ρ disk _ _ s t (.choose caller)
        simp only [Store.advance, Store.relabel_pcs, hpc, Pc.relabel, Store.relabel_flushLock,
          hlock, Bool.false_eq_true, ite_false, Option.map_some, Option.some.injEq]
        rw [show Pc.choose caller = (Pc.choose caller).relabel ρ from rfl, ← hgoto]
        rfl
  | choose caller =>
      simp only [Store.advance, Store.relabel_pcs, hpc, Pc.relabel, Store.relabel_immMemtables]
      cases s.state.immMemtables.getLast? <;> simp [Pc.relabel]
  | create caller mem =>
      rw [hpc] at hquiet
      exact hquiet.elim
  | seek caller mem builder => simp [Store.advance, hpc, Pc.relabel]
  | build caller mem builder item added =>
      cases item with
      | none =>
          rw [hpc] at hquiet
          exact hquiet.elim
      | some item =>
          simp only [Store.advance, Store.relabel_pcs, hpc, Pc.relabel, Store.relabel_mems,
            SstBuilder.add_map (writesAlike_relabel ρ)]
          cases builder.add item.1 item.2 <;> simp [Except.map, Pc.relabel]
  | publish caller mem sst =>
      have hflushed : ({ s with state := s.state.flushed sst } : Store ι).relabel ρ disk =
          { s.relabel ρ disk with state := (s.relabel ρ disk).state.flushed (sst.relabel ρ) } := by
        simp [Store.relabel]
      simp only [Store.advance, Store.relabel_pcs, hpc, Pc.relabel, Option.map_some,
        Store.relabel_flushReturns, hflushed]

omit [DecidableEq ι] in
theorem Store.relabel_id (s : Store ι) : s.relabel id s.disk = s := by
  have hstate : s.state.relabel id = s.state := by
    have hlevel : LevelMeta.relabel id = id := funext fun level => by
      have hsst : SstMeta.relabel id = id := rfl
      simp [LevelMeta.relabel, hsst]
    simp [LsmState.relabel, hlevel]
  have hpcs : (fun t => (s.pcs t).relabel id) = s.pcs := funext fun t => by
    cases s.pcs t <;> rfl
  simp only [relabel, hstate, hpcs]

/-- Such a step commutes with a change of the directory, so it reads and writes none. -/
theorem advance_disk_eq (hquiet : (s.pcs t).Quiet) (h : s.advance opt t = some s') :
    s'.disk = s.disk := by
  have hcomm := @advance_relabel id s.disk _ opt s t _ hquiet
  rw [s.relabel_id, h, Option.map_some, Option.some.injEq] at hcomm
  have hdisk := congrArg Store.disk hcomm
  exact hdisk

theorem call_relabel (pc : Pc) (hpc : pc.relabel ρ = pc) :
    (s.relabel ρ disk).call t pc = (s.call t pc).map (Store.relabel ρ disk) := by
  have hidle : Pc.idle.relabel ρ = .idle := rfl
  cases h : s.pcs t with
  | idle => simp only [Store.call, Store.relabel_pcs, h, hidle, Option.map_some,
      Store.relabel_goto, hpc]
  | _ => simp [Store.call, h, Pc.relabel]

/-- The failures that cost no id. -/
theorem failing_relabel (hquiet : ∀ caller mem, s.pcs t ≠ .create caller mem) :
    (s.relabel ρ disk).failing t = (s.failing t).map (Store.relabel ρ disk) := by
  cases h : s.pcs t with
  | create caller mem => exact absurd h (hquiet caller mem)
  | _ => simp [Store.failing, h, Pc.relabel]

/-! ## Twins -/

/-- `v` is `s` with its ids renamed, and has the same files under them. -/
structure Twin (ρ : SstId → SstId) (s v : Store ι) : Prop where
  view : v = s.relabel ρ v.disk
  blockSize : v.disk.blockSize = s.disk.blockSize
  counter : s.disk.nextSstId.toNat ≤ v.disk.nextSstId.toNat
  files : ∀ x id, s.holds x = some id → v.disk.files (ρ id) = s.disk.files id

/-- A store's ids, seen by itself. -/
def Alone (s : Store ι) : Prop := Numbered s.disk fun _ : Unit => s

omit [DecidableEq ι] in
theorem Alone.unique (h : Alone s) {x x' : Holder ι} {id : SstId} (hx : s.holds x = some id)
    (hx' : s.holds x' = some id) : x = x' :=
  (@Numbered.once _ _ _ _ h () () _ _ _ hx hx').2

omit [DecidableEq ι] in
theorem LsmState.relabel_congr {ρ' : SstId → SstId} (self : LsmState)
    (h : ∀ level n sst, self.sst? level n = some sst → ρ sst.id = ρ' sst.id) :
    self.relabel ρ = self.relabel ρ' := by
  have hlevels : self.levels.map (LevelMeta.relabel ρ) = self.levels.map (LevelMeta.relabel ρ') := by
    refine List.map_congr_left fun found hfound => ?_
    obtain ⟨level, hlevel⟩ := List.mem_iff_getElem?.mp hfound
    have hssts : found.ssts.map (SstMeta.relabel ρ) = found.ssts.map (SstMeta.relabel ρ') := by
      refine List.map_congr_left fun sst hsst => ?_
      obtain ⟨n, hn⟩ := List.mem_iff_getElem?.mp hsst
      have hid := h level n sst (by simp [LsmState.sst?, hlevel, hn])
      simp only [SstMeta.relabel, hid]
    simp only [LevelMeta.relabel, hssts]
  simp only [relabel, hlevels]

omit [DecidableEq ι] in
theorem Pc.relabel_congr {ρ' : SstId → SstId} (pc : Pc)
    (h : ∀ id, pc.building? = some id → ρ id = ρ' id) : pc.relabel ρ = pc.relabel ρ' := by
  cases pc with
  | seek caller mem builder | build caller mem builder item added =>
      have hid := h builder.writer.inner.sstId rfl
      simp only [Pc.relabel, SstBuilder.mapWriter, relabelWriter, hid]
  | publish caller mem sst =>
      have hid := h sst.id rfl
      simp only [Pc.relabel, SstMeta.relabel, hid]
  | _ => rfl

omit [DecidableEq ι] in
/-- Only the names of ids that are held matter. -/
theorem Store.relabel_congr {ρ' : SstId → SstId} (s : Store ι)
    (h : ∀ x id, s.holds x = some id → ρ id = ρ' id) : s.relabel ρ disk = s.relabel ρ' disk := by
  have hstate := LsmState.relabel_congr s.state fun level n sst hsst =>
    h (.file level n) sst.id (by rw [Store.holds, hsst]; rfl)
  have hpcs : (fun t => (s.pcs t).relabel ρ) = fun t => (s.pcs t).relabel ρ' :=
    funext fun t => Pc.relabel_congr (s.pcs t) fun id hid => h (.thread t) id hid
  simp only [relabel, hstate, hpcs]

namespace Twin

omit [DecidableEq ι] in
theorem holds (h : Twin ρ s v) {x : Holder ι} {id : SstId} (hx : s.holds x = some id) :
    v.holds x = some (ρ id) := by
  rw [h.view, Store.holds_relabel, hx]
  rfl

omit [DecidableEq ι] in
/-- The other shards change the directory, but not the files of this one. -/
theorem withDisk (h : Twin ρ s v) (hsize : disk.blockSize = v.disk.blockSize)
    (hcounter : v.disk.nextSstId.toNat ≤ disk.nextSstId.toNat)
    (hfile : ∀ x id, v.holds x = some id → disk.files id = v.disk.files id) :
    Twin ρ s { v with disk } where
  view := by
    conv_lhs => rw [h.view]
    rfl
  blockSize := hsize.trans h.blockSize
  counter := h.counter.trans hcounter
  files x id hx := (hfile x _ (h.holds hx)).trans (h.files x id hx)

omit [DecidableEq ι] in
/-- A step of both that leaves the files. -/
theorem quiet (h : Twin ρ s v) (hsize : s'.disk.blockSize = s.disk.blockSize)
    (hsize' : disk.blockSize = v.disk.blockSize)
    (hcounter : s'.disk.nextSstId.toNat ≤ disk.nextSstId.toNat)
    (hfiles : s'.disk.files = s.disk.files) (hfiles' : disk.files = v.disk.files)
    (hback : ∀ x id, s'.holds x = some id → ∃ y, s.holds y = some id) :
    Twin ρ s' (s'.relabel ρ disk) where
  view := rfl
  blockSize := hsize'.trans (h.blockSize.trans hsize.symm)
  counter := hcounter
  files x id hx := by
    obtain ⟨y, hy⟩ := hback x id hx
    change disk.files (ρ id) = s'.disk.files id
    rw [hfiles, hfiles']
    exact h.files y id hy

/-- Both create a file, each under the id of its own counter. -/
theorem create (h : Twin ρ s v) (hs : Alone s) (hv : Alone v) (hroom : HasRoom v.disk)
    {caller : Caller} {mem : MemId} :
    Twin (Function.update ρ s.disk.nextSstId v.disk.nextSstId)
      { s.goto t (.seek caller mem (.new ⟨s.disk.createSst.1, s.disk.option⟩ s.disk.option)) with
        disk := s.disk.createSst.2 }
      { v.goto t (.seek caller mem (.new ⟨v.disk.createSst.1, v.disk.option⟩ v.disk.option)) with
        disk := v.disk.createSst.2 } := by
  set ρ' := Function.update ρ s.disk.nextSstId v.disk.nextSstId with hρ'
  have hnew : ρ' s.disk.nextSstId = v.disk.nextSstId := Function.update_self ..
  have hold : ∀ x id, s.holds x = some id → ρ id = ρ' id := fun x id hx =>
    (Function.update_of_ne (hs.ne_next (k := ()) hx) ..).symm
  have hseek : (Pc.seek caller mem (.new ⟨s.disk.createSst.1, s.disk.option⟩ s.disk.option)).relabel
      ρ' = .seek caller mem (.new ⟨v.disk.createSst.1, v.disk.option⟩ v.disk.option) := by
    simp [Pc.relabel, SstBuilder.mapWriter, SstBuilder.new, relabelWriter, DiskManager.createSst,
      DiskManager.option, h.blockSize, hnew]
  have hroom' : HasRoom s.disk := (Nat.add_le_add_right h.counter 1).trans_lt hroom
  refine ⟨?_, h.blockSize, ?_, fun x id hx => ?_⟩
  · rw [← hseek]
    conv_lhs => rw [h.view]
    rw [s.relabel_congr hold]
    exact (@Store.relabel_goto ρ' v.disk.createSst.2 _ _ s t _).symm
  · change (s.disk.nextSstId + 1).toNat ≤ (v.disk.nextSstId + 1).toNat
    rw [hroom.toNat_next, hroom'.toNat_next]
    exact Nat.add_le_add_right h.counter 1
  · change Function.update v.disk.files v.disk.nextSstId (some []) (ρ' id) =
      Function.update s.disk.files s.disk.nextSstId (some []) id
    rcases holds_create hx with hx | ⟨-, rfl⟩
    · rw [← hold x id hx, Function.update_of_ne (hs.ne_next (k := ()) hx),
        Function.update_of_ne (hv.ne_next (k := ()) (h.holds hx))]
      exact h.files x id hx
    · rw [hnew, Function.update_self, Function.update_self]

/-- Both finish the file they build. -/
theorem finish (h : Twin ρ s v) (hv : Alone v) {caller : Caller} {mem : MemId}
    {builder : MemtableBuilder} {added : List (Bytes × Entry Bytes)} {footer : SstFooter}
    {writer : DefaultSstWriter SstFileWriter} (hpc : s.pcs t = .build caller mem builder none added)
    (hfinish : builder.finish = .ok (footer, writer)) :
    Twin ρ
      { s.goto t (.publish caller mem ⟨writer.inner.sstId, (footer.firstKey, footer.lastKey),
          writer.inner.fileSize, mem, added⟩) with disk := s.disk.store writer.inner }
      { v.goto t (.publish caller mem ⟨ρ writer.inner.sstId, (footer.firstKey, footer.lastKey),
          writer.inner.fileSize, mem, added⟩) with
        disk := v.disk.store (relabelWriter ρ writer).inner } := by
  have hbuilding : s.holds (.thread t) = some writer.inner.sstId := by
    rw [Store.holds, hpc, Pc.building?, sstId_finish hfinish]
  refine ⟨?_, h.blockSize, h.counter, fun x id hx => ?_⟩
  · have hgoto := @Store.relabel_goto ρ (v.disk.store (relabelWriter ρ writer).inner) _ _ s t
      (.publish caller mem ⟨writer.inner.sstId, (footer.firstKey, footer.lastKey),
        writer.inner.fileSize, mem, added⟩)
    conv_lhs => rw [h.view]
    exact hgoto.symm
  · change Function.update v.disk.files (ρ writer.inner.sstId) (some writer.inner.inner.file) (ρ id) =
      Function.update s.disk.files writer.inner.sstId (some writer.inner.inner.file) id
    have hx : s.holds x = some id :=
      holds_goto hx rfl rfl fun hid => hbuilding.trans hid
    by_cases hid : id = writer.inner.sstId
    · rw [hid, Function.update_self, Function.update_self]
    · have hne : ρ id ≠ ρ writer.inner.sstId := by
        intro heq
        obtain rfl := hv.unique (h.holds hx) (heq ▸ h.holds hbuilding)
        exact hid (Option.some.inj (hx.symm.trans hbuilding))
      rw [Function.update_of_ne hne, Function.update_of_ne hid]
      exact h.files x id hx

omit [DecidableEq ι] in
theorem hasRoom (h : Twin ρ s v) (hroom : HasRoom v.disk) : HasRoom s.disk :=
  (Nat.add_le_add_right h.counter 1).trans_lt hroom

/-- The steps that leave the directory to itself. -/
theorem unchanged (h : Twin ρ s v) (heffect : Effect opt s t s') (hdisk : s'.disk = s.disk) :
    Twin ρ s' (s'.relabel ρ v.disk) := by
  refine h.quiet (by rw [hdisk]) rfl (by rw [hdisk]; exact h.counter) (by rw [hdisk]) rfl ?_
  intro x id hx
  cases heffect.moves with
  | loses hmoves => exact ⟨x, hmoves hx⟩
  | takes hnext =>
      rw [hdisk] at hnext
      exact absurd (left_eq_add.mp hnext) (by decide)
  | hands level n hmoves =>
      rcases hmoves hx with ⟨-, hold⟩ | ⟨-, hold⟩
      · exact ⟨x, hold⟩
      · exact ⟨_, hold⟩

theorem advance (h : Twin ρ s v) (hs : Alone s) (hv : Alone v) (hroom : HasRoom v.disk)
    (hstep : v.advance opt t = some v') :
    ∃ ρ' s', s.advance opt t = some s' ∧ Twin ρ' s' v' := by
  have hpcs : v.pcs t = (s.pcs t).relabel ρ := by rw [h.view, Store.relabel_pcs]
  have hquiet : (s.pcs t).Quiet → ∃ ρ' s', s.advance opt t = some s' ∧ Twin ρ' s' v' := by
    intro hquiet
    rw [h.view, advance_relabel hquiet] at hstep
    obtain ⟨s', hs', rfl⟩ := Option.map_eq_some_iff.mp hstep
    exact ⟨ρ, s', hs', h.unchanged (advance_effect hs') (advance_disk_eq hquiet hs')⟩
  cases hpc : s.pcs t with
  | create caller mem =>
      rw [hpc] at hpcs
      simp only [Store.advance, hpcs, Pc.relabel, Option.some.injEq] at hstep
      subst hstep
      exact ⟨_, _, by simp only [Store.advance, hpc], h.create hs hv hroom⟩
  | build caller mem builder item added =>
      cases item with
      | some item =>
          rw [hpc] at hquiet
          exact hquiet trivial
      | none =>
          rw [hpc] at hpcs
          simp only [Store.advance, hpcs, Pc.relabel, SstBuilder.finish_map (writesAlike_relabel ρ)]
            at hstep
          cases hfinish : builder.finish with
          | error fault =>
              rw [hfinish] at hstep
              obtain rfl := Option.some.inj hstep
              have hadvance : s.advance opt t = some (s.flushFails t) := by
                simp only [Store.advance, hpc, hfinish]
              refine ⟨ρ, s.flushFails t, hadvance, ?_⟩
              conv_rhs => rw [h.view, ← Store.relabel_flushFails]
              exact h.unchanged (advance_effect hadvance) rfl
          | ok file =>
              obtain ⟨footer, writer⟩ := file
              rw [hfinish] at hstep
              obtain rfl := Option.some.inj hstep
              have hadvance : s.advance opt t = some { s.goto t (.publish caller mem
                  ⟨writer.inner.sstId, (footer.firstKey, footer.lastKey), writer.inner.fileSize,
                    mem, added⟩) with disk := s.disk.store writer.inner } := by
                simp only [Store.advance, hpc, hfinish]
              exact ⟨ρ, _, hadvance, h.finish hv hpc hfinish⟩
  | _ =>
      rw [hpc] at hquiet
      exact hquiet trivial

theorem failing (h : Twin ρ s v) (hroom : HasRoom v.disk) (hstep : v.failing t = some v') :
    ∃ s', s.failing t = some s' ∧ Twin ρ s' v' := by
  have hview : v.flushFails t = (s.flushFails t).relabel ρ v.disk := by
    rw [Store.relabel_flushFails, ← h.view]
  by_cases hcreate : ∃ caller mem, s.pcs t = .create caller mem
  · obtain ⟨caller, mem, hpc⟩ := hcreate
    have hpc' : v.pcs t = .create caller mem := by
      rw [h.view, Store.relabel_pcs, hpc]
      rfl
    simp only [Store.failing, hpc', Option.some.injEq] at hstep
    subst hstep
    refine ⟨{ s.flushFails t with disk := { s.disk with nextSstId := s.disk.nextSstId + 1 } },
      by simp only [Store.failing, hpc], ?_⟩
    have hquiet := @quiet ρ { v.disk with nextSstId := v.disk.nextSstId + 1 } _ s
      { s.flushFails t with disk := { s.disk with nextSstId := s.disk.nextSstId + 1 } } v h rfl rfl
      ?_ rfl rfl fun x id hx => ⟨x, @holds_goto _ _ _ _ _ .idle _ _ hx rfl rfl (by rintro _ ⟨⟩)⟩
    · rw [hview]
      exact hquiet
    · change (s.disk.nextSstId + 1).toNat ≤ (v.disk.nextSstId + 1).toNat
      rw [hroom.toNat_next, (h.hasRoom hroom).toNat_next]
      exact Nat.add_le_add_right h.counter 1
  · rw [h.view, failing_relabel fun caller mem hpc => hcreate ⟨caller, mem, hpc⟩] at hstep
    obtain ⟨s', hs', rfl⟩ := Option.map_eq_some_iff.mp hstep
    refine ⟨s', hs', h.unchanged (failing_effect hs' : Effect {} s t s') ?_⟩
    rw [Store.failing] at hs'
    split at hs'
    · exact Option.some.inj hs' ▸ rfl
    · rename_i hpc
      exact absurd ⟨_, _, hpc⟩ hcreate
    · exact Option.some.inj hs' ▸ rfl
    · simp at hs'

theorem call (h : Twin ρ s v) {pc : Pc} (hpc : pc.relabel ρ = pc) (hfresh : pc.Fresh)
    (hstep : v.call t pc = some v') : ∃ s', s.call t pc = some s' ∧ Twin ρ s' v' := by
  rw [h.view, call_relabel pc hpc] at hstep
  obtain ⟨s', hs', rfl⟩ := Option.map_eq_some_iff.mp hstep
  exact ⟨s', hs', h.unchanged (call_effect hfresh hs' : Effect {} s t s') (call_disk hs')⟩

/-- Every step of the one is a step of the other. -/
theorem step (h : Twin ρ s v) (hs : Alone s) (hv : Alone v) (hroom : HasRoom v.disk)
    (hstep : v.step opt l = some v') : ∃ ρ' s', s.step opt l = some s' ∧ Twin ρ' s' v' := by
  cases l with
  | write t batch => exact ⟨ρ, h.call rfl ⟨rfl, rfl, rfl⟩ hstep⟩
  | switch t => exact ⟨ρ, h.call rfl ⟨rfl, rfl, rfl⟩ hstep⟩
  | flush t => exact ⟨ρ, h.call rfl ⟨rfl, rfl, rfl⟩ hstep⟩
  | step t => exact h.advance hs hv hroom hstep
  | fail t => exact ⟨ρ, h.failing hroom hstep⟩

end Twin

theorem Alone.step (h : Alone s) (hroom : HasRoom s.disk) (hstep : s.step opt l = some s') :
    Alone s' := by
  have hnumbered := Numbered.step (k := ()) h hroom hstep
  rwa [show Function.update (fun _ : Unit => s) () s' = fun _ => s' from
    funext fun _ => Function.update_self ..] at hnumbered

/-! ## Scans of twins -/

section Agree

variable {α β γ : Type}

/-- Two calls return the same or fail both. -/
def Agree (x y : Outcome α) : Prop := ∀ a, x = .ok a ↔ y = .ok a

omit [DecidableEq ι] in
theorem Agree.refl (x : Outcome α) : Agree x x := fun _ => .rfl

omit [DecidableEq ι] in
theorem Agree.error (e e' : Fault) : Agree (.error e : Outcome α) (.error e') := by
  intro a
  constructor <;> rintro ⟨⟩

omit [DecidableEq ι] in
theorem Agree.bind {x y : Outcome α} {f g : α → Outcome β} (h : Agree x y)
    (hf : ∀ a, Agree (f a) (g a)) : Agree (x >>= f) (y >>= g) := by
  intro b
  rw [bind_eq_ok, bind_eq_ok]
  constructor
  · rintro ⟨a, hx, hfa⟩
    exact ⟨a, (h a).mp hx, (hf a b).mp hfa⟩
  · rintro ⟨a, hy, hga⟩
    exact ⟨a, (h a).mpr hy, (hf a b).mpr hga⟩

omit [DecidableEq ι] in
theorem Agree.mapM {f : α → Outcome γ} {g : β → Outcome γ} {r : α → β} {l : List α}
    (h : ∀ a ∈ l, Agree (f a) (g (r a))) : Agree (l.mapM f) ((l.map r).mapM g) := by
  induction l with
  | nil => exact .refl _
  | cons a l ih =>
      rw [List.map_cons, List.mapM_cons, List.mapM_cons]
      refine (h a List.mem_cons_self).bind fun c => ?_
      exact (ih fun a' ha' => h a' (List.mem_cons_of_mem _ ha')).bind fun cs => .refl _

end Agree

omit [DecidableEq ι] in
/-- Opening reads the id in the texts of its errors only. -/
theorem openSst_agree {fuel : ℕ} {disk' : DiskManager} {sst : SstMeta}
    (hsize : disk'.blockSize = disk.blockSize) (hfile : disk'.files (ρ sst.id) = disk.files sst.id) :
    Agree (openSst fuel disk sst) (openSst fuel disk' (sst.relabel ρ)) := by
  refine Agree.bind ?_ fun opened => .refl _
  simp only [DiskManager.open, SstMeta.relabel, hfile, hsize]
  cases disk.files sst.id with
  | none => exact .error _ _
  | some file =>
      simp only
      split
      · exact .error _ _
      · split
        · exact .error _ _
        · exact .refl _

omit [DecidableEq ι] in
theorem LsmState.l0_relabel (self : LsmState) :
    (self.relabel ρ).l0 = self.l0.map (SstMeta.relabel ρ) := by
  cases h : self.levels <;> simp [l0, relabel, h, LevelMeta.relabel]

namespace Twin

omit [DecidableEq ι] in
theorem openSst_agree (h : Twin ρ s v) {fuel level n : ℕ} {sst : SstMeta}
    (hsst : s.state.sst? level n = some sst) :
    Agree (openSst fuel s.disk sst) (openSst fuel v.disk (sst.relabel ρ)) :=
  Lsm.openSst_agree h.blockSize (h.files (.file level n) sst.id (by rw [Store.holds, hsst]; rfl))

omit [DecidableEq ι] in
theorem buildSstSide_agree (h : Twin ρ s v) (fuel : ℕ) :
    Agree (buildSstSide fuel s.disk s.state) (buildSstSide fuel v.disk v.state) := by
  have hstate : v.state = s.state.relabel ρ := by
    conv_lhs => rw [h.view]
    rfl
  have hdrop : v.state.levels.drop 1 = (s.state.levels.drop 1).map (LevelMeta.relabel ρ) := by
    rw [hstate, LsmState.relabel, List.map_drop]
  rw [buildSstSide, buildSstSide, hdrop, hstate, LsmState.l0_relabel]
  refine (Agree.mapM fun sst hsst => ?_).bind fun l0Iters => Agree.bind ?_ fun lnIters => .refl _
  · obtain ⟨n, hn⟩ := List.mem_iff_getElem?.mp hsst
    refine @openSst_agree ρ _ s v h fuel 0 n sst ?_
    cases hlevels : s.state.levels <;> simp_all [LsmState.sst?, LsmState.l0]
  · refine Agree.mapM fun found hfound => Agree.bind ?_ fun iters => .refl _
    refine Agree.mapM fun sst hsst => ?_
    obtain ⟨level, hlevel⟩ := List.mem_iff_getElem?.mp hfound
    obtain ⟨n, hn⟩ := List.mem_iff_getElem?.mp hsst
    refine @openSst_agree ρ _ s v h fuel (1 + level) n sst ?_
    rw [List.getElem?_drop] at hlevel
    simp [LsmState.sst?, hlevel, hn]

omit [DecidableEq ι] in
/-- A scan of the one is a scan of the other. -/
theorem openScan_agree (h : Twin ρ s v) (fuel : ℕ) (range : ScanRange) (d : Direction) :
    Agree (openScan fuel s.disk s.mems s.state range d)
      (openScan fuel v.disk v.mems v.state range d) := by
  have hmems : v.mems = s.mems := by
    conv_lhs => rw [h.view]
    rfl
  have htables : v.state.activeMem :: v.state.immMemtables =
      s.state.activeMem :: s.state.immMemtables := by
    conv_lhs => rw [h.view]
    rfl
  rw [openScan, openScan, buildMergedIter, buildMergedIter, htables, hmems]
  refine Agree.bind ?_ fun merged => .refl _
  exact (h.buildSstSide_agree fuel).bind fun sstMerge => .refl _

end Twin

/-! ## Runs -/

/-- The labels of one shard. -/
def project {κ : Type} [DecidableEq κ] (k : κ) (ls : List (κ × Label ι)) : List (Label ι) :=
  ls.filterMap fun x => if x.1 = k then some x.2 else none

variable {κ : Type} [DecidableEq κ] {opts : κ → LsmTableOption} {e e' : Shards κ ι} {k : κ}

omit [DecidableEq ι] [DecidableEq κ] in
theorem Apart.alone (h : Apart e) (k : κ) : Alone (e.store k) where
  below hx := h.numbered.below (k := k) hx
  once hx hx' := ⟨rfl, (h.numbered.once (k := k) hx hx').2⟩

theorem Twin.shardStep (h : Twin ρ s (e.store k)) (hs : Alone s) (hapart : Apart e)
    (hroom : HasRoom e.diskManager) {l : Label ι} (hstep : e.step opts (k, l) = some e') :
    ∃ ρ' s', s.step (opts k) l = some s' ∧ Twin ρ' s' (e'.store k) := by
  obtain ⟨v', hv', rfl⟩ := Shards.step_eq_some hstep
  rw [Shards.store_update_self]
  exact h.step hs (hapart.alone k) hroom hv'

theorem Twin.otherStep (h : Twin ρ s (e.store k)) (hapart : Apart e) (hroom : HasRoom e.diskManager)
    {x : κ × Label ι} (hne : k ≠ x.1) (hstep : e.step opts x = some e') :
    Twin ρ s (e'.store k) := by
  obtain ⟨v', hv', rfl⟩ := Shards.step_eq_some hstep
  rw [Shards.store_update_of_ne e hne]
  exact h.withDisk (step_disk hv').blockSize ((step_disk hv').next_le hroom)
    fun y id hy => hapart.numbered.files_eq hv' hy fun hsame => hne hsame.1

theorem Twin.execute {ls : List (κ × Label ι)} (h : Twin ρ s (e.store k)) (hs : Alone s)
    (hapart : Apart e) (hroom : RoomFor opts ls e)
    (hexec : execute (Shards.step opts) ls e = some e') :
    ∃ ρ' s', Library.execute (Store.step (opts k)) (project k ls) s = some s' ∧
      Disciplined (Store.step (opts k)) (fun s _ => HasRoom s.disk) (project k ls) s ∧
      Twin ρ' s' (e'.store k) := by
  induction ls generalizing e s ρ with
  | nil =>
      obtain rfl := Option.some.inj hexec
      exact ⟨ρ, s, rfl, trivial, h⟩
  | cons x ls ih =>
      obtain ⟨mid, hmid, hrest⟩ := Option.bind_eq_some_iff.mp hexec
      have hapart' := hapart.step hroom.1 hmid
      by_cases hk : x.1 = k
      · obtain ⟨k', l⟩ := x
        obtain rfl : k' = k := hk
        obtain ⟨ρ₁, s₁, hs₁, htwin⟩ := h.shardStep hs hapart hroom.1 hmid
        have hroom₁ := h.hasRoom hroom.1
        obtain ⟨ρ', s', hs', hroom', htwin'⟩ :=
          ih htwin (hs.step hroom₁ hs₁) hapart' (hroom.2 mid hmid) hrest
        refine ⟨ρ', s', ?_, ?_, htwin'⟩
        · simpa [project, Library.execute, hs₁] using hs'
        · simpa [project, Disciplined, hs₁, hroom₁] using hroom'
      · have htwin := h.otherStep hapart hroom.1 (Ne.symm hk) hmid
        simpa [project, hk] using ih htwin hs hapart' (hroom.2 mid hmid) hrest

omit [DecidableEq ι] [DecidableEq κ] in
theorem Twin.init (blockSize : ℕ) :
    Twin id (Store.new blockSize : Store ι) ((Shards.new blockSize : Shards κ ι).store k) :=
  ⟨(Store.relabel_id _).symm, rfl, le_rfl, fun _ _ _ => rfl⟩

/-- However the threads of an engine's shards interleave, a shard is in the state of a store that
ran by itself under the calls of that shard, but for the ids of its files, and its scans are the
scans of that store. -/
theorem shard_alone {blockSize : ℕ} {ls : List (κ × Label ι)}
    (hroom : RoomFor opts ls (.new blockSize))
    (hexec : execute (Shards.step opts) ls (.new blockSize) = some e) (k : κ) :
    ∃ s ρ, execute (Store.step (opts k)) (project k ls) (.new blockSize) = some s ∧
      Twin ρ s (e.store k) ∧ Set.InjOn ρ { id | ∃ x, s.holds x = some id } ∧
      ∀ fuel range d scan,
        openScan fuel e.diskManager (e.stores k).mems (e.stores k).state range d = .ok scan ↔
          openScan fuel s.disk s.mems s.state range d = .ok scan := by
  obtain ⟨ρ, s, hs, -, htwin⟩ := (Twin.init blockSize).execute (Numbered.init blockSize)
    (Apart.init blockSize) hroom hexec
  refine ⟨s, ρ, hs, htwin, ?_, fun fuel range d scan =>
    (htwin.openScan_agree fuel range d scan).symm⟩
  rintro id ⟨x, hx⟩ id' ⟨x', hx'⟩ heq
  obtain rfl := ((apart_of_execute hroom hexec).alone k).unique (htwin.holds hx)
    (heq ▸ htwin.holds hx')
  exact Option.some.inj (hx.symm.trans hx')

/-- The second shard of the two has the second file, and scans like a store that has its first. -/
theorem shard_alone_turns : ∃ (e : Shards Bool Unit) (s : Store Unit),
    execute (Store.step ⟨0, 4⟩) writeAndFlush (.new 64) = some s ∧
      (e.listed true, s.state.l0.map SstMeta.id) = ([2], [1]) ∧
      ∀ fuel range d scan,
        openScan fuel e.diskManager (e.stores true).mems (e.stores true).state range d = .ok scan ↔
          openScan fuel s.disk s.mems s.state range d = .ok scan := by
  have hrun : (execute (Shards.step fun _ => ⟨0, 4⟩) takingTurns
      (.new 64 : Shards Bool Unit)).map (fun e => e.listed true) = some [2] := by decide +kernel
  have hsolo : (execute (Store.step ⟨0, 4⟩) writeAndFlush (.new 64 : Store Unit)).map
      (fun s => s.state.l0.map SstMeta.id) = some [1] := by decide +kernel
  obtain ⟨e, he, hlisted⟩ := Option.map_eq_some_iff.mp hrun
  obtain ⟨s, -, hs, -, -, hscans⟩ := shard_alone (by decide +kernel) he true
  have hproject : project true takingTurns = writeAndFlush := by decide +kernel
  rw [hproject] at hs
  rw [hs, Option.map_some, Option.some.injEq] at hsolo
  exact ⟨e, s, hs, by rw [hlisted, hsolo], hscans⟩

end Todb.Lsm

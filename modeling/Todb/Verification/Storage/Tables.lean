import Todb.Verification.Storage.Logs

/-! # What a table shows

Every shard is used by one thread at a time. -/

namespace Todb.Lsm

open Library

variable {opt : LsmTableOption} {s s' v : Store Unit} {ρ : SstId → SstId}

/-! ## Stores alone -/

/-- The batch of a `write` call that is not in the log yet. -/
def Pc.unlogged : Pc → Option WriteBatch
  | .append batch => some batch
  | _ => none

/-- Past its append a call does not come back to one. -/
theorem advance_unlogged (hstep : s.advance opt () = some s') : (s'.pcs ()).unlogged = none := by
  rw [Store.advance] at hstep
  split at hstep
  case h_1 => simp at hstep
  case h_2 | h_3 | h_5 | h_6 | h_10 | h_11 =>
    obtain rfl := Option.some.inj hstep
    rfl
  case h_4 =>
    split at hstep
    · obtain rfl := Option.some.inj hstep
      rfl
    · split at hstep <;> obtain rfl := Option.some.inj hstep <;> rfl
  case h_7 | h_12 | h_13 =>
    split at hstep <;> obtain rfl := Option.some.inj hstep <;> rfl
  case h_8 =>
    split at hstep
    · simp at hstep
    · obtain rfl := Option.some.inj hstep
      rfl
  case h_9 caller _ =>
    split at hstep <;> obtain rfl := Option.some.inj hstep
    · cases caller <;> rfl
    · rfl
  case h_14 caller _ _ _ =>
    obtain rfl := Option.some.inj hstep
    cases caller <;> rfl

theorem call_unlogged {pc : Pc} (hstep : s.call () pc = some s') :
    (s.pcs ()).unlogged = none ∧ (s'.pcs ()).unlogged = pc.unlogged := by
  rw [Store.call] at hstep
  split at hstep
  · rename_i hidle
    obtain rfl := Option.some.inj hstep
    exact ⟨by rw [hidle]; rfl, by rw [goto_pcs]⟩
  · simp at hstep

theorem failing_unlogged (hstep : s.failing () = some s') : (s'.pcs ()).unlogged = none := by
  rw [Store.failing] at hstep
  split at hstep
  case h_4 => simp at hstep
  all_goals
    obtain rfl := Option.some.inj hstep
    rfl

/-- If the append of a batch does not fail, the batch of a call is in the log or on its way to
it. -/
theorem unlogged_step {l : Label Unit} (hok : l = .fail () → (s.pcs ()).unlogged = none)
    (hstep : s.step opt l = some s') :
    (s.appends l).flatten ++ ((s'.pcs ()).unlogged).getD [] =
      ((s.pcs ()).unlogged).getD [] ++ l.batch := by
  cases l with
  | write _ _ | switch _ | flush _ =>
      obtain ⟨hbefore, hafter⟩ := call_unlogged hstep
      rw [hbefore, hafter]
      rfl
  | fail _ =>
      rw [hok rfl, failing_unlogged hstep]
      rfl
  | step _ =>
      rw [advance_unlogged hstep, Store.appends]
      cases s.pcs () <;> simp [Pc.unlogged, Label.batch]

theorem Intact.step_of_hasRoom (h : Intact s) {l : Label Unit} (hroom : HasRoom s.disk)
    (hstep : s.step opt l = some s') : Intact s' := by
  by_cases hfails : l = .fail () ∧ ∃ batch, s.pcs () = .append batch
  · obtain ⟨rfl, batch, hpc⟩ := hfails
    simp only [Store.step, Store.failing, hpc, Option.some.injEq] at hstep
    exact hstep ▸ h.quiet rfl rfl trivial
  · refine h.step ?_ hstep
    rw [Supported]
    split
    · rename_i hpc
      rintro rfl
      exact hfails ⟨rfl, _, hpc⟩
    · exact hroom
    · trivial

/-- A shard among others, and a store that came to the same by itself. -/
structure Shadow (blockSize : ℕ) (opt : LsmTableOption) (ρ : SstId → SstId) (s v : Store Unit) :
    Prop where
  reaches : Reaches (Store.step opt) (fun s _ => HasRoom s.disk) (.new blockSize) s
  alone : Alone s
  twin : Twin ρ s v

namespace Twin

variable (h : Twin ρ s v)
include h

theorem history_eq : v.history = s.history := by
  rw [h.view]
  rfl

theorem state_eq : v.state = s.state.relabel ρ := by
  conv_lhs => rw [h.view]
  rfl

theorem mems_eq : v.mems = s.mems := by
  conv_lhs => rw [h.view]
  rfl

theorem l0_entries : v.state.l0.map SstMeta.entries = s.state.l0.map SstMeta.entries := by
  rw [h.state_eq, LsmState.l0_relabel, List.map_map]
  rfl

theorem scansOnce_iff : ScansOnce v ↔ ScansOnce s := by
  have hfiles : fileSources v.state = fileSources s.state := h.l0_entries
  have htables : memSources v.mems v.state = memSources s.mems s.state := by
    rw [h.mems_eq, h.state_eq]
    rfl
  rw [ScansOnce, ScansOnce, hfiles, htables]

theorem forall_l0_entries {P : List (Bytes × Entry Bytes) → Prop} :
    (∀ sst ∈ v.state.l0, P sst.entries) ↔ ∀ sst ∈ s.state.l0, P sst.entries := by
  rw [← List.forall_mem_map, h.l0_entries, List.forall_mem_map]

end Twin

namespace Shadow

variable {blockSize : ℕ} (h : Shadow blockSize opt ρ s v)
include h

/-- The store rests in a state that the log accounts for. -/
theorem rests {entries : List WriteEntry} (hidle : v.pcs () = .idle)
    (hlogged : v.history.map Event.version ++ (v.pcs ()).pending.map WriteEntry.version =
      entries.map WriteEntry.version) : Rests blockSize [.write () entries] s := by
  obtain ⟨hseq, hretained, hflushes⟩ := sequential_of_reaches (h.reaches.mono fun _ => trivial)
  refine ⟨h.reaches.invariant (intact_new blockSize) fun hs hroom hstep =>
    hs.step_of_hasRoom hroom hstep, hseq, hretained, hflushes, option_of_reaches h.reaches, ?_⟩
  rw [hidle, h.twin.history_eq] at hlogged
  simpa [Pc.pending, written, Label.batch] using hlogged

end Shadow

end Todb.Lsm

namespace Todb.Meta

open Library

/-- A shard is as its log says, and as a store would be that ran alone. -/
structure Logged (blockSize : ℕ) (db : Database Unit) : Prop extends WriteAhead db where
  apart : Lsm.Apart db.shards
  fresh : ∀ shardId, db.mgr.storage.shard? shardId = none →
    Lsm.Twin id (.new blockSize) (db.shards.store shardId)
  shadowed : ∀ shardId store, db.mgr.storage.shard? shardId = some store →
    ∃ ρ s, Lsm.Shadow blockSize store.tableOption ρ s (db.shards.store shardId)
  logged : ∀ shardId store, db.mgr.storage.shard? shardId = some store →
    (db.shards.stores shardId).history.map Lsm.Event.version ++
      ((db.shards.stores shardId).pcs ()).pending.map Lsm.WriteEntry.version =
        (db.records store).map Lsm.WriteEntry.version

variable {db db' : Database Unit} {blockSize : ℕ}

namespace Logged

theorem init (blockSize : ℕ) : Logged blockSize (.new blockSize) where
  toWriteAhead := .init blockSize
  apart := .init blockSize
  fresh _ _ := .init blockSize
  shadowed shardId store h := absurd h (by rintro ⟨⟩)
  logged shardId store h := absurd h (by rintro ⟨⟩)

theorem untouched_of_none (h : Logged blockSize db) {shardId : ShardId}
    (hnone : db.mgr.storage.shard? shardId = none) :
    (db.shards.stores shardId).history = [] ∧ (db.shards.stores shardId).pcs () = .idle := by
  have htwin := h.fresh shardId hnone
  have hpcs : (db.shards.store shardId).pcs () = .idle := by
    rw [htwin.view]
    rfl
  exact ⟨htwin.history_eq, hpcs⟩

theorem creates (h : Logged blockSize db) {shardId : ShardId} {mgr : MetaManager}
    (hgrows : Grows shardId db.mgr.storage mgr.storage) : Logged blockSize { db with mgr } where
  toWriteAhead := h.toWriteAhead.creates hgrows
  apart := h.apart
  fresh shardId hnone := by
    rcases hgrows.cases shardId with hsame | ⟨hold, -⟩
    · exact h.fresh shardId (hsame ▸ hnone)
    · exact h.fresh shardId hold
  shadowed shardId store hstore := by
    rcases hgrows.cases shardId with hsame | ⟨hold, -⟩
    · exact h.shadowed shardId store (hsame ▸ hstore)
    · exact ⟨id, .new blockSize, .start, .init blockSize, h.fresh shardId hold⟩
  logged shardId store hstore := by
    rcases hgrows.cases shardId with hsame | ⟨hold, tableOption, wal, hnew⟩
    · exact h.logged shardId store (hsame ▸ hstore)
    · obtain rfl := Option.some.inj (hstore.symm.trans hnew)
      have hrecords := h.records_of_none ⟨tableOption, shardId, wal⟩ hold
      obtain ⟨hhistory, hidle⟩ := h.untouched_of_none hold
      change _ ++ _ = (db.records ⟨tableOption, shardId, wal⟩).map Lsm.WriteEntry.version
      rw [hrecords, hhistory, hidle]
      rfl

theorem runs (h : Logged blockSize db) (hroom : Lsm.HasRoom db.shards.diskManager)
    {shardId : ShardId} {store : LsmStore} {l : Lsm.Label Unit}
    (hstore : db.mgr.storage.shard? shardId = some store)
    (hstep : db.inShard store l = some db') : Logged blockSize db' := by
  obtain rfl := h.named shardId store hstore
  have hahead := h.toWriteAhead.runs hstore hstep
  obtain ⟨shards, hshards, rfl⟩ := Option.map_eq_some_iff.mp hstep
  refine ⟨hahead, h.apart.step hroom hshards, fun other hnone => ?_, fun other found hfound => ?_,
    fun other found hfound => ?_⟩
  · have hne : other ≠ store.shardId := by
      rintro rfl
      exact absurd (hstore.symm.trans hnone) (by rintro ⟨⟩)
    exact (h.fresh other hnone).otherStep h.apart hroom hne hshards
  · obtain ⟨ρ, s, hshadow⟩ := h.shadowed other found hfound
    by_cases hid : other = store.shardId
    · subst hid
      obtain rfl := Option.some.inj (hstore.symm.trans hfound)
      obtain ⟨ρ', s', hs', htwin⟩ := hshadow.twin.shardStep hshadow.alone h.apart hroom hshards
      have hroom' := hshadow.twin.hasRoom hroom
      exact ⟨ρ', s', hshadow.reaches.next hroom' hs', hshadow.alone.step hroom' hs', htwin⟩
    · exact ⟨ρ, s, hshadow.reaches, hshadow.alone,
        hshadow.twin.otherStep h.apart hroom hid hshards⟩
  · obtain ⟨s', hs', rfl⟩ := Lsm.Shards.step_eq_some hshards
    by_cases hid : other = store.shardId
    · subst hid
      obtain rfl := Option.some.inj (hstore.symm.trans hfound)
      have hlogged := Lsm.logged_step (s := db.shards.store store.shardId)
        (h.logged _ store hstore) hs'
      rw [records_self]
      simp only [Function.update_self]
      exact hlogged
    · have hname := h.named other found hfound
      rw [records_other (by rwa [hname])]
      simpa [hid] using h.logged other found hfound

end Logged

/-- There are file ids left at every step of the run. -/
def RoomThroughout (rs : List (Request Unit)) (db : Database Unit) : Prop :=
  Disciplined Database.step (fun db _ => Lsm.HasRoom db.shards.diskManager) rs db

theorem Logged.step (h : Logged blockSize db) {r : Request Unit}
    (hroom : Lsm.HasRoom db.shards.diskManager) (hstep : db.step r = some db') :
    Logged blockSize db' := by
  cases step_did hstep with
  | creates mgr hgrows => exact h.creates hgrows
  | runs hstore hstep => exact h.runs hroom hstore hstep

theorem logged_of_execute {rs : List (Request Unit)} (hroom : RoomThroughout rs (.new blockSize))
    (hexec : execute Database.step rs (.new blockSize) = some db) : Logged blockSize db := by
  exact (Reaches.start.of_execute hroom hexec).invariant (.init blockSize) fun h hroom hstep =>
    h.step hroom hstep

/-- The scans of the table show the map, over every range and in both directions. -/
def Shows (fuel : ℕ) (db : Database Unit) (name : String)
    (contents : SortedMap Bytes (Entry Bytes)) : Prop :=
  ∀ range d, ∃ scan, db.scan fuel name range d = .ok scan ∧
    scan.Yields (d.order (contents.entries.filter fun e => range.contains e.1))

theorem scan_eq {fuel : ℕ} {name : String} {shard : ShardMeta} {store : LsmStore}
    (hname : db.mgr.shardFor name = .ok shard)
    (hstore : db.acquire shard.engine shard.shardId = .ok store) (range : Lsm.ScanRange)
    (d : Direction) : db.scan fuel name range d =
      Lsm.openScan fuel (db.shards.store store.shardId).disk (db.shards.store store.shardId).mems
        (db.shards.store store.shardId).state range d := by
  simp only [Database.scan, hname, hstore]
  rfl

theorem Logged.shows_iff (h : Logged blockSize db) {fuel : ℕ} {name : String} {shard : ShardMeta}
    {store : LsmStore} (hname : db.mgr.shardFor name = .ok shard)
    (hstore : db.acquire shard.engine shard.shardId = .ok store)
    (hidle : (db.shards.stores store.shardId).pcs () = .idle) (hsize : blockSize < 2 ^ 32)
    (hpairs : ∀ a ∈ db.records store, ∀ b ∈ db.records store,
      indexFull ⟨blockSize⟩ [a.key] b.key = false)
    (hfuel : (db.shards.stores store.shardId).state.immMemtables.length +
      (db.shards.stores store.shardId).state.l0.length + 1 < fuel) :
    Shows fuel db name (.ofList ((db.records store).map Lsm.WriteEntry.version)) ↔
      (∀ sst ∈ (db.shards.stores store.shardId).state.l0, OneIndexBlock ⟨blockSize⟩ sst.entries) ∧
        Lsm.ScansOnce (db.shards.stores store.shardId) := by
  have hfound := acquire_eq_ok.mp hstore
  rw [← h.named _ _ hfound] at hfound
  obtain ⟨ρ, s, hshadow⟩ := h.shadowed _ _ hfound
  have hrests := hshadow.rests hidle (h.logged _ _ hfound)
  have hwritten : Lsm.written [.write () (db.records store)] = db.records store := by
    simp [Lsm.written, Lsm.Label.batch]
  have hshows : Shows fuel db name (.ofList ((db.records store).map Lsm.WriteEntry.version)) ↔
      Lsm.Refines fuel [.write () (db.records store)] s := by
    refine forall₂_congr fun range d => exists_congr fun scan => ?_
    rw [scan_eq hname hstore, ← hshadow.twin.openScan_agree fuel range d scan, Lsm.lastWrites,
      hwritten]
  have hl0 : s.state.l0.length = (db.shards.stores store.shardId).state.l0.length := by
    have hentries := congrArg List.length hshadow.twin.l0_entries
    rw [List.length_map, List.length_map] at hentries
    exact hentries.symm
  have himm : s.state.immMemtables = (db.shards.stores store.shardId).state.immMemtables :=
    (congrArg Lsm.LsmState.immMemtables hshadow.twin.state_eq).symm
  rw [hshows, hrests.refines_iff hsize (by rwa [hwritten]) (by rwa [hl0, himm]), hrests.option_eq]
  exact and_congr hshadow.twin.forall_l0_entries.symm hshadow.twin.scansOnce_iff.symm

/-- While nobody is inside its shard, a table shows the last writes that the log of its group was
given for the shard, exactly when every file of the shard has one index block and no key is
repeated in the shard. -/
theorem table_shows_log_iff {fuel : ℕ} {rs : List (Request Unit)}
    (hroom : RoomThroughout rs (.new blockSize))
    (hexec : execute Database.step rs (.new blockSize) = some db)
    {name : String} {shard : ShardMeta} {store : LsmStore}
    (hname : db.mgr.shardFor name = .ok shard)
    (hstore : db.acquire shard.engine shard.shardId = .ok store)
    (hidle : (db.shards.stores store.shardId).pcs () = .idle) (hsize : blockSize < 2 ^ 32)
    (hpairs : ∀ a ∈ db.records store, ∀ b ∈ db.records store,
      indexFull ⟨blockSize⟩ [a.key] b.key = false)
    (hfuel : (db.shards.stores store.shardId).state.immMemtables.length +
      (db.shards.stores store.shardId).state.l0.length + 1 < fuel) :
    Shows fuel db name (.ofList ((db.records store).map Lsm.WriteEntry.version)) ↔
      (∀ sst ∈ (db.shards.stores store.shardId).state.l0, OneIndexBlock ⟨blockSize⟩ sst.entries) ∧
        Lsm.ScansOnce (db.shards.stores store.shardId) :=
  (logged_of_execute hroom hexec).shows_iff hname hstore hidle hsize hpairs hfuel

instance (rs : List (Request Unit)) (db : Database Unit) : Decidable (RoomThroughout rs db) :=
  inferInstanceAs (Decidable (Disciplined _ _ rs db))

/-- A write to a table, and its flush in the table's shard. -/
def fillAndFlush (name : String) (shardId : ShardId) (entry : Lsm.WriteEntry) :
    List (Request Unit) :=
  .write name () [entry] :: List.replicate 6 (.step shardId ()) ++
    .flush shardId () :: List.replicate 7 (.step shardId ())

/-- The append of the first write fails. -/
def failedAppend : List (Request Unit) :=
  [.createTable 0 "a" .lsmTree (.lsmTree ⟨0, 4⟩), .write "a" () [.put [1] [2]], .fail 0 ()] ++
    fillAndFlush "a" 0 (.put [3] [4])

/-- The name resolves to a shard that is at rest and can be scanned. -/
def scannable (db : Database Unit) (name : String) (id : ShardId) : Bool :=
  decide ((db.mgr.shardFor name).toOption = some (shardOf id)) &&
    ((db.shards.stores id).pcs ()).isIdle && (db.shards.stores id).state.immMemtables.isEmpty &&
    decide ((db.shards.stores id).state.l0.length = 1) &&
    decide (∀ sst ∈ (db.shards.stores id).state.l0, OneIndexBlock ⟨64⟩ sst.entries) &&
    decide (Lsm.ScansOnce (db.shards.stores id))

theorem of_scannable {name : String} {id : ShardId} (h : scannable db name id = true) :
    db.mgr.shardFor name = .ok (shardOf id) ∧ (db.shards.stores id).pcs () = .idle ∧
      (db.shards.stores id).state.immMemtables = [] ∧ (db.shards.stores id).state.l0.length = 1 ∧
      (∀ sst ∈ (db.shards.stores id).state.l0, OneIndexBlock ⟨64⟩ sst.entries) ∧
      Lsm.ScansOnce (db.shards.stores id) := by
  simp only [scannable, Bool.and_eq_true, decide_eq_true_eq, List.isEmpty_iff] at h
  obtain ⟨⟨⟨⟨⟨hname, hidle⟩, himm⟩, hl0⟩, hblocks⟩, honce⟩ := h
  refine ⟨?_, Lsm.Pc.eq_idle hidle, himm, hl0, hblocks, honce⟩
  cases hshard : db.mgr.shardFor name with
  | error err => simp [hshard, Except.toOption] at hname
  | ok shard =>
      rw [hshard] at hname
      exact congrArg Except.ok (Option.some.inj hname)

theorem table_shows_log_failed : ∃ (db : Database Unit) (store : LsmStore),
    db.records store = [.put [3] [4]] ∧ Shows 3 db "a" (.ofList [([3], .put [4])]) := by
  have hrun : (execute Database.step failedAppend (.new 64)).any (fun db =>
      ((db.mgr.storage.shard? 0).any fun store => store.shardId = 0 ∧ store.wal = 0) &&
        decide (db.logs 0 = [⟨0, [.put [3] [4]]⟩]) && scannable db "a" 0) = true := by
    decide +kernel
  obtain ⟨db, hdb, hobs⟩ := (Option.any_eq_true ..).mp hrun
  simp only [Bool.and_eq_true, Option.any_eq_true, decide_eq_true_eq] at hobs
  obtain ⟨⟨⟨store, hstore, hid, hwal⟩, hlogs⟩, hscannable⟩ := hobs
  obtain ⟨hname, hidle, himm, hl0, hblocks, honce⟩ := of_scannable hscannable
  have hrecords : db.records store = [.put [3] [4]] := by
    rw [Database.records, hid, hwal, hlogs]
    rfl
  have hshows : Shows 3 db "a" (.ofList ((db.records store).map Lsm.WriteEntry.version)) :=
    (table_shows_log_iff (by decide +kernel) hdb hname (acquire_eq_ok.mpr hstore) (by rwa [hid])
      (by decide) (by rw [hrecords]; decide) (by rw [hid, himm, hl0]; decide)).mpr
      (by rw [hid]; exact ⟨hblocks, honce⟩)
  rw [hrecords] at hshows
  exact ⟨db, store, hrecords, hshows⟩

/-! ## What clients sent -/

/-- What clients expect of their tables: a name stands for what was written under it since the
table was created. -/
structure Tables where
  groups : RgId → Bool
  sent : String → Option (List Lsm.WriteBatch)

namespace Tables

def new : Tables := ⟨fun rgId => rgId = MetaManager.defaultRg, fun _ => none⟩

def step (self : Tables) : Request Unit → Tables
  | .createReplicationGroup rgId _ => { self with groups := Function.update self.groups rgId true }
  | .createTable rgId name _ _ =>
      if self.groups rgId then { self with sent := Function.update self.sent name (some []) }
      else self
  | .write name _ batch =>
      { self with
        sent := Function.update self.sent name ((self.sent name).map fun batches => batches ++ [batch]) }
  | _ => self

def after (rs : List (Request Unit)) : Tables := rs.foldl step new

end Tables

/-- There is a file id and a shard number left, and no append to a log fails. -/
def Steady (db : Database Unit) (r : Request Unit) : Prop :=
  Lsm.HasRoom db.shards.diskManager ∧
    match r with
    | .createTable _ _ _ _ => db.mgr.nextShardId.toNat + 1 < 2 ^ 64
    | .fail shardId _ => ((db.shards.stores shardId).pcs ()).unlogged = none
    | _ => True

instance Steady.instDecidable (db : Database Unit) (r : Request Unit) : Decidable (Steady db r) := by
  unfold Steady
  induction r using Request.casesOn with
  | createTable _ _ _ _ => exact inferInstanceAs (Decidable (_ ∧ _ < _))
  | fail shardId _ =>
      exact inferInstanceAs (Decidable (_ ∧ ((db.shards.stores shardId).pcs ()).unlogged = none))
  | _ => exact inferInstanceAs (Decidable (_ ∧ True))

/-- The database has for every name what its clients expect. -/
structure Serves (db : Database Unit) (tables : Tables) : Prop where
  consistent : ∃ first, Consistent ⟨db.mgr, first⟩
  groups : ∀ rgId, tables.groups rgId = (db.mgr.rgMeta rgId).isSome
  below : ∀ name id, db.mgr.tableToId name = some id → id.toNat < db.mgr.nextShardId.toNat
  distinct : ∀ a b id, db.mgr.tableToId a = some id → db.mgr.tableToId b = some id → a = b
  unused : ∀ id, db.mgr.nextShardId.toNat ≤ id.toNat → db.mgr.storage.shard? id = none
  created : ∀ name, (tables.sent name).isSome = (db.mgr.tableToId name).isSome
  sent : ∀ name id store batches, db.mgr.tableToId name = some id →
    db.mgr.storage.shard? id = some store → tables.sent name = some batches →
      db.records store ++ (((db.shards.stores id).pcs ()).unlogged).getD [] = batches.flatten

namespace Serves

variable {tables : Tables}

theorem init (blockSize : ℕ) : Serves (.new blockSize) .new where
  consistent := ⟨fun _ => none, consistent_new rfl⟩
  groups rgId := by
    by_cases hrg : rgId = MetaManager.defaultRg
    · subst hrg
      rfl
    · simp [Tables.new, Database.new, MetaManager.new, MetaManager.createReplicationGroup, hrg]
  below name id h := absurd h (by rintro ⟨⟩)
  distinct a b id h := absurd h (by rintro ⟨⟩)
  unused _ _ := rfl
  created _ := rfl
  sent name id store batches h := absurd h (by rintro ⟨⟩)

/-- A table's shard is there. -/
theorem exists_shard (h : Serves db tables) {name : String} {id : TableId}
    (hname : db.mgr.tableToId name = some id) : ∃ store, db.mgr.storage.shard? id = some store := by
  obtain ⟨first, hconsistent⟩ := h.consistent
  obtain ⟨eng, heng, hheld⟩ := hconsistent.engine
  obtain ⟨store, hstore⟩ := Option.isSome_iff_exists.mp
    (hheld id (by rw [(hconsistent.table name id hname).2]; rfl))
  exact ⟨store, by rw [StorageLayer.shard?, heng, Option.bind_some, hstore]⟩

theorem createReplicationGroup (h : Serves db tables) (rgId : RgId) (rgOption : RgOption) :
    Serves { db with mgr := db.mgr.createReplicationGroup rgId rgOption }
      (tables.step (.createReplicationGroup rgId rgOption)) := by
  obtain ⟨first, hconsistent⟩ := h.consistent
  have hconsistent' := hconsistent.createReplicationGroup rgId rgOption
  by_cases hrg : (db.mgr.rgMeta rgId).isSome
  · have hmgr : db.mgr.createReplicationGroup rgId rgOption = db.mgr := if_pos hrg
    rw [hmgr]
    have hgroups : Function.update tables.groups rgId true = tables.groups := by
      rw [Function.update_eq_self_iff, h.groups, hrg]
    exact ⟨h.consistent, fun other => (congrFun hgroups other).trans (h.groups other), h.below,
      h.distinct, h.unused, h.created, h.sent⟩
  · have hmgr : db.mgr.createReplicationGroup rgId rgOption =
        { db.mgr with
          storage := db.mgr.storage.createReplicationGroup rgId
          rgMeta := Function.update db.mgr.rgMeta rgId (some ⟨rgId, rgOption.rf, []⟩) } := if_neg hrg
    rw [hmgr] at hconsistent' ⊢
    refine ⟨⟨first, hconsistent'⟩, fun other => ?_, h.below, h.distinct, h.unused, h.created, h.sent⟩
    by_cases hother : other = rgId
    · simp [Tables.step, hother]
    · simpa [Tables.step, hother] using h.groups other

/-- A new table is empty, under a shard number that no other has. -/
theorem allocated (h : Serves db tables) (hlogged : Logged blockSize db) {rgId : RgId}
    {name : String} {tableOption : TableOption} {eng : LsmEngine}
    {first : String → Option ShardMeta}
    (hconsistent : Consistent ⟨db.mgr.allocated rgId name tableOption eng, first⟩)
    (hgrows : Grows db.mgr.nextShardId db.mgr.storage
      (db.mgr.allocated rgId name tableOption eng).storage)
    (hnext : db.mgr.nextShardId.toNat + 1 < 2 ^ 64) :
    Serves { db with mgr := db.mgr.allocated rgId name tableOption eng }
      { tables with sent := Function.update tables.sent name (some []) } := by
  have hcounter : (db.mgr.nextShardId + 1).toNat = db.mgr.nextShardId.toNat + 1 := by
    rw [UInt64.toNat_add]
    exact Nat.mod_eq_of_lt hnext
  have hold : ∀ {other id}, other ≠ name →
      (db.mgr.allocated rgId name tableOption eng).tableToId other = some id →
        db.mgr.tableToId other = some id ∧ id ≠ db.mgr.nextShardId := by
    intro other id hne hid
    have hid' : db.mgr.tableToId other = some id := (Function.update_of_ne hne ..).symm.trans hid
    refine ⟨hid', ?_⟩
    rintro rfl
    exact absurd (h.below other _ hid') (lt_irrefl _)
  have hnew : ∀ {id}, (db.mgr.allocated rgId name tableOption eng).tableToId name = some id →
      id = db.mgr.nextShardId := by
    intro id hid
    have hid' : Function.update db.mgr.tableToId name (some db.mgr.nextShardId) name = some id := hid
    rw [Function.update_self] at hid'
    exact (Option.some.inj hid').symm
  have hnone := h.unused db.mgr.nextShardId le_rfl
  refine ⟨⟨first, hconsistent⟩, h.groups, fun other id hid => ?_, fun a b id ha hb => ?_,
    fun id hle => ?_, fun other => ?_, fun other id store batches hid hstore hbatches => ?_⟩
  · change id.toNat < (db.mgr.nextShardId + 1).toNat
    rw [hcounter]
    by_cases hother : other = name
    · subst hother
      rw [hnew hid]
      exact Nat.lt_succ_self _
    · exact (h.below other id (hold hother hid).1).trans (Nat.lt_succ_self _)
  · by_cases hname : a = name
    · by_contra hne
      exact (hold (hname ▸ Ne.symm hne) hb).2 (hnew (hname ▸ ha))
    · by_cases hname' : b = name
      · exact absurd (hnew (hname' ▸ hb)) (hold hname ha).2
      · exact h.distinct a b id (hold hname ha).1 (hold hname' hb).1
  · change (db.mgr.nextShardId + 1).toNat ≤ id.toNat at hle
    rw [hcounter] at hle
    have hne : id ≠ db.mgr.nextShardId := by
      rintro rfl
      exact absurd hle (Nat.not_succ_le_self _)
    exact (hgrows.other id hne).trans (h.unused id (Nat.le_of_succ_le hle))
  · by_cases hother : other = name
    · simp [MetaManager.allocated, hother]
    · simpa [MetaManager.allocated, hother] using h.created other
  · by_cases hother : other = name
    · subst hother
      obtain rfl := hnew hid
      have hnamed := (hlogged.creates hgrows).named _ _ hstore
      have hrecords := hlogged.records_of_none store (hnamed ▸ hnone)
      simp only [Function.update_self, Option.some.injEq] at hbatches
      rw [(hlogged.untouched_of_none hnone).2, ← hbatches]
      exact (List.append_nil _).trans hrecords
    · obtain ⟨hid', hne⟩ := hold hother hid
      exact h.sent other id store batches hid' ((hgrows.other id hne).symm.trans hstore)
        (by simpa [hother] using hbatches)

theorem createTable (h : Serves db tables) (hlogged : Logged blockSize db) {rgId : RgId}
    {name : String} {engine : Engine} {tableOption : TableOption}
    (hnext : db.mgr.nextShardId.toNat + 1 < 2 ^ 64) :
    Serves { db with mgr := (db.mgr.createTable rgId name engine tableOption).state }
      (tables.step (.createTable rgId name engine tableOption)) := by
  obtain ⟨first, hconsistent⟩ := h.consistent
  have hgrows := createTable_grows db.mgr rgId name engine tableOption
  rcases hconsistent.createTable_cases rgId name engine tableOption with
    ⟨hrg, err, hfail⟩ | ⟨hrg, eng, store, hdone, hstore, hheld⟩
  · have hgroup : tables.groups rgId = false := by rw [h.groups, hrg]; rfl
    simp only at hfail
    simpa [hfail, Ran.fail, Tables.step, hgroup] using h
  · have hgroup : tables.groups rgId = true := by
      rw [h.groups]
      exact Option.isSome_iff_ne_none.mpr hrg
    simp only at hdone
    rw [hdone] at hgrows ⊢
    rw [Tables.step, if_pos hgroup]
    have hconsistent' : Consistent ⟨db.mgr.allocated rgId name tableOption eng, Function.update first
        name (some ((first name).getD (shardOf db.mgr.nextShardId)))⟩ :=
      hconsistent.allocated hstore hheld (Function.update_self ..) fun other hne =>
        Function.update_of_ne hne ..
    exact h.allocated hlogged hconsistent' hgrows hnext

/-- A step inside a shard, which only the table of that shard notices. -/
theorem inShard (h : Serves db tables) (hlogged : Logged blockSize db) {shardId : ShardId}
    {store : LsmStore} {l : Lsm.Label Unit} {tables' : Tables}
    (hstore : db.mgr.storage.shard? shardId = some store) (hstep : db.inShard store l = some db')
    (hok : l = .fail () → ((db.shards.stores shardId).pcs ()).unlogged = none)
    (hgroups : tables'.groups = tables.groups)
    (hcreated : ∀ name, (tables'.sent name).isSome = (tables.sent name).isSome)
    (hself : ∀ name batches batches', db.mgr.tableToId name = some shardId →
      tables.sent name = some batches → tables'.sent name = some batches' →
        batches'.flatten = batches.flatten ++ l.batch)
    (hother : ∀ name, db.mgr.tableToId name ≠ some shardId → tables'.sent name = tables.sent name) :
    Serves db' tables' := by
  obtain rfl := hlogged.named _ _ hstore
  obtain ⟨s', hs', rfl⟩ := inShard_eq_some hstep
  have hlog := Lsm.unlogged_step (s := db.shards.store store.shardId) hok hs'
  refine ⟨h.consistent, fun rgId => hgroups ▸ h.groups rgId, h.below, h.distinct, h.unused,
    fun name => (hcreated name).trans (h.created name),
    fun name id found batches' hid hfound hbatches' => ?_⟩
  by_cases hname : id = store.shardId
  · subst hname
    obtain rfl := Option.some.inj (hstore.symm.trans hfound)
    obtain ⟨batches, hbatches⟩ := Option.isSome_iff_exists.mp
      ((h.created name).trans (by rw [hid]; rfl) : (tables.sent name).isSome = true)
    rw [hself name batches batches' hid hbatches hbatches', records_self,
      ← h.sent name _ store batches hid hstore hbatches, List.append_assoc, List.append_assoc]
    simp only [Function.update_self]
    exact congrArg (db.records store ++ ·) hlog
  · have hne : db.mgr.tableToId name ≠ some store.shardId := by
      rw [hid]
      exact fun hsame => hname (Option.some.inj hsame)
    have hfoundId := hlogged.named _ _ hfound
    rw [records_other (by rwa [hfoundId])]
    simpa [hname] using h.sent name id found batches' hid hfound ((hother name hne).symm.trans hbatches')

theorem within (h : Serves db tables) (hlogged : Logged blockSize db) {shardId : ShardId}
    {l : Lsm.Label Unit} (hstep : db.within shardId l = some db') (hbatch : l.batch = [])
    (hok : l = .fail () → ((db.shards.stores shardId).pcs ()).unlogged = none) :
    Serves db' tables := by
  rw [Database.within] at hstep
  split at hstep
  · rename_i hstore
    refine h.inShard hlogged (acquire_eq_ok.mp hstore) hstep hok rfl (fun _ => rfl) ?_ fun _ _ => rfl
    intro name batches batches' _ hbatches hbatches'
    obtain rfl := Option.some.inj (hbatches.symm.trans hbatches')
    rw [hbatch, List.append_nil]
  · simp at hstep

theorem write (h : Serves db tables) (hlogged : Logged blockSize db) {name : String}
    {batch : Lsm.WriteBatch} (hstep : db.step (.write name () batch) = some db') :
    Serves db' (tables.step (.write name () batch)) := by
  obtain ⟨first, hconsistent⟩ := h.consistent
  rw [Database.step] at hstep
  cases hid : db.mgr.tableToId name with
  | none =>
      have hsent : tables.sent name = none := by
        have hcreated := h.created name
        rw [hid] at hcreated
        exact Option.isNone_iff_eq_none.mp (Option.isSome_eq_false_iff.mp hcreated)
      have htables : tables.step (.write name () batch) = tables := by
        rw [Tables.step, hsent, Option.map_none, Function.update_eq_self_iff.mpr hsent.symm]
      rw [htables]
      cases hshard : db.mgr.shardFor name with
      | error err =>
          rw [hshard] at hstep
          exact Option.some.inj hstep ▸ h
      | ok shard => exact absurd hshard (shardFor_ne_ok hid shard)
  | some id =>
      obtain ⟨store, hstore⟩ := h.exists_shard hid
      have hshard : db.mgr.shardFor name = .ok ⟨id, id, .lsmTree⟩ :=
        hconsistent.shardFor.mpr ⟨id, hid, rfl⟩
      simp only [hshard, acquire_eq_ok.mpr hstore] at hstep
      refine h.inShard hlogged hstore hstep (by rintro ⟨⟩) rfl (fun other => ?_) ?_ fun other hne => ?_
      · by_cases hother : other = name <;> simp [Tables.step, hother]
      · intro other batches batches' hid' hbatches hbatches'
        obtain rfl := h.distinct other name id hid' hid
        rw [Tables.step, hbatches] at hbatches'
        simp only [Option.map_some, Function.update_self, Option.some.injEq] at hbatches'
        rw [← hbatches', List.flatten_append, List.flatten_singleton]
        rfl
      · have hother : other ≠ name := by
          rintro rfl
          exact hne hid
        simp [Tables.step, hother]

theorem step (h : Serves db tables) (hlogged : Logged blockSize db) {r : Request Unit}
    (hok : Steady db r) (hstep : db.step r = some db') : Serves db' (tables.step r) := by
  cases r with
  | createReplicationGroup rgId rgOption =>
      exact Option.some.inj hstep ▸ h.createReplicationGroup rgId rgOption
  | createTable rgId name engine tableOption =>
      exact Option.some.inj hstep ▸ h.createTable hlogged hok.2
  | write name t batch => exact h.write hlogged hstep
  | flush shardId t => exact h.within hlogged hstep rfl (by rintro ⟨⟩)
  | step shardId t => exact h.within hlogged hstep rfl (by rintro ⟨⟩)
  | fail shardId t => exact h.within hlogged hstep rfl fun _ => hok.2

theorem execute {rs : List (Request Unit)} (h : Serves db tables) (hlogged : Logged blockSize db)
    (hok : Disciplined Database.step Steady rs db)
    (hexec : execute Database.step rs db = some db') :
    Logged blockSize db' ∧ Serves db' (rs.foldl Tables.step tables) := by
  induction rs generalizing db tables with
  | nil => exact Option.some.inj hexec ▸ ⟨hlogged, h⟩
  | cons r rs ih =>
      obtain ⟨mid, hmid, hrest⟩ := Option.bind_eq_some_iff.mp hexec
      exact ih (h.step hlogged hok.1 hmid) (hlogged.step hok.1.1 hmid) (hok.2 mid hmid) hrest

end Serves

/-- A table is filled, created again and filled with another key. -/
def createdAgain : List (Request Unit) :=
  .createTable 0 "a" .lsmTree (.lsmTree ⟨0, 4⟩) :: fillAndFlush "a" 0 (.put [1] [2]) ++
    .createTable 0 "a" .lsmTree (.lsmTree ⟨0, 4⟩) :: fillAndFlush "a" 1 (.put [3] [4])

end Todb.Meta

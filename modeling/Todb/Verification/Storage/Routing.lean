import Todb.Library.Machine
import Todb.Model.Storage.MetaManager

/-! # Routing of tables to shards

Every name that was created is expected to stay with the shard its first creation allocated. It
does in every state of a run exactly when no name is created twice and no shard number comes
round again. -/

namespace Todb.Meta

open Library

/-! ## Runs -/

inductive Call
  | createReplicationGroup (rgId : RgId) (rgOption : RgOption)
  | createTable (rgId : RgId) (name : String) (engine : Engine) (tableOption : TableOption)

/-- The metadata, and the shard that the first successful creation of every name allocated. -/
structure Routed where
  mgr : MetaManager
  first : String → Option ShardMeta

namespace Routed

def new (storage : StorageLayer) : Routed := ⟨.new storage, fun _ => none⟩

def step (s : Routed) : Call → Option Routed
  | .createReplicationGroup rgId rgOption =>
      some { s with mgr := s.mgr.createReplicationGroup rgId rgOption }
  | .createTable rgId name engine tableOption =>
      let ran := s.mgr.createTable rgId name engine tableOption
      let shard : ShardMeta := ⟨s.mgr.nextTableId, s.mgr.nextShardId, engine⟩
      some
        { mgr := ran.state
          first :=
            match ran.result, s.first name with
            | .ok (), none => Function.update s.first name (some shard)
            | _, _ => s.first }

end Routed

/-- Reads and writes of the shard reach a store. -/
def StorageLayer.Holds (self : StorageLayer) (shard : ShardMeta) : Prop :=
  ∃ eng store, self.mapEngine shard.engine = .ok eng ∧ eng.acquire shard.shardId = .ok store

/-- Every created name resolves to its first shard, no two to the same one, and the shards
exist. -/
structure Stable (s : Routed) : Prop where
  resolves : ∀ name shard, s.first name = some shard → s.mgr.shardFor name = .ok shard
  distinct : ∀ a b shard shard', s.first a = some shard → s.first b = some shard' → a ≠ b →
    shard.shardId ≠ shard'.shardId
  held : ∀ name shard, s.first name = some shard → s.mgr.storage.Holds shard

/-- The call fails, or the shard it allocates belongs to no other name, and the name to no other
shard. -/
def Allocates (s : Routed) : Call → Prop
  | .createReplicationGroup _ _ => True
  | .createTable rgId name _ _ =>
      s.mgr.rgMeta rgId = none ∨
        ∀ other shard, s.mgr.shardFor other = .ok shard →
          (other = name ↔ shard.shardId = s.mgr.nextShardId)

/-! ## Consistency of the maps -/

/-- The maps agree with each other, with the storage layer and with the names created. The two
counters go together, so a table and its shard have the same number. -/
structure Consistent (s : Routed) : Prop where
  counters : s.mgr.nextTableId = s.mgr.nextShardId
  logs : ∀ rgId, (s.mgr.rgMeta rgId).isSome → s.mgr.storage.logService.stores rgId
  engine : ∃ eng, s.mgr.storage.engines .lsmTree = some eng ∧
    ∀ id, (s.mgr.shards id).isSome → (eng.shards id).isSome
  table : ∀ name id, s.mgr.tableToId name = some id → s.mgr.tableToShard id = some id ∧
    s.mgr.shards id = some ⟨id, id, .lsmTree⟩
  created : ∀ name, (s.first name).isSome = (s.mgr.tableToId name).isSome

variable {s : Routed}

theorem createRg_stores (logs : LogService) (rgId other : RgId) :
    (logs.createRg rgId).stores other = (logs.stores other || decide (other = rgId)) := by
  unfold LogService.createRg
  by_cases hrg : other = rgId
  · subst hrg
    cases hstore : logs.stores other <;> simp [hstore]
  · by_cases hstore : logs.stores rgId <;> simp [hstore, hrg]

theorem Consistent.createReplicationGroup (hI : Consistent s) (rgId : RgId)
    (rgOption : RgOption) :
    Consistent { s with mgr := s.mgr.createReplicationGroup rgId rgOption } := by
  unfold MetaManager.createReplicationGroup
  split
  · exact hI
  · refine ⟨hI.counters, fun other hother => ?_, hI.engine, hI.table, hI.created⟩
    simp only [StorageLayer.createReplicationGroup, createRg_stores]
    by_cases hsame : other = rgId
    · simp [hsame]
    · simp [hI.logs other (by simpa [hsame] using hother)]

theorem consistent_new {storage : StorageLayer} (h : (storage.engines .lsmTree).isSome) :
    Consistent (.new storage) := by
  obtain ⟨eng, heng⟩ := Option.isSome_iff_exists.mp h
  exact Consistent.createReplicationGroup
    (s := ⟨⟨storage, fun _ => none, fun _ => none, fun _ => none, fun _ => none, fun _ => none,
      fun _ => none, 0, 0⟩, fun _ => none⟩)
    ⟨rfl, nofun, ⟨eng, heng, nofun⟩, nofun, fun _ => rfl⟩ MetaManager.defaultRg {}

theorem shardFor_ne_ok {mgr : MetaManager} {name : String} (h : mgr.tableToId name = none)
    (shard : ShardMeta) : mgr.shardFor name ≠ .ok shard := by
  simp [MetaManager.shardFor, h]

/-- What a name resolves to. -/
theorem Consistent.shardFor (hI : Consistent s) {name : String} {shard : ShardMeta} :
    s.mgr.shardFor name = .ok shard ↔
      ∃ id, s.mgr.tableToId name = some id ∧ shard = ⟨id, id, .lsmTree⟩ := by
  unfold MetaManager.shardFor
  cases hname : s.mgr.tableToId name with
  | none => simp
  | some id =>
      obtain ⟨hshard, hmeta⟩ := hI.table name id hname
      simp [hshard, hmeta, eq_comm]

/-- With its log there, creating a shard succeeds. -/
theorem Consistent.createShard (hI : Consistent s) {rgId : RgId} (engine : Engine)
    (shardId : ShardId) (tableOption : TableOption) (hrg : (s.mgr.rgMeta rgId).isSome) :
    ∃ eng store, s.mgr.storage.createShard engine shardId rgId tableOption =
        .ok { s.mgr.storage with
          engines := Function.update s.mgr.storage.engines .lsmTree (some eng) } ∧
      eng.shards shardId = some store ∧
      ∀ id, (s.mgr.shards id).isSome → (eng.shards id).isSome := by
  cases engine
  obtain ⟨eng, heng, hheld⟩ := hI.engine
  have hlog := hI.logs rgId hrg
  simp only [StorageLayer.createShard, StorageLayer.mapEngine, heng, Ran.read_ok, LogService.get,
    hlog, ite_true]
  cases tableOption with
  | lsmTree option =>
      cases hshard : eng.shards shardId with
      | some store =>
          exact ⟨eng, store, by simp [LsmEngine.createShard, hshard], hshard, hheld⟩
      | none =>
          refine ⟨_, ⟨option, shardId, rgId⟩, rfl, by simp [LsmEngine.createShard, hshard], ?_⟩
          intro id hid
          by_cases hsame : id = shardId
          · simp [LsmEngine.createShard, hshard, hsame]
          · simpa [LsmEngine.createShard, hshard, hsame] using hheld id hid

/-- The metadata after a creation of a table, with the engine it leaves. -/
def MetaManager.allocated (mgr : MetaManager) (rgId : RgId) (name : String)
    (tableOption : TableOption) (eng : LsmEngine) : MetaManager :=
  let id := mgr.nextShardId
  { storage :=
      { mgr.storage with engines := Function.update mgr.storage.engines .lsmTree (some eng) }
    nextTableId := id + 1
    nextShardId := id + 1
    tableToId := Function.update mgr.tableToId name (some id)
    tableToShard := Function.update mgr.tableToShard id (some id)
    shardToRg := Function.update mgr.shardToRg id (some rgId)
    shards := Function.update mgr.shards id (some ⟨id, id, .lsmTree⟩)
    tableOptions := Function.update mgr.tableOptions id (some tableOption)
    rgMeta := mgr.rgMeta }

/-- A creation fails and changes nothing, or writes all the maps. -/
theorem Consistent.createTable_cases (hI : Consistent s) (rgId : RgId) (name : String)
    (engine : Engine) (tableOption : TableOption) :
    (s.mgr.rgMeta rgId = none ∧
      ∃ err, s.mgr.createTable rgId name engine tableOption = .fail err s.mgr) ∨
    s.mgr.rgMeta rgId ≠ none ∧ ∃ eng store,
      s.mgr.createTable rgId name engine tableOption =
        .ok (s.mgr.allocated rgId name tableOption eng) ∧
      eng.shards s.mgr.nextShardId = some store ∧
      ∀ id, (s.mgr.shards id).isSome → (eng.shards id).isSome := by
  cases hrg : s.mgr.rgMeta rgId with
  | none => exact .inl ⟨rfl, _, by rw [MetaManager.createTable, hrg]; rfl⟩
  | some group =>
      have hsome : (s.mgr.rgMeta rgId).isSome := by simp [hrg]
      obtain ⟨eng, store, hcreate, hstore, hheld⟩ :=
        hI.createShard engine s.mgr.nextShardId tableOption hsome
      refine .inr ⟨nofun, eng, store, ?_, hstore, hheld⟩
      cases engine
      rw [MetaManager.createTable, hrg]
      simp only [Option.isNone_some, Bool.false_eq_true, ite_false, hcreate, Ran.map_ok,
        hI.counters]
      rfl

/-! ## Steps -/

theorem Consistent.holds (hI : Consistent s) {name : String} {shard : ShardMeta}
    (h : s.mgr.shardFor name = .ok shard) : s.mgr.storage.Holds shard := by
  obtain ⟨id, hid, rfl⟩ := hI.shardFor.mp h
  obtain ⟨eng, heng, hheld⟩ := hI.engine
  obtain ⟨store, hstore⟩ :=
    Option.isSome_iff_exists.mp (hheld id (by simp [(hI.table name id hid).2]))
  exact ⟨eng, store, by simp [StorageLayer.mapEngine, heng],
    by simp [LsmEngine.acquire, hstore]⟩

/-- The shard of a table. -/
def shardOf (id : TableId) : ShardMeta := ⟨id, id, .lsmTree⟩

/-- Stability in terms of the table numbers: every name still has its first one, and no two
names have the same. -/
theorem Consistent.stable_iff (hI : Consistent s) :
    Stable s ↔ (∀ name, s.first name = (s.mgr.tableToId name).map shardOf) ∧
      ∀ a b id, s.mgr.tableToId a = some id → s.mgr.tableToId b = some id → a = b := by
  constructor
  · intro hP
    have hfirst : ∀ name, s.first name = (s.mgr.tableToId name).map shardOf := by
      intro name
      cases hname : s.first name with
      | none => simpa [hname] using hI.created name
      | some shard =>
          obtain ⟨id, hid, rfl⟩ := hI.shardFor.mp (hP.resolves name shard hname)
          rw [hid]
          rfl
    refine ⟨hfirst, fun a b id ha hb => ?_⟩
    by_contra hne
    exact hP.distinct a b (shardOf id) (shardOf id) (by rw [hfirst, ha]; rfl)
      (by rw [hfirst, hb]; rfl) hne rfl
  · rintro ⟨hfirst, hdistinct⟩
    have hid : ∀ {name shard}, s.first name = some shard →
        ∃ id, s.mgr.tableToId name = some id ∧ shard = shardOf id := by
      intro name shard hname
      obtain ⟨id, hid, rfl⟩ := Option.map_eq_some_iff.mp ((hfirst name).symm.trans hname)
      exact ⟨id, hid, rfl⟩
    refine ⟨fun name shard h => hI.shardFor.mpr (hid h), fun a b shard shard' ha hb hne hsame =>
      hne ?_, fun name shard h => hI.holds (hI.shardFor.mpr (hid h))⟩
    obtain ⟨id, hida, rfl⟩ := hid ha
    obtain ⟨id', hidb, rfl⟩ := hid hb
    obtain rfl : id = id' := hsame
    exact hdistinct a b id hida hidb

theorem createReplicationGroup_step {s' : Routed} {rgId : RgId} {rgOption : RgOption}
    (hI : Consistent s) (h : s.step (.createReplicationGroup rgId rgOption) = some s') :
    Consistent s' ∧ (Stable s → Stable s') := by
  obtain rfl := Option.some.inj h
  have hI' := hI.createReplicationGroup rgId rgOption
  refine ⟨hI', fun hP => hI'.stable_iff.mpr ?_⟩
  have hsame : (s.mgr.createReplicationGroup rgId rgOption).tableToId = s.mgr.tableToId := by
    unfold MetaManager.createReplicationGroup
    split <;> rfl
  simpa only [hsame] using hI.stable_iff.mp hP

/-- The state after a creation that succeeds. -/
theorem Consistent.allocated (hI : Consistent s) {rgId : RgId} {name : String}
    {tableOption : TableOption} {eng : LsmEngine} {store : LsmStore}
    (hstore : eng.shards s.mgr.nextShardId = some store)
    (hheld : ∀ id, (s.mgr.shards id).isSome → (eng.shards id).isSome)
    {first : String → Option ShardMeta}
    (hname : first name = some ((s.first name).getD (shardOf s.mgr.nextShardId)))
    (hother : ∀ other ≠ name, first other = s.first other) :
    Consistent ⟨s.mgr.allocated rgId name tableOption eng, first⟩ where
  counters := rfl
  logs := hI.logs
  engine := by
    refine ⟨eng, by simp [MetaManager.allocated], fun id hid => ?_⟩
    by_cases hsame : id = s.mgr.nextShardId
    · simp [hsame, hstore]
    · exact hheld id (by simpa [MetaManager.allocated, hsame] using hid)
  table other id hid := by
    by_cases hsame : id = s.mgr.nextShardId
    · simp [MetaManager.allocated, hsame]
    · have hne : other ≠ name := by
        rintro rfl
        exact hsame (by simpa [MetaManager.allocated, eq_comm] using hid)
      simpa [MetaManager.allocated, hsame] using
        hI.table other id (by simpa [MetaManager.allocated, hne] using hid)
  created other := by
    by_cases hsame : other = name
    · simp [MetaManager.allocated, hsame, hname]
    · simpa [hother other hsame, MetaManager.allocated, hsame] using hI.created other

/-- Such a state is stable if the number allocated was that of the name, and of no other. -/
theorem Stable.allocated_iff (hP : Stable s) (hI : Consistent s) {rgId : RgId} {name : String}
    {tableOption : TableOption} {eng : LsmEngine} {first : String → Option ShardMeta}
    (hI' : Consistent ⟨s.mgr.allocated rgId name tableOption eng, first⟩)
    (hname : first name = some ((s.first name).getD (shardOf s.mgr.nextShardId)))
    (hother : ∀ other ≠ name, first other = s.first other) :
    Stable ⟨s.mgr.allocated rgId name tableOption eng, first⟩ ↔
      ∀ other id, s.mgr.tableToId other = some id → (other = name ↔ id = s.mgr.nextShardId) := by
  obtain ⟨hfirst, hdistinct⟩ := hI.stable_iff.mp hP
  have hnew : (s.mgr.allocated rgId name tableOption eng).tableToId name =
      some s.mgr.nextShardId := Function.update_self ..
  have hold : ∀ other ≠ name, (s.mgr.allocated rgId name tableOption eng).tableToId other =
      s.mgr.tableToId other := fun other hne => Function.update_of_ne hne ..
  rw [hI'.stable_iff]
  dsimp only
  constructor
  · rintro ⟨hfirst', hdistinct'⟩ other id hid
    constructor
    · -- the name had a table, which must be the new one
      rintro rfl
      have hshard := hfirst' other
      rw [hname, hfirst, hid, hnew] at hshard
      exact congrArg ShardMeta.shardId (Option.some.inj hshard)
    · rintro rfl
      by_contra hne
      exact hne (hdistinct' other name _ ((hold other hne).trans hid) hnew)
  · intro halloc
    refine ⟨fun other => ?_, fun a b id ha hb => ?_⟩
    · by_cases hsame : other = name
      · subst hsame
        rw [hname, hfirst, hnew]
        cases hid : s.mgr.tableToId other with
        | none => rfl
        | some id => rw [(halloc other id hid).mp rfl]; rfl
      · rw [hother other hsame, hold other hsame, hfirst]
    · by_cases hsamea : a = name
      · subst hsamea
        by_contra hne
        rw [hold b (Ne.symm hne)] at hb
        rw [hnew, Option.some.injEq] at ha
        exact hne ((halloc b id hb).mpr ha.symm).symm
      · rw [hold a hsamea] at ha
        by_cases hsameb : b = name
        · subst hsameb
          rw [hnew, Option.some.injEq] at hb
          exact (halloc a id ha).mpr hb.symm
        · exact hdistinct a b id ha (hold b hsameb ▸ hb)

theorem Consistent.allocates_iff (hI : Consistent s) {rgId : RgId} {name : String}
    {engine : Engine} {tableOption : TableOption} (hrg : s.mgr.rgMeta rgId ≠ none) :
    Allocates s (.createTable rgId name engine tableOption) ↔
      ∀ other id, s.mgr.tableToId other = some id → (other = name ↔ id = s.mgr.nextShardId) := by
  simp only [Allocates, hrg, false_or]
  constructor
  · intro h other id hid
    exact h other (shardOf id) (hI.shardFor.mpr ⟨id, hid, rfl⟩)
  · intro h other shard hshard
    obtain ⟨id, hid, rfl⟩ := hI.shardFor.mp hshard
    exact h other id hid

theorem createTable_step {s' : Routed} {rgId : RgId} {name : String} {engine : Engine}
    {tableOption : TableOption} (hI : Consistent s)
    (h : s.step (.createTable rgId name engine tableOption) = some s') :
    Consistent s' ∧
      (Stable s → (Stable s' ↔ Allocates s (.createTable rgId name engine tableOption))) := by
  obtain rfl := Option.some.inj h
  rcases hI.createTable_cases rgId name engine tableOption with
    ⟨hrg, err, hfail⟩ | ⟨hrg, eng, store, hdone, hstore, hheld⟩
  · simp only [hfail, Ran.fail]
    exact ⟨hI, fun hP => iff_of_true hP (.inl hrg)⟩
  · cases engine
    simp only [hdone, Ran.ok, hI.counters]
    generalize hfirst : (match (Except.ok () : Except StorageError Unit), s.first name with
      | .ok (), none => Function.update s.first name _
      | _, _ => s.first) = first
    have hname : first name = some ((s.first name).getD (shardOf s.mgr.nextShardId)) := by
      cases hold : s.first name <;> simp [← hfirst, hold, shardOf]
    have hother : ∀ other ≠ name, first other = s.first other := by
      intro other hne
      cases hold : s.first name <;> simp [← hfirst, hold, hne]
    have hI' : Consistent ⟨s.mgr.allocated rgId name tableOption eng, first⟩ :=
      hI.allocated hstore hheld hname hother
    exact ⟨hI', fun hP => (hP.allocated_iff hI hI' hname hother).trans (hI.allocates_iff hrg).symm⟩

theorem routed_step {s' : Routed} {call : Call} (hI : Consistent s) (h : s.step call = some s') :
    Consistent s' ∧ (Stable s → (Stable s' ↔ Allocates s call)) := by
  cases call with
  | createReplicationGroup rgId rgOption =>
      obtain ⟨hI', hkeeps⟩ := createReplicationGroup_step hI h
      exact ⟨hI', fun hP => iff_of_true (hkeeps hP) trivial⟩
  | createTable rgId name engine tableOption => exact createTable_step hI h

/-- A run finds every name at its first shard after every call exactly when no call allocates
a shard to a name that has one or a shard that is taken. A creation that fails changes
nothing. -/
theorem routing_stable_iff (storage : StorageLayer) (hengine : (storage.engines .lsmTree).isSome)
    (calls : List Call) (s : Routed)
    (hrun : execute Routed.step calls (.new storage) = some s) :
    (Throughout Routed.step Stable calls (.new storage) ↔
        Disciplined Routed.step Allocates calls (.new storage)) ∧
      ∀ rgId name engine tableOption err,
        (s.mgr.createTable rgId name engine tableOption).result = .error err →
          (s.mgr.createTable rgId name engine tableOption).state = s.mgr := by
  have hnew := consistent_new hengine
  have hstable : Stable (.new storage) := ⟨nofun, nofun, nofun⟩
  refine ⟨throughout_iff_disciplined (fun hI h => (routed_step hI h).1)
    (fun hI hP h => (routed_step hI h).2 hP) hnew hstable hrun, ?_⟩
  intro rgId name engine tableOption err herr
  have hI := execute_invariant (fun hI h => (routed_step hI h).1) hnew hrun
  rcases hI.createTable_cases rgId name engine tableOption with
    ⟨-, e, hfail⟩ | ⟨-, eng, store, hdone, -⟩
  · rw [hfail]
    rfl
  · rw [hdone] at herr
    exact nomatch herr

/-- Two tables, and between them a creation in a group that does not exist yet. -/
def twoTables : List Call :=
  [.createTable 0 "a" .lsmTree (.lsmTree {}), .createTable 7 "b" .lsmTree (.lsmTree {}),
    .createReplicationGroup 7 {}, .createTable 7 "b" .lsmTree (.lsmTree {})]

theorem routing_stable_two :
    Throughout Routed.step Stable twoTables (.new .new) ∧
      ((execute Routed.step twoTables (.new .new)).map fun s =>
        (s.mgr.shardFor "a", s.mgr.shardFor "b")) =
          some (.ok ⟨0, 0, .lsmTree⟩, .ok ⟨1, 1, .lsmTree⟩) := by
  obtain ⟨s, hs⟩ := Option.isSome_iff_exists.mp
    (show (execute Routed.step twoTables (.new .new)).isSome from rfl)
  refine ⟨(routing_stable_iff .new rfl twoTables s hs).1.mpr ?_, rfl⟩
  -- nothing resolves before the first creation, and "a" alone before the last
  refine ⟨.inr nofun, fun _ h => ?_⟩
  obtain rfl := Option.some.inj h
  refine ⟨.inl rfl, fun _ h => ?_⟩
  obtain rfl := Option.some.inj h
  refine ⟨trivial, fun _ h => ?_⟩
  obtain rfl := Option.some.inj h
  refine ⟨.inr fun other shard hshard => ?_, fun _ _ => trivial⟩
  by_cases hother : other = "a"
  · subst hother
    obtain rfl : (⟨0, 0, .lsmTree⟩ : ShardMeta) = shard := Except.ok.inj hshard
    decide
  · exact absurd hshard (shardFor_ne_ok (Function.update_of_ne hother ..) shard)

/-- One name is created twice. -/
def sameNameTwice : List Call :=
  [.createTable 0 "t" .lsmTree (.lsmTree {}), .createTable 0 "t" .lsmTree (.lsmTree {})]

/-- The second creation succeeds and takes the name away from the first shard. -/
theorem table_moves_to_another_shard :
    ((execute Routed.step (sameNameTwice.take 1) (.new .new)).map fun s =>
        s.mgr.shardFor "t") = some (.ok ⟨0, 0, .lsmTree⟩) ∧
      ((execute Routed.step sameNameTwice (.new .new)).map fun s =>
        (s.first "t", s.mgr.shardFor "t")) =
          some (some ⟨0, 0, .lsmTree⟩, .ok ⟨1, 1, .lsmTree⟩) := by
  exact ⟨rfl, rfl⟩

end Todb.Meta

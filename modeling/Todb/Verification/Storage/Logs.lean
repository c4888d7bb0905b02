import Todb.Verification.Lsm.Alone
import Todb.Verification.Lsm.WriteAhead
import Todb.Verification.Storage.Routing

/-! # What the logs say about the shards

A `write` appends its batch to the log of the shard's group and then applies it to the shard. What
the log was given for a shard is compared with what is in the shard, and with what its scans show. -/

namespace Todb.Meta

open Library

/-! ## Steps of a database -/

def StorageLayer.shard? (self : StorageLayer) (shardId : ShardId) : Option LsmStore :=
  (self.engines .lsmTree).bind fun eng => eng.shards shardId

/-- What the log of a shard was given for it. -/
def Database.records {ι : Type} (self : Database ι) (store : LsmStore) : List Lsm.WriteEntry :=
  ((self.logs store.wal).filter fun record => record.shardId = store.shardId).flatMap
    LogRecord.batch

/-- Only the shard `shardId` is created, if it is not there. -/
structure Grows (shardId : ShardId) (storage storage' : StorageLayer) : Prop where
  here : storage'.shard? shardId = storage.shard? shardId ∨
    storage.shard? shardId = none ∧ ∃ tableOption wal,
      storage'.shard? shardId = some ⟨tableOption, shardId, wal⟩
  other : ∀ id ≠ shardId, storage'.shard? id = storage.shard? id

theorem Grows.refl (shardId : ShardId) (storage : StorageLayer) : Grows shardId storage storage :=
  ⟨.inl rfl, fun _ _ => rfl⟩

theorem Grows.cases {shardId : ShardId} {storage storage' : StorageLayer}
    (h : Grows shardId storage storage') (id : ShardId) :
    storage'.shard? id = storage.shard? id ∨
      storage.shard? id = none ∧ ∃ tableOption wal,
        storage'.shard? id = some ⟨tableOption, id, wal⟩ := by
  by_cases hid : id = shardId
  · subst hid
    exact h.here
  · exact .inl (h.other id hid)

theorem createShard_grows (storage : StorageLayer) (engine : Engine) (shardId : ShardId)
    (rgId : RgId) (tableOption : TableOption) :
    Grows shardId storage (storage.createShard engine shardId rgId tableOption).state := by
  cases engine
  rw [StorageLayer.createShard, StorageLayer.mapEngine]
  cases hengine : storage.engines .lsmTree with
  | none => exact .refl _ storage
  | some eng =>
      cases hlog : storage.logService.get rgId with
      | error err => exact .refl _ storage
      | ok wal =>
          cases tableOption with
          | lsmTree option =>
              simp only [Ran.read_ok, Ran.ok]
              refine ⟨?_, fun id hid => ?_⟩ <;>
                simp only [StorageLayer.shard?, Function.update_self, hengine, Option.bind_some,
                  LsmEngine.createShard] <;>
                cases hshard : eng.shards shardId
              · exact .inr ⟨rfl, option, wal, Function.update_self ..⟩
              · exact .inl hshard
              · exact Function.update_of_ne hid ..
              · rfl

theorem createTable_grows (mgr : MetaManager) (rgId : RgId) (name : String) (engine : Engine)
    (tableOption : TableOption) : Grows mgr.nextShardId mgr.storage
      (mgr.createTable rgId name engine tableOption).state.storage := by
  rw [MetaManager.createTable]
  split
  · exact .refl _ _
  · exact createShard_grows mgr.storage engine mgr.nextShardId rgId tableOption

theorem createReplicationGroup_grows (mgr : MetaManager) (rgId : RgId) (rgOption : RgOption)
    (shardId : ShardId) :
    Grows shardId mgr.storage (mgr.createReplicationGroup rgId rgOption).storage := by
  rw [MetaManager.createReplicationGroup]
  split <;> exact ⟨.inl rfl, fun _ _ => rfl⟩

variable {ι : Type} [DecidableEq ι] {db db' : Database ι}

omit [DecidableEq ι] in
theorem acquire_eq_ok {engine : Engine} {shardId : ShardId} {store : LsmStore} :
    db.acquire engine shardId = .ok store ↔ db.mgr.storage.shard? shardId = some store := by
  cases engine
  rw [Database.acquire, StorageLayer.mapEngine, StorageLayer.shard?]
  cases db.mgr.storage.engines .lsmTree with
  | none => simp [bind, Except.bind]
  | some eng =>
      simp only [bind, Except.bind, LsmEngine.acquire, Option.bind_some]
      cases eng.shards shardId <;> simp

/-- A step changes the metadata or goes on inside a shard. -/
inductive Did (db : Database ι) : Database ι → Prop
  | creates {shardId : ShardId} (mgr : MetaManager)
      (h : Grows shardId db.mgr.storage mgr.storage) : Did db { db with mgr }
  | runs {shardId : ShardId} {store : LsmStore} {l : Lsm.Label ι} {db' : Database ι}
      (hstore : db.mgr.storage.shard? shardId = some store)
      (hstep : db.inShard store l = some db') : Did db db'

theorem within_did {shardId : ShardId} {l : Lsm.Label ι} (h : db.within shardId l = some db') :
    Did db db' := by
  rw [Database.within] at h
  split at h
  · rename_i hstore
    exact .runs (acquire_eq_ok.mp hstore) h
  · simp at h

theorem step_did {r : Request ι} (h : db.step r = some db') : Did db db' := by
  cases r with
  | createReplicationGroup rgId rgOption =>
      exact Option.some.inj h ▸ .creates _ (createReplicationGroup_grows db.mgr rgId rgOption 0)
  | createTable rgId name engine tableOption =>
      exact Option.some.inj h ▸ .creates _ (createTable_grows db.mgr rgId name engine tableOption)
  | write name t batch =>
      rw [Database.step] at h
      split at h
      · exact Option.some.inj h ▸ .creates db.mgr (.refl 0 _)
      · split at h
        · exact Option.some.inj h ▸ .creates db.mgr (.refl 0 _)
        · rename_i hstore
          exact .runs (acquire_eq_ok.mp hstore) h
  | flush shardId t | step shardId t | fail shardId t => exact within_did h

/-- The state after a step inside a shard. -/
theorem inShard_eq_some {store : LsmStore} {l : Lsm.Label ι} (h : db.inShard store l = some db') :
    ∃ s', (db.shards.store store.shardId).step store.tableOption l = some s' ∧
      db' = { db with
        shards := ⟨s'.disk, Function.update db.shards.stores store.shardId s'⟩
        logs := Function.update db.logs store.wal (db.logs store.wal ++
          ((db.shards.store store.shardId).appends l).map (LogRecord.mk store.shardId)) } := by
  obtain ⟨shards, hshards, rfl⟩ := Option.map_eq_some_iff.mp h
  obtain ⟨s', hs', rfl⟩ := Lsm.Shards.step_eq_some hshards
  exact ⟨s', hs', rfl⟩

section Records

variable {store other : LsmStore} {batches : List Lsm.WriteBatch} {shards : Lsm.Shards ShardId ι}

omit [DecidableEq ι] in
theorem records_self :
    Database.records { db with
      shards, logs := Function.update db.logs store.wal (db.logs store.wal ++
        batches.map (LogRecord.mk store.shardId)) } store = db.records store ++ batches.flatten := by
  simp [Database.records, List.filter_map, Function.comp_def, List.flatMap_map]

omit [DecidableEq ι] in
theorem records_other (hne : other.shardId ≠ store.shardId) :
    Database.records { db with
      shards, logs := Function.update db.logs store.wal (db.logs store.wal ++
        batches.map (LogRecord.mk store.shardId)) } other = db.records other := by
  by_cases hwal : other.wal = store.wal
  · simp [Database.records, hwal, hne.symm]
  · simp [Database.records, hwal]

end Records

/-! ## Any number of threads -/

/-- Every shard's log has what is in the shard and what its threads are about to put there. -/
structure WriteAhead [Fintype ι] (db : Database ι) : Prop where
  named : ∀ shardId store, db.mgr.storage.shard? shardId = some store → store.shardId = shardId
  untouched : ∀ shardId, db.mgr.storage.shard? shardId = none →
    Lsm.Balanced (db.shards.stores shardId) []
  owned : ∀ rgId, ∀ record ∈ db.logs rgId, ∃ store,
    db.mgr.storage.shard? record.shardId = some store ∧ store.wal = rgId
  balanced : ∀ shardId store, db.mgr.storage.shard? shardId = some store →
    Lsm.Balanced (db.shards.stores shardId) (db.records store)

namespace WriteAhead

variable [Fintype ι]

omit [DecidableEq ι] in
theorem init (blockSize : ℕ) : WriteAhead (.new blockSize : Database ι) where
  named shardId store h := absurd h (by rintro ⟨⟩)
  untouched shardId _ := by
    simp [Lsm.Balanced, Database.new, Lsm.Shards.new, Lsm.Store.new, Lsm.Pc.pending]
  owned rgId record h := absurd h List.not_mem_nil
  balanced shardId store h := absurd h (by rintro ⟨⟩)

omit [DecidableEq ι] in
/-- No log has records of a shard that is not there. -/
theorem records_of_none (h : WriteAhead db) (store : LsmStore)
    (hnone : db.mgr.storage.shard? store.shardId = none) : db.records store = [] := by
  rw [Database.records, List.filter_eq_nil_iff.mpr, List.flatMap_nil]
  intro record hrecord hid
  obtain ⟨found, hfound, -⟩ := h.owned store.wal record hrecord
  rw [of_decide_eq_true hid] at hfound
  exact absurd (hnone.symm.trans hfound) (by rintro ⟨⟩)

omit [DecidableEq ι] in
theorem creates (h : WriteAhead db) {shardId : ShardId} {mgr : MetaManager}
    (hgrows : Grows shardId db.mgr.storage mgr.storage) : WriteAhead { db with mgr } where
  named shardId store hstore := by
    rcases hgrows.cases shardId with hsame | ⟨-, tableOption, wal, hnew⟩
    · exact h.named shardId store (hsame ▸ hstore)
    · exact Option.some.inj (hstore.symm.trans hnew) ▸ rfl
  untouched shardId hnone := by
    rcases hgrows.cases shardId with hsame | ⟨hold, -⟩
    · exact h.untouched shardId (hsame ▸ hnone)
    · exact h.untouched shardId hold
  owned rgId record hrecord := by
    obtain ⟨store, hstore, hwal⟩ := h.owned rgId record hrecord
    rcases hgrows.cases record.shardId with hsame | ⟨hold, -⟩
    · exact ⟨store, hsame.trans hstore, hwal⟩
    · exact absurd (hold.symm.trans hstore) (by rintro ⟨⟩)
  balanced shardId store hstore := by
    rcases hgrows.cases shardId with hsame | ⟨hold, tableOption, wal, hnew⟩
    · exact h.balanced shardId store (hsame ▸ hstore)
    · obtain rfl := Option.some.inj (hstore.symm.trans hnew)
      have hrecords := h.records_of_none ⟨tableOption, shardId, wal⟩ hold
      exact hrecords.symm ▸ h.untouched shardId hold

theorem runs (h : WriteAhead db) {shardId : ShardId} {store : LsmStore} {l : Lsm.Label ι}
    (hstore : db.mgr.storage.shard? shardId = some store)
    (hstep : db.inShard store l = some db') : WriteAhead db' := by
  obtain rfl := h.named shardId store hstore
  obtain ⟨s', hs', rfl⟩ := inShard_eq_some hstep
  refine ⟨h.named, fun other hnone => ?_, fun rgId record hrecord => ?_, fun other found hfound => ?_⟩
  · have hne : other ≠ store.shardId := by
      rintro rfl
      exact absurd (hstore.symm.trans hnone) (by rintro ⟨⟩)
    simpa [hne] using h.untouched other hnone
  · by_cases hwal : rgId = store.wal
    · subst hwal
      simp only [Function.update_self, List.mem_append, List.mem_map] at hrecord
      rcases hrecord with hrecord | ⟨batch, -, rfl⟩
      · exact h.owned _ record hrecord
      · exact ⟨store, hstore, rfl⟩
    · exact h.owned rgId record (by simpa [hwal] using hrecord)
  · by_cases hid : other = store.shardId
    · subst hid
      obtain rfl := Option.some.inj (hstore.symm.trans hfound)
      have hbalanced := Lsm.Balanced.step (s := db.shards.store store.shardId)
        (h.balanced _ store hstore) hs'
      rw [records_self]
      simpa using hbalanced
    · have hname := h.named other found hfound
      rw [records_other (by rwa [hname])]
      simpa [hid] using h.balanced other found hfound

end WriteAhead

/-- Both threads of a shard write the same key. The first to append is the last to apply. -/
def crossing : List (Request Bool) :=
  [.createTable 0 "t" .lsmTree (.lsmTree {}), .write "t" false [.put [1] [2]],
    .write "t" true [.put [1] [3]], .step 0 false, .step 0 true, .step 0 true, .step 0 true,
    .step 0 false, .step 0 false]

end Todb.Meta

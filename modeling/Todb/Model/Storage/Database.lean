import Todb.Model.Lsm.Shards
import Todb.Model.Storage.MetaManager

/-! # Tables with their contents

A client resolves a table to a shard and calls the storage layer with it; the call appends to the
log of the shard's replication group before it touches the shard. Creations run one at a time. -/

namespace Todb.Lsm

/-- What a step gives to the log: the append of a `write` that succeeds. -/
def Store.appends {ι : Type} (self : Store ι) : Label ι → List WriteBatch
  | .step t =>
      match self.pcs t with
      | .append batch => [batch]
      | _ => []
  | _ => []

end Todb.Lsm

namespace Todb.Meta

open Library

/-- `wal.append(shard_id, &batch)`. -/
structure LogRecord where
  shardId : ShardId
  batch : Lsm.WriteBatch
deriving DecidableEq

/-- The metadata, what is in the shards of the engine, and what the groups' logs were given. -/
structure Database (ι : Type) where
  mgr : MetaManager
  shards : Lsm.Shards ShardId ι
  logs : RgId → List LogRecord

inductive Request (ι : Type)
  | createReplicationGroup (rgId : RgId) (rgOption : RgOption)
  | createTable (rgId : RgId) (name : String) (engine : Engine) (tableOption : TableOption)
  /-- `write` on the shard that `shard_for` finds. -/
  | write (name : String) (t : ι) (batch : Lsm.WriteBatch)
  /-- The scheduler comes to the shard. -/
  | flush (shardId : ShardId) (t : ι)
  /-- A thread goes on in the shard that it called. -/
  | step (shardId : ShardId) (t : ι)
  | fail (shardId : ShardId) (t : ι)

namespace Database

variable {ι : Type} [DecidableEq ι]

def new (blockSize : ℕ) : Database ι := ⟨.new .new, .new blockSize, fun _ => []⟩

/-- `map_engine` and `LsmEngine::acquire`. -/
def acquire (self : Database ι) (engine : Engine) (shardId : ShardId) :
    Except StorageError LsmStore := do
  let eng ← self.mgr.storage.mapEngine engine
  eng.acquire shardId

/-- A step inside a shard. -/
def inShard (self : Database ι) (store : LsmStore) (l : Lsm.Label ι) : Option (Database ι) :=
  (self.shards.step (fun _ => store.tableOption) (store.shardId, l)).map fun shards =>
    { self with
      shards
      logs := Function.update self.logs store.wal (self.logs store.wal ++
        ((self.shards.stores store.shardId).appends l).map (LogRecord.mk store.shardId)) }

/-- A step of a thread that is inside a shard, or of the scheduler. -/
def within (self : Database ι) (shardId : ShardId) (l : Lsm.Label ι) : Option (Database ι) :=
  match self.acquire .lsmTree shardId with
  | .ok store => self.inShard store l
  | .error _ => none

/-- A call that cannot reach its shard returns an error. -/
def step (self : Database ι) : Request ι → Option (Database ι)
  | .createReplicationGroup rgId rgOption =>
      some { self with mgr := self.mgr.createReplicationGroup rgId rgOption }
  | .createTable rgId name engine tableOption =>
      some { self with mgr := (self.mgr.createTable rgId name engine tableOption).state }
  | .write name t batch =>
      match self.mgr.shardFor name with
      | .error _ => some self
      | .ok shard =>
          match self.acquire shard.engine shard.shardId with
          | .error _ => some self
          | .ok store => self.inShard store (.write t batch)
  | .flush shardId t => self.within shardId (.flush t)
  | .step shardId t => self.within shardId (.step t)
  | .fail shardId t => self.within shardId (.fail t)

/-- `StorageLayer::scan` on the shard that `shard_for` finds. -/
def scan (fuel : ℕ) (self : Database ι) (name : String) (range : Lsm.ScanRange) (d : Direction) :
    Outcome (Lsm.LsmScan (Lsm.MergedIter fuel)) :=
  match self.mgr.shardFor name with
  | .error err => .error (.err err)
  | .ok shard =>
      match self.acquire shard.engine shard.shardId with
      | .error err => .error (.err err)
      | .ok store =>
          Lsm.openScan fuel self.shards.diskManager (self.shards.stores store.shardId).mems
            (self.shards.stores store.shardId).state range d

end Database

end Todb.Meta

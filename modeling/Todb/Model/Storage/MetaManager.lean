import Todb.Library.Run
import Todb.Model.Lsm.State

/-! # Tables and shards

`MetaManager` names tables and allocates their shards, `StorageLayer` holds the engines and the
WAL of every replication group, `LsmEngine` holds the shards. Opening a WAL store succeeds. -/

namespace Todb.Meta

open Library

abbrev RgId := UInt64

abbrev ShardId := UInt64

abbrev TableId := UInt64

/-! ## Engines and logs -/

inductive Engine
  | lsmTree
deriving DecidableEq, Repr

/-- The `Debug` text. -/
def Engine.debug : Engine → String
  | .lsmTree => "LsmTree"

inductive TableOption
  | lsmTree (option : Lsm.LsmTableOption)

/-- What an `LsmStore` is built from; its contents are of no concern to the shard map. -/
structure LsmStore where
  tableOption : Lsm.LsmTableOption
  shardId : ShardId
  wal : RgId

structure LsmEngine where
  shards : ShardId → Option LsmStore

namespace LsmEngine

def new : LsmEngine := ⟨fun _ => none⟩

/-- `shards.entry(shard_id).or_insert_with(..)`. -/
def createShard (self : LsmEngine) (shardId : ShardId) (tableOption : TableOption) (wal : RgId) :
    LsmEngine :=
  let .lsmTree option := tableOption
  match self.shards shardId with
  | some _ => self
  | none => ⟨Function.update self.shards shardId (some ⟨option, shardId, wal⟩)⟩

def acquire (self : LsmEngine) (shardId : ShardId) : Except StorageError LsmStore :=
  match self.shards shardId with
  | some store => .ok store
  | none => .error (.notFound s!"shard {shardId}")

end LsmEngine

/-- The options of a replication group that its metadata keeps. -/
structure RgOption where
  rf : UInt32 := 1

structure LogService where
  stores : RgId → Bool

namespace LogService

def new : LogService := ⟨fun _ => false⟩

def createRg (self : LogService) (rgId : RgId) : LogService :=
  if self.stores rgId then self else ⟨Function.update self.stores rgId true⟩

/-- The WAL store is named by its group. -/
def get (self : LogService) (rgId : RgId) : Except StorageError RgId :=
  if self.stores rgId then .ok rgId else .error (.notFound s!"replication group {rgId}")

end LogService

structure StorageLayer where
  engines : Engine → Option LsmEngine
  logService : LogService

namespace StorageLayer

def new : StorageLayer := ⟨fun | .lsmTree => some .new, .new⟩

def mapEngine (self : StorageLayer) (engine : Engine) : Except StorageError LsmEngine :=
  match self.engines engine with
  | some e => .ok e
  | none => .error (.notFound s!"engine {engine.debug} not registered")

def createShard (self : StorageLayer) (engine : Engine) (shardId : ShardId) (rgId : RgId)
    (tableOption : TableOption) : Ran StorageError StorageLayer :=
  Ran.read (self.mapEngine engine) self fun eng =>
    Ran.read (self.logService.get rgId) self fun walStore =>
      .ok { self with
        engines := Function.update self.engines engine
          (some (eng.createShard shardId tableOption walStore)) }

def createReplicationGroup (self : StorageLayer) (rgId : RgId) : StorageLayer :=
  { self with logService := self.logService.createRg rgId }

end StorageLayer

/-! ## Metadata -/

structure ShardMeta where
  tableId : TableId
  shardId : ShardId
  engine : Engine
deriving DecidableEq

structure ReplicaGroup where
  rgId : RgId
  rf : UInt32
  members : List UInt64
deriving DecidableEq

structure MetaManager where
  storage : StorageLayer
  tableToId : String → Option TableId
  tableToShard : TableId → Option ShardId
  shards : ShardId → Option ShardMeta
  tableOptions : TableId → Option TableOption
  shardToRg : ShardId → Option RgId
  rgMeta : RgId → Option ReplicaGroup
  nextTableId : TableId
  nextShardId : ShardId

namespace MetaManager

def createReplicationGroup (self : MetaManager) (rgId : RgId) (rgOption : RgOption) :
    MetaManager :=
  if (self.rgMeta rgId).isSome then self
  else
    { self with
      storage := self.storage.createReplicationGroup rgId
      rgMeta := Function.update self.rgMeta rgId (some ⟨rgId, rgOption.rf, []⟩) }

/-- `DEFAULT_RG`. -/
def defaultRg : RgId := 0

def new (storage : StorageLayer) : MetaManager :=
  let mgr : MetaManager :=
    { storage
      tableToId := fun _ => none
      tableToShard := fun _ => none
      shards := fun _ => none
      tableOptions := fun _ => none
      shardToRg := fun _ => none
      rgMeta := fun _ => none
      nextTableId := 0
      nextShardId := 0 }
  mgr.createReplicationGroup defaultRg {}

/-- The maps are written before the shard is created. `fetch_add` wraps. -/
def createTable (self : MetaManager) (rgId : RgId) (name : String) (engine : Engine)
    (tableOption : TableOption) : Ran StorageError MetaManager :=
  if (self.rgMeta rgId).isNone then
    .fail (.notFound s!"replication group {rgId} not created") self
  else
    let tableId := self.nextTableId
    let shardId := self.nextShardId
    let self :=
      { self with
        nextTableId := tableId + 1
        nextShardId := shardId + 1
        tableToId := Function.update self.tableToId name (some tableId)
        tableToShard := Function.update self.tableToShard tableId (some shardId)
        shardToRg := Function.update self.shardToRg shardId (some rgId)
        shards := Function.update self.shards shardId (some ⟨tableId, shardId, engine⟩)
        tableOptions := Function.update self.tableOptions tableId (some tableOption) }
    (self.storage.createShard engine shardId rgId tableOption).map fun storage =>
      { self with storage }

def shardFor (self : MetaManager) (name : String) : Except StorageError ShardMeta :=
  match self.tableToId name with
  | none => .error (.notFound s!"table {name}")
  | some tableId =>
      match self.tableToShard tableId with
      | none => .error (.notFound s!"table {tableId}")
      | some shardId =>
          match self.shards shardId with
          | none => .error (.notFound s!"shard {shardId}")
          | some shard => .ok shard

def tableOption (self : MetaManager) (tableId : TableId) : Except StorageError TableOption :=
  match self.tableOptions tableId with
  | none => .error (.notFound s!"table_option {tableId}")
  | some option => .ok option

end MetaManager

end Todb.Meta

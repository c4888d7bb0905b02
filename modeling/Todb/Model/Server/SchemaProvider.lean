import Mathlib

/-! # Tables of the SQL schema

Providers are shared: a registered table is named by its place among all providers there are.
Fields and values of tables are parameters, and so is what Arrow and DataFusion say about
schemas. -/

namespace Todb.Server

inductive DataFusionError
  | execution (msg : String)
  | plan (msg : String)
  | notImplemented (msg : String)
  /-- A projection on a column that does not exist. -/
  | arrow (column : ℕ)
  /-- An error of an input. -/
  | external (msg : String)
deriving DecidableEq, Repr

inductive InsertOp
  | append
  | overwrite
  | replace
deriving DecidableEq, Repr

/-- `logically_equivalent_names_and_types`, the `Debug` text of the types of a schema, and the
`Display` text of an insert operation. -/
structure DataFusion (φ : Type) where
  equivalent : List φ → List φ → Bool
  types : List φ → String
  opName : InsertOp → String

structure RecordBatch (φ ν : Type) where
  schema : List φ
  rows : List (List ν)
deriving DecidableEq

namespace RecordBatch

variable {φ ν : Type}

def numRows (self : RecordBatch φ ν) : ℕ := self.rows.length

/-- The given columns; the first that does not exist is an error. -/
def project (self : RecordBatch φ ν) (projection : List ℕ) :
    Except DataFusionError (RecordBatch φ ν) :=
  match projection.find? fun i => decide (self.schema.length ≤ i) with
  | some i => .error (.arrow i)
  | none => .ok ⟨projection.filterMap (self.schema[·]?),
      self.rows.map fun row => projection.filterMap (row[·]?)⟩

end RecordBatch

/-! ## Providers -/

structure TodbTableProvider (φ ν : Type) where
  schema : List φ
  batches : List (RecordBatch φ ν)
deriving DecidableEq

/-- An input of an insert: batches, until it ends or fails. -/
abbrev BatchStream (φ ν : Type) := List (Except DataFusionError (RecordBatch φ ν))

namespace TodbTableProvider

variable {φ ν : Type}

def new (schema : List φ) : TodbTableProvider φ ν := ⟨schema, []⟩

def newWithData (schema : List φ) (batches : List (RecordBatch φ ν)) : TodbTableProvider φ ν :=
  ⟨schema, batches⟩

def rowCount (self : TodbTableProvider φ ν) : ℕ := (self.batches.map RecordBatch.numRows).sum

/-- The schema and the batches of the plan. A projection on a field that does not exist
panics, which is `none`. -/
def scan (self : TodbTableProvider φ ν) (projection : Option (List ℕ)) :
    Option (Except DataFusionError (List φ × List (RecordBatch φ ν))) :=
  match projection with
  | none => some (.ok (self.schema, self.batches))
  | some projection =>
      if projection.all fun i => decide (i < self.schema.length) then
        some ((self.batches.mapM (RecordBatch.project · projection)).map fun batches =>
          (projection.filterMap (self.schema[·]?), batches))
      else none

/-- The checks of `insert_into`. -/
def insertInto (df : DataFusion φ) (self : TodbTableProvider φ ν) (input : List φ)
    (insertOp : InsertOp) : Except DataFusionError Unit :=
  if !df.equivalent self.schema input then
    .error (.plan
      s!"Insert schema mismatch: expected {df.types self.schema}, got {df.types input}")
  else if insertOp ≠ .append then
    .error (.notImplemented s!"{df.opName insertOp} not supported for TodbTableProvider")
  else .ok ()

/-- The loop of `write_all`: the new batches and the number of their rows. -/
def collect : BatchStream φ ν → Except DataFusionError (List (RecordBatch φ ν) × ℕ)
  | [] => .ok ([], 0)
  | .error e :: _ => .error e
  | .ok batch :: data =>
      (collect data).map fun (newBatches, rowCount) =>
        (batch :: newBatches, batch.numRows + rowCount)

/-- `TodbSink::write_all`. -/
def writeAll (self : TodbTableProvider φ ν) (data : BatchStream φ ν) :
    Except DataFusionError ℕ × TodbTableProvider φ ν :=
  match collect data with
  | .error e => (.error e, self)
  | .ok (newBatches, rowCount) =>
      (.ok rowCount, { self with batches := self.batches ++ newBatches })

end TodbTableProvider

/-! ## The schema -/

/-- A shared provider (`Arc<dyn TableProvider>`). -/
abbrev TableRef := ℕ

structure TodbSchemaProvider where
  tables : String → Option TableRef
  systemTables : String → Option TableRef

namespace TodbSchemaProvider

def new : TodbSchemaProvider := ⟨fun _ => none, fun _ => none⟩

def registerSystemTable (name : String) (table : TableRef) (self : TodbSchemaProvider) :
    TodbSchemaProvider :=
  { self with systemTables := Function.update self.systemTables name (some table) }

/-- User tables come first. -/
def table (self : TodbSchemaProvider) (name : String) : Option TableRef :=
  match self.tables name with
  | some t => some t
  | none => self.systemTables name

def deregisterTable (name : String) (self : TodbSchemaProvider) :
    Option TableRef × TodbSchemaProvider :=
  (self.tables name, { self with tables := Function.update self.tables name none })

def tableExist (self : TodbSchemaProvider) (name : String) : Bool :=
  (self.tables name).isSome || (self.systemTables name).isSome

end TodbSchemaProvider

/-- All providers, and the schema. -/
structure World (φ ν : Type) where
  providers : List (TodbTableProvider φ ν)
  schema : TodbSchemaProvider

namespace World

variable {φ ν : Type}

def new : World φ ν := ⟨[], .new⟩

/-- The given provider is replaced by a new one with its schema. -/
def registerTable (self : World φ ν) (name : String) (table : TodbTableProvider φ ν) :
    Except DataFusionError (Option TableRef) × World φ ν :=
  if (self.schema.tables name).isSome then
    (.error (.execution s!"table already exists: {name}"), self)
  else
    (.ok (self.schema.tables name),
      { providers := self.providers ++ [.new table.schema]
        schema := { self.schema with
          tables := Function.update self.schema.tables name (some self.providers.length) } })

/-- An insert into a provider, planned and executed. -/
def insert (df : DataFusion φ) (self : World φ ν) (t : TableRef) (table : TodbTableProvider φ ν)
    (input : List φ) (insertOp : InsertOp) (data : BatchStream φ ν) :
    Except DataFusionError ℕ × World φ ν :=
  match table.insertInto df input insertOp with
  | .error e => (.error e, self)
  | .ok () =>
      let (result, table) := table.writeAll data
      (result, { self with providers := self.providers.set t table })

end World

/-- What clients of the schema do. Providers are passed on by reference. -/
inductive Op (φ ν : Type)
  | newWithData (schema : List φ) (batches : List (RecordBatch φ ν))
  | registerSystemTable (name : String) (table : TableRef)
  | registerTable (name : String) (table : TableRef)
  | deregisterTable (name : String)
  | insert (table : TableRef) (input : List φ) (insertOp : InsertOp) (data : BatchStream φ ν)

/-- One call. A reference is always to a provider that exists. -/
def World.step {φ ν : Type} (df : DataFusion φ) (self : World φ ν) : Op φ ν → Option (World φ ν)
  | .newWithData schema batches =>
      some { self with providers := self.providers ++ [.newWithData schema batches] }
  | .registerSystemTable name t =>
      (self.providers[t]?).map fun _ =>
        { self with schema := self.schema.registerSystemTable name t }
  | .registerTable name t => (self.providers[t]?).map fun table => (self.registerTable name table).2
  | .deregisterTable name => some { self with schema := (self.schema.deregisterTable name).2 }
  | .insert t input insertOp data =>
      (self.providers[t]?).map fun table => (self.insert df t table input insertOp data).2

end Todb.Server

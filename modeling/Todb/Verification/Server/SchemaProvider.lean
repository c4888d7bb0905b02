import Todb.Library.Machine
import Todb.Model.Server.SchemaProvider

/-! # The schema as a store of tables

What clients expect of the schema is carried along with it: the rows of every registered table
and the table behind every system name. The schema meets it in every state of a run exactly when
every registered provider is empty and no user table has the name of a system table. -/

namespace Todb.Server

open Library

variable {φ ν : Type}

/-! ## Expectations -/

def TodbTableProvider.rows (self : TodbTableProvider φ ν) : List (List ν) :=
  self.batches.flatMap RecordBatch.rows

/-- The rows a stream brings, up to its end. -/
def streamRows (data : BatchStream φ ν) : List (List ν) :=
  data.flatMap fun
    | .ok batch => batch.rows
    | .error _ => []

/-- The rows of every table, and the table behind every system name. -/
structure Expected (ν : Type) where
  rows : String → Option (List (List ν))
  system : String → Option TableRef

namespace Expected

def new : Expected ν := ⟨fun _ => none, fun _ => none⟩

/-- A registered table has the rows of the given one; an insert adds its rows to every name that
stands for the table it goes to. A call that fails changes nothing. -/
def step (df : DataFusion φ) (w : World φ ν) (e : Expected ν) : Op φ ν → Expected ν
  | .newWithData _ _ => e
  | .registerSystemTable name t => { e with system := Function.update e.system name (some t) }
  | .registerTable name t =>
      match w.providers[t]? with
      | none => e
      | some table =>
          match (w.registerTable name table).1 with
          | .error _ => e
          | .ok _ => { e with rows := Function.update e.rows name (some table.rows) }
  | .deregisterTable name => { e with rows := Function.update e.rows name none }
  | .insert t input insertOp data =>
      match w.providers[t]? with
      | none => e
      | some table =>
          match (w.insert df t table input insertOp data).1 with
          | .error _ => e
          | .ok _ =>
              { e with rows := fun name => (e.rows name).map fun rows =>
                  if w.schema.table name = some t then rows ++ streamRows data else rows }

end Expected

/-- The schema together with what is expected of it. -/
abbrev Observed (φ ν : Type) := World φ ν × Expected ν

def Observed.step (df : DataFusion φ) (s : Observed φ ν) (op : Op φ ν) : Option (Observed φ ν) :=
  (s.1.step df op).map fun w => (w, s.2.step df s.1 op)

def Observed.new : Observed φ ν := (.new, .new)

/-- The name scans these rows. -/
def World.Scans (w : World φ ν) (name : String) (rows : List (List ν)) : Prop :=
  ∃ t table batches, w.schema.table name = some t ∧ w.providers[t]? = some table ∧
    table.scan none = some (.ok (table.schema, batches)) ∧ batches.flatMap RecordBatch.rows = rows

/-- Every table scans the expected rows, and every system name stands for its table. -/
structure Faithful (s : Observed φ ν) : Prop where
  scans : ∀ name rows, s.2.rows name = some rows → s.1.Scans name rows
  resolves : ∀ name t, s.2.system name = some t → s.1.schema.table name = some t

/-- The call registers no rows, and leaves no user table with the name of a system table. -/
def Plain (s : Observed φ ν) : Op φ ν → Prop
  | .registerTable name t =>
      s.1.schema.tables name ≠ none ∨
        s.1.schema.systemTables name = none ∧ ∀ table ∈ s.1.providers[t]?, table.rows = []
  | .registerSystemTable name t =>
      s.1.schema.tables name = none ∨ s.1.schema.tables name = some t
  | _ => True

instance [DecidableEq ν] (s : Observed φ ν) (op : Op φ ν) : Decidable (Plain s op) := by
  cases op <;> unfold Plain <;> infer_instance

/-! ## Inserts -/

/-- A stream that does not fail brings all its batches. -/
theorem rows_of_collect {data : BatchStream φ ν} {batches : List (RecordBatch φ ν)} {n : ℕ}
    (h : TodbTableProvider.collect data = .ok (batches, n)) :
    batches.flatMap RecordBatch.rows = streamRows data := by
  induction data generalizing batches n with
  | nil =>
      simp only [TodbTableProvider.collect, Except.ok.injEq, Prod.mk.injEq] at h
      simp [← h.1, streamRows]
  | cons item data ih =>
      cases item with
      | error e => simp [TodbTableProvider.collect] at h
      | ok batch =>
          cases hrest : TodbTableProvider.collect data with
          | error e => simp [TodbTableProvider.collect, hrest, Except.map] at h
          | ok rest =>
              simp only [TodbTableProvider.collect, hrest, Except.map, Except.ok.injEq,
                Prod.mk.injEq] at h
              have hrows := ih hrest
              simp only [streamRows] at hrows
              simp [← h.1, streamRows, hrows]

/-- An insert adds all rows of its stream, or nothing. -/
theorem insert_cases (df : DataFusion φ) {w : World φ ν} {t : TableRef}
    {table : TodbTableProvider φ ν} (ht : w.providers[t]? = some table) (input : List φ)
    (insertOp : InsertOp) (data : BatchStream φ ν) :
    (∃ e, w.insert df t table input insertOp data = (.error e, w)) ∨
      ∃ n table', w.insert df t table input insertOp data =
        (.ok n, { w with providers := w.providers.set t table' }) ∧
          table'.rows = table.rows ++ streamRows data := by
  simp only [World.insert]
  cases hplan : table.insertInto df input insertOp with
  | error e => exact .inl ⟨e, rfl⟩
  | ok _ =>
      simp only [TodbTableProvider.writeAll]
      cases hdata : TodbTableProvider.collect data with
      | error e =>
          obtain ⟨hlt, rfl⟩ := List.getElem?_eq_some_iff.mp ht
          exact .inl ⟨e, by simp [List.set_getElem_self]⟩
      | ok collected =>
          refine .inr ⟨collected.2, _, rfl, ?_⟩
          simp [TodbTableProvider.rows, rows_of_collect hdata]

/-! ## Runs -/

/-- The tables expected are those of the schema, whatever rows they have. -/
structure Tracks (s : Observed φ ν) : Prop where
  named : ∀ name, (s.2.rows name).isSome = (s.1.schema.tables name).isSome
  system : s.2.system = s.1.schema.systemTables
  known : ∀ name t, s.1.schema.tables name = some t ∨ s.1.schema.systemTables name = some t →
    t < s.1.providers.length

theorem tracks_new : Tracks (.new : Observed φ ν) where
  named name := rfl
  system := rfl
  known name t h := by simp [Observed.new, World.new, TodbSchemaProvider.new] at h

theorem scans_iff {w : World φ ν} {name : String} {rows : List (List ν)} :
    w.Scans name rows ↔
      ∃ t table, w.schema.table name = some t ∧ w.providers[t]? = some table ∧
        table.rows = rows := by
  constructor
  · rintro ⟨t, table, batches, hname, ht, hscan, hrows⟩
    simp only [TodbTableProvider.scan, Option.some.injEq, Except.ok.injEq, Prod.mk.injEq,
      true_and] at hscan
    subst hscan
    exact ⟨t, table, hname, ht, hrows⟩
  · rintro ⟨t, table, hname, ht, hrows⟩
    exact ⟨t, table, table.batches, hname, ht, rfl, hrows⟩

/-- A step that leaves a name and the tables there are alone leaves what the name scans alone. -/
theorem World.Scans.frame {w w' : World φ ν} {name : String} {rows : List (List ν)}
    (h : w.Scans name rows) (hname : w'.schema.table name = w.schema.table name)
    (hkeep : ∀ t < w.providers.length, w'.providers[t]? = w.providers[t]?) :
    w'.Scans name rows := by
  obtain ⟨t, table, hresolve, ht, hrows⟩ := scans_iff.mp h
  have hlt := (List.getElem?_eq_some_iff.mp ht).choose
  exact scans_iff.mpr ⟨t, table, hname.trans hresolve, (hkeep t hlt).trans ht, hrows⟩

theorem faithful_new : Faithful (.new : Observed φ ν) where
  scans name rows h := by simp [Observed.new, Expected.new] at h
  resolves name t h := by simp [Observed.new, Expected.new] at h

section Steps

variable {df : DataFusion φ} {w : World φ ν} {e : Expected ν} {s' : Observed φ ν}

theorem table_of_tables {schema : TodbSchemaProvider} {name : String} {t : TableRef}
    (h : schema.tables name = some t) : schema.table name = some t := by
  simp [TodbSchemaProvider.table, h]

theorem table_of_system {schema : TodbSchemaProvider} {name : String}
    (h : schema.tables name = none) : schema.table name = schema.systemTables name := by
  simp [TodbSchemaProvider.table, h]

theorem newWithData_step {schema : List φ} {batches : List (RecordBatch φ ν)}
    (hI : Tracks (w, e)) (h : Observed.step df (w, e) (.newWithData schema batches) = some s') :
    Tracks s' ∧ (Faithful (w, e) → Faithful s') := by
  simp only [Observed.step, World.step, Option.map_some, Option.some.injEq] at h
  subst h
  refine ⟨⟨hI.named, hI.system, fun name t ht => ?_⟩, fun hP =>
    ⟨fun name rows hrows => ?_, hP.resolves⟩⟩
  · simpa using Nat.lt_succ_of_lt (hI.known name t ht)
  · exact (hP.scans name rows hrows).frame rfl fun t ht => List.getElem?_append_left ht

theorem registerSystemTable_step {name : String} {t : TableRef}
    (hI : Tracks (w, e)) (h : Observed.step df (w, e) (.registerSystemTable name t) = some s') :
    Tracks s' ∧ (Faithful (w, e) → (Faithful s' ↔ Plain (w, e) (.registerSystemTable name t))) := by
  simp only [Observed.step, World.step, Option.map_map, Option.map_eq_some_iff,
    Function.comp_apply] at h
  obtain ⟨table, ht, rfl⟩ := h
  have hlt := (List.getElem?_eq_some_iff.mp ht).choose
  refine ⟨⟨hI.named, ?_, fun other u hu => ?_⟩, fun hP => ⟨fun hfaithful => ?_, fun hplain =>
    ⟨fun other rows hrows => ?_, fun other u hu => ?_⟩⟩⟩
  · exact congrArg (Function.update · name (some t)) hI.system
  · by_cases hother : other = name
    · subst hother
      rcases hu with hu | hu
      · exact hI.known other u (.inl hu)
      · simp only [TodbSchemaProvider.registerSystemTable, Function.update_self,
          Option.some.injEq] at hu
        exact hu ▸ hlt
    · exact hI.known other u (by simpa [TodbSchemaProvider.registerSystemTable, hother] using hu)
  · have hresolve := hfaithful.resolves name t (by simp [Expected.step])
    cases huser : w.schema.tables name with
    | none => exact .inl huser
    | some u =>
        have hu := table_of_tables
          (show (w.schema.registerSystemTable name t).tables name = some u from huser)
        exact .inr (huser.trans (hu.symm.trans hresolve))
  · -- a table that is expected is a user table, which comes first
    have hnamed := hI.named other
    rw [show e.rows other = some rows from hrows] at hnamed
    obtain ⟨u, hu⟩ := Option.isSome_iff_exists.mp hnamed.symm
    have hu' : (w.schema.registerSystemTable name t).tables other = some u := hu
    exact (hP.scans other rows hrows).frame
      ((table_of_tables hu').trans (table_of_tables hu).symm) fun _ _ => rfl
  · by_cases hother : other = name
    · subst hother
      simp only [Expected.step, Function.update_self, Option.some.injEq] at hu
      subst hu
      rcases hplain with huser | huser
      · have huser' : (w.schema.registerSystemTable other t).tables other = none := huser
        exact (table_of_system huser').trans (by simp [TodbSchemaProvider.registerSystemTable])
      · exact table_of_tables huser
    · simp only [Expected.step, Function.update_of_ne hother] at hu
      have hold := hP.resolves other u hu
      simp only [TodbSchemaProvider.table, TodbSchemaProvider.registerSystemTable,
        Function.update_of_ne hother] at hold ⊢
      exact hold

theorem deregisterTable_step {name : String} (hI : Tracks (w, e))
    (h : Observed.step df (w, e) (.deregisterTable name) = some s') :
    Tracks s' ∧ (Faithful (w, e) → Faithful s') := by
  simp only [Observed.step, World.step, Option.map_some, Option.some.injEq] at h
  subst h
  refine ⟨⟨fun other => ?_, hI.system, fun other u hu => ?_⟩, fun hP =>
    ⟨fun other rows hrows => ?_, fun other u hu => ?_⟩⟩
  · by_cases hother : other = name
    · simp [Expected.step, TodbSchemaProvider.deregisterTable, hother]
    · simpa [Expected.step, TodbSchemaProvider.deregisterTable, hother] using hI.named other
  · by_cases hother : other = name
    · exact hI.known other u (.inr (by simpa [TodbSchemaProvider.deregisterTable, hother] using hu))
    · exact hI.known other u (by simpa [TodbSchemaProvider.deregisterTable, hother] using hu)
  · by_cases hother : other = name
    · simp [Expected.step, hother] at hrows
    · simp only [Expected.step, Function.update_of_ne hother] at hrows
      refine (hP.scans other rows hrows).frame ?_ fun _ _ => rfl
      simp [TodbSchemaProvider.table, TodbSchemaProvider.deregisterTable, hother]
  · have hsystem : w.schema.systemTables other = some u := hI.system ▸ hu
    by_cases hother : other = name
    · simp [TodbSchemaProvider.table, TodbSchemaProvider.deregisterTable, hother,
        hother ▸ hsystem]
    · have hold := hP.resolves other u hu
      simpa [TodbSchemaProvider.table, TodbSchemaProvider.deregisterTable, hother] using hold

theorem registerTable_cases (w : World φ ν) (name : String) (table : TodbTableProvider φ ν) :
    (w.schema.tables name ≠ none ∧ ∃ err, w.registerTable name table = (.error err, w)) ∨
      w.schema.tables name = none ∧ w.registerTable name table =
        (.ok none,
          { providers := w.providers ++ [.new table.schema]
            schema := { w.schema with
              tables := Function.update w.schema.tables name (some w.providers.length) } }) := by
  unfold World.registerTable
  cases huser : w.schema.tables name with
  | none => exact .inr ⟨rfl, rfl⟩
  | some t => exact .inl ⟨nofun, _, rfl⟩

theorem registerTable_step {name : String} {t : TableRef}
    (hI : Tracks (w, e)) (h : Observed.step df (w, e) (.registerTable name t) = some s') :
    Tracks s' ∧ (Faithful (w, e) → (Faithful s' ↔ Plain (w, e) (.registerTable name t))) := by
  simp only [Observed.step, World.step, Option.map_map, Option.map_eq_some_iff,
    Function.comp_apply] at h
  obtain ⟨table, ht, rfl⟩ := h
  rcases registerTable_cases w name table with ⟨huser, err, hfail⟩ | ⟨hnone, hdone⟩
  · simp only [Expected.step, ht, hfail]
    exact ⟨hI, fun hP => iff_of_true hP (.inl huser)⟩
  · simp only [Expected.step, ht, hdone]
    refine ⟨⟨fun other => ?_, hI.system, fun other u hu => ?_⟩, fun hP => ⟨fun hfaithful => .inr
      ⟨?_, fun table' htable' => ?_⟩, fun hplain => ⟨fun other rows hrows => ?_, fun other u hu =>
        ?_⟩⟩⟩
    · by_cases hother : other = name
      · simp [hother]
      · simpa [hother] using hI.named other
    · rw [List.length_append, List.length_singleton]
      by_cases hother : other = name
      · subst hother
        rcases hu with hu | hu
        · simp only [Function.update_self, Option.some.injEq] at hu
          exact hu ▸ Nat.lt_succ_self _
        · exact Nat.lt_succ_of_lt (hI.known other u (.inr hu))
      · exact Nat.lt_succ_of_lt (hI.known other u (by simpa [hother] using hu))
    · -- the new table is none of those that system names stand for
      cases hsystem : w.schema.systemTables name with
      | none => rfl
      | some u =>
          have hresolve := hfaithful.resolves name u (hI.system ▸ hsystem)
          simp only [TodbSchemaProvider.table, Function.update_self, Option.some.injEq] at hresolve
          exact absurd (hI.known name u (.inr hsystem)) (hresolve ▸ Nat.lt_irrefl _)
    · obtain rfl := Option.some.inj (ht.symm.trans htable')
      obtain ⟨u, new, hresolve, hnew, hrows⟩ :=
        scans_iff.mp (hfaithful.scans name table.rows (by simp))
      simp only [TodbSchemaProvider.table, Function.update_self, Option.some.injEq] at hresolve
      subst hresolve
      rw [List.getElem?_concat_length, Option.some.injEq] at hnew
      rw [← hrows, ← hnew]
      rfl
    · by_cases hother : other = name
      · subst hother
        obtain ⟨-, hempty⟩ := hplain.resolve_left (not_not.mpr hnone)
        simp only [Function.update_self, Option.some.injEq] at hrows
        refine scans_iff.mpr ⟨w.providers.length, .new table.schema, ?_, ?_, ?_⟩
        · simp [TodbSchemaProvider.table]
        · exact List.getElem?_concat_length
        · rw [← hrows, hempty table ht]
          rfl
      · simp only [Function.update_of_ne hother] at hrows
        refine (hP.scans other rows hrows).frame ?_ fun u hu => List.getElem?_append_left hu
        simp [TodbSchemaProvider.table, hother]
    · have hother : other ≠ name := by
        rintro rfl
        obtain ⟨hsystem, -⟩ := hplain.resolve_left (not_not.mpr hnone)
        have hold : w.schema.systemTables other = some u := hI.system ▸ hu
        cases hsystem.symm.trans hold
      have hold := hP.resolves other u hu
      simpa [TodbSchemaProvider.table, hother] using hold

theorem insert_step {t : TableRef} {input : List φ} {insertOp : InsertOp} {data : BatchStream φ ν}
    (hI : Tracks (w, e)) (h : Observed.step df (w, e) (.insert t input insertOp data) = some s') :
    Tracks s' ∧ (Faithful (w, e) → Faithful s') := by
  simp only [Observed.step, World.step, Option.map_map, Option.map_eq_some_iff,
    Function.comp_apply] at h
  obtain ⟨table, ht, rfl⟩ := h
  rcases insert_cases df ht input insertOp data with ⟨err, hfail⟩ | ⟨n, table', hdone, hrows'⟩
  · simp only [Expected.step, ht, hfail]
    exact ⟨hI, id⟩
  · simp only [Expected.step, ht, hdone]
    have hlt := (List.getElem?_eq_some_iff.mp ht).choose
    refine ⟨⟨fun name => ?_, hI.system, fun name u hu => ?_⟩, fun hP =>
      ⟨fun name rows hrows => ?_, hP.resolves⟩⟩
    · simpa using hI.named name
    · simpa using hI.known name u hu
    · obtain ⟨old, hold, rfl⟩ := Option.map_eq_some_iff.mp hrows
      obtain ⟨u, current, hresolve, hu, rfl⟩ := scans_iff.mp (hP.scans name old hold)
      by_cases hut : u = t
      · subst hut
        obtain rfl := Option.some.inj (ht.symm.trans hu)
        refine scans_iff.mpr ⟨u, table', hresolve, ?_, ?_⟩
        · exact List.getElem?_set_self hlt
        · rw [if_pos hresolve, hrows']
      · have hne : w.schema.table name ≠ some t := by
          rw [show w.schema.table name = some u from hresolve]
          simpa using hut
        refine scans_iff.mpr ⟨u, current, hresolve, ?_, (if_neg hne).symm⟩
        exact (List.getElem?_set_ne (Ne.symm hut)).trans hu

/-- One call keeps the schema as expected exactly when it is plain. -/
theorem observed_step {s : Observed φ ν} {op : Op φ ν} (hI : Tracks s)
    (h : s.step df op = some s') : Tracks s' ∧ (Faithful s → (Faithful s' ↔ Plain s op)) := by
  obtain ⟨w, e⟩ := s
  cases op with
  | newWithData schema batches =>
      obtain ⟨htracks, hkeeps⟩ := newWithData_step hI h
      exact ⟨htracks, fun hP => iff_of_true (hkeeps hP) trivial⟩
  | registerSystemTable name t => exact registerSystemTable_step hI h
  | registerTable name t => exact registerTable_step hI h
  | deregisterTable name =>
      obtain ⟨htracks, hkeeps⟩ := deregisterTable_step hI h
      exact ⟨htracks, fun hP => iff_of_true (hkeeps hP) trivial⟩
  | insert t input insertOp data =>
      obtain ⟨htracks, hkeeps⟩ := insert_step hI h
      exact ⟨htracks, fun hP => iff_of_true (hkeeps hP) trivial⟩

end Steps

/-- A run of calls finds the schema as expected after every one of them exactly when all are
plain, and an insert that fails changes nothing. -/
theorem schema_faithful_iff (df : DataFusion φ) (ops : List (Op φ ν)) (s : Observed φ ν)
    (hrun : execute (Observed.step df) ops .new = some s) :
    (Throughout (Observed.step df) Faithful ops .new ↔
        Disciplined (Observed.step df) Plain ops .new) ∧
      ∀ (w : World φ ν) (t : TableRef) (table : TodbTableProvider φ ν) (input : List φ)
        (insertOp : InsertOp) (data : BatchStream φ ν) (err : DataFusionError),
        w.providers[t]? = some table →
          (w.insert df t table input insertOp data).1 = .error err →
            (w.insert df t table input insertOp data).2 = w := by
  refine ⟨throughout_iff_disciplined (fun hI h => (observed_step hI h).1)
    (fun hI hP h => (observed_step hI h).2 hP) tracks_new faithful_new hrun, ?_⟩
  intro w t table input insertOp data err ht herr
  rcases insert_cases df ht input insertOp data with ⟨e, hfail⟩ | ⟨n, table', hdone, -⟩
  · rw [hfail]
  · simp [hdone] at herr

/-- Columns are named by texts and hold numbers. -/
def plainTypes : DataFusion String :=
  ⟨fun a b => decide (a = b), fun fields => toString fields, fun
    | .append => "Insert Into"
    | .overwrite => "Insert Overwrite"
    | .replace => "Replace Into"⟩

/-- An empty table is registered and two batches are inserted; a second insert fails midway. -/
def goodCalls : List (Op String ℕ) :=
  [.newWithData ["x"] [], .registerTable "t" 0,
    .insert 1 ["x"] .append [.ok ⟨["x"], [[1]]⟩, .ok ⟨["x"], [[2]]⟩],
    .insert 1 ["x"] .append [.ok ⟨["x"], [[3]]⟩, .error (.external "lost")]]

theorem schema_faithful_good :
    Throughout (Observed.step plainTypes) Faithful goodCalls .new ∧
      ((execute (Observed.step plainTypes) goodCalls .new).map fun s => s.2.rows "t") =
        some (some [[1], [2]]) := by
  obtain ⟨s, hs⟩ := Option.isSome_iff_exists.mp
    (show (execute (Observed.step plainTypes) goodCalls .new).isSome by decide)
  exact ⟨(schema_faithful_iff plainTypes goodCalls s hs).1.mpr (by decide), by decide⟩

/-- A provider with one row, as `CREATE TABLE AS SELECT` passes it on. -/
def createAsSelect : List (Op String ℕ) :=
  [.newWithData ["x"] [⟨["x"], [[1]]⟩], .registerTable "t" 0]

/-- The table that is registered has lost the row. -/
theorem registered_rows_are_lost :
    ((execute (Observed.step plainTypes) createAsSelect .new).map fun s =>
      (s.2.rows "t", (s.1.schema.table "t").bind fun t =>
        (s.1.providers[t]?).map TodbTableProvider.rows)) = some (some [[1]], some []) := by
  decide

end Todb.Server

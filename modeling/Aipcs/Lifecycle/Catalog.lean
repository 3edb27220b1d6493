import Aipcs.Lifecycle.SchemaPlan
import Aipcs.Store.DomainText

/-!
# Lifecycle — the catalog of a store, and its inspection

What SQLite keeps of the statements it has executed: of each table the
columns and keys it has read, and its text, into which an added column is
written after the last one. `_inspect_domain` compares all that SQLite
tells of it with what the layout expects.
-/

namespace Aipcs

namespace Lifecycle

open Manifest Relational Store

/-! ## Rows of the catalog -/

inductive ObjectType where
  | table
  | index
deriving DecidableEq

/-- A row of `sqlite_schema`. -/
structure SchemaRow where
  type : ObjectType
  name : String
  tblName : String
  sql : Option (List Char)

/-- `name.lower().startswith(...)`. -/
def lowerStarts (name start : String) : Bool := start.toList.isPrefixOf (name.toList.map Char.toLower)

def RESERVED_PREFIX : String := "__aipcs_"

/-- The names of `INTERNAL_INDEX_XINFO`. -/
def FOUNDATION_INDEX_XINFO : List String := [
  "sqlite_autoindex___aipcs_service_store_migration_1", "sqlite_autoindex___aipcs_service_store_migration_2",
  "sqlite_autoindex___aipcs_record_mutation_1", "sqlite_autoindex___aipcs_record_history_1",
  "sqlite_autoindex___aipcs_memory_branch_1", "sqlite_autoindex___aipcs_memory_branch_2",
  "sqlite_autoindex___aipcs_record_branch_1"]

/-- The rows of a foundation that is ready: objects under the reserved
prefix, and the implicit indices of its tables. -/
structure FoundationRows where
  rows : List SchemaRow
  reserved : ∀ r ∈ rows, lowerStarts r.name RESERVED_PREFIX = true ∨ r.name ∈ FOUNDATION_INDEX_XINFO
  internal : ∀ n ∈ FOUNDATION_INDEX_XINFO, n ∈ rows.map (·.name)

/-- A table as it is kept; its text is split after the last column. -/
structure StoredTable where
  layout : TableLayout
  columnsSql : List Char
  restSql : List Char

def StoredTable.sql (t : StoredTable) : List Char := t.columnsSql ++ t.restSql

structure StoredIndex where
  layout : IndexLayout
  sql : List Char

/-- The catalog of a store whose domain tables are empty. -/
structure Catalog where
  foundation : FoundationRows
  tables : List StoredTable
  indices : List StoredIndex

/-- How `ALTER TABLE ... ADD COLUMN` rewrites a stored text: the column
comes after the last one, with whatever white space. -/
structure Rewriting where
  add : List Char → List Char → List Char → List Char × List Char
  inserts : ∀ columns rest column, ∃ before after, before.all isSqlSpace = true ∧ after.all isSqlSpace = true ∧
    (add columns rest column).1 = columns ++ (before ++ ',' :: (after ++ column))
  keeps : ∀ columns rest column, (add columns rest column).2.dropWhile isSqlSpace = rest.dropWhile isSqlSpace

namespace Catalog

variable (c : Catalog)

/-- A table's key is not a row id. -/
def keyed (t : TableLayout) : Bool := t.columns.any fun x => x.primaryKey && decide (x.type ≠ .integer)

/-- `SELECT type,name,tbl_name,sql FROM sqlite_schema`. -/
def rows : List SchemaRow :=
  c.foundation.rows ++
    (c.tables.flatMap fun t => ⟨.table, t.layout.name, t.layout.name, some t.sql⟩ ::
      if keyed t.layout then [⟨.index, autoindex t.layout.name, t.layout.name, none⟩] else []) ++
    c.indices.map fun i => ⟨.index, i.layout.name, i.layout.table, some i.sql⟩

def table? (name : String) : Option StoredTable := c.tables.find? fun t => t.layout.name = name

/-! ## Statements -/

/-- The name is free, and not reserved. -/
def free (name : String) : Bool := !lowerStarts name "sqlite_" && c.rows.all fun r => r.name ≠ name

/-- A statement executed, or nothing where SQLite refuses it. -/
def execute (R : Rewriting) : Ddl → Option Catalog
  | .createTable e relationships =>
    let t := readTable e relationships
    if c.free t.name = true ∧ (t.columns.map (·.name)).Nodup ∧ (t.columns.filter (·.primaryKey)).length ≤ 1 ∧
        t.foreignKeys.all (fun k => t.columns.any fun x => x.name = k.field) = true then
      some { c with tables := c.tables ++ [⟨t, columnsSql e, restSql relationships⟩] }
    else none
  | .addColumn a =>
    let column := columnLayout a.field
    match c.table? a.entity with
    | none => none
    | some t =>
      if column.notNull = false ∧ column.primaryKey = false ∧
          t.layout.columns.all (fun x => x.name ≠ column.name) = true then
        some { c with tables := c.tables.map fun t =>
          if t.layout.name = a.entity then
            let text := R.add t.columnsSql t.restSql (fieldDeclaration a.field)
            ⟨{ t.layout with columns := t.layout.columns ++ [column] }, text.1, text.2⟩
          else t }
      else none
  | .createIndex i =>
    match c.table? i.entity with
    | none => none
    | some t =>
      if c.free i.name = true ∧ i.fields.all (fun f => t.layout.columns.any fun x => x.name = f) = true then
        some { c with indices := c.indices ++ [⟨indexLayout i, createIndexSql i⟩] }
      else none

/-- The statements of a plan, one after the other. -/
def executeAll (R : Rewriting) (plan : List Ddl) : Option Catalog := plan.foldlM (execute · R) c

/-! ## What SQLite tells -/

/-- `PRAGMA table_xinfo`. -/
def tableXinfo (name : String) : List ColumnInfo :=
  match c.table? name with
  | none => []
  | some t => t.layout.columns.zipIdx.map fun p =>
      ⟨p.2, p.1.name, p.1.type.value, p.1.notNull, none, p.1.primaryKey, 0⟩

/-- `PRAGMA foreign_key_list`: the last key first. -/
def foreignKeyList (name : String) : List ForeignKeyInfo :=
  match c.table? name with
  | none => []
  | some t => t.layout.foreignKeys.reverse.zipIdx.map fun p =>
      ⟨p.2, 0, p.1.target, p.1.field, p.1.targetField, "RESTRICT", "RESTRICT", "NONE"⟩

/-- `PRAGMA index_list`. -/
def indexList (name : String) : List IndexInfo :=
  ((c.indices.filter fun i => i.layout.table = name).map fun i => ⟨i.layout.name, i.layout.unique, .created, false⟩) ++
    ((c.tables.filter fun t => t.layout.name = name && keyed t.layout).map fun t =>
      ⟨autoindex t.layout.name, true, .primaryKey, false⟩)

/-- `PRAGMA index_xinfo`. -/
def indexXinfo (name : String) : List IndexColumnInfo :=
  match c.indices.find? fun i => i.layout.name = name with
  | some i =>
    match c.table? i.layout.table with
    | some t => indexColumns (t.layout.columns.map (·.name)) i.layout.fields
    | none => []
  | none =>
    match c.tables.find? fun t => keyed t.layout && autoindex t.layout.name = name with
    | some t => indexColumns (t.layout.columns.map (·.name)) ((t.layout.columns.filter (·.primaryKey)).map (·.name))
    | none => []

/-- `PRAGMA foreign_key_check` of empty tables: it refuses a key that leads
to columns of a table which are not one. -/
def foreignKeysClean : Bool :=
  c.tables.all fun t => t.layout.foreignKeys.all fun k =>
    (c.table? k.target).all fun p =>
      p.layout.columns.any (fun x => x.name = k.targetField && x.primaryKey) ||
        c.indices.any fun i => i.layout.unique && i.layout.table = k.target && decide (i.layout.fields = [k.targetField])

/-! ## Inspection -/

/-- The rows of the internal objects. -/
def internalRows : List SchemaRow := c.rows.filter fun r => lowerStarts r.name "sqlite_"

/-- The rows of the domain's objects. -/
def objectRows : List SchemaRow :=
  c.rows.filter fun r => !(lowerStarts r.name "sqlite_" || lowerStarts r.name RESERVED_PREFIX)

/-- The row of a name. -/
def rowNamed (rows : List SchemaRow) (name : String) : Option SchemaRow := rows.reverse.find? fun r => r.name = name

/-- Two lists of names are the same set. -/
def sameNames (a b : List String) : Bool := a.all (· ∈ b) && b.all (· ∈ a)

/-- What is asked of a table's implicit index. -/
def autoindexMatches (t : DomainTableLayout) : Bool :=
  (rowNamed c.internalRows t.implicitPrimaryKeyIndex.info.name).any fun r =>
    r.type = .index && r.tblName = t.name && r.sql.isNone

/-- What is asked of a table. -/
def tableMatches (l : DomainSchemaLayout) (t : DomainTableLayout) : Bool :=
  (rowNamed c.objectRows t.name).any (fun r => r.type = .table && r.tblName = t.name &&
    r.sql.any fun text => sqlTokensEqual text t.sql) &&
    decide (c.tableXinfo t.name = t.xinfo) && decide (c.foreignKeyList t.name = t.foreignKeys) &&
    decide ((c.indexList t.name).Perm ((l.allIndices.filter fun i => i.table = t.name).map (·.info)))

/-- What is asked of an explicit index. -/
def indexMatches (i : DomainIndexLayout) : Bool :=
  (rowNamed c.objectRows i.info.name).any fun r => r.type = .index && r.tblName = i.table && r.sql = i.sql

/-- `_inspect_domain`. -/
def inspectDomain (l : DomainSchemaLayout) : DomainSchemaStatus :=
  let internal := c.internalRows.map (·.name)
  let objects := c.objectRows.map (·.name)
  if objects = [] then
    if sameNames internal FOUNDATION_INDEX_XINFO then .unmaterialised else .incompatible
  else if !sameNames internal (FOUNDATION_INDEX_XINFO ++ l.tables.map (·.implicitPrimaryKeyIndex.info.name)) then
    .incompatible
  else if !l.tables.all c.autoindexMatches then .incompatible
  else if !sameNames objects (l.tables.map (·.name) ++ l.indices.map (·.2.info.name)) then .incompatible
  else if !l.tables.all (c.tableMatches l) then .incompatible
  else if !l.indices.all (fun i => c.indexMatches i.2) then .incompatible
  else if !l.allIndices.all (fun i => decide (c.indexXinfo i.info.name = i.xinfo)) then .incompatible
  else if !c.foreignKeysClean then .incompatible
  else .ready

end Catalog

end Lifecycle

end Aipcs

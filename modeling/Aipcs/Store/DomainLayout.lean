import Aipcs.Relational.Factory
import Aipcs.Store.Layout
import Aipcs.Store.SqlTokens

/-!
# Store — the DDL of a domain, and what is expected of its catalog

The texts that the SQLite store executes for a specification and for a
transition, and the signatures by which it knows the result again. A
statement is kept as what it says; `Ddl.sql` is its text.
-/

namespace Aipcs

namespace Store

open Manifest Relational

/-! ## Texts -/

/-- A type's name. -/
def SqliteType.value : SqliteType → String
  | .text => "TEXT"
  | .integer => "INTEGER"
  | .real => "REAL"

/-- `_quote`. -/
def quote (identifier : String) : List Char := quoteSql identifier.toList

/-- `_field_declaration`. -/
def fieldDeclaration (f : RelationalField) : List Char :=
  quote f.name ++ " ".toList ++ (sqliteType f.logicalType).value.toList ++
    if f.primaryKey then " PRIMARY KEY NOT NULL".toList else if f.required then " NOT NULL".toList else []

/-- `_foreign_key_declaration`. -/
def foreignKeyDeclaration (r : RelationalRelationship) : List Char :=
  "CONSTRAINT ".toList ++ quote r.name ++ " FOREIGN KEY (".toList ++ quote r.sourceField ++ ") ".toList ++
    "REFERENCES ".toList ++ quote r.targetEntity ++ " (".toList ++ quote r.targetField ++ ") ".toList ++
    "ON DELETE RESTRICT ON UPDATE RESTRICT".toList

/-- The text of a `CREATE TABLE`. -/
def createTableSql (e : RelationalEntity) (relationships : List RelationalRelationship) : List Char :=
  "CREATE TABLE ".toList ++ quote e.name ++ " (\n    ".toList ++
    ",\n    ".toList.intercalate (e.fields.map fieldDeclaration ++ relationships.map foreignKeyDeclaration) ++
    "\n) STRICT".toList

/-- The text of a `CREATE INDEX`. -/
def createIndexSql (i : RelationalIndex) : List Char :=
  "CREATE ".toList ++ (if i.unique then "UNIQUE ".toList else []) ++ "INDEX ".toList ++ quote i.name ++ " ON ".toList ++
    quote i.entity ++ " (".toList ++ ", ".toList.intercalate (i.fields.map quote) ++ ")".toList

/-- A statement of the layouts. -/
inductive Ddl where
  | createTable (entity : RelationalEntity) (relationships : List RelationalRelationship)
  | addColumn (addition : FieldAddition)
  | createIndex (index : RelationalIndex)
deriving DecidableEq

/-- The text that is executed. -/
def Ddl.sql : Ddl → List Char
  | .createTable e relationships => createTableSql e relationships
  | .addColumn a =>
    "ALTER TABLE ".toList ++ quote a.entity ++ " ADD COLUMN ".toList ++ fieldDeclaration a.field
  | .createIndex i => createIndexSql i

/-! ## Signatures -/

/-- A row of `PRAGMA table_xinfo`. -/
structure ColumnInfo where
  cid : ℕ
  name : String
  type : String
  notNull : Bool
  default : Option String
  primaryKey : Bool
  hidden : ℕ
deriving DecidableEq

/-- A row of `PRAGMA foreign_key_list`. -/
structure ForeignKeyInfo where
  id : ℕ
  seq : ℕ
  table : String
  source : String
  target : String
  onUpdate : String
  onDelete : String
  matching : String
deriving DecidableEq

/-- A row of `PRAGMA index_xinfo`. -/
structure IndexColumnInfo where
  seqno : ℕ
  cid : ℤ
  name : Option String
  descending : Bool
  collation : String
  key : Bool
deriving DecidableEq

inductive IndexOrigin where
  | created
  | primaryKey
deriving DecidableEq

/-- A row of `PRAGMA index_list`. -/
structure IndexInfo where
  name : String
  unique : Bool
  origin : IndexOrigin
  isPartial : Bool
deriving DecidableEq

/-- `SQLiteDomainIndexLayout`. -/
structure DomainIndexLayout where
  table : String
  sql : Option (List Char)
  info : IndexInfo
  xinfo : List IndexColumnInfo
deriving DecidableEq

/-- `SQLiteDomainTableLayout`. -/
structure DomainTableLayout where
  name : String
  statement : Ddl
  xinfo : List ColumnInfo
  foreignKeys : List ForeignKeyInfo
  implicitPrimaryKeyIndex : DomainIndexLayout
deriving DecidableEq

def DomainTableLayout.sql (t : DomainTableLayout) : List Char := t.statement.sql

/-- `SQLiteDomainSchemaLayout`. -/
structure DomainSchemaLayout where
  schemaVersion : ℕ
  tables : List DomainTableLayout
  indices : List (RelationalIndex × DomainIndexLayout)
  ddl : List Ddl

/-- `all_indices`. -/
def DomainSchemaLayout.allIndices (l : DomainSchemaLayout) : List DomainIndexLayout :=
  l.indices.map Prod.snd ++ l.tables.map (·.implicitPrimaryKeyIndex)

/-- The name of a table's implicit primary-key index. -/
def autoindex (table : String) : String := "sqlite_autoindex_" ++ table ++ "_1"

/-- A column's position in its table. -/
def position (names : List String) (name : String) : ℕ := names.findIdx fun n => n = name

/-- The key columns of an index, then the row id. -/
def indexColumns (names fields : List String) : List IndexColumnInfo :=
  (fields.zipIdx.map fun p => ⟨p.2, position names p.1, some p.1, false, "BINARY", true⟩) ++
    [⟨fields.length, -1, none, false, "BINARY", false⟩]

/-- `_table_layout`. -/
def domainTable (relationships : List RelationalRelationship) (e : RelationalEntity) : DomainTableLayout :=
  let tableRelationships := relationships.filter fun r => r.sourceEntity = e.name
  { name := e.name
    statement := .createTable e tableRelationships
    xinfo := e.fields.zipIdx.map fun p =>
      ⟨p.2, p.1.name, (sqliteType p.1.logicalType).value, p.1.required, none, p.1.primaryKey, 0⟩
    foreignKeys := tableRelationships.reverse.zipIdx.map fun p =>
      ⟨p.2, 0, p.1.targetEntity, p.1.sourceField, p.1.targetField, "RESTRICT", "RESTRICT", "NONE"⟩
    implicitPrimaryKeyIndex :=
      { table := e.name
        sql := none
        info := ⟨autoindex e.name, true, .primaryKey, false⟩
        xinfo := indexColumns (e.fields.map (·.name)) ["id"] } }

/-- `_index_layout`; nothing where there is no such entity. -/
def domainIndex (entities : List RelationalEntity) (i : RelationalIndex) : Option (RelationalIndex × DomainIndexLayout) :=
  (entities.find? fun e => e.name = i.entity).map fun e =>
    (i, { table := i.entity
          sql := some (createIndexSql i)
          info := ⟨i.name, i.unique, .created, false⟩
          xinfo := indexColumns (e.fields.map (·.name)) i.fields })

/-- `_build_checked_layout`. -/
def buildCheckedLayout (s : RelationalSpecification) : Option DomainSchemaLayout := do
  let indices ← s.indices.mapM (domainIndex s.entities)
  let tables := s.entities.map (domainTable s.relationships)
  return ⟨s.schemaVersion, tables, indices, tables.map (·.statement) ++ indices.map fun p => .createIndex p.1⟩

/-- `_detached_specification`. -/
def detachedSpecification (s : RelationalSpecification) : Option RelationalSpecification :=
  if s.Valid then some s else none

/-- `build_domain_schema_layout`. -/
def buildDomainSchemaLayout (s : RelationalSpecification) : Option DomainSchemaLayout :=
  (detachedSpecification s).bind buildCheckedLayout

/-- `SQLiteDomainTransitionLayout`. -/
structure DomainTransitionLayout where
  current : DomainSchemaLayout
  target : DomainSchemaLayout
  ddl : List Ddl

/-- `build_domain_transition_layout`. -/
def buildDomainTransitionLayout (t : RelationalTransition) : Option DomainTransitionLayout := do
  let current ← detachedSpecification t.current
  let target ← detachedSpecification t.target
  guard (target.schemaVersion = current.schemaVersion + 1)
  let expected ← expectedAdditions current target
  guard (t.additions = expected)
  guard (∀ c ∈ t.metadataChanges, c.Valid)
  guard (t.metadataChanges = sortedChanges t.metadataChanges)
  guard t.metadataChanges.Nodup
  guard (!(expected.isEmpty && t.metadataChanges.isEmpty))
  let currentLayout ← buildCheckedLayout current
  let targetLayout ← buildCheckedLayout target
  let tables ← expected.entities.mapM fun e => (targetLayout.tables.find? fun x => x.name = e.name).map (·.statement)
  let indices ← expected.indices.mapM fun i =>
    (targetLayout.indices.find? fun x => x.1.name = i.name).map fun x => Ddl.createIndex x.1
  return ⟨currentLayout, targetLayout, tables ++ expected.fields.map .addColumn ++ indices⟩

end Store

end Aipcs

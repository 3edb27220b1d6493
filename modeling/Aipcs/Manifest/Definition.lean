import Aipcs.Common.Binary64
import Mathlib.Data.List.Basic
import Mathlib.Data.List.Sort
import Mathlib.Data.String.Basic
import Mathlib.Data.List.Dedup
import Mathlib.Tactic.MkIffOfInductiveProp

/-!
# Manifest — the public schema document

A `ManifestDocument` is what a manifest says, a `ManifestV2` a document
that the validators let pass: those of each model, which look at one
part, and `validate_references`, which looks across. The error texts of
the validators are not kept: every failure refuses the document.
-/

namespace Aipcs

namespace Manifest

def MAX_ENTITIES : ℕ := 32
def MAX_ATTRIBUTES_PER_ENTITY : ℕ := 64
def MAX_RELATIONSHIPS : ℕ := 128
def MAX_INDICES : ℕ := 128
def MAX_QUERY_PATTERNS : ℕ := 32
def MAX_DISCOVERY_FACETS : ℕ := 64

/-! ## The numeric domains -/

def SIGNED_64_MIN : ℤ := -2 ^ 63
def SIGNED_64_MAX : ℤ := 2 ^ 63 - 1
def IEEE_754_EXACT_INTEGER_MAX : ℤ := 2 ^ 53

/-- `is_signed_64_integer` of an integer. -/
def isSigned64Integer (i : ℤ) : Prop := SIGNED_64_MIN ≤ i ∧ i ≤ SIGNED_64_MAX

/-- `is_exact_number` of an integer. -/
def isExactInteger (i : ℤ) : Prop :=
  -IEEE_754_EXACT_INTEGER_MAX ≤ i ∧ i ≤ IEEE_754_EXACT_INTEGER_MAX

instance (i : ℤ) : Decidable (isSigned64Integer i) := inferInstanceAs (Decidable (_ ∧ _))

instance (i : ℤ) : Decidable (isExactInteger i) := inferInstanceAs (Decidable (_ ∧ _))

/-! ## The document -/

/-- `IDENTIFIER_PATTERN`. -/
def isIdentifier (s : String) : Bool :=
  match s.toList with
  | [] => false
  | c :: rest => 'a' ≤ c && c ≤ 'z' && rest.length ≤ 62 &&
      rest.all fun c => ('a' ≤ c && c ≤ 'z') || ('0' ≤ c && c ≤ '9') || c = '_'

inductive LogicalType where
  | string
  | integer
  | number
  | boolean
  | datetime
  | uuid
  | stringList
deriving DecidableEq

inductive RetrievalMode where
  | annotation
  | membership
deriving DecidableEq

/-- A JSON scalar, as the strict scalar types tell them apart. -/
inductive AllowedValue where
  | str (s : String)
  | int (i : ℤ)
  | float (x : Binary64)
  | bool (b : Bool)
deriving DecidableEq

/-- Python's equality of `(type(value), value)`. -/
def AllowedValue.same : AllowedValue → AllowedValue → Prop
  | .str s, .str t => s = t
  | .int i, .int j => i = j
  | .float x, .float y => x.Finite ∧ y.Finite ∧ x.signedUnits = y.signedUnits ∨
      ¬ x.Finite ∧ x = y
  | .bool a, .bool b => a = b
  | _, _ => False

instance (a b : AllowedValue) : Decidable (a.same b) := by
  cases a <;> cases b <;> first | exact inferInstanceAs (Decidable (_ = _)) |
    exact inferInstanceAs (Decidable (_ ∧ _ ∧ _ = _ ∨ ¬ _ ∧ _ = _)) | exact isFalse id

structure AttributeDefinition where
  name : String
  type : LogicalType
  required : Bool := false
  primaryKey : Bool := false
  description : Option String := none
  allowedValues : Option (List AllowedValue) := none
  retrievalMode : Option RetrievalMode := none
deriving DecidableEq

structure EntityDefinition where
  name : String
  attributes : List AttributeDefinition
  description : Option String := none
deriving DecidableEq

structure RelationshipEndpoint where
  entity : String
  field : String
deriving DecidableEq

/-- A relationship; its `on_delete` can only be `restrict`. -/
structure RelationshipDefinition where
  name : String
  from_ : RelationshipEndpoint
  to_ : RelationshipEndpoint
deriving DecidableEq

structure IndexDefinition where
  name : String
  entity : String
  fields : List String
  unique : Bool := false
deriving DecidableEq

structure DiscoveryFacet where
  entity : String
  field : String
deriving DecidableEq

structure MigrationHistoryEntry where
  fromSchemaVersion : ℕ
  toSchemaVersion : ℕ
  operations : List String
deriving DecidableEq

structure ManifestDocument where
  schemaVersion : ℕ
  entities : List EntityDefinition
  relationships : List RelationshipDefinition := []
  indices : List IndexDefinition := []
  queryPatterns : List String := []
  discoveryFacets : List DiscoveryFacet := []
  retrievalGuidance : Option String := none
  migrationHistory : List MigrationHistoryEntry := []
deriving DecidableEq

/-! ## One part at a time -/

/-- `_allowed_value_matches_type`. -/
def allowedValueMatchesType : AllowedValue → LogicalType → Prop
  | .str _, .string | .str _, .stringList => True
  | .int i, .integer => isSigned64Integer i
  | .int i, .number => isExactInteger i
  | .float x, .number => x.Finite
  | .bool _, .boolean => True
  | _, _ => False

instance (v : AllowedValue) (t : LogicalType) : Decidable (allowedValueMatchesType v t) := by
  cases v <;> cases t <;> first | exact isTrue trivial | exact isFalse id |
    exact inferInstanceAs (Decidable (isSigned64Integer _)) |
    exact inferInstanceAs (Decidable (isExactInteger _)) |
    exact inferInstanceAs (Decidable (Binary64.Finite _))

/-- The checks on the text of a string value. -/
def AllowedValue.textOk : AllowedValue → Prop
  | .str s => s ≠ "" ∧ s.length ≤ 96 ∧ '\x00' ∉ s.toList
  | _ => True

instance (v : AllowedValue) : Decidable v.textOk := by
  cases v <;> first | exact isTrue trivial | exact inferInstanceAs (Decidable (_ ∧ _ ∧ _))

/-- `Field(min_length=..., max_length=...)` of a text. -/
def lengthWithin (s : String) (least most : ℕ) : Prop := least ≤ s.length ∧ s.length ≤ most

instance (s : String) (least most : ℕ) : Decidable (lengthWithin s least most) :=
  inferInstanceAs (Decidable (_ ∧ _))

/-- An optional text of bounded length. -/
def optionalText (s : Option String) (most : ℕ) : Prop := ∀ t ∈ s, lengthWithin t 0 most

instance (s : Option String) (most : ℕ) : Decidable (optionalText s most) :=
  inferInstanceAs (Decidable (∀ t ∈ s, lengthWithin t 0 most))

/-- `validate_type_metadata`, for the values an attribute allows. -/
@[mk_iff]
structure AllowedValuesValid (values : List AllowedValue) (type : LogicalType) : Prop where
  length : 1 ≤ values.length ∧ values.length ≤ 32
  distinct : values.Pairwise fun a b => ¬ a.same b
  typed : ∀ v ∈ values, allowedValueMatchesType v type
  text : ∀ v ∈ values, v.textOk

instance (values : List AllowedValue) (type : LogicalType) : Decidable (AllowedValuesValid values type) :=
  decidable_of_iff' _ (allowedValuesValid_iff values type)

/-- `AttributeDefinition`'s validators. -/
@[mk_iff]
structure AttributeDefinition.Valid (a : AttributeDefinition) : Prop where
  name : isIdentifier a.name = true
  description : optionalText a.description 500
  primaryKey : a.primaryKey = true → a.required = true
  allowedValues : ∀ values ∈ a.allowedValues, AllowedValuesValid values a.type
  membership : a.retrievalMode = some .membership → a.type = .stringList
  annotation : a.retrievalMode = some RetrievalMode.annotation → a.type = .string

instance (a : AttributeDefinition) : Decidable (a.Valid) :=
  decidable_of_iff' _ (AttributeDefinition.valid_iff a)

/-- `SERVER_MANAGED_FIELDS`. -/
def SERVER_MANAGED_FIELDS : List AttributeDefinition := [
  { name := "id", type := .uuid, required := true, primaryKey := true },
  { name := "owner_id", type := .string, required := true },
  { name := "created_at", type := .datetime, required := true },
  { name := "updated_at", type := .datetime, required := true },
  { name := "created_via", type := .string, required := true },
  { name := "record_version", type := .integer, required := true }]

/-- Is the name that of a server-managed field? -/
def serverManaged (name : String) : Bool := SERVER_MANAGED_FIELDS.any fun f => f.name = name

/-- `EntityDefinition`'s validators. -/
@[mk_iff]
structure EntityDefinition.Valid (e : EntityDefinition) : Prop where
  name : isIdentifier e.name = true
  description : optionalText e.description 1000
  attributes : ∀ a ∈ e.attributes, a.Valid
  length : 6 ≤ e.attributes.length ∧ e.attributes.length ≤ MAX_ATTRIBUTES_PER_ENTITY
  distinct : (e.attributes.map (·.name)).Nodup
  managed : ∀ f ∈ SERVER_MANAGED_FIELDS, f ∈ e.attributes
  onlyKey : ∀ a ∈ e.attributes, a.primaryKey = true → a.name = "id"

instance (e : EntityDefinition) : Decidable (e.Valid) :=
  decidable_of_iff' _ (EntityDefinition.valid_iff e)

/-- `RelationshipDefinition`'s field constraints. -/
@[mk_iff]
structure RelationshipDefinition.Valid (r : RelationshipDefinition) : Prop where
  name : isIdentifier r.name = true ∧ r.name.length ≤ 48
  from_ : isIdentifier r.from_.entity = true ∧ isIdentifier r.from_.field = true
  to_ : isIdentifier r.to_.entity = true ∧ isIdentifier r.to_.field = true

instance (r : RelationshipDefinition) : Decidable (r.Valid) :=
  decidable_of_iff' _ (RelationshipDefinition.valid_iff r)

/-- `IndexDefinition`'s validators. -/
@[mk_iff]
structure IndexDefinition.Valid (i : IndexDefinition) : Prop where
  name : isIdentifier i.name = true ∧ i.name.length ≤ 48
  entity : isIdentifier i.entity = true
  fields : ∀ f ∈ i.fields, isIdentifier f = true
  length : 1 ≤ i.fields.length ∧ i.fields.length ≤ 8
  distinct : i.fields.Nodup

instance (i : IndexDefinition) : Decidable (i.Valid) :=
  decidable_of_iff' _ (IndexDefinition.valid_iff i)

/-- `MigrationHistoryEntry`'s validators. -/
@[mk_iff]
structure MigrationHistoryEntry.Valid (m : MigrationHistoryEntry) : Prop where
  from_ : 1 ≤ m.fromSchemaVersion
  operations : 1 ≤ m.operations.length ∧ m.operations.length ≤ 32
  texts : ∀ o ∈ m.operations, lengthWithin o 1 240
  advances : m.fromSchemaVersion < m.toSchemaVersion

instance (m : MigrationHistoryEntry) : Decidable (m.Valid) :=
  decidable_of_iff' _ (MigrationHistoryEntry.valid_iff m)

/-! ## Across the document -/

/-- `_attribute_for`. -/
def attributeFor (entities : List EntityDefinition) (entity field : String) :
    Option AttributeDefinition :=
  (entities.find? fun e => e.name = entity).bind fun e => e.attributes.find? fun a => a.name = field

/-- `_is_sqlite_reserved`, of names that are already lower case. -/
def isSqliteReserved (name : String) : Bool := "sqlite_".toList.isPrefixOf name.toList

/-- `visit`, one node of a depth-first search: the nodes completed after
it, or nothing when a cycle was met. The names of `visiting` are on the
path from the root; the fuel bounds that path. -/
def visit (adjacency : String → List String) :
    ℕ → List String → List String → String → Option (List String)
  | 0, _, _, _ => none
  | fuel + 1, visiting, visited, node =>
    if node ∈ visiting then none
    else if node ∈ visited then some visited
    else
      ((adjacency node).foldlM (fun done target =>
        visit adjacency fuel (node :: visiting) done target) visited).map (node :: ·)

/-- `_has_directed_cycle`. -/
def hasDirectedCycle (edges : List (String × String)) : Bool :=
  let sources := ((edges.map Prod.fst).dedup).insertionSort (· ≤ ·)
  let adjacency := fun node =>
    (((edges.filter fun e => e.1 = node).map Prod.snd).dedup).insertionSort (· ≤ ·)
  (sources.foldlM (fun done node => visit adjacency (edges.length + 2) [] done node) []).isNone

/-- What `validate_references` asks of a relationship. -/
@[mk_iff]
structure RelationshipSound (entities : List EntityDefinition) (r : RelationshipDefinition) :
    Prop where
  source : ∃ a ∈ attributeFor entities r.from_.entity r.from_.field,
    a.primaryKey = false ∧ a.type = .uuid
  declared : serverManaged r.from_.field = false
  target : ∃ a ∈ attributeFor entities r.to_.entity r.to_.field,
    a.primaryKey = true ∧ a.type = .uuid
  id : r.to_.field = "id"
  apart : r.from_ ≠ r.to_

instance (entities : List EntityDefinition) (r : RelationshipDefinition) : Decidable (RelationshipSound entities r) :=
  decidable_of_iff' _ (relationshipSound_iff entities r)

/-- The edges that required source fields contribute. -/
def requiredRelationshipEdges (m : ManifestDocument) : List (String × String) :=
  (m.relationships.filter fun r =>
    (attributeFor m.entities r.from_.entity r.from_.field).any (·.required)).map
      fun r => (r.from_.entity, r.to_.entity)

/-- `ManifestV2`'s field constraints and `validate_references`. -/
@[mk_iff]
structure ManifestDocument.Valid (m : ManifestDocument) : Prop where
  schemaVersion : 1 ≤ m.schemaVersion ∧ m.schemaVersion ≤ 65
  entities : ∀ e ∈ m.entities, e.Valid
  entityCount : 1 ≤ m.entities.length ∧ m.entities.length ≤ MAX_ENTITIES
  relationships : ∀ r ∈ m.relationships, r.Valid
  relationshipCount : m.relationships.length ≤ MAX_RELATIONSHIPS
  indices : ∀ i ∈ m.indices, i.Valid
  indexCount : m.indices.length ≤ MAX_INDICES
  queryPatterns : m.queryPatterns.length ≤ MAX_QUERY_PATTERNS ∧
    ∀ p ∈ m.queryPatterns, lengthWithin p 1 240
  facets : ∀ f ∈ m.discoveryFacets, isIdentifier f.entity = true ∧ isIdentifier f.field = true
  facetCount : m.discoveryFacets.length ≤ MAX_DISCOVERY_FACETS
  retrievalGuidance : optionalText m.retrievalGuidance 2000
  migrationHistory : ∀ h ∈ m.migrationHistory, h.Valid
  historyLength : m.migrationHistory.length = m.schemaVersion - 1
  historySteps : ∀ p ∈ m.migrationHistory.zipIdx 1,
    p.1.fromSchemaVersion = p.2 ∧ p.1.toSchemaVersion = p.2 + 1
  entityNames : (m.entities.map (·.name)).Nodup
  entityReserved : ∀ e ∈ m.entities, isSqliteReserved e.name = false
  relationshipNames : (m.relationships.map (·.name)).Nodup
  indexNames : (m.indices.map (·.name)).Nodup
  indexReserved : ∀ i ∈ m.indices, isSqliteReserved i.name = false
  namesApart : ∀ e ∈ m.entities, ∀ i ∈ m.indices, e.name ≠ i.name
  indexDefinitions : (m.indices.map fun i => (i.entity, i.fields, i.unique)).Nodup
  relationshipSources : (m.relationships.map fun r => r.from_).Nodup
  facetDefinitions : m.discoveryFacets.Nodup
  facetTargets : ∀ f ∈ m.discoveryFacets, (attributeFor m.entities f.entity f.field).isSome = true
  indexFields : ∀ i ∈ m.indices, ∀ f ∈ i.fields,
    ∃ a ∈ attributeFor m.entities i.entity f, a.type ≠ .stringList
  relationshipsSound : ∀ r ∈ m.relationships, RelationshipSound m.entities r
  acyclic : hasDirectedCycle (requiredRelationshipEdges m) = false

instance (m : ManifestDocument) : Decidable (m.Valid) :=
  decidable_of_iff' _ (ManifestDocument.valid_iff m)

/-- A document the validators let pass. -/
structure ManifestV2 extends ManifestDocument where
  valid : toManifestDocument.Valid
deriving DecidableEq

end Manifest

end Aipcs

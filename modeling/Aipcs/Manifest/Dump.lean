import Aipcs.Manifest.Definition
import Aipcs.Portable.Number
import Aipcs.Registry.Evidence

/-!
# Manifest — the canonical dump and Python's equality

`manifestJson` is the text `json.dumps` makes of a manifest's dump, keys
sorted, in ASCII. `ManifestDocument.equal` is `==` of two manifests,
under which a number equals another of its value whatever the two types
are.
-/

namespace Aipcs

namespace Manifest

open Registry Portable

/-! ## The dump -/

/-- `json.dumps` of a list whose items are given. -/
def asciiArray (items : List (List Char)) : List Char :=
  '[' :: (items.intersperse [',']).flatten ++ [']']

def asciiBool (b : Bool) : List Char := if b then "true".toList else "false".toList

def asciiNat (n : ℕ) : List Char := Nat.toDigits 10 n

def asciiNull : List Char := "null".toList

/-- `float.__repr__`, of the finite floats a manifest holds. -/
def asciiFloat (x : Binary64) : List Char :=
  let magnitude := if x.bits = 0 then "0.0".toList else pyRepr x.bits
  if x.neg then '-' :: magnitude else magnitude

def AllowedValue.json : AllowedValue → List Char
  | .str s => asciiString s
  | .int i => intText i
  | .float x => asciiFloat x
  | .bool b => asciiBool b

def LogicalType.value : LogicalType → String
  | .string => "string"
  | .integer => "integer"
  | .number => "number"
  | .boolean => "boolean"
  | .datetime => "datetime"
  | .uuid => "uuid"
  | .stringList => "string_list"

def RetrievalMode.value : RetrievalMode → String
  | RetrievalMode.annotation => "annotation"
  | RetrievalMode.membership => "membership"

/-- A text or `null`. -/
def asciiOptional (s : Option String) : List Char := s.elim asciiNull asciiString

def AttributeDefinition.json (a : AttributeDefinition) : List Char :=
  asciiObject [
    ("allowed_values", a.allowedValues.elim asciiNull fun vs => asciiArray (vs.map (·.json))),
    ("description", asciiOptional a.description),
    ("name", asciiString a.name),
    ("primary_key", asciiBool a.primaryKey),
    ("required", asciiBool a.required),
    ("retrieval_mode", asciiOptional (a.retrievalMode.map (·.value))),
    ("type", asciiString a.type.value)]

def EntityDefinition.json (e : EntityDefinition) : List Char :=
  asciiObject [
    ("attributes", asciiArray (e.attributes.map (·.json))),
    ("description", asciiOptional e.description),
    ("name", asciiString e.name)]

def RelationshipEndpoint.json (r : RelationshipEndpoint) : List Char :=
  asciiObject [("entity", asciiString r.entity), ("field", asciiString r.field)]

def RelationshipDefinition.json (r : RelationshipDefinition) : List Char :=
  asciiObject [
    ("from", r.from_.json),
    ("name", asciiString r.name),
    ("on_delete", asciiString "restrict"),
    ("to", r.to_.json)]

def IndexDefinition.json (i : IndexDefinition) : List Char :=
  asciiObject [
    ("entity", asciiString i.entity),
    ("fields", asciiArray (i.fields.map asciiString)),
    ("name", asciiString i.name),
    ("unique", asciiBool i.unique)]

def DiscoveryFacet.json (f : DiscoveryFacet) : List Char :=
  asciiObject [("entity", asciiString f.entity), ("field", asciiString f.field)]

def MigrationHistoryEntry.json (h : MigrationHistoryEntry) : List Char :=
  asciiObject [
    ("from_schema_version", asciiNat h.fromSchemaVersion),
    ("operations", asciiArray (h.operations.map asciiString)),
    ("to_schema_version", asciiNat h.toSchemaVersion)]

/-- `_manifest_json`. -/
def manifestJson (m : ManifestDocument) : List Char :=
  asciiObject [
    ("discovery_facets", asciiArray (m.discoveryFacets.map (·.json))),
    ("entities", asciiArray (m.entities.map (·.json))),
    ("indices", asciiArray (m.indices.map (·.json))),
    ("manifest_version", asciiNat 2),
    ("migration_history", asciiArray (m.migrationHistory.map (·.json))),
    ("query_patterns", asciiArray (m.queryPatterns.map asciiString)),
    ("relationships", asciiArray (m.relationships.map (·.json))),
    ("retrieval_guidance", asciiOptional m.retrievalGuidance),
    ("schema_version", asciiNat m.schemaVersion)]

/-! ## Equality -/

/-- The value of a number, in units of the least positive float. -/
def AllowedValue.number : AllowedValue → Option ℤ
  | .int i => some (i * unit)
  | .float x => if x.Finite then some x.signedUnits else none
  | .bool b => some (if b then unit else 0)
  | .str _ => none

/-- `==` of two values. -/
def AllowedValue.equal (a b : AllowedValue) : Bool := a = b || a.number.isSome && a.number = b.number

/-- `==` of two lists, by that of their items. -/
def listEqual {α : Type} (equal : α → α → Bool) : List α → List α → Bool
  | [], [] => true
  | a :: s, b :: t => equal a b && listEqual equal s t
  | _, _ => false

def AttributeDefinition.equal (a b : AttributeDefinition) : Bool :=
  { a with allowedValues := none } = { b with allowedValues := none } &&
    match a.allowedValues, b.allowedValues with
    | none, none => true
    | some vs, some ws => listEqual AllowedValue.equal vs ws
    | _, _ => false

def EntityDefinition.equal (e f : EntityDefinition) : Bool :=
  e.name = f.name && e.description = f.description &&
    listEqual AttributeDefinition.equal e.attributes f.attributes

/-- `==` of two manifests. -/
def ManifestDocument.equal (m n : ManifestDocument) : Bool :=
  { m with entities := [] } = { n with entities := [] } &&
    listEqual EntityDefinition.equal m.entities n.entities

theorem listEqual_self {α : Type} {equal : α → α → Bool} (h : ∀ a, equal a a = true) (l : List α) :
    listEqual equal l l = true := by
  induction l with
  | nil => rfl
  | cons a l ih => rw [listEqual, h, ih, Bool.and_self]

theorem AttributeDefinition.equal_self (a : AttributeDefinition) : a.equal a = true := by
  unfold AttributeDefinition.equal
  cases a.allowedValues with
  | none => simp
  | some vs => simp [@listEqual_self _ AllowedValue.equal fun v => by simp [AllowedValue.equal]]

theorem EntityDefinition.equal_self (e : EntityDefinition) : e.equal e = true := by
  simp [EntityDefinition.equal, listEqual_self AttributeDefinition.equal_self]

/-- A manifest equals itself. -/
theorem ManifestDocument.equal_self (m : ManifestDocument) : m.equal m = true := by
  simp [ManifestDocument.equal, listEqual_self EntityDefinition.equal_self]

end Manifest

end Aipcs

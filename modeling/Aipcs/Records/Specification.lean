import Aipcs.Manifest.Dump
import Aipcs.Portable.Dumps
import Aipcs.Records.Datetime
import Aipcs.Relational.Specification
import Mathlib.Data.Prod.Lex

/-!
# Records — frozen objects and the record specification

A `FrozenJsonObject` is an object of JSON values with its names in order
and its size within bounds, and so is every object in it. The record
specification keeps of a manifest what its records are checked by;
`validateRecord` is that check, and it leaves the object as it is.
-/

namespace Aipcs

namespace Records

open Manifest Portable Relational

def MAX_RECORD_JSON_BYTES : ℕ := 64 * 1024
def MAX_STRING_BYTES : ℕ := 16 * 1024
def MAX_STRING_LIST_ITEMS : ℕ := 256
def MAX_STRING_LIST_ITEM_CHARS : ℕ := 256

/-! ## Frozen objects -/

/-- `_json_size`: the bytes of `json.dumps(..., ensure_ascii=False)`. -/
def jsonSize (v : PortableJson) : ℕ := (utf8Encode (dumps v)).length

/-- `_validate_json` of a text. -/
def boundedText (s : String) : Bool := s.utf8ByteSize ≤ MAX_STRING_BYTES

/-- The names of a frozen object. -/
def frozenNames (names : List String) : Bool :=
  names.all (fun n => n ≠ "" && !n.toList.contains '\x00') && decide (names.Pairwise (· < ·))

mutual

/-- `_validate_json`, of a value whose objects are frozen. -/
def validateJson : PortableJson → Bool
  | .str s => boundedText s
  | .arr items => validateItems items
  | .obj entries =>
    frozenNames (entries.map Prod.fst) && validateEntries entries &&
      decide (jsonSize (.obj entries) ≤ MAX_RECORD_JSON_BYTES)
  | _ => true

def validateItems : List PortableJson → Bool
  | [] => true
  | v :: rest => validateJson v && validateItems rest

def validateEntries : List (String × PortableJson) → Bool
  | [] => true
  | (_, v) :: rest => validateJson v && validateEntries rest

end

/-- `FrozenJsonObject`. -/
structure FrozenJsonObject where
  entries : List (String × PortableJson)
  frozen : validateJson (.obj entries) = true

namespace FrozenJsonObject

/-- The object as a value. -/
def value (o : FrozenJsonObject) : PortableJson := .obj o.entries

/-- `to_dict`. -/
def toDict (o : FrozenJsonObject) : PyVal := .dict (thawEntries o.entries)

/-- The names, in order. -/
def names (o : FrozenJsonObject) : List String := o.entries.map Prod.fst

/-- `get`. -/
def get? (o : FrozenJsonObject) (name : String) : Option PortableJson := o.entries.lookup name

/-- `FrozenJsonObject(entries)`. -/
def ofEntries (entries : List (String × PortableJson)) : Option FrozenJsonObject :=
  if h : validateJson (.obj entries) = true then some ⟨entries, h⟩ else none

/-- `FrozenJsonObject.from_mapping`. -/
def fromMapping (entries : List (String × PortableJson)) : Option FrozenJsonObject :=
  ofEntries (entries.insertionSort fun a b => a.1 ≤ b.1)

@[ext] theorem ext {o p : FrozenJsonObject} (h : o.entries = p.entries) : o = p := by
  cases o
  cases p
  obtain rfl := h
  rfl

theorem ofEntries_eq_some {entries : List (String × PortableJson)} {o : FrozenJsonObject} :
    ofEntries entries = some o ↔ o.entries = entries := by
  unfold ofEntries
  constructor
  · intro h
    split_ifs at h
    obtain rfl := Option.some.inj h
    rfl
  · rintro rfl
    rw [dif_pos o.frozen]

variable (o : FrozenJsonObject)

theorem frozen_names : frozenNames o.names = true := by
  have h := o.frozen
  rw [validateJson, Bool.and_eq_true, Bool.and_eq_true] at h
  exact h.1.1

/-- The names stand in strict order. -/
theorem pairwise_names : o.names.Pairwise (· < ·) := by
  have h := o.frozen_names
  rw [frozenNames, Bool.and_eq_true, decide_eq_true_eq] at h
  exact h.2

theorem nodup_names : o.names.Nodup := o.pairwise_names.imp fun h => ne_of_lt h

theorem jsonSize_le : jsonSize o.value ≤ MAX_RECORD_JSON_BYTES := by
  have h := o.frozen
  rw [validateJson, Bool.and_eq_true, decide_eq_true_eq] at h
  exact h.2

/-- **Freezing a frozen object gives it back.** -/
@[simp] theorem fromMapping_entries : fromMapping o.entries = some o := by
  have hsorted : o.entries.insertionSort (fun a b => a.1 ≤ b.1) = o.entries :=
    List.Pairwise.insertionSort_eq ((List.pairwise_map.1 o.pairwise_names).imp le_of_lt)
  rw [fromMapping, hsorted, ofEntries_eq_some]

end FrozenJsonObject

/-! ## Fields -/

/-- `RecordField`: the facts of an attribute. -/
abbrev RecordField : Type := AttributeDefinition

structure RecordEntity where
  name : String
  fields : List RecordField
  description : Option String
deriving DecidableEq

/-- `domain_fields`. -/
def RecordEntity.domainFields (e : RecordEntity) : List RecordField :=
  e.fields.filter fun f => !serverManaged f.name

/-- `RecordEntity.field`. -/
def RecordEntity.field (e : RecordEntity) (name : String) : Option RecordField :=
  e.fields.find? fun f => f.name = name

/-- A relationship; its `on_delete` can only be `restrict`. -/
structure RecordRelationship where
  name : String
  sourceEntity : String
  sourceField : String
  targetEntity : String
  targetField : String
deriving DecidableEq

inductive FilterMode where
  | exact
  | membership
  | none
deriving DecidableEq

/-- `filter_mode`. -/
def filterMode (f : RecordField) : FilterMode :=
  if f.retrievalMode = some RetrievalMode.annotation then .none
  else if f.type = .stringList then
    if f.retrievalMode = some .membership then .membership else .none
  else .exact

/-- `DiscoveryFacet`, with the way its field is searched. -/
structure RecordFacet where
  entityName : String
  fieldName : String
  filterMode : FilterMode
deriving DecidableEq

structure RecordSpecification where
  schemaVersion : ℕ
  entities : List RecordEntity
  relationships : List RecordRelationship
  discoveryFacets : List RecordFacet
  queryPatterns : List String
  retrievalGuidance : Option String
deriving DecidableEq

/-- `RecordSpecification.entity`. -/
def RecordSpecification.entity (s : RecordSpecification) (name : String) : Option RecordEntity :=
  s.entities.find? fun e => e.name = name

/-- The entity as the specification has it. -/
def recordEntity (e : EntityDefinition) : RecordEntity :=
  ⟨e.name, sortedBy (·.name) e.attributes, e.description⟩

/-- The relationship as the specification has it. -/
def recordRelationship (r : RelationshipDefinition) : RecordRelationship :=
  ⟨r.name, r.from_.entity, r.from_.field, r.to_.entity, r.to_.field⟩

/-- `RecordSpecification.field`, of a specification's entities. -/
def recordField (entities : List RecordEntity) (entityName fieldName : String) : Option RecordField :=
  (entities.find? fun e => e.name = entityName).bind fun e => e.field fieldName

/-- The facet as the specification has it; nothing where its field is not one. -/
def recordFacet (entities : List RecordEntity) (f : DiscoveryFacet) : Option RecordFacet :=
  (recordField entities f.entity f.field).map fun found => ⟨f.entity, f.field, filterMode found⟩

/-- `sorted(facets, key=lambda value: (value.entity, value.field))`. -/
def sortedFacets (facets : List DiscoveryFacet) : List DiscoveryFacet :=
  facets.insertionSort fun f g => toLex (f.entity, f.field) ≤ toLex (g.entity, g.field)

/-- The entities of `compile_record_specification`. -/
def recordEntities (m : ManifestV2) : List RecordEntity := (sortedBy (·.name) m.entities).map recordEntity

/-- `compile_record_specification`. -/
def compileRecordSpecification (m : ManifestV2) : RecordSpecification where
  schemaVersion := m.schemaVersion
  entities := recordEntities m
  relationships := (sortedBy (·.name) m.relationships).map recordRelationship
  discoveryFacets := (sortedFacets m.discoveryFacets).filterMap (recordFacet (recordEntities m))
  queryPatterns := m.queryPatterns
  retrievalGuidance := m.retrievalGuidance

/-! ## Values -/

/-- An item of a string list. -/
def listItem : PortableJson → Bool
  | .str s => s ≠ "" && s.length ≤ MAX_STRING_LIST_ITEM_CHARS && !s.toList.contains '\x00'
  | _ => false

/-- The texts among a list's items. -/
def texts (items : List PortableJson) : List String :=
  items.filterMap fun v => match v with
    | .str s => some s
    | _ => none

/-- `_matches_type`. -/
def matchesType : PortableJson → LogicalType → Bool
  | .str s, .string => boundedText s && !s.toList.contains '\x00'
  | .int _, .integer => true
  | .int i, .number => decide (isExactInteger i.1)
  | .float _, .number => true
  | .bool _, .boolean => true
  | .str s, .uuid => canonicalUuid s
  | .str s, .datetime => canonicalDatetime s
  | .arr items, .stringList =>
    items.length ≤ MAX_STRING_LIST_ITEMS && items.all listItem && decide (texts items).Nodup
  | _, _ => false

/-- A scalar, as the allowed values are. -/
def scalar : PortableJson → Option AllowedValue
  | .str s => some (.str s)
  | .int i => some (.int i.1)
  | .float x => some (.float x.1)
  | .bool b => some (.bool b)
  | _ => none

/-- `value in allowed_values`. -/
def allowed (values : List AllowedValue) (v : PortableJson) : Bool :=
  (scalar v).any fun a => values.any a.equal

/-- `_matches_enumeration`. -/
def matchesEnumeration (values : List AllowedValue) (v : PortableJson) : LogicalType → Bool
  | .stringList =>
    match v with
    | .arr items => items.all (allowed values)
    | _ => false
  | _ => allowed values v

/-- What `_validate_record` asks of a field's value. -/
def validateValue (f : RecordField) (v : PortableJson) : Bool :=
  match v with
  | .null => !f.required
  | v => matchesType v f.type && f.allowedValues.all fun values => matchesEnumeration values v f.type

/-- What `_validate_record` asks of one entry of an object. -/
def validateEntry (fields : List RecordField) (entry : String × PortableJson) : Bool :=
  (fields.find? fun f => f.name = entry.1).any fun f => validateValue f entry.2

/-- `_validate_record`, of an object that is frozen already. -/
def validateRecord (s : RecordSpecification) (entityName : String) (o : FrozenJsonObject)
    (requireRequired requireNonempty : Bool) : Bool :=
  match s.entity entityName with
  | none => false
  | some e =>
    !(requireNonempty && o.entries.isEmpty) && o.entries.all (validateEntry e.domainFields) &&
      (!requireRequired || e.domainFields.all fun f => !f.required || o.names.contains f.name)

/-- `validate_create`. -/
def validateCreate (s : RecordSpecification) (entityName : String) (o : FrozenJsonObject) : Bool :=
  validateRecord s entityName o true false

/-- `validate_updates`. -/
def validateUpdates (s : RecordSpecification) (entityName : String) (o : FrozenJsonObject) : Bool :=
  validateRecord s entityName o false true

section compile

variable {m : ManifestV2} {s : RecordSpecification} {name : String} {e : RecordEntity}

theorem RecordSpecification.entity_eq_some (h : s.entity name = some e) : e ∈ s.entities ∧ e.name = name :=
  ⟨List.mem_of_find?_eq_some h, by simpa using List.find?_some h⟩

/-- The entity of a name is the manifest's. -/
theorem entity_compile (h : (compileRecordSpecification m).entity name = some e) :
    ∃ d ∈ m.entities, d.name = name ∧ recordEntity d = e := by
  obtain ⟨he, hname⟩ := RecordSpecification.entity_eq_some h
  obtain ⟨d, hd, rfl⟩ := List.mem_map.1 he
  exact ⟨d, mem_sortedBy.1 hd, hname, rfl⟩

theorem nodup_recordEntities : ((recordEntities m).map (·.name)).Nodup := by
  have hname : (fun x : RecordEntity => x.name) ∘ recordEntity = fun d => d.name := rfl
  rw [recordEntities, List.map_map, hname, ((perm_sortedBy (·.name) m.entities).map _).nodup_iff]
  exact m.valid.entityNames

theorem compile_entity {d : EntityDefinition} (hd : d ∈ m.entities) :
    (compileRecordSpecification m).entity d.name = some (recordEntity d) :=
  (find?_name_eq_some_iff nodup_recordEntities).2 ⟨List.mem_map_of_mem (mem_sortedBy.2 hd), rfl⟩

/-- A record that validates is of an entity of the specification. -/
theorem validateRecord_entity {o : FrozenJsonObject} {requireRequired requireNonempty : Bool}
    (h : validateRecord s name o requireRequired requireNonempty = true) :
    ∃ e, s.entity name = some e ∧ o.entries.all (validateEntry e.domainFields) = true := by
  unfold validateRecord at h
  split at h
  · exact absurd h (by simp)
  · rename_i e he
    rw [Bool.and_eq_true, Bool.and_eq_true] at h
    exact ⟨e, he, h.1.2⟩

end compile

end Records

end Aipcs

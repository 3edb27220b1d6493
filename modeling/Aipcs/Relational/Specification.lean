import Aipcs.Manifest.Definition

/-!
# Relational — the specification a manifest compiles to

The physical facts of a manifest, in name order: its entities with their
fields, its relationships and its indices. The validators of the
specification's parts repeat those of the manifest's, so compiling a
`ManifestV2` does not fail.
-/

namespace Aipcs

namespace Relational

open Manifest

structure RelationalField where
  name : String
  logicalType : LogicalType
  required : Bool
  primaryKey : Bool
deriving DecidableEq

structure RelationalEntity where
  name : String
  fields : List RelationalField
deriving DecidableEq

/-- A relationship; both its actions are `restrict` and its constraint is immediate. -/
structure RelationalRelationship where
  name : String
  sourceEntity : String
  sourceField : String
  targetEntity : String
  targetField : String
deriving DecidableEq

structure RelationalIndex where
  name : String
  entity : String
  fields : List String
  unique : Bool
deriving DecidableEq

structure RelationalSpecification where
  schemaVersion : ℕ
  entities : List RelationalEntity
  relationships : List RelationalRelationship
  indices : List RelationalIndex
deriving DecidableEq

/-- `sorted(items, key=lambda item: item.name)`. -/
def sortedBy {α : Type} (name : α → String) (items : List α) : List α :=
  items.insertionSort fun a b => name a ≤ name b

section sortedBy

variable {α : Type} {name : α → String} {items : List α}

theorem perm_sortedBy (name : α → String) (items : List α) : (sortedBy name items).Perm items :=
  List.perm_insertionSort _ items

@[simp] theorem mem_sortedBy {a : α} : a ∈ sortedBy name items ↔ a ∈ items :=
  (perm_sortedBy name items).mem_iff

theorem pairwise_sortedBy (name : α → String) (items : List α) :
    ((sortedBy name items).map name).Pairwise (· ≤ ·) := by
  have : Std.Total fun a b : α => name a ≤ name b := ⟨fun a b => le_total (name a) (name b)⟩
  have : IsTrans α fun a b => name a ≤ name b := ⟨fun _ _ _ => le_trans⟩
  exact List.pairwise_map.2 (List.pairwise_insertionSort (fun a b => name a ≤ name b) items)

/-- Where names are distinct, the first of a name is the only one. -/
theorem find?_name_eq_some_iff (h : (items.map name).Nodup) {n : String} {a : α} :
    (items.find? fun b => name b = n) = some a ↔ a ∈ items ∧ name a = n := by
  constructor
  · exact fun hfind => ⟨List.mem_of_find?_eq_some hfind, by simpa using List.find?_some hfind⟩
  · rintro ⟨hmem, hname⟩
    cases hfind : items.find? fun b => name b = n with
    | none => exact absurd hname (by simpa using List.find?_eq_none.1 hfind a hmem)
    | some b =>
      have hb : name b = n := by simpa using List.find?_some hfind
      exact congrArg some (List.inj_on_of_nodup_map h (List.mem_of_find?_eq_some hfind) hmem (hb.trans hname.symm))

/-- Sorting does not change what a name finds. -/
theorem find?_sortedBy (h : (items.map name).Nodup) (n : String) :
    ((sortedBy name items).find? fun b => name b = n) = items.find? fun b => name b = n := by
  have hsorted : ((sortedBy name items).map name).Nodup := ((perm_sortedBy name items).map name).nodup_iff.2 h
  ext a
  rw [find?_name_eq_some_iff hsorted, find?_name_eq_some_iff h, mem_sortedBy]

end sortedBy

/-- `_field`. -/
def field (a : AttributeDefinition) : RelationalField :=
  ⟨a.name, a.type, a.required, a.primaryKey⟩

/-- `_entity`. -/
def entity (e : EntityDefinition) : RelationalEntity := ⟨e.name, e.attributes.map field⟩

/-- The relationship as the specification has it. -/
def relationship (r : RelationshipDefinition) : RelationalRelationship :=
  ⟨r.name, r.from_.entity, r.from_.field, r.to_.entity, r.to_.field⟩

/-- The index as the specification has it. -/
def index (i : IndexDefinition) : RelationalIndex := ⟨i.name, i.entity, i.fields, i.unique⟩

/-- `compile_manifest`. -/
def compileManifest (m : ManifestV2) : RelationalSpecification where
  schemaVersion := m.schemaVersion
  entities := (sortedBy (·.name) m.entities).map entity
  relationships := (sortedBy (·.name) m.relationships).map relationship
  indices := (sortedBy (·.name) m.indices).map index

section compileManifest

variable {m : ManifestV2}

theorem mem_entities {e : RelationalEntity} :
    e ∈ (compileManifest m).entities ↔ ∃ d ∈ m.entities, entity d = e := by
  simp [compileManifest]

theorem mem_relationships {r : RelationalRelationship} :
    r ∈ (compileManifest m).relationships ↔ ∃ d ∈ m.relationships, relationship d = r := by
  simp [compileManifest]

theorem mem_indices {i : RelationalIndex} :
    i ∈ (compileManifest m).indices ↔ ∃ d ∈ m.indices, index d = i := by
  simp [compileManifest]

theorem nodup_entities : ((compileManifest m).entities.map (·.name)).Nodup := by
  have hname : (fun x : RelationalEntity => x.name) ∘ entity = fun d => d.name := rfl
  rw [compileManifest, List.map_map, hname, ((perm_sortedBy (·.name) m.entities).map _).nodup_iff]
  exact m.valid.entityNames

theorem nodup_relationships : ((compileManifest m).relationships.map (·.name)).Nodup := by
  have hname : (fun x : RelationalRelationship => x.name) ∘ relationship = fun d => d.name := rfl
  rw [compileManifest, List.map_map, hname, ((perm_sortedBy (·.name) m.relationships).map _).nodup_iff]
  exact m.valid.relationshipNames

theorem nodup_indices : ((compileManifest m).indices.map (·.name)).Nodup := by
  have hname : (fun x : RelationalIndex => x.name) ∘ index = fun d => d.name := rfl
  rw [compileManifest, List.map_map, hname, ((perm_sortedBy (·.name) m.indices).map _).nodup_iff]
  exact m.valid.indexNames

/-- No index takes an entity's name. -/
theorem index_name_ne_entity_name {e : RelationalEntity} (he : e ∈ (compileManifest m).entities)
    {i : RelationalIndex} (hi : i ∈ (compileManifest m).indices) : i.name ≠ e.name := by
  obtain ⟨d, hd, rfl⟩ := mem_entities.1 he
  obtain ⟨j, hj, rfl⟩ := mem_indices.1 hi
  exact (m.valid.namesApart d hd j hj).symm

/-- The fields of an entity are told apart by their names. -/
theorem nodup_fields {e : RelationalEntity} (he : e ∈ (compileManifest m).entities) :
    (e.fields.map (·.name)).Nodup := by
  obtain ⟨d, hd, rfl⟩ := mem_entities.1 he
  have hname : (fun x : RelationalField => x.name) ∘ field = fun a => a.name := rfl
  rw [entity, List.map_map, hname]
  exact (m.valid.entities d hd).distinct

/-- An index is over fields of its entity. -/
theorem index_fields {i : RelationalIndex} (hi : i ∈ (compileManifest m).indices) :
    ∃ e ∈ (compileManifest m).entities, e.name = i.entity ∧
      ∀ f ∈ i.fields, ∃ x ∈ e.fields, x.name = f := by
  obtain ⟨d, hd, rfl⟩ := mem_indices.1 hi
  have hfield : ∀ f ∈ d.fields, ∃ e, (m.entities.find? fun e => e.name = d.entity) = some e ∧
      ∃ a ∈ e.attributes, a.name = f := fun f hf => by
    obtain ⟨a, ha, -⟩ := m.valid.indexFields d hd f hf
    obtain ⟨e, he, ha⟩ := Option.bind_eq_some_iff.1 ha
    exact ⟨e, he, a, List.mem_of_find?_eq_some ha, by simpa using List.find?_some ha⟩
  obtain ⟨f, hf⟩ := List.exists_mem_of_length_pos (m.valid.indices d hd).length.1
  obtain ⟨e, he, -⟩ := hfield f hf
  have hname : e.name = d.entity := by simpa using List.find?_some he
  refine ⟨entity e, mem_entities.2 ⟨e, List.mem_of_find?_eq_some he, rfl⟩, hname, fun g hg => ?_⟩
  obtain ⟨e', he', a, ha, hfound⟩ := hfield g hg
  obtain rfl := Option.some.inj (he.symm.trans he')
  exact ⟨field a, List.mem_map_of_mem ha, hfound⟩

/-- A manifest has an entity. -/
theorem entities_ne_nil : (compileManifest m).entities ≠ [] := by
  obtain ⟨e, he⟩ := List.exists_mem_of_length_pos (Nat.lt_of_lt_of_le Nat.zero_lt_one m.valid.entityCount.1)
  exact List.ne_nil_of_mem (mem_entities.2 ⟨e, he, rfl⟩)

end compileManifest

end Relational

end Aipcs

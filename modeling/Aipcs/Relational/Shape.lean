import Aipcs.Manifest.Graph
import Aipcs.Relational.Specification

/-!
# Relational — what a specification must be

The checks that the parts of a specification make when they are built,
and `_validate_specification_shape`, which looks across it. They repeat
the manifest's under other names, so what a manifest compiles to passes
them (`compileManifest_valid`); the search for a cycle among the required
relationships is exact in both places.
-/

namespace Aipcs

namespace Relational

open Manifest

def MAX_SCHEMA_VERSION : ℕ := 65
def MAX_INDEX_FIELDS : ℕ := 8
def MAX_RELATIONSHIP_NAME : ℕ := 48
def MAX_INDEX_NAME : ℕ := 48

/-! ## One part at a time -/

/-- `RelationalField`'s checks. -/
@[mk_iff]
structure RelationalField.Valid (f : RelationalField) : Prop where
  name : isIdentifier f.name = true
  primaryKey : f.primaryKey = true → f.required = true

instance (f : RelationalField) : Decidable f.Valid := decidable_of_iff' _ (RelationalField.valid_iff f)

/-- `RelationalEntity`'s checks. -/
@[mk_iff]
structure RelationalEntity.Valid (e : RelationalEntity) : Prop where
  name : isIdentifier e.name = true
  length : 1 ≤ e.fields.length ∧ e.fields.length ≤ MAX_ATTRIBUTES_PER_ENTITY
  fields : ∀ f ∈ e.fields, f.Valid
  distinct : (e.fields.map (·.name)).Nodup
  managed : ∀ a ∈ SERVER_MANAGED_FIELDS, field a ∈ e.fields
  onlyKey : ∀ f ∈ e.fields, f.primaryKey = true → f.name = "id"

instance (e : RelationalEntity) : Decidable e.Valid := decidable_of_iff' _ (RelationalEntity.valid_iff e)

/-- `RelationalRelationship`'s checks. -/
@[mk_iff]
structure RelationalRelationship.Valid (r : RelationalRelationship) : Prop where
  name : isIdentifier r.name = true ∧ r.name.length ≤ MAX_RELATIONSHIP_NAME
  source : isIdentifier r.sourceEntity = true ∧ isIdentifier r.sourceField = true
  target : isIdentifier r.targetEntity = true ∧ isIdentifier r.targetField = true

instance (r : RelationalRelationship) : Decidable r.Valid :=
  decidable_of_iff' _ (RelationalRelationship.valid_iff r)

/-- `RelationalIndex`'s checks. -/
@[mk_iff]
structure RelationalIndex.Valid (i : RelationalIndex) : Prop where
  name : isIdentifier i.name = true ∧ i.name.length ≤ MAX_INDEX_NAME
  entity : isIdentifier i.entity = true
  fields : ∀ f ∈ i.fields, isIdentifier f = true
  length : 1 ≤ i.fields.length ∧ i.fields.length ≤ MAX_INDEX_FIELDS
  distinct : i.fields.Nodup

instance (i : RelationalIndex) : Decidable i.Valid := decidable_of_iff' _ (RelationalIndex.valid_iff i)

/-! ## Across the specification -/

namespace RelationalSpecification

variable (s : RelationalSpecification)

/-- `entities.get(name)`. -/
def entity? (name : String) : Option RelationalEntity := s.entities.find? fun e => e.name = name

/-- `_entity_field`, of an entity that there is. -/
def entityField (entity field : String) : Option RelationalField :=
  (s.entity? entity).bind fun e => e.fields.find? fun f => f.name = field

/-- Does the relationship start at a required field? -/
def required (r : RelationalRelationship) : Bool :=
  (s.entityField r.sourceEntity r.sourceField).any (·.required)

/-- `required_graph`: under each entity, where its required relationships
lead. -/
def requiredGraph : List (String × List String) :=
  s.entities.map fun e =>
    (e.name, ((s.relationships.filter fun r => r.sourceEntity = e.name && s.required r).map
      (·.targetEntity)).dedup)

end RelationalSpecification

/-- `graph[node]`. -/
def targets (graph : List (String × List String)) (node : String) : List String :=
  (graph.lookup node).getD []

/-- `_has_directed_cycle`, the targets of a node in whatever order they come. -/
def hasDirectedCycle (graph : List (String × List String)) : Bool :=
  (DepthFirst.search (targets graph) (graph.length + 1) (graph.map Prod.fst)).isNone

/-- What `_validate_specification_shape` asks of a relationship. -/
@[mk_iff]
structure EndpointsSound (s : RelationalSpecification) (r : RelationalRelationship) : Prop where
  source : ∃ f ∈ s.entityField r.sourceEntity r.sourceField, f.logicalType = .uuid ∧ f.primaryKey = false
  target : ∃ f ∈ s.entityField r.targetEntity r.targetField, f.logicalType = .uuid ∧ f.primaryKey = true
  id : r.targetField = "id"

instance (s : RelationalSpecification) (r : RelationalRelationship) : Decidable (EndpointsSound s r) :=
  decidable_of_iff' _ (endpointsSound_iff s r)

/-- `RelationalSpecification`'s checks and `_validate_specification_shape`. -/
@[mk_iff]
structure RelationalSpecification.Valid (s : RelationalSpecification) : Prop where
  schemaVersion : 1 ≤ s.schemaVersion ∧ s.schemaVersion ≤ MAX_SCHEMA_VERSION
  entities : ∀ e ∈ s.entities, e.Valid
  entityCount : 1 ≤ s.entities.length ∧ s.entities.length ≤ MAX_ENTITIES
  relationships : ∀ r ∈ s.relationships, r.Valid
  relationshipCount : s.relationships.length ≤ MAX_RELATIONSHIPS
  indices : ∀ i ∈ s.indices, i.Valid
  indexCount : s.indices.length ≤ MAX_INDICES
  sorted : (s.entities.map (·.name)).Pairwise (· ≤ ·) ∧ (s.relationships.map (·.name)).Pairwise (· ≤ ·) ∧
    (s.indices.map (·.name)).Pairwise (· ≤ ·)
  entityNames : (s.entities.map (·.name)).Nodup
  entityReserved : ∀ e ∈ s.entities, isSqliteReserved e.name = false
  relationshipNames : (s.relationships.map (·.name)).Nodup
  indexNames : (s.indices.map (·.name)).Nodup
  indexReserved : ∀ i ∈ s.indices, isSqliteReserved i.name = false
  namesApart : ∀ e ∈ s.entities, ∀ i ∈ s.indices, e.name ≠ i.name
  endpoints : ∀ r ∈ s.relationships, EndpointsSound s r
  sources : (s.relationships.map fun r => (r.sourceEntity, r.sourceField)).Nodup
  acyclic : hasDirectedCycle s.requiredGraph = false
  indexFields : ∀ i ∈ s.indices, ∀ f ∈ i.fields, ∃ x ∈ s.entityField i.entity f, x.logicalType ≠ .stringList
  indexDefinitions : (s.indices.map fun i => (i.entity, i.fields, i.unique)).Nodup

instance (s : RelationalSpecification) : Decidable s.Valid :=
  decidable_of_iff' _ (RelationalSpecification.valid_iff s)

/-- `_detached_manifest`: the manifest's public form, validated again. -/
def detachedManifest (m : ManifestV2) : Option ManifestV2 :=
  if h : m.toManifestDocument.Valid then some ⟨m.toManifestDocument, h⟩ else none

/-- `compile_manifest`, which raises when a part refuses to be built. -/
def compileManifestChecked (m : ManifestV2) : Option RelationalSpecification := do
  let checked ← detachedManifest m
  guard (compileManifest checked).Valid
  some (compileManifest checked)

/-! ## The search for a cycle -/

/-- The edges of a graph. -/
def GraphEdge (graph : List (String × List String)) (a b : String) : Prop :=
  ∃ targets, (a, targets) ∈ graph ∧ b ∈ targets

theorem lookup_eq_some_iff {graph : List (String × List String)} (h : (graph.map Prod.fst).Nodup) {a : String}
    {found : List String} : graph.lookup a = some found ↔ (a, found) ∈ graph := by
  induction graph with
  | nil => simp
  | cons head graph ih =>
    obtain ⟨name, ends⟩ := head
    obtain ⟨hname, htail⟩ := List.nodup_cons.1 h
    rw [List.lookup_cons, List.mem_cons]
    by_cases hEq : a = name
    · subst hEq
      have hnot : (a, found) ∉ graph := fun hmem => hname (List.mem_map.2 ⟨_, hmem, rfl⟩)
      simp [hnot, eq_comm]
    · have hfalse : (a == name) = false := by simpa using hEq
      rw [hfalse]
      simp [hEq, ih htail]

theorem mem_targets {graph : List (String × List String)} (h : (graph.map Prod.fst).Nodup) {a b : String} :
    b ∈ targets graph a ↔ GraphEdge graph a b := by
  rw [targets, GraphEdge]
  constructor
  · intro hb
    cases hl : graph.lookup a with
    | none => exact absurd hb (by simp [hl])
    | some found => exact ⟨found, (lookup_eq_some_iff h).1 hl, by simpa [hl] using hb⟩
  · rintro ⟨found, hmem, hb⟩
    rw [(lookup_eq_some_iff h).2 hmem]
    exact hb

/-- **The search finds the cycles there are.** -/
theorem hasDirectedCycle_iff {graph : List (String × List String)} (h : (graph.map Prod.fst).Nodup) :
    hasDirectedCycle graph = true ↔ ∃ a, Relation.TransGen (GraphEdge graph) a a := by
  have hroots : ∀ a b, b ∈ targets graph a → a ∈ graph.map Prod.fst := by
    intro a b hb
    obtain ⟨found, hmem, -⟩ := (mem_targets h).1 hb
    exact List.mem_map_of_mem hmem
  have hedge : DepthFirst.Edge (targets graph) = GraphEdge graph := by
    funext a b
    exact propext (mem_targets h)
  rw [hasDirectedCycle, Option.isNone_iff_eq_none,
    DepthFirst.search_eq_none_iff hroots hroots (by rw [List.length_map]; omega), DepthFirst.Cyclic, hedge]

/-! ## What a manifest compiles to -/

theorem field_valid {a : AttributeDefinition} (h : a.Valid) : (field a).Valid := ⟨h.name, h.primaryKey⟩

theorem entity_valid {e : EntityDefinition} (h : e.Valid) : (entity e).Valid where
  name := h.name
  length := by
    have hlength : (entity e).fields.length = e.attributes.length := List.length_map _
    rw [hlength]
    exact ⟨le_trans (by decide) h.length.1, h.length.2⟩
  fields := fun f hf => by
    obtain ⟨a, ha, rfl⟩ := List.mem_map.1 hf
    exact field_valid (h.attributes a ha)
  distinct := by
    have hname : (fun x : RelationalField => x.name) ∘ field = fun a => a.name := rfl
    rw [entity, List.map_map, hname]
    exact h.distinct
  managed := fun a ha => List.mem_map_of_mem (h.managed a ha)
  onlyKey := fun f hf hkey => by
    obtain ⟨a, ha, rfl⟩ := List.mem_map.1 hf
    exact h.onlyKey a ha hkey

theorem relationship_valid {r : RelationshipDefinition} (h : r.Valid) : (relationship r).Valid :=
  ⟨h.name, h.from_, h.to_⟩

theorem index_valid {i : IndexDefinition} (h : i.Valid) : (index i).Valid :=
  ⟨h.name, h.entity, h.fields, h.length, h.distinct⟩

section compileManifest

variable {m : ManifestV2}

/-- A field of the specification is the manifest's attribute. -/
theorem entityField_compileManifest (entityName fieldName : String) :
    (compileManifest m).entityField entityName fieldName =
      (attributeFor m.entities entityName fieldName).map field := by
  have hfind : (compileManifest m).entity? entityName =
      (m.entities.find? fun e => e.name = entityName).map entity := by
    rw [RelationalSpecification.entity?, compileManifest, List.find?_map,
      ← find?_sortedBy m.valid.entityNames entityName]
    rfl
  rw [RelationalSpecification.entityField, hfind, attributeFor]
  cases m.entities.find? fun e => e.name = entityName with
  | none => rfl
  | some e =>
    rw [Option.map_some, Option.bind_some, Option.bind_some, entity, List.find?_map]
    rfl

theorem endpointsSound_compileManifest {r : RelationshipDefinition} (h : RelationshipSound m.entities r) :
    EndpointsSound (compileManifest m) (relationship r) := by
  obtain ⟨a, ha, hkey, htype⟩ := h.source
  obtain ⟨b, hb, hbkey, hbtype⟩ := h.target
  refine ⟨⟨field a, ?_, htype, hkey⟩, ⟨field b, ?_, hbtype, hbkey⟩, h.id⟩
  · rw [entityField_compileManifest]
    exact Option.mem_map_of_mem field ha
  · rw [entityField_compileManifest]
    exact Option.mem_map_of_mem field hb

/-- The required relationship of a specification is the manifest's. -/
theorem required_compileManifest (r : RelationshipDefinition) :
    (compileManifest m).required (relationship r) =
      (attributeFor m.entities r.from_.entity r.from_.field).any (·.required) := by
  rw [RelationalSpecification.required, entityField_compileManifest, relationship]
  cases attributeFor m.entities r.from_.entity r.from_.field <;> rfl

/-- **The two modules search one graph.** -/
theorem graphEdge_compileManifest {a b : String} :
    GraphEdge (compileManifest m).requiredGraph a b ↔ (a, b) ∈ requiredRelationshipEdges m.toManifestDocument := by
  rw [GraphEdge, requiredRelationshipEdges]
  constructor
  · rintro ⟨ends, hmem, hb⟩
    obtain ⟨e, -, heq⟩ := List.mem_map.1 hmem
    obtain ⟨rfl, rfl⟩ := Prod.mk.inj heq
    obtain ⟨r, hr, rfl⟩ := List.mem_map.1 (List.mem_dedup.1 hb)
    obtain ⟨hr, hcond⟩ := List.mem_filter.1 hr
    obtain ⟨d, hd, rfl⟩ := mem_relationships.1 hr
    rw [Bool.and_eq_true, decide_eq_true_eq, required_compileManifest] at hcond
    exact List.mem_map.2 ⟨d, List.mem_filter.2 ⟨hd, hcond.2⟩, congrArg (·, d.to_.entity) hcond.1⟩
  · intro hmem
    obtain ⟨d, hd, heq⟩ := List.mem_map.1 hmem
    obtain ⟨rfl, rfl⟩ := Prod.mk.inj heq
    obtain ⟨hd, hrequired⟩ := List.mem_filter.1 hd
    -- the relationship's source entity is one of the manifest's
    obtain ⟨f, hf, -⟩ := (endpointsSound_compileManifest (m.valid.relationshipsSound d hd)).source
    obtain ⟨e, he, -⟩ := Option.bind_eq_some_iff.1 hf
    have hname := List.find?_some he
    rw [decide_eq_true_eq] at hname
    replace hname : e.name = d.from_.entity := hname
    refine ⟨_, List.mem_map.2 ⟨e, List.mem_of_find?_eq_some he, congrArg₂ Prod.mk hname rfl⟩, ?_⟩
    rw [List.mem_dedup, List.mem_map]
    refine ⟨relationship d, List.mem_filter.2 ⟨mem_relationships.2 ⟨d, hd, rfl⟩, ?_⟩, rfl⟩
    rw [Bool.and_eq_true, decide_eq_true_eq, required_compileManifest]
    exact ⟨hname.symm, hrequired⟩

theorem nodup_requiredGraph : ((compileManifest m).requiredGraph.map Prod.fst).Nodup := by
  have hname : (compileManifest m).requiredGraph.map Prod.fst = (compileManifest m).entities.map (·.name) := by
    rw [RelationalSpecification.requiredGraph, List.map_map]
    rfl
  rw [hname]
  exact nodup_entities

theorem acyclic_compileManifest : hasDirectedCycle (compileManifest m).requiredGraph = false := by
  have hedge : GraphEdge (compileManifest m).requiredGraph =
      fun a b => (a, b) ∈ requiredRelationshipEdges m.toManifestDocument := by
    funext a b
    exact propext graphEdge_compileManifest
  rw [Bool.eq_false_iff, Ne, hasDirectedCycle_iff nodup_requiredGraph, hedge, ← Manifest.hasDirectedCycle_iff]
  exact Bool.eq_false_iff.1 m.valid.acyclic

/-- **Every manifest compiles**: no part of its specification refuses to be built. -/
theorem compileManifest_valid (m : ManifestV2) : (compileManifest m).Valid where
  schemaVersion := m.valid.schemaVersion
  entities := fun e he => by
    obtain ⟨d, hd, rfl⟩ := mem_entities.1 he
    exact entity_valid (m.valid.entities d hd)
  entityCount := by
    have hlength : (compileManifest m).entities.length = m.entities.length := by
      rw [compileManifest, List.length_map, (perm_sortedBy _ _).length_eq]
    rw [hlength]
    exact m.valid.entityCount
  relationships := fun r hr => by
    obtain ⟨d, hd, rfl⟩ := mem_relationships.1 hr
    exact relationship_valid (m.valid.relationships d hd)
  relationshipCount := by
    have hlength : (compileManifest m).relationships.length = m.relationships.length := by
      rw [compileManifest, List.length_map, (perm_sortedBy _ _).length_eq]
    rw [hlength]
    exact m.valid.relationshipCount
  indices := fun i hi => by
    obtain ⟨d, hd, rfl⟩ := mem_indices.1 hi
    exact index_valid (m.valid.indices d hd)
  indexCount := by
    have hlength : (compileManifest m).indices.length = m.indices.length := by
      rw [compileManifest, List.length_map, (perm_sortedBy _ _).length_eq]
    rw [hlength]
    exact m.valid.indexCount
  sorted := by
    refine ⟨?_, ?_, ?_⟩
    · simpa [compileManifest, Function.comp_def, entity] using pairwise_sortedBy (·.name) m.entities
    · simpa [compileManifest, Function.comp_def, relationship] using pairwise_sortedBy (·.name) m.relationships
    · simpa [compileManifest, Function.comp_def, index] using pairwise_sortedBy (·.name) m.indices
  entityNames := nodup_entities
  entityReserved := fun e he => by
    obtain ⟨d, hd, rfl⟩ := mem_entities.1 he
    exact m.valid.entityReserved d hd
  relationshipNames := nodup_relationships
  indexNames := nodup_indices
  indexReserved := fun i hi => by
    obtain ⟨d, hd, rfl⟩ := mem_indices.1 hi
    exact m.valid.indexReserved d hd
  namesApart := fun e he i hi => (index_name_ne_entity_name he hi).symm
  endpoints := fun r hr => by
    obtain ⟨d, hd, rfl⟩ := mem_relationships.1 hr
    exact endpointsSound_compileManifest (m.valid.relationshipsSound d hd)
  sources := by
    rw [compileManifest, List.map_map, ((perm_sortedBy _ m.relationships).map _).nodup_iff]
    refine (List.nodup_map_iff_inj_on (m.valid.relationshipNames.of_map _)).2 fun r hr q hq heq => ?_
    refine List.inj_on_of_nodup_map m.valid.relationshipSources hr hq ?_
    obtain ⟨hentity, hfield⟩ := Prod.mk.inj heq
    exact (RelationshipEndpoint.mk.injEq ..).mpr ⟨hentity, hfield⟩
  acyclic := acyclic_compileManifest
  indexFields := fun i hi f hf => by
    obtain ⟨d, hd, rfl⟩ := mem_indices.1 hi
    obtain ⟨a, ha, htype⟩ := m.valid.indexFields d hd f hf
    refine ⟨field a, ?_, htype⟩
    rw [entityField_compileManifest]
    exact Option.mem_map_of_mem field ha
  indexDefinitions := by
    rw [compileManifest, List.map_map, ((perm_sortedBy _ m.indices).map _).nodup_iff]
    exact m.valid.indexDefinitions

theorem detachedManifest_eq (m : ManifestV2) : detachedManifest m = some m := dif_pos m.valid

theorem compileManifestChecked_eq (m : ManifestV2) : compileManifestChecked m = some (compileManifest m) := by
  rw [compileManifestChecked, detachedManifest_eq]
  simp [guard, compileManifest_valid m]

end compileManifest

end Relational

end Aipcs

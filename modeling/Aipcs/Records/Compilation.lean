import Aipcs.Records.Specification
import Aipcs.Relational.Shape

/-!
# Records — every manifest compiles, twice

What the record specification asks of its parts, which the manifest's
validators have asked already under other names and bounds; and that the
record specification and the relational one are of one schema.
-/

namespace Aipcs

namespace Records

open Manifest Portable Relational

/-! ## What a record specification must be -/

/-- `_matches_allowed_value`. -/
def matchesAllowedValue : AllowedValue → LogicalType → Prop
  | .str s, .stringList => 0 < s.length ∧ s.length ≤ MAX_STRING_LIST_ITEM_CHARS ∧ '\x00' ∉ s.toList
  | .str s, .string => boundedText s = true ∧ '\x00' ∉ s.toList
  | .str s, .uuid => canonicalUuid s = true
  | .str s, .datetime => canonicalDatetime s = true
  | .int i, .integer => isSigned64Integer i
  | .int i, .number => isExactInteger i
  | .float x, .number => x.Finite
  | .bool _, .boolean => True
  | _, _ => False

instance (v : AllowedValue) (t : LogicalType) : Decidable (matchesAllowedValue v t) :=
  match v, t with
  | .str s, .stringList => inferInstanceAs (Decidable (0 < s.length ∧ s.length ≤ MAX_STRING_LIST_ITEM_CHARS ∧ _))
  | .str s, .string => inferInstanceAs (Decidable (boundedText s = true ∧ _))
  | .str s, .uuid => inferInstanceAs (Decidable (canonicalUuid s = true))
  | .str s, .datetime => inferInstanceAs (Decidable (canonicalDatetime s = true))
  | .int i, .integer => inferInstanceAs (Decidable (isSigned64Integer i))
  | .int i, .number => inferInstanceAs (Decidable (isExactInteger i))
  | .float x, .number => inferInstanceAs (Decidable x.Finite)
  | .bool _, .boolean => isTrue trivial
  | .str _, .integer | .str _, .number | .str _, .boolean => isFalse id
  | .int _, .string | .int _, .boolean | .int _, .datetime | .int _, .uuid | .int _, .stringList => isFalse id
  | .float _, .string | .float _, .integer | .float _, .boolean | .float _, .datetime | .float _, .uuid
  | .float _, .stringList => isFalse id
  | .bool _, .string | .bool _, .integer | .bool _, .number | .bool _, .datetime | .bool _, .uuid
  | .bool _, .stringList => isFalse id

/-- `RecordField`'s checks. -/
@[mk_iff]
structure FieldValid (f : RecordField) : Prop where
  name : isIdentifier f.name = true
  primaryKey : f.primaryKey = true → f.required = true
  annotation : f.retrievalMode = some RetrievalMode.annotation → f.type = .string
  membership : f.retrievalMode = some .membership → f.type = .stringList
  length : ∀ values ∈ f.allowedValues, 1 ≤ values.length ∧ values.length ≤ 32
  distinct : ∀ values ∈ f.allowedValues, values.Pairwise fun a b => ¬ a.same b
  typed : ∀ values ∈ f.allowedValues, ∀ v ∈ values, matchesAllowedValue v f.type

instance (f : RecordField) : Decidable (FieldValid f) := decidable_of_iff' _ (fieldValid_iff f)

/-- `RecordEntity`'s checks. -/
@[mk_iff]
structure RecordEntity.Valid (e : RecordEntity) : Prop where
  name : isIdentifier e.name = true
  length : 1 ≤ e.fields.length ∧ e.fields.length ≤ 64
  fields : ∀ f ∈ e.fields, FieldValid f
  distinct : (e.fields.map (·.name)).Nodup
  sorted : (e.fields.map (·.name)).Pairwise (· ≤ ·)
  managed : ∀ f ∈ SERVER_MANAGED_FIELDS, f ∈ e.fields

instance (e : RecordEntity) : Decidable e.Valid := decidable_of_iff' _ (RecordEntity.valid_iff e)

/-- `RecordRelationship`'s checks. -/
@[mk_iff]
structure RecordRelationship.Valid (r : RecordRelationship) : Prop where
  name : isIdentifier r.name = true
  source : isIdentifier r.sourceEntity = true ∧ isIdentifier r.sourceField = true
  target : isIdentifier r.targetEntity = true ∧ isIdentifier r.targetField = true

instance (r : RecordRelationship) : Decidable r.Valid := decidable_of_iff' _ (RecordRelationship.valid_iff r)

/-- `RecordSpecification`'s checks. -/
@[mk_iff]
structure RecordSpecification.Valid (s : RecordSpecification) : Prop where
  schemaVersion : 1 ≤ s.schemaVersion ∧ s.schemaVersion ≤ 65
  entities : ∀ e ∈ s.entities, e.Valid
  entityCount : 1 ≤ s.entities.length ∧ s.entities.length ≤ 32
  entitiesSorted : (s.entities.map (·.name)).Pairwise (· ≤ ·)
  entityNames : (s.entities.map (·.name)).Nodup
  relationships : ∀ r ∈ s.relationships, r.Valid
  relationshipCount : s.relationships.length ≤ 128
  relationshipsSorted : (s.relationships.map (·.name)).Pairwise (· ≤ ·)
  facets : ∀ f ∈ s.discoveryFacets, isIdentifier f.entityName = true ∧ isIdentifier f.fieldName = true
  facetCount : s.discoveryFacets.length ≤ 64
  queryPatterns : s.queryPatterns.length ≤ 32 ∧ ∀ p ∈ s.queryPatterns, p ≠ "" ∧ p.length ≤ 240
  endpoints : ∀ r ∈ s.relationships, (recordField s.entities r.sourceEntity r.sourceField).isSome = true ∧
    (recordField s.entities r.targetEntity r.targetField).isSome = true
  facetModes : ∀ f ∈ s.discoveryFacets,
    (recordField s.entities f.entityName f.fieldName).map filterMode = some f.filterMode

instance (s : RecordSpecification) : Decidable s.Valid := decidable_of_iff' _ (RecordSpecification.valid_iff s)

/-- `compile_record_specification`, which raises when a facet has no field
or a part refuses to be built. -/
def compileRecordSpecificationChecked (m : ManifestV2) : Option RecordSpecification := do
  let checked ← detachedManifest m
  let facets ← (sortedFacets checked.discoveryFacets).mapM (recordFacet (recordEntities checked))
  let s := { compileRecordSpecification checked with discoveryFacets := facets }
  guard s.Valid
  some s

/-! ## What a manifest compiles to -/

/-- No character takes more than four bytes. -/
theorem utf8Len_le (cs : List Char) : String.utf8Len cs ≤ 4 * cs.length := by
  induction cs with
  | nil => rfl
  | cons c cs ih =>
    have hc := c.utf8Size_le_four
    rw [String.utf8Len_cons, List.length_cons]
    omega

/-- **A value that an attribute may allow, its field may allow too.** -/
theorem matchesAllowedValue_of_attribute {v : AllowedValue} {t : LogicalType}
    (htype : allowedValueMatchesType v t) (htext : v.textOk) : matchesAllowedValue v t := by
  cases v with
  | str s =>
    obtain ⟨hne, hlength, hnul⟩ := htext
    have hpos : 0 < s.length := Nat.pos_of_ne_zero fun h => hne (String.length_eq_zero_iff.1 h)
    have hbytes := utf8Len_le s.toList
    rw [String.utf8Len_toList, String.length_toList] at hbytes
    cases t with
    | string =>
      refine ⟨?_, hnul⟩
      rw [boundedText, decide_eq_true_eq, MAX_STRING_BYTES]
      omega
    | stringList =>
      refine ⟨hpos, ?_, hnul⟩
      rw [MAX_STRING_LIST_ITEM_CHARS]
      omega
    | _ => exact htype.elim
  | int i => cases t <;> exact htype
  | float x => cases t <;> exact htype
  | bool b => cases t <;> exact htype

theorem fieldValid {a : AttributeDefinition} (h : a.Valid) : FieldValid a where
  name := h.name
  primaryKey := h.primaryKey
  annotation := h.annotation
  membership := h.membership
  length := fun values hv => (h.allowedValues values hv).length
  distinct := fun values hv => (h.allowedValues values hv).distinct
  typed := fun values hv v hmem =>
    matchesAllowedValue_of_attribute ((h.allowedValues values hv).typed v hmem) ((h.allowedValues values hv).text v hmem)

theorem recordEntity_valid {e : EntityDefinition} (h : e.Valid) : (recordEntity e).Valid where
  name := h.name
  length := by
    have hlength : (recordEntity e).fields.length = e.attributes.length := (perm_sortedBy _ _).length_eq
    rw [hlength]
    exact ⟨le_trans (by decide) h.length.1, h.length.2⟩
  fields := fun f hf => fieldValid (h.attributes f (mem_sortedBy.1 hf))
  distinct := by
    rw [recordEntity, ((perm_sortedBy (·.name) e.attributes).map _).nodup_iff]
    exact h.distinct
  sorted := pairwise_sortedBy (·.name) e.attributes
  managed := fun f hf => mem_sortedBy.2 (h.managed f hf)

section compile

variable {m : ManifestV2}

theorem mem_sortedFacets {facets : List DiscoveryFacet} {f : DiscoveryFacet} : f ∈ sortedFacets facets ↔ f ∈ facets :=
  (List.perm_insertionSort _ facets).mem_iff

/-- A field of the specification is the manifest's attribute. -/
theorem recordField_recordEntities (entityName fieldName : String) :
    recordField (recordEntities m) entityName fieldName = attributeFor m.entities entityName fieldName := by
  have hfind : ((recordEntities m).find? fun e => e.name = entityName) =
      (m.entities.find? fun e => e.name = entityName).map recordEntity := by
    rw [recordEntities, List.find?_map, ← find?_sortedBy m.valid.entityNames entityName]
    rfl
  rw [recordField, hfind, attributeFor]
  cases he : m.entities.find? fun e => e.name = entityName with
  | none => rfl
  | some e =>
    have hdistinct := (m.valid.entities e (List.mem_of_find?_eq_some he)).distinct
    rw [Option.map_some, Option.bind_some, Option.bind_some, RecordEntity.field, recordEntity,
      find?_sortedBy hdistinct]

/-- Every facet of a manifest is of a field. -/
theorem recordFacet_of_mem {f : DiscoveryFacet} (hf : f ∈ m.discoveryFacets) :
    ∃ a, attributeFor m.entities f.entity f.field = some a ∧
      recordFacet (recordEntities m) f = some ⟨f.entity, f.field, filterMode a⟩ := by
  obtain ⟨a, ha⟩ := Option.isSome_iff_exists.1 (m.valid.facetTargets f hf)
  exact ⟨a, ha, by rw [recordFacet, recordField_recordEntities, ha, Option.map_some]⟩

theorem mapM_recordFacet {facets : List DiscoveryFacet} (h : ∀ f ∈ facets, f ∈ m.discoveryFacets) :
    facets.mapM (recordFacet (recordEntities m)) = some (facets.filterMap (recordFacet (recordEntities m))) := by
  induction facets with
  | nil => rfl
  | cons f facets ih =>
    obtain ⟨hf, hfacets⟩ := List.forall_mem_cons.1 h
    obtain ⟨a, -, ha⟩ := recordFacet_of_mem hf
    rw [List.mapM_cons, ih hfacets, ha, List.filterMap_cons_some ha]
    rfl

theorem mem_discoveryFacets {f : RecordFacet} (hf : f ∈ (compileRecordSpecification m).discoveryFacets) :
    ∃ d ∈ m.discoveryFacets, ∃ a, attributeFor m.entities d.entity d.field = some a ∧
      f = ⟨d.entity, d.field, filterMode a⟩ := by
  obtain ⟨d, hd, hfound⟩ := List.mem_filterMap.1 hf
  obtain ⟨a, ha, hfacet⟩ := recordFacet_of_mem (mem_sortedFacets.1 hd)
  exact ⟨d, mem_sortedFacets.1 hd, a, ha, Option.some.inj (hfound.symm.trans hfacet)⟩

/-- **Every manifest compiles for its records.** -/
theorem compileRecordSpecification_valid (m : ManifestV2) : (compileRecordSpecification m).Valid where
  schemaVersion := m.valid.schemaVersion
  entities := fun e he => by
    obtain ⟨d, hd, rfl⟩ := List.mem_map.1 he
    exact recordEntity_valid (m.valid.entities d (mem_sortedBy.1 hd))
  entityCount := by
    have hlength : (compileRecordSpecification m).entities.length = m.entities.length := by
      rw [compileRecordSpecification, recordEntities, List.length_map, (perm_sortedBy _ _).length_eq]
    rw [hlength]
    exact m.valid.entityCount
  entitiesSorted := by
    simpa [compileRecordSpecification, recordEntities, Function.comp_def, recordEntity] using
      pairwise_sortedBy (·.name) m.entities
  entityNames := nodup_recordEntities
  relationships := fun r hr => by
    obtain ⟨d, hd, rfl⟩ := List.mem_map.1 hr
    have h := m.valid.relationships d (mem_sortedBy.1 hd)
    exact ⟨h.name.1, h.from_, h.to_⟩
  relationshipCount := by
    have hlength : (compileRecordSpecification m).relationships.length = m.relationships.length := by
      rw [compileRecordSpecification, List.length_map, (perm_sortedBy _ _).length_eq]
    rw [hlength]
    exact m.valid.relationshipCount
  relationshipsSorted := by
    simpa [compileRecordSpecification, Function.comp_def, recordRelationship] using
      pairwise_sortedBy (·.name) m.relationships
  facets := fun f hf => by
    obtain ⟨d, hd, a, -, rfl⟩ := mem_discoveryFacets hf
    exact m.valid.facets d hd
  facetCount := by
    have hle : (compileRecordSpecification m).discoveryFacets.length ≤ (sortedFacets m.discoveryFacets).length :=
      List.length_filterMap_le ..
    rw [sortedFacets, List.length_insertionSort] at hle
    exact hle.trans m.valid.facetCount
  queryPatterns := by
    refine ⟨m.valid.queryPatterns.1, fun p hp => ⟨?_, (m.valid.queryPatterns.2 p hp).2⟩⟩
    rintro rfl
    exact absurd (m.valid.queryPatterns.2 _ hp).1 (by decide)
  endpoints := fun r hr => by
    obtain ⟨d, hd, rfl⟩ := List.mem_map.1 hr
    have h := m.valid.relationshipsSound d (mem_sortedBy.1 hd)
    obtain ⟨a, ha, -⟩ := h.source
    obtain ⟨b, hb, -⟩ := h.target
    refine ⟨?_, ?_⟩
    · exact (recordField_recordEntities (m := m) _ _).symm ▸ Option.isSome_iff_exists.2 ⟨a, ha⟩
    · exact (recordField_recordEntities (m := m) _ _).symm ▸ Option.isSome_iff_exists.2 ⟨b, hb⟩
  facetModes := fun f hf => by
    obtain ⟨d, hd, a, ha, rfl⟩ := mem_discoveryFacets hf
    have hfield : recordField (recordEntities m) d.entity d.field = some a :=
      (recordField_recordEntities _ _).trans ha
    exact congrArg (Option.map filterMode) hfield

theorem compileRecordSpecificationChecked_eq (m : ManifestV2) :
    compileRecordSpecificationChecked m = some (compileRecordSpecification m) := by
  have hfacets : (sortedFacets m.discoveryFacets).mapM (recordFacet (recordEntities m)) = some _ :=
    mapM_recordFacet fun f hf => mem_sortedFacets.1 hf
  rw [compileRecordSpecificationChecked, detachedManifest_eq]
  simp only [Option.bind_eq_bind, Option.bind_some, hfacets]
  exact congrArg (Option.bind · _) (if_pos (compileRecordSpecification_valid m))

end compile

/-! ## One schema -/

/-- An entity of the one specification and one of the other: the fields
are the same, each with its name, its type, whether it is required and
whether it is the key. -/
structure EntityAgrees (e : RelationalEntity) (f : RecordEntity) : Prop where
  name : e.name = f.name
  fields : e.fields.Perm (f.fields.map field)

/-- The relationship as the relational specification has it. -/
def RecordRelationship.physical (r : RecordRelationship) : RelationalRelationship :=
  ⟨r.name, r.sourceEntity, r.sourceField, r.targetEntity, r.targetField⟩

/-- The two specifications are of one schema. -/
structure Agrees (s : RelationalSpecification) (r : RecordSpecification) : Prop where
  schemaVersion : s.schemaVersion = r.schemaVersion
  entities : List.Forall₂ EntityAgrees s.entities r.entities
  relationships : s.relationships = r.relationships.map (·.physical)

theorem entityAgrees (e : EntityDefinition) : EntityAgrees (entity e) (recordEntity e) :=
  ⟨rfl, ((perm_sortedBy (fun a : AttributeDefinition => a.name) e.attributes).map field).symm⟩

/-- **What a manifest compiles to agrees.** -/
theorem agrees (m : ManifestV2) : Agrees (compileManifest m) (compileRecordSpecification m) where
  schemaVersion := rfl
  entities := by
    rw [compileManifest, compileRecordSpecification, recordEntities, List.forall₂_map_left_iff,
      List.forall₂_map_right_iff]
    exact List.forall₂_same.2 fun e _ => entityAgrees e
  relationships := by
    rw [compileManifest, compileRecordSpecification, List.map_map]
    rfl

/-- **Validation implies compilation.** A manifest that validates compiles
both ways, into specifications of one schema; and the two searches for a
cycle, the manifest's among edges and the specification's in a graph,
find one exactly when there is one. -/
theorem manifest_compiles :
    (∀ m : ManifestV2, ∃ s r, compileManifestChecked m = some s ∧ compileRecordSpecificationChecked m = some r ∧
      Agrees s r) ∧
    (∀ edges : List (String × String), Manifest.hasDirectedCycle edges = true ↔
      ∃ a, Relation.TransGen (fun a b => (a, b) ∈ edges) a a) ∧
    (∀ graph : List (String × List String), (graph.map Prod.fst).Nodup →
      (Relational.hasDirectedCycle graph = true ↔ ∃ a, Relation.TransGen (GraphEdge graph) a a)) :=
  ⟨fun m => ⟨_, _, compileManifestChecked_eq m, compileRecordSpecificationChecked_eq m, agrees m⟩,
    Manifest.hasDirectedCycle_iff, fun _ h => Relational.hasDirectedCycle_iff h⟩

/-- A required reference of an entity to itself is a cycle. -/
theorem manifest_compiles_self : Relational.hasDirectedCycle [("note", ["note"])] = true :=
  (manifest_compiles.2.2 [("note", ["note"])] (by decide)).2
    ⟨"note", .single ⟨["note"], List.mem_cons_self, List.mem_cons_self⟩⟩

end Records

end Aipcs

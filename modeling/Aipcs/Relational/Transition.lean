import Aipcs.Relational.Specification

/-!
# Relational — the append-only transitions

`classifyTransition` accepts one manifest as the successor of another
when it only adds: entities, optional fields at an entity's end,
relationships out of new entities, and indices. `Extends` says so of the
two specifications; it is a preorder, and two specifications that extend
each other have one structure.
-/

namespace Aipcs

namespace Relational

open Manifest

structure FieldAddition where
  entity : String
  field : RelationalField
deriving DecidableEq

structure RelationalAdditions where
  entities : List RelationalEntity
  fields : List FieldAddition
  relationships : List RelationalRelationship
  indices : List RelationalIndex
deriving DecidableEq

inductive MetadataChangeKind where
  | entityDescription
  | attributeDescription
  | retrievalGuidance
  | queryPatterns
  | discoveryFacets
  | retrievalMode
  | allowedValuesExpansion
deriving DecidableEq

/-- The kind's value. -/
def MetadataChangeKind.value : MetadataChangeKind → String
  | .entityDescription => "entity_description"
  | .attributeDescription => "attribute_description"
  | .retrievalGuidance => "retrieval_guidance"
  | .queryPatterns => "query_patterns"
  | .discoveryFacets => "discovery_facets"
  | .retrievalMode => "retrieval_mode"
  | .allowedValuesExpansion => "allowed_values_expansion"

structure MetadataChange where
  kind : MetadataChangeKind
  entity : Option String := none
  field : Option String := none
deriving DecidableEq

/-- `_metadata_sort_key`, the names being identifiers. -/
def metadataSortKey (c : MetadataChange) : List String :=
  [c.kind.value, c.entity.getD "", c.field.getD ""]

/-- An accepted transition. -/
structure RelationalTransition where
  current : RelationalSpecification
  target : RelationalSpecification
  additions : RelationalAdditions
  metadataChanges : List MetadataChange
deriving DecidableEq

/-! ## Classification -/

/-- `_history_is_one_entry_extension`. -/
def historyIsOneEntryExtension (current target : ManifestV2) : Bool :=
  target.migrationHistory.dropLast = current.migrationHistory &&
    target.migrationHistory.getLast?.any fun h =>
      h.fromSchemaVersion = current.schemaVersion && h.toSchemaVersion = target.schemaVersion

/-- Set inclusion of typed values. -/
def includes (these those : List AllowedValue) : Bool := these.all fun v => those.any fun w => v.same w

/-- `_classify_allowed_values`. -/
def classifyAllowedValues (entity : String) (current target : AttributeDefinition) :
    Option (List MetadataChange) :=
  match current.allowedValues, target.allowedValues with
  | none, none => some []
  | some source, some destination =>
    if includes source destination then
      if includes destination source then some []
      else some [{ kind := .allowedValuesExpansion, entity := entity, field := current.name }]
    else none
  | _, _ => none

/-- `_classify_attribute_change`. -/
def classifyAttributeChange (entity : String) (current target : AttributeDefinition) :
    Option (List MetadataChange) :=
  if current.name ≠ target.name ∨ current.type ≠ target.type ∨ current.required ≠ target.required ∨
    current.primaryKey ≠ target.primaryKey then none
  else do
    let described := if current.description ≠ target.description then
      [{ kind := .attributeDescription, entity := entity, field := current.name : MetadataChange }]
      else []
    let retrieved := if current.retrievalMode ≠ target.retrievalMode then
      [{ kind := .retrievalMode, entity := entity, field := current.name : MetadataChange }] else []
    let allowed ← classifyAllowedValues entity current target
    some (described ++ retrieved ++ allowed)

/-- The attributes of one entity: the metadata changes of those it had,
and the fields it gains. -/
def classifyAttributes (entity : String) : List AttributeDefinition → List AttributeDefinition →
    Option (List MetadataChange × List FieldAddition)
  | [], added =>
    if added.any fun a => a.required || a.primaryKey then none
    else some ([], added.map fun a => ⟨entity, field a⟩)
  | _ :: _, [] => none
  | current :: source, target :: destination => do
    let changes ← classifyAttributeChange entity current target
    let rest ← classifyAttributes entity source destination
    some (changes ++ rest.1, rest.2)

/-- One entity the current manifest has. -/
def classifyEntity (target : ManifestV2) (e : EntityDefinition) :
    Option (List MetadataChange × List FieldAddition) := do
  let destination ← target.entities.find? fun d => d.name = e.name
  let described := if e.description ≠ destination.description then
    [{ kind := .entityDescription, entity := e.name : MetadataChange }] else []
  let rest ← classifyAttributes e.name e.attributes destination.attributes
  some (described ++ rest.1, rest.2)

/-- `_classify_global_metadata`. -/
def classifyGlobalMetadata (current target : ManifestV2) : List MetadataChange :=
  (if current.retrievalGuidance ≠ target.retrievalGuidance then
    [{ kind := .retrievalGuidance : MetadataChange }] else []) ++
  (if current.queryPatterns ≠ target.queryPatterns then
    [{ kind := .queryPatterns : MetadataChange }] else []) ++
  (if current.discoveryFacets ≠ target.discoveryFacets then
    [{ kind := .discoveryFacets : MetadataChange }] else [])

/-- The entities the target has and the current manifest has not. -/
def isNewEntity (current : ManifestV2) (name : String) : Bool :=
  !(current.entities.any fun e => e.name = name)

/-- `_classify_relationships`. -/
def classifyRelationships (current target : ManifestV2) : Option (List RelationalRelationship) :=
  let added := target.relationships.filter fun r =>
    !(current.relationships.any fun s => s.name = r.name)
  if current.relationships.all (· ∈ target.relationships) &&
      added.all fun r => isNewEntity current r.from_.entity then
    some ((sortedBy (·.name) added).map relationship)
  else none

/-- `_classify_indices`. -/
def classifyIndices (current target : ManifestV2) : Option (List RelationalIndex) :=
  let added := target.indices.filter fun i => !(current.indices.any fun j => j.name = i.name)
  if current.indices.all (· ∈ target.indices) then some ((sortedBy (·.name) added).map index)
  else none

/-- Does the transition change anything? -/
def RelationalAdditions.isEmpty (a : RelationalAdditions) : Bool :=
  a.entities.isEmpty && a.fields.isEmpty && a.relationships.isEmpty && a.indices.isEmpty

/-- `classify_transition`; nothing where it raises. -/
def classifyTransition (current target : ManifestV2) : Option RelationalTransition := do
  guard (target.schemaVersion = current.schemaVersion + 1)
  guard (historyIsOneEntryExtension current target)
  let kept ← (sortedBy (·.name) current.entities).mapM (classifyEntity target)
  let relationships ← classifyRelationships current target
  let indices ← classifyIndices current target
  let additions : RelationalAdditions := {
    entities := (compileManifest target).entities.filter fun e => isNewEntity current e.name
    fields := (kept.map Prod.snd).flatten
    relationships
    indices }
  let changes := (kept.map Prod.fst).flatten ++ classifyGlobalMetadata current target
  guard (!(additions.isEmpty && changes.isEmpty))
  some {
    current := compileManifest current
    target := compileManifest target
    additions
    metadataChanges := changes.insertionSort fun a b => metadataSortKey a ≤ metadataSortKey b }

/-! ## Extension -/

/-- The second entity is the first with optional fields at its end. -/
structure RelationalEntity.ExtendedBy (e f : RelationalEntity) : Prop where
  name : e.name = f.name
  fields : ∃ added, f.fields = e.fields ++ added ∧
    ∀ x ∈ added, x.required = false ∧ x.primaryKey = false

/-- The second specification has all the first has, and what else its
relationships have starts from new entities. -/
structure Extends (s t : RelationalSpecification) : Prop where
  entities : ∀ e ∈ s.entities, ∃ f ∈ t.entities, e.ExtendedBy f
  relationships : ∀ r ∈ s.relationships, r ∈ t.relationships
  added : ∀ r ∈ t.relationships, r ∉ s.relationships → ∀ e ∈ s.entities, r.sourceEntity ≠ e.name
  indices : ∀ i ∈ s.indices, i ∈ t.indices

theorem RelationalEntity.ExtendedBy.refl (e : RelationalEntity) : e.ExtendedBy e :=
  ⟨rfl, [], (List.append_nil _).symm, fun _ h => absurd h List.not_mem_nil⟩

theorem RelationalEntity.ExtendedBy.trans {e f g : RelationalEntity} (h : e.ExtendedBy f)
    (k : f.ExtendedBy g) : e.ExtendedBy g := by
  obtain ⟨added, hf, hadded⟩ := h.fields
  obtain ⟨added', hg, hadded'⟩ := k.fields
  refine ⟨h.name.trans k.name, added ++ added', by rw [hg, hf, List.append_assoc], fun x hx => ?_⟩
  rcases List.mem_append.1 hx with hx | hx
  · exact hadded x hx
  · exact hadded' x hx

/-- Two entities that extend each other are one. -/
theorem RelationalEntity.ExtendedBy.antisymm {e f : RelationalEntity} (h : e.ExtendedBy f)
    (k : f.ExtendedBy e) : e = f := by
  obtain ⟨added, hf, -⟩ := h.fields
  obtain ⟨added', he, -⟩ := k.fields
  have hlen := congrArg List.length he
  rw [hf, List.length_append, List.length_append] at hlen
  have hnil : added = [] := List.length_eq_zero_iff.1 (by omega)
  rw [hnil, List.append_nil] at hf
  have hname := h.name
  cases e
  cases f
  simp only at hf hname
  rw [hf, hname]

theorem Extends.refl (s : RelationalSpecification) : Extends s s where
  entities := fun e he => ⟨e, he, .refl e⟩
  relationships := fun _ h => h
  added := fun _ h h' => absurd h h'
  indices := fun _ h => h

theorem Extends.trans {s t u : RelationalSpecification} (h : Extends s t) (k : Extends t u) :
    Extends s u where
  entities := fun e he => by
    obtain ⟨f, hf, hef⟩ := h.entities e he
    obtain ⟨g, hg, hfg⟩ := k.entities f hf
    exact ⟨g, hg, hef.trans hfg⟩
  relationships := fun r hr => k.relationships r (h.relationships r hr)
  added := fun r hr hnot e he => by
    by_cases hrt : r ∈ t.relationships
    · exact h.added r hrt hnot e he
    · obtain ⟨f, hf, hef⟩ := h.entities e he
      rw [hef.name]
      exact k.added r hr hrt f hf
  indices := fun i hi => k.indices i (h.indices i hi)

/-! ## What is classified extends -/

theorem classifyAttributeChange_eq_some {entity : String} {a b : AttributeDefinition}
    {changes : List MetadataChange} (h : classifyAttributeChange entity a b = some changes) :
    field a = field b := by
  unfold classifyAttributeChange at h
  by_cases hne : a.name ≠ b.name ∨ a.type ≠ b.type ∨ a.required ≠ b.required ∨
      a.primaryKey ≠ b.primaryKey
  · rw [if_pos hne] at h
    exact absurd h (by simp)
  · simp only [ne_eq, not_or, not_not] at hne
    obtain ⟨hname, htype, hrequired, hkey⟩ := hne
    rw [field, field, hname, htype, hrequired, hkey]

theorem classifyAttributes_eq_some {entity : String} {source destination : List AttributeDefinition}
    {r : List MetadataChange × List FieldAddition}
    (h : classifyAttributes entity source destination = some r) :
    ∃ added, destination.map field = source.map field ++ added ∧
      (∀ x ∈ added, x.required = false ∧ x.primaryKey = false) ∧
      r.2 = added.map (FieldAddition.mk entity) := by
  induction source generalizing destination r with
  | nil =>
    unfold classifyAttributes at h
    by_cases hany : destination.any fun a => a.required || a.primaryKey
    · rw [if_pos hany] at h
      exact absurd h (by simp)
    · rw [if_neg hany] at h
      obtain rfl := Option.some.inj h
      refine ⟨destination.map field, rfl, fun x hx => ?_, by simp⟩
      obtain ⟨a, ha, rfl⟩ := List.mem_map.1 hx
      have hnot : ¬ (a.required || a.primaryKey) = true := fun hr => hany (List.any_eq_true.2 ⟨a, ha, hr⟩)
      simpa [field] using hnot
  | cons a source ih =>
    cases destination with
    | nil => exact absurd h (by simp [classifyAttributes])
    | cons b destination =>
      simp only [classifyAttributes, Option.bind_eq_bind, Option.bind_eq_some_iff] at h
      obtain ⟨changes, hchanges, rest, hrest, hr⟩ := h
      obtain ⟨added, hadded, hoptional, hfields⟩ := ih hrest
      refine ⟨added, ?_, hoptional, ?_⟩
      · rw [List.map_cons, List.map_cons, List.cons_append, hadded,
          classifyAttributeChange_eq_some hchanges]
      · rw [← Option.some.inj hr]
        exact hfields

theorem classifyEntity_eq_some {target : ManifestV2} {e : EntityDefinition}
    {r : List MetadataChange × List FieldAddition} (h : classifyEntity target e = some r) :
    ∃ d ∈ target.entities, d.name = e.name ∧
      ∃ added, (entity d).fields = (entity e).fields ++ added ∧
        (∀ x ∈ added, x.required = false ∧ x.primaryKey = false) ∧
        r.2 = added.map (FieldAddition.mk e.name) := by
  simp only [classifyEntity, Option.bind_eq_bind, Option.bind_eq_some_iff] at h
  obtain ⟨d, hd, rest, hrest, hr⟩ := h
  refine ⟨d, List.mem_of_find?_eq_some hd, by simpa using List.find?_some hd, ?_⟩
  obtain ⟨added, hadded, hoptional, hfields⟩ := classifyAttributes_eq_some hrest
  exact ⟨added, hadded, hoptional, by rw [← Option.some.inj hr]; exact hfields⟩

theorem classifyRelationships_eq_some {a b : ManifestV2} {added : List RelationalRelationship}
    (h : classifyRelationships a b = some added) :
    (∀ r ∈ a.relationships, r ∈ b.relationships) ∧
      (∀ r ∈ b.relationships, (∀ s ∈ a.relationships, s.name ≠ r.name) →
        isNewEntity a r.from_.entity = true) ∧
      added = (sortedBy (·.name) (b.relationships.filter fun r =>
        !(a.relationships.any fun s => s.name = r.name))).map relationship := by
  simp only [classifyRelationships] at h
  split_ifs at h with hall
  rw [Bool.and_eq_true, List.all_eq_true, List.all_eq_true] at hall
  refine ⟨fun r hr => by simpa using hall.1 r hr, fun r hr hnew => ?_, (Option.some.inj h).symm⟩
  exact hall.2 r (List.mem_filter.2 ⟨hr, by simpa using hnew⟩)

theorem classifyIndices_eq_some {a b : ManifestV2} {added : List RelationalIndex}
    (h : classifyIndices a b = some added) :
    (∀ i ∈ a.indices, i ∈ b.indices) ∧
      added = (sortedBy (·.name) (b.indices.filter fun i =>
        !(a.indices.any fun j => j.name = i.name))).map index := by
  simp only [classifyIndices] at h
  split_ifs at h with hall
  exact ⟨fun i hi => by simpa using List.all_eq_true.1 hall i hi, (Option.some.inj h).symm⟩

/-- What is known of an accepted transition. -/
structure Accepted (a b : ManifestV2) (t : RelationalTransition) : Prop where
  current : t.current = compileManifest a
  target : t.target = compileManifest b
  version : b.schemaVersion = a.schemaVersion + 1
  entities : t.additions.entities =
    (compileManifest b).entities.filter fun e => isNewEntity a e.name
  kept : ∃ kept, (sortedBy (·.name) a.entities).mapM (classifyEntity b) = some kept ∧
    t.additions.fields = (kept.map Prod.snd).flatten
  relationships : classifyRelationships a b = some t.additions.relationships
  indices : classifyIndices a b = some t.additions.indices

theorem classifyTransition_eq_some {a b : ManifestV2} {t : RelationalTransition}
    (h : classifyTransition a b = some t) : Accepted a b t := by
  simp only [classifyTransition, Option.bind_eq_bind, Option.bind_eq_some_iff] at h
  obtain ⟨u, hversion, -, -, kept, hkept, relationships, hrelationships, indices, hindices, -, -, ht⟩ := h
  obtain rfl := Option.some.inj ht
  refine ⟨rfl, rfl, ?_, rfl, ⟨kept, hkept, rfl⟩, hrelationships, hindices⟩
  by_contra hne
  simp [guard, hne] at hversion

theorem mapM_eq_some {α β : Type} {f : α → Option β} {l : List α} {r : List β}
    (h : l.mapM f = some r) : List.Forall₂ (fun x y => f x = some y) l r := by
  induction l generalizing r with
  | nil =>
    obtain rfl := Option.some.inj (List.mapM_nil.symm.trans h)
    exact .nil
  | cons x l ih =>
    simp only [List.mapM_cons, Option.bind_eq_bind, Option.bind_eq_some_iff] at h
    obtain ⟨y, hy, ys, hys, hr⟩ := h
    obtain rfl := Option.some.inj hr
    exact .cons hy (ih hys)

theorem exists_of_forall₂ {α β : Type} {P : α → β → Prop} {l : List α} {r : List β}
    (h : List.Forall₂ P l r) {x : α} (hx : x ∈ l) : ∃ y ∈ r, P x y := by
  induction h with
  | nil => exact absurd hx List.not_mem_nil
  | @cons a b l r hab _ ih =>
    rcases List.mem_cons.1 hx with rfl | hx
    · exact ⟨b, List.mem_cons_self, hab⟩
    · obtain ⟨y, hy, hxy⟩ := ih hx
      exact ⟨y, List.mem_cons_of_mem _ hy, hxy⟩

/-- Rows that share a name in a list whose names are distinct are one. -/
theorem eq_of_name_eq {α : Type} {name : α → String} {l : List α} (h : (l.map name).Nodup) {a b : α}
    (ha : a ∈ l) (hb : b ∈ l) (hab : name a = name b) : a = b :=
  List.inj_on_of_nodup_map h ha hb hab

theorem isNewEntity_iff {m : ManifestV2} {name : String} :
    isNewEntity m name = true ↔ ∀ e ∈ m.entities, e.name ≠ name := by
  simp [isNewEntity]

namespace Accepted

variable {a b : ManifestV2} {t : RelationalTransition}

/-- An entity of the current manifest, as the target has it. -/
theorem entity_extended (h : Accepted a b t) {d : EntityDefinition} (hd : d ∈ a.entities) :
    ∃ d' ∈ b.entities, (entity d).ExtendedBy (entity d') := by
  obtain ⟨kept, hkept, -⟩ := h.kept
  obtain ⟨y, -, hy⟩ := exists_of_forall₂ (mapM_eq_some hkept) (mem_sortedBy.2 hd)
  obtain ⟨d', hd', hname, added, hfields, hoptional, -⟩ := classifyEntity_eq_some hy
  exact ⟨d', hd', hname.symm, added, hfields, hoptional⟩

theorem relationships_kept (h : Accepted a b t) {r : RelationshipDefinition}
    (hr : r ∈ a.relationships) : r ∈ b.relationships :=
  (classifyRelationships_eq_some h.relationships).1 r hr

theorem relationship_new (h : Accepted a b t) {r : RelationshipDefinition}
    (hr : r ∈ b.relationships) (hnot : r ∉ a.relationships) :
    isNewEntity a r.from_.entity = true := by
  refine (classifyRelationships_eq_some h.relationships).2.1 r hr fun s hs hname => hnot ?_
  -- a relationship of the same name would be this one
  exact eq_of_name_eq b.valid.relationshipNames (h.relationships_kept hs) hr hname ▸ hs

theorem indices_kept (h : Accepted a b t) {i : IndexDefinition} (hi : i ∈ a.indices) :
    i ∈ b.indices :=
  (classifyIndices_eq_some h.indices).1 i hi

/-- **An accepted target extends its source.** -/
theorem extends_ (h : Accepted a b t) : Extends (compileManifest a) (compileManifest b) where
  entities := fun e he => by
    obtain ⟨d, hd, rfl⟩ := mem_entities.1 he
    obtain ⟨d', hd', hext⟩ := h.entity_extended hd
    exact ⟨entity d', mem_entities.2 ⟨d', hd', rfl⟩, hext⟩
  relationships := fun r hr => by
    obtain ⟨d, hd, rfl⟩ := mem_relationships.1 hr
    exact mem_relationships.2 ⟨d, h.relationships_kept hd, rfl⟩
  added := fun r hr hnot e he => by
    obtain ⟨d, hd, rfl⟩ := mem_relationships.1 hr
    obtain ⟨f, hf, rfl⟩ := mem_entities.1 he
    have hnew := h.relationship_new hd fun hin => hnot (mem_relationships.2 ⟨d, hin, rfl⟩)
    exact (isNewEntity_iff.1 hnew f hf).symm
  indices := fun i hi => by
    obtain ⟨j, hj, rfl⟩ := mem_indices.1 hi
    exact mem_indices.2 ⟨j, h.indices_kept hj, rfl⟩

/-! ### The additions -/

theorem filter_mk (added : List RelationalField) (name name' : String) :
    ((added.map (FieldAddition.mk name)).filter fun f => f.entity = name') =
      if name = name' then added.map (FieldAddition.mk name) else [] := by
  by_cases h : name = name'
  · rw [if_pos h, List.filter_eq_self]
    intro f hf
    obtain ⟨x, -, rfl⟩ := List.mem_map.1 hf
    simp [h]
  · rw [if_neg h, List.filter_eq_nil_iff]
    intro f hf
    obtain ⟨x, -, rfl⟩ := List.mem_map.1 hf
    simp [h]

/-- Of the fields that entities gain, those of one entity are its own. -/
theorem filter_flatten {l : List EntityDefinition} {kept : List (List MetadataChange × List FieldAddition)}
    (h : List.Forall₂ (fun e y => classifyEntity b e = some y) l kept)
    (hnodup : (l.map (·.name)).Nodup) {name : String} :
    (name ∉ l.map (·.name) → ((kept.map Prod.snd).flatten.filter fun f => f.entity = name) = []) ∧
      ∀ d ∈ l, d.name = name → ∃ y, classifyEntity b d = some y ∧
        ((kept.map Prod.snd).flatten.filter fun f => f.entity = name) = y.2 := by
  induction h with
  | nil => exact ⟨fun _ => rfl, fun d hd => absurd hd List.not_mem_nil⟩
  | @cons e y l kept hy _ ih =>
    obtain ⟨hnew, hrest⟩ := List.nodup_cons.1 hnodup
    obtain ⟨hnone, hsome⟩ := ih hrest
    obtain ⟨-, -, -, added, -, -, hadded⟩ := classifyEntity_eq_some hy
    have hhead := filter_mk added e.name name
    rw [← hadded] at hhead
    have hsplit : ((y :: kept).map Prod.snd).flatten = y.2 ++ (kept.map Prod.snd).flatten := rfl
    rw [hsplit, List.filter_append, hhead]
    refine ⟨fun hname => ?_, fun d hd hname => ?_⟩
    · rw [List.map_cons, List.mem_cons, not_or] at hname
      rw [if_neg (Ne.symm hname.1), hnone hname.2, List.append_nil]
    · rcases List.mem_cons.1 hd with rfl | hd
      · rw [if_pos hname, hnone (hname ▸ hnew), List.append_nil]
        exact ⟨y, hy, rfl⟩
      · have hne : e.name ≠ name := fun heq =>
          hnew (List.mem_map.2 ⟨d, hd, hname.trans heq.symm⟩)
        rw [if_neg hne, List.nil_append]
        exact hsome d hd hname

theorem nodup_sorted {m : ManifestV2} : ((sortedBy (·.name) m.entities).map (·.name)).Nodup := by
  rw [((perm_sortedBy (·.name) m.entities).map _).nodup_iff]
  exact m.valid.entityNames

/-- **An entity in the target**: what it had, and the optional fields that
the transition adds to it. -/
theorem entity_added (h : Accepted a b t) {d : EntityDefinition} (hd : d ∈ a.entities) :
    ∃ d' ∈ b.entities, d'.name = d.name ∧ ∃ added, (entity d').fields = (entity d).fields ++ added ∧
      (∀ x ∈ added, x.required = false ∧ x.primaryKey = false) ∧
      (t.additions.fields.filter fun f => f.entity = d.name) = added.map (FieldAddition.mk d.name) := by
  obtain ⟨kept, hkept, hfields⟩ := h.kept
  obtain ⟨y, hy, hfilter⟩ := (filter_flatten (mapM_eq_some hkept) nodup_sorted).2 d (mem_sortedBy.2 hd) rfl
  obtain ⟨d', hd', hname, added, hadded, hoptional, hself⟩ := classifyEntity_eq_some hy
  exact ⟨d', hd', hname, added, hadded, hoptional, by rw [hfields, hfilter, hself]⟩

/-- A new entity gains no fields. -/
theorem filter_new (h : Accepted a b t) {name : String} (hnew : isNewEntity a name = true) :
    (t.additions.fields.filter fun f => f.entity = name) = [] := by
  obtain ⟨kept, hkept, hfields⟩ := h.kept
  rw [hfields]
  refine (filter_flatten (mapM_eq_some hkept) nodup_sorted).1 fun hmem => ?_
  obtain ⟨e, he, rfl⟩ := List.mem_map.1 hmem
  exact isNewEntity_iff.1 hnew e (mem_sortedBy.1 he) rfl

/-- A field is added to an entity there is. -/
theorem field_entity (h : Accepted a b t) {f : FieldAddition} (hf : f ∈ t.additions.fields) :
    ∃ d ∈ a.entities, d.name = f.entity := by
  by_contra hnot
  have hnew : isNewEntity a f.entity = true :=
    isNewEntity_iff.2 fun e he hname => hnot ⟨e, he, hname⟩
  have hnil := h.filter_new hnew
  exact List.filter_eq_nil_iff.1 hnil f hf (by simp)

/-- The new indices are the target's under names the source has not. -/
theorem mem_additions_indices (h : Accepted a b t) {i : RelationalIndex} :
    i ∈ t.additions.indices ↔
      i ∈ (compileManifest b).indices ∧ ∀ j ∈ (compileManifest a).indices, j.name ≠ i.name := by
  rw [(classifyIndices_eq_some h.indices).2, List.mem_map, mem_indices]
  constructor
  · rintro ⟨d, hd, rfl⟩
    rw [mem_sortedBy, List.mem_filter] at hd
    refine ⟨⟨d, hd.1, rfl⟩, fun j hj hname => ?_⟩
    obtain ⟨e, he, rfl⟩ := mem_indices.1 hj
    have hnone := hd.2
    simp only [Bool.not_eq_true', List.any_eq_false, decide_eq_true_eq] at hnone
    exact hnone e he hname
  · rintro ⟨⟨d, hd, rfl⟩, hnew⟩
    refine ⟨d, mem_sortedBy.2 (List.mem_filter.2 ⟨hd, ?_⟩), rfl⟩
    simp only [Bool.not_eq_true', List.any_eq_false, decide_eq_true_eq]
    exact fun e he => hnew (index e) (mem_indices.2 ⟨e, he, rfl⟩)

theorem nodup_additions_indices (h : Accepted a b t) : (t.additions.indices.map (·.name)).Nodup := by
  rw [(classifyIndices_eq_some h.indices).2, List.map_map]
  have hname : (fun x : RelationalIndex => x.name) ∘ index = fun d => d.name := rfl
  rw [hname, ((perm_sortedBy (fun i : IndexDefinition => i.name) _).map _).nodup_iff]
  exact b.valid.indexNames.sublist (List.filter_sublist.map _)

end Accepted

end Relational

end Aipcs

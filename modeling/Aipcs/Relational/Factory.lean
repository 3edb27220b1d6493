import Aipcs.Relational.Exact
import Aipcs.Relational.Shape

/-!
# Relational — the transition's factory

`RelationalTransition._build` computes the additions a second time, from
the two specifications, and refuses a transition whose own are others.
It never does (`expectedAdditions_eq`): a classified transition is built.
Added to the current specification, what it says gives the target's.
-/

namespace Aipcs

namespace Relational

open Manifest

/-! ## The second computation -/

/-- The target's entries under names that the current list has not. -/
def newOf {α : Type} (name : α → String) (current target : List α) : List α :=
  sortedBy name (target.filter fun x => !current.any fun y => name y = name x)

/-- Is each entry of the current list the target's of its name? -/
def keptIn {α : Type} [DecidableEq α] (name : α → String) (current target : List α) : Bool :=
  current.all fun x => (target.find? fun y => name y = name x) = some x

/-- The fields that one entity gains; nothing where it does not begin as it was. -/
def expectedFields (target : RelationalSpecification) (source : RelationalEntity) : Option (List FieldAddition) := do
  let destination ← target.entity? source.name
  guard (destination.fields.take source.fields.length = source.fields)
  let added := destination.fields.drop source.fields.length
  guard (added.all fun f => !(f.required || f.primaryKey))
  some (added.map (FieldAddition.mk source.name))

/-- `_expected_additions`. -/
def expectedAdditions (current target : RelationalSpecification) : Option RelationalAdditions := do
  let fields ← (sortedBy (·.name) current.entities).mapM (expectedFields target)
  guard (keptIn (·.name) current.relationships target.relationships)
  let relationships := (newOf (·.name) current.relationships target.relationships).filter fun r =>
    !current.entities.any fun e => e.name = r.sourceEntity
  guard (relationships.length + current.relationships.length = target.relationships.length)
  guard (keptIn (·.name) current.indices target.indices)
  some {
    entities := newOf (·.name) current.entities target.entities
    fields := fields.flatten
    relationships
    indices := newOf (·.name) current.indices target.indices }

/-- `MetadataChange`'s checks. -/
def MetadataChange.Valid (c : MetadataChange) : Prop :=
  match c.kind with
  | .retrievalGuidance | .queryPatterns | .discoveryFacets => c.entity = none ∧ c.field = none
  | .entityDescription => (∃ e ∈ c.entity, isIdentifier e = true) ∧ c.field = none
  | _ => (∃ e ∈ c.entity, isIdentifier e = true) ∧ ∃ f ∈ c.field, isIdentifier f = true

instance (c : MetadataChange) : Decidable c.Valid := by
  unfold MetadataChange.Valid
  cases c.kind <;> exact inferInstanceAs (Decidable (_ ∧ _))

/-- The changes in the order of their keys. -/
def sortedChanges (changes : List MetadataChange) : List MetadataChange :=
  changes.insertionSort fun a b => metadataSortKey a ≤ metadataSortKey b

/-- `RelationalTransition._build`, after the checks of its parts. -/
def build (current target : RelationalSpecification) (additions : RelationalAdditions)
    (changes : List MetadataChange) : Option RelationalTransition := do
  guard (∀ f ∈ additions.fields, isIdentifier f.entity = true)
  guard (∀ c ∈ changes, c.Valid)
  guard (changes = sortedChanges changes)
  guard changes.Nodup
  guard (target.schemaVersion = current.schemaVersion + 1)
  let expected ← expectedAdditions current target
  guard (additions = expected)
  guard (!(additions.isEmpty && changes.isEmpty))
  some ⟨current, target, additions, changes⟩

/-- `classify_transition`, down to the transition that is built. -/
def buildTransition (current target : ManifestV2) : Option RelationalTransition := do
  let source ← compileManifestChecked current
  let destination ← compileManifestChecked target
  let classified ← classifyTransition current target
  build source destination classified.additions classified.metadataChanges

/-- The specification with what a transition adds. -/
def applyAdditions (s : RelationalSpecification) (a : RelationalAdditions) : RelationalSpecification where
  schemaVersion := s.schemaVersion + 1
  entities := sortedBy (·.name) ((s.entities.map fun e =>
    ⟨e.name, e.fields ++ (a.fields.filter fun f => f.entity = e.name).map (·.field)⟩) ++ a.entities)
  relationships := sortedBy (·.name) (s.relationships ++ a.relationships)
  indices := sortedBy (·.name) (s.indices ++ a.indices)

/-! ## Lists in name order -/

section sorted

variable {α : Type} {name : α → String} {l k : List α}

/-- Two lists in name order with distinct names and the same entries are one. -/
theorem eq_of_sorted (hl : (l.map name).Pairwise (· ≤ ·)) (hk : (k.map name).Pairwise (· ≤ ·))
    (hnodup : (k.map name).Nodup) (h : l.Perm k) : l = k := by
  refine List.Perm.eq_of_pairwise (fun a b ha hb hab hba => ?_) (List.pairwise_map.1 hl) (List.pairwise_map.1 hk) h
  exact List.inj_on_of_nodup_map hnodup (h.mem_iff.1 ha) hb (le_antisymm hab hba)

theorem sortedBy_eq_of_perm (hk : (k.map name).Pairwise (· ≤ ·)) (hnodup : (k.map name).Nodup) (h : l.Perm k) :
    sortedBy name l = k :=
  eq_of_sorted (pairwise_sortedBy name l) hk hnodup ((perm_sortedBy name l).trans h)

/-- What is kept and what is new make up the target. -/
theorem perm_kept_new (hl : (l.map name).Nodup) (hk : (k.map name).Nodup) (hkept : ∀ x ∈ l, x ∈ k) :
    (l ++ newOf name l k).Perm k := by
  have hnew : (newOf name l k).Perm (k.filter fun x => !l.any fun y => name y = name x) := perm_sortedBy _ _
  refine ((List.Perm.append_left l hnew).trans ?_)
  refine (List.perm_ext_iff_of_nodup ?_ hk.of_map).2 fun x => ?_
  · refine List.nodup_append'.2 ⟨hl.of_map, hk.of_map.filter _, fun x hx hfilter => ?_⟩
    obtain ⟨hxk, hnot⟩ := List.mem_filter.1 hfilter
    exact (unnamed_iff hk hkept hxk).1 hnot hx
  · rw [List.mem_append, List.mem_filter]
    constructor
    · rintro (hx | hx)
      · exact hkept x hx
      · exact hx.1
    · intro hx
      by_cases hmem : x ∈ l
      · exact .inl hmem
      · exact .inr ⟨hx, (unnamed_iff hk hkept hx).2 hmem⟩

theorem keptIn_iff [DecidableEq α] (hk : (k.map name).Nodup) : keptIn name l k = true ↔ ∀ x ∈ l, x ∈ k := by
  rw [keptIn, List.all_eq_true]
  refine forall₂_congr fun x _ => ?_
  rw [decide_eq_true_eq, find?_name_eq_some_iff hk]
  exact ⟨fun h => h.1, fun h => ⟨h, rfl⟩⟩

/-- Compiling a list in name order keeps what is new of it. -/
theorem newOf_map {β : Type} (f : α → β) (nameOf : β → String) (hname : ∀ a, nameOf (f a) = name a)
    (hk : (k.map name).Nodup) :
    newOf nameOf ((sortedBy name l).map f) ((sortedBy name k).map f) = (newOf name l k).map f := by
  have hcomp : nameOf ∘ f = name := funext hname
  have hfilter : (fun b => !((sortedBy name l).map f).any fun y => nameOf y = nameOf b) ∘ f =
      fun x => !l.any fun y => name y = name x := by
    funext x
    rw [Function.comp_apply, List.any_map, ((perm_sortedBy name l).any_eq)]
    simp only [Function.comp_def, hname]
  have hnodup : (((newOf name l k).map f).map nameOf).Nodup := by
    rw [List.map_map, hcomp, newOf, ((perm_sortedBy name _).map name).nodup_iff]
    exact hk.sublist (List.filter_sublist.map name)
  refine eq_of_sorted (pairwise_sortedBy nameOf _) ?_ hnodup ((perm_sortedBy nameOf _).trans ?_)
  · rw [List.map_map, hcomp]
    exact pairwise_sortedBy name _
  · rw [List.filter_map, hfilter]
    exact (((perm_sortedBy name k).filter _).trans (perm_sortedBy name _).symm).map f

theorem mapM_of_forall₂ {β : Type} {f : α → Option β} {r : List β} (h : List.Forall₂ (fun x y => f x = some y) l r) :
    l.mapM f = some r := by
  induction h with
  | nil => rfl
  | cons hy _ ih =>
    rw [List.mapM_cons, hy, ih]
    rfl

end sorted

/-! ## The changes -/

/-- The changes there can be of an attribute. -/
def attributeChanges (entity field : String) : List MetadataChange :=
  [⟨.attributeDescription, entity, field⟩, ⟨.retrievalMode, entity, field⟩, ⟨.allowedValuesExpansion, entity, field⟩]

/-- The changes there can be of an entity. -/
def entityChanges (e : EntityDefinition) : List MetadataChange :=
  ⟨.entityDescription, e.name, none⟩ :: e.attributes.flatMap fun a => attributeChanges e.name a.name

/-- The changes there can be of a manifest. -/
def manifestChanges (m : ManifestV2) : List MetadataChange :=
  (sortedBy (·.name) m.entities).flatMap entityChanges ++
    [⟨.retrievalGuidance, none, none⟩, ⟨.queryPatterns, none, none⟩, ⟨.discoveryFacets, none, none⟩]

section changes

variable {entity : String} {a b : AttributeDefinition} {s d : List AttributeDefinition} {m t : ManifestV2}

theorem ite_sublist {α : Type} (p : Prop) [Decidable p] (x : α) : (if p then [x] else []).Sublist [x] := by
  by_cases h : p
  · rw [if_pos h]
  · rw [if_neg h]
    exact List.nil_sublist _

theorem append_sublist {α : Type} {l₁ l₂ l₃ : List α} {x y z : α} (h₁ : l₁.Sublist [x]) (h₂ : l₂.Sublist [y])
    (h₃ : l₃.Sublist [z]) : (l₁ ++ l₂ ++ l₃).Sublist [x, y, z] :=
  (h₁.append h₂).append h₃

theorem classifyAttributeChange_sublist {changes : List MetadataChange}
    (h : classifyAttributeChange entity a b = some changes) : changes.Sublist (attributeChanges entity a.name) := by
  unfold classifyAttributeChange at h
  by_cases hne : a.name ≠ b.name ∨ a.type ≠ b.type ∨ a.required ≠ b.required ∨ a.primaryKey ≠ b.primaryKey
  · exact absurd h (by simp [if_pos hne])
  rw [if_neg hne] at h
  obtain ⟨allowed, hallowed, h⟩ := Option.bind_eq_some_iff.1 h
  obtain rfl := Option.some.inj h
  have hsub : allowed.Sublist [⟨.allowedValuesExpansion, entity, a.name⟩] := by
    unfold classifyAllowedValues at hallowed
    split at hallowed
    · obtain rfl := Option.some.inj hallowed
      exact List.nil_sublist _
    · split_ifs at hallowed
      · obtain rfl := Option.some.inj hallowed
        exact List.nil_sublist _
      · obtain rfl := Option.some.inj hallowed
        exact List.Sublist.refl _
    · exact absurd hallowed (by simp)
  exact append_sublist (ite_sublist _ _) (ite_sublist _ _) hsub

theorem classifyAttributes_sublist {r : List MetadataChange × List FieldAddition}
    (h : classifyAttributes entity s d = some r) :
    r.1.Sublist (s.flatMap fun a => attributeChanges entity a.name) := by
  induction s generalizing d r with
  | nil =>
    unfold classifyAttributes at h
    split_ifs at h
    obtain rfl := Option.some.inj h
    exact List.nil_sublist _
  | cons a s ih =>
    cases d with
    | nil => exact absurd h (by simp [classifyAttributes])
    | cons b d =>
      simp only [classifyAttributes, Option.bind_eq_bind, Option.bind_eq_some_iff, Option.some.injEq] at h
      obtain ⟨changes, hchanges, rest, hrest, rfl⟩ := h
      exact (classifyAttributeChange_sublist hchanges).append (ih hrest)

theorem classifyEntity_sublist {e : EntityDefinition} {r : List MetadataChange × List FieldAddition}
    (h : classifyEntity t e = some r) : r.1.Sublist (entityChanges e) := by
  simp only [classifyEntity, Option.bind_eq_bind, Option.bind_eq_some_iff, Option.some.injEq] at h
  obtain ⟨d, -, rest, hrest, rfl⟩ := h
  have hhead := ite_sublist (e.description ≠ d.description) (⟨.entityDescription, e.name, none⟩ : MetadataChange)
  exact hhead.append (classifyAttributes_sublist hrest)

theorem flatten_sublist {l : List EntityDefinition} {kept : List (List MetadataChange × List FieldAddition)}
    (h : List.Forall₂ (fun e y => classifyEntity t e = some y) l kept) :
    ((kept.map Prod.fst).flatten).Sublist (l.flatMap entityChanges) := by
  induction h with
  | nil => exact List.nil_sublist _
  | cons hy _ ih => exact (classifyEntity_sublist hy).append ih

/-- **A transition lists changes of its manifest**, each at most once. -/
theorem Computes.sublist {kept : List (List MetadataChange × List FieldAddition)} {additions : RelationalAdditions}
    {changes : List MetadataChange} (h : Computes m t kept additions changes) :
    changes.Sublist (manifestChanges m) := by
  rw [h.metadata]
  exact (flatten_sublist (mapM_eq_some h.classified)).append
    (append_sublist (ite_sublist _ _) (ite_sublist _ _) (ite_sublist _ _))

theorem mem_attributeChanges {field : String} {c : MetadataChange} (h : c ∈ attributeChanges entity field) :
    c.entity = some entity ∧ c.field = some field ∧ c.kind ≠ .entityDescription := by
  simp only [attributeChanges, List.mem_cons, List.not_mem_nil, or_false] at h
  rcases h with rfl | rfl | rfl <;> simp

theorem mem_entityChanges {e : EntityDefinition} {c : MetadataChange} (h : c ∈ entityChanges e) :
    c.entity = some e.name := by
  rcases List.mem_cons.1 h with rfl | h
  · rfl
  · obtain ⟨a, -, ha⟩ := List.mem_flatMap.1 h
    exact (mem_attributeChanges ha).1

theorem nodup_entityChanges {e : EntityDefinition} (h : e.Valid) : (entityChanges e).Nodup := by
  refine List.nodup_cons.2 ⟨fun hmem => ?_, List.nodup_flatMap.2 ⟨fun a _ => ?_, ?_⟩⟩
  · obtain ⟨a, -, ha⟩ := List.mem_flatMap.1 hmem
    exact (mem_attributeChanges ha).2.2 rfl
  · simp [attributeChanges]
  · refine (List.pairwise_map.1 h.distinct).imp fun {a b} hne => ?_
    intro c ha hb
    exact hne (Option.some.inj ((mem_attributeChanges ha).2.1.symm.trans (mem_attributeChanges hb).2.1))

theorem nodup_manifestChanges (m : ManifestV2) : (manifestChanges m).Nodup := by
  refine List.nodup_append'.2 ⟨List.nodup_flatMap.2 ⟨fun e he => ?_, ?_⟩, by simp, ?_⟩
  · exact nodup_entityChanges (m.valid.entities e (mem_sortedBy.1 he))
  · refine (List.pairwise_map.1 Accepted.nodup_sorted).imp fun {e f} hne => ?_
    intro c he hf
    exact hne (Option.some.inj ((mem_entityChanges he).symm.trans (mem_entityChanges hf)))
  · intro c hc hglobal
    obtain ⟨e, -, he⟩ := List.mem_flatMap.1 hc
    have hentity := mem_entityChanges he
    simp only [List.mem_cons, List.not_mem_nil, or_false] at hglobal
    rcases hglobal with rfl | rfl | rfl <;> exact absurd hentity (by simp)

theorem valid_manifestChanges {c : MetadataChange} (h : c ∈ manifestChanges m) : c.Valid := by
  rcases List.mem_append.1 h with h | h
  · obtain ⟨e, he, hc⟩ := List.mem_flatMap.1 h
    have hvalid := m.valid.entities e (mem_sortedBy.1 he)
    rcases List.mem_cons.1 hc with rfl | hc
    · exact ⟨⟨e.name, rfl, hvalid.name⟩, rfl⟩
    · obtain ⟨a, ha, hc⟩ := List.mem_flatMap.1 hc
      have hname := (hvalid.attributes a ha).name
      simp only [attributeChanges, List.mem_cons, List.not_mem_nil, or_false] at hc
      rcases hc with rfl | rfl | rfl <;> exact ⟨⟨e.name, rfl, hvalid.name⟩, a.name, rfl, hname⟩
  · simp only [List.mem_cons, List.not_mem_nil, or_false] at h
    rcases h with rfl | rfl | rfl <;> exact ⟨rfl, rfl⟩

end changes

/-! ## The two computations agree -/

section agree

variable {m t : ManifestV2} {kept : List (List MetadataChange × List FieldAddition)} {a : RelationalAdditions}
  {changes : List MetadataChange}

theorem sorted_entities : ((compileManifest m).entities.map (·.name)).Pairwise (· ≤ ·) :=
  (compileManifest_valid m).sorted.1

theorem sortedBy_entities : sortedBy (·.name) (compileManifest m).entities = (compileManifest m).entities :=
  sortedBy_eq_of_perm sorted_entities nodup_entities (List.Perm.refl _)

theorem any_entities (name : String) :
    ((compileManifest m).entities.any fun e => e.name = name) = m.entities.any fun e => e.name = name := by
  rw [compileManifest, List.any_map, (perm_sortedBy _ m.entities).any_eq]
  rfl

theorem Computes.entities_eq (h : Computes m t kept a changes) :
    a.entities = newOf (·.name) (compileManifest m).entities (compileManifest t).entities := by
  have hfilter : ((compileManifest t).entities.filter fun e => isNewEntity m e.name) =
      (compileManifest t).entities.filter fun x => !(compileManifest m).entities.any fun y => y.name = x.name := by
    refine List.filter_congr fun e _ => ?_
    rw [any_entities, isNewEntity]
  have hsub := (List.filter_sublist (p := fun e : RelationalEntity => isNewEntity m e.name)
    (l := (compileManifest t).entities)).map (·.name)
  rw [h.entities, newOf, ← hfilter]
  exact (sortedBy_eq_of_perm (sorted_entities.sublist hsub) (nodup_entities.sublist hsub) (List.Perm.refl _)).symm

/-- What one entity gains, in either computation. -/
theorem expectedFields_eq {e : EntityDefinition} {y : List MetadataChange × List FieldAddition}
    (h : classifyEntity t e = some y) : expectedFields (compileManifest t) (entity e) = some y.2 := by
  obtain ⟨d, hd, hname, added, hfields, hoptional, hy⟩ := classifyEntity_eq_some h
  have hfind : (compileManifest t).entity? (entity e).name = some (entity d) :=
    (find?_name_eq_some_iff nodup_entities).2 ⟨mem_entities.2 ⟨d, hd, rfl⟩, hname⟩
  rw [expectedFields, hfind, Option.bind_eq_bind, Option.bind_some, hfields, List.take_left, List.drop_left, hy]
  simp [guard, entity, if_pos hoptional]

theorem mapM_expectedFields (h : Computes m t kept a changes) :
    (sortedBy (·.name) (compileManifest m).entities).mapM (expectedFields (compileManifest t)) =
      some (kept.map Prod.snd) := by
  rw [sortedBy_entities, compileManifest]
  refine mapM_of_forall₂ (List.forall₂_map_left_iff.2 (List.forall₂_map_right_iff.2 ?_))
  exact (mapM_eq_some h.classified).imp fun _ _ hy => expectedFields_eq hy

theorem Computes.relationships_eq (h : Computes m t kept a changes) :
    a.relationships = newOf (·.name) (compileManifest m).relationships (compileManifest t).relationships := by
  rw [(classifyRelationships_eq_some h.relationships).2.2]
  exact (newOf_map relationship (fun r => r.name) (fun _ => rfl) t.valid.relationshipNames).symm

theorem Computes.indices_eq (h : Computes m t kept a changes) :
    a.indices = newOf (·.name) (compileManifest m).indices (compileManifest t).indices := by
  rw [(classifyIndices_eq_some h.indices).2]
  exact (newOf_map index (fun i => i.name) (fun _ => rfl) t.valid.indexNames).symm

theorem Computes.kept_relationships (h : Computes m t kept a changes) :
    ∀ r ∈ (compileManifest m).relationships, r ∈ (compileManifest t).relationships := by
  intro r hr
  obtain ⟨d, hd, rfl⟩ := mem_relationships.1 hr
  exact mem_relationships.2 ⟨d, (classifyRelationships_eq_some h.relationships).1 d hd, rfl⟩

theorem Computes.kept_indices (h : Computes m t kept a changes) :
    ∀ i ∈ (compileManifest m).indices, i ∈ (compileManifest t).indices := by
  intro i hi
  obtain ⟨d, hd, rfl⟩ := mem_indices.1 hi
  exact mem_indices.2 ⟨d, (classifyIndices_eq_some h.indices).1 d hd, rfl⟩

/-- A new relationship starts from a new entity, in the specification too. -/
theorem Computes.source_new (h : Computes m t kept a changes) {r : RelationalRelationship} (hr : r ∈ a.relationships) :
    (!(compileManifest m).entities.any fun e => e.name = r.sourceEntity) = true := by
  obtain ⟨-, hnew, heq⟩ := classifyRelationships_eq_some h.relationships
  rw [heq] at hr
  obtain ⟨d, hd, rfl⟩ := List.mem_map.1 hr
  obtain ⟨hd, hcond⟩ := List.mem_filter.1 (mem_sortedBy.1 hd)
  rw [any_entities]
  exact hnew d hd (by simpa using hcond)

/-- **The factory computes what the classifier did.** -/
theorem expectedAdditions_eq (h : Computes m t kept a changes) :
    expectedAdditions (compileManifest m) (compileManifest t) = some a := by
  have hrelationships : ((newOf (·.name) (compileManifest m).relationships (compileManifest t).relationships).filter
      fun r => !(compileManifest m).entities.any fun e => e.name = r.sourceEntity) = a.relationships := by
    rw [← h.relationships_eq]
    exact List.filter_eq_self.2 fun r hr => h.source_new hr
  have hlength : a.relationships.length + (compileManifest m).relationships.length =
      (compileManifest t).relationships.length := by
    rw [h.relationships_eq, Nat.add_comm, ← List.length_append]
    exact (perm_kept_new nodup_relationships nodup_relationships h.kept_relationships).length_eq
  rw [expectedAdditions, mapM_expectedFields h]
  simp only [Option.bind_eq_bind, Option.bind_some, (keptIn_iff nodup_relationships).2 h.kept_relationships,
    (keptIn_iff nodup_indices).2 h.kept_indices, hrelationships, hlength, guard, if_true]
  rw [← h.entities_eq, ← h.indices_eq, ← h.fields]
  rfl

theorem Computes.field_entity (h : Computes m t kept a changes) {f : FieldAddition} (hf : f ∈ a.fields) :
    ∃ d ∈ m.entities, d.name = f.entity := by
  rw [h.fields] at hf
  obtain ⟨l, hl, hf⟩ := List.mem_flatten.1 hf
  obtain ⟨c, hc, rfl⟩ := List.mem_map.1 hl
  obtain ⟨e, he, hcalc⟩ := exists_of_forall₂ (mapM_eq_some h.classified).flip hc
  obtain ⟨-, -, -, added, -, -, hadded⟩ := classifyEntity_eq_some hcalc
  rw [hadded] at hf
  obtain ⟨x, -, rfl⟩ := List.mem_map.1 hf
  exact ⟨e, mem_sortedBy.1 he, rfl⟩

theorem sortedChanges_perm (changes : List MetadataChange) : (sortedChanges changes).Perm changes :=
  List.perm_insertionSort _ _

theorem sortedChanges_idem (changes : List MetadataChange) : sortedChanges (sortedChanges changes) = sortedChanges changes := by
  have : Std.Total fun a b : MetadataChange => metadataSortKey a ≤ metadataSortKey b := ⟨fun a b => le_total _ _⟩
  have : IsTrans MetadataChange fun a b => metadataSortKey a ≤ metadataSortKey b := ⟨fun _ _ _ => le_trans⟩
  exact (List.pairwise_insertionSort (fun a b : MetadataChange => metadataSortKey a ≤ metadataSortKey b)
    changes).insertionSort_eq

/-- **A classified transition is built.** -/
theorem buildTransition_eq (m t : ManifestV2) : buildTransition m t = classifyTransition m t := by
  rw [buildTransition, compileManifestChecked_eq, compileManifestChecked_eq, Option.bind_eq_bind, Option.bind_some,
    Option.bind_some]
  cases hx : classifyTransition m t with
  | none => rfl
  | some x =>
    obtain ⟨hversion, -, kept, changes, h, hchanged, hcurrent, htarget, hmetadata⟩ := classifyTransition_eq_some_iff.1 hx
    have hsorted : x.metadataChanges = sortedChanges changes := hmetadata
    have hfields : ∀ f ∈ x.additions.fields, isIdentifier f.entity = true := by
      intro f hf
      obtain ⟨d, hd, hname⟩ := h.field_entity hf
      exact hname ▸ (m.valid.entities d hd).name
    have hvalid : ∀ c ∈ x.metadataChanges, c.Valid := by
      intro c hc
      rw [hsorted] at hc
      exact valid_manifestChanges (h.sublist.mem ((sortedChanges_perm changes).mem_iff.1 hc))
    have hidem : x.metadataChanges = sortedChanges x.metadataChanges := by rw [hsorted, sortedChanges_idem]
    have hnodup : x.metadataChanges.Nodup := by
      rw [hsorted, (sortedChanges_perm changes).nodup_iff]
      exact (nodup_manifestChanges m).sublist h.sublist
    have hsome : (!(x.additions.isEmpty && x.metadataChanges.isEmpty)) = true := by
      have hempty : x.metadataChanges.isEmpty = changes.isEmpty := by
        rw [hsorted]
        exact (sortedChanges_perm changes).isEmpty_eq
      rw [hempty, Bool.not_eq_true', Bool.eq_false_iff]
      exact fun hall => h.isEmpty_iff.1 hall hchanged
    have hguard : ∀ p : Prop, ∀ [Decidable p], p → (guard p : Option Unit) = some () := fun p _ hp => if_pos hp
    have hnext : (compileManifest t).schemaVersion = (compileManifest m).schemaVersion + 1 := hversion
    change build (compileManifest m) (compileManifest t) x.additions x.metadataChanges = some x
    rw [build, hguard _ hfields, hguard _ hvalid, hguard _ hidem, hguard _ hnodup,
      hguard _ hnext, expectedAdditions_eq h, hguard _ hsome]
    simp [guard, ← hcurrent, ← htarget]

/-- An entity with the fields that a transition adds to it. -/
def extendedEntity (a : RelationalAdditions) (e : RelationalEntity) : RelationalEntity :=
  ⟨e.name, e.fields ++ (a.fields.filter fun f => f.entity = e.name).map (·.field)⟩

/-- **The additions are the difference**: the current specification with
them is the target's. -/
theorem applyAdditions_eq {x : RelationalTransition} (hx : classifyTransition m t = some x) :
    applyAdditions (compileManifest m) x.additions = compileManifest t := by
  have haccepted := classifyTransition_eq_some hx
  obtain ⟨hversion, -, kept, changes, h, -⟩ := classifyTransition_eq_some_iff.1 hx
  have hextended : ∀ e ∈ (compileManifest m).entities, extendedEntity x.additions e ∈ (compileManifest t).entities := by
    intro e he
    obtain ⟨d, hd, rfl⟩ := mem_entities.1 he
    obtain ⟨d', hd', hname, added, hfields, -, hfilter⟩ := haccepted.entity_added hd
    refine mem_entities.2 ⟨d', hd', ?_⟩
    have hself : (x.additions.fields.filter fun f => f.entity = (entity d).name).map (·.field) = added := by
      refine (congrArg (List.map fun f : FieldAddition => f.field) hfilter).trans ?_
      rw [List.map_map]
      exact List.map_id added
    rw [extendedEntity, hself, ← hfields]
    exact (RelationalEntity.mk.injEq ..).mpr ⟨hname, rfl⟩
  have hentities : sortedBy (·.name) ((compileManifest m).entities.map (extendedEntity x.additions) ++
      x.additions.entities) = (compileManifest t).entities := by
    have hnames : ((compileManifest m).entities.map (extendedEntity x.additions)).map (·.name) =
        (compileManifest m).entities.map (·.name) := by
      rw [List.map_map]
      rfl
    have hnew : x.additions.entities = newOf (·.name) ((compileManifest m).entities.map (extendedEntity x.additions))
        (compileManifest t).entities := by
      rw [h.entities_eq, newOf, newOf]
      refine congrArg _ (List.filter_congr fun e _ => ?_)
      rw [List.any_map]
      rfl
    rw [hnew]
    refine sortedBy_eq_of_perm sorted_entities nodup_entities (perm_kept_new ?_ nodup_entities ?_)
    · rw [hnames]
      exact nodup_entities
    · intro f hf
      obtain ⟨e, he, rfl⟩ := List.mem_map.1 hf
      exact hextended e he
  have hrelationships : sortedBy (·.name) ((compileManifest m).relationships ++ x.additions.relationships) =
      (compileManifest t).relationships := by
    rw [h.relationships_eq]
    exact sortedBy_eq_of_perm (compileManifest_valid t).sorted.2.1 nodup_relationships
      (perm_kept_new nodup_relationships nodup_relationships h.kept_relationships)
  have hindices : sortedBy (·.name) ((compileManifest m).indices ++ x.additions.indices) = (compileManifest t).indices := by
    rw [h.indices_eq]
    exact sortedBy_eq_of_perm (compileManifest_valid t).sorted.2.2 nodup_indices
      (perm_kept_new nodup_indices nodup_indices h.kept_indices)
  exact (RelationalSpecification.mk.injEq ..).mpr ⟨hversion.symm, hentities, hrelationships, hindices⟩

/-- **Classification is exact.** It accepts the additive transitions and no
others; what it says is added is the difference of the two specifications;
and the factory's second computation never disagrees with it. -/
theorem classification_exact (m t : ManifestV2) :
    ((∃ x, buildTransition m t = some x) ↔ Additive m t) ∧
    (∀ x, buildTransition m t = some x → x.current = compileManifest m ∧ x.target = compileManifest t ∧
      applyAdditions (compileManifest m) x.additions = compileManifest t) ∧
    (∀ x, classifyTransition m t = some x →
      expectedAdditions (compileManifest m) (compileManifest t) = some x.additions ∧ buildTransition m t = some x) := by
  rw [buildTransition_eq]
  refine ⟨classifyTransition_isSome_iff, fun x hx => ?_, fun x hx => ?_⟩
  · have haccepted := classifyTransition_eq_some hx
    exact ⟨haccepted.current, haccepted.target, applyAdditions_eq hx⟩
  · obtain ⟨-, -, kept, changes, h, -⟩ := classifyTransition_eq_some_iff.1 hx
    exact ⟨expectedAdditions_eq h, hx⟩

end agree

end Relational

end Aipcs

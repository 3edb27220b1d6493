import Aipcs.Relational.Transition

/-!
# Relational — what the classification accepts

`Additive` says of two manifests what the classification asks of them, and
`classifyTransition_iff` that it asks no more: the target keeps what the
current manifest has, adds at the end, and does change something.
-/

namespace Aipcs

namespace Relational

open Manifest

/-! ## What is asked -/

/-- The second list has what the first has. -/
def Includes (v w : List AllowedValue) : Prop := ∀ x ∈ v, ∃ y ∈ w, x.same y

/-- The allowed values of an attribute are kept or enlarged. -/
inductive AllowedKept : Option (List AllowedValue) → Option (List AllowedValue) → Prop
  | any : AllowedKept none none
  | enlarged {v w : List AllowedValue} : Includes v w → AllowedKept (some v) (some w)

/-- An attribute of the current manifest, and the target's in its place. -/
structure AttributeKept (a b : AttributeDefinition) : Prop where
  name : a.name = b.name
  type : a.type = b.type
  required : a.required = b.required
  primaryKey : a.primaryKey = b.primaryKey
  allowed : AllowedKept a.allowedValues b.allowedValues

/-- The target's attributes are the current ones and optional ones after them. -/
inductive AttributesKept : List AttributeDefinition → List AttributeDefinition → Prop
  | added {d : List AttributeDefinition} : (∀ a ∈ d, a.required = false) → AttributesKept [] d
  | kept {a b : AttributeDefinition} {s d : List AttributeDefinition} : AttributeKept a b → AttributesKept s d →
      AttributesKept (a :: s) (b :: d)

/-- An entity of the current manifest, and the target's of its name. -/
structure EntityKept (e d : EntityDefinition) : Prop where
  name : d.name = e.name
  attributes : AttributesKept e.attributes d.attributes

/-- The metadata of an attribute changes. -/
inductive AttributeChanged (a b : AttributeDefinition) : Prop
  | description : a.description ≠ b.description → AttributeChanged a b
  | retrievalMode : a.retrievalMode ≠ b.retrievalMode → AttributeChanged a b
  | allowedValues {v w : List AllowedValue} : a.allowedValues = some v → b.allowedValues = some w →
      ¬ Includes w v → AttributeChanged a b

/-- An entity gains a field, or its metadata changes. -/
inductive EntityChanged (e d : EntityDefinition) : Prop
  | description : e.description ≠ d.description → EntityChanged e d
  | gained : e.attributes.length < d.attributes.length → EntityChanged e d
  | attribute {p : AttributeDefinition × AttributeDefinition} : p ∈ e.attributes.zip d.attributes →
      AttributeChanged p.1 p.2 → EntityChanged e d

/-- Something changes besides the version, the history and the order of
what is found by name. -/
inductive Changed (m t : ManifestV2) : Prop
  | newEntity {d : EntityDefinition} : d ∈ t.entities → (∀ e ∈ m.entities, e.name ≠ d.name) → Changed m t
  | newRelationship {r : RelationshipDefinition} : r ∈ t.relationships → r ∉ m.relationships → Changed m t
  | newIndex {i : IndexDefinition} : i ∈ t.indices → i ∉ m.indices → Changed m t
  | entity {e d : EntityDefinition} : e ∈ m.entities → d ∈ t.entities → d.name = e.name → EntityChanged e d →
      Changed m t
  | guidance : m.retrievalGuidance ≠ t.retrievalGuidance → Changed m t
  | queryPatterns : m.queryPatterns ≠ t.queryPatterns → Changed m t
  | facets : m.discoveryFacets ≠ t.discoveryFacets → Changed m t

/-- **The additive transitions.** -/
structure Additive (m t : ManifestV2) : Prop where
  version : t.schemaVersion = m.schemaVersion + 1
  history : ∃ h : MigrationHistoryEntry, t.migrationHistory = m.migrationHistory ++ [h] ∧
    h.fromSchemaVersion = m.schemaVersion ∧ h.toSchemaVersion = t.schemaVersion
  entities : ∀ e ∈ m.entities, ∃ d ∈ t.entities, EntityKept e d
  relationships : ∀ r ∈ m.relationships, r ∈ t.relationships
  newRelationships : ∀ r ∈ t.relationships, r ∉ m.relationships → ∀ e ∈ m.entities, e.name ≠ r.from_.entity
  indices : ∀ i ∈ m.indices, i ∈ t.indices
  changed : Changed m t

/-! ## One attribute -/

/-- A classification accepts what is kept, and is quiet where nothing changed. -/
structure Decides {ρ : Type} (r : Option ρ) (quiet : ρ → Prop) (kept changed : Prop) : Prop where
  accepts : kept → ∃ c, r = some c
  kept : ∀ c, r = some c → kept
  quiet : ∀ c, r = some c → (quiet c ↔ ¬ changed)

section attributes

variable {entity : String} {a b : AttributeDefinition} {s d : List AttributeDefinition}

theorem includes_iff {v w : List AllowedValue} : includes v w = true ↔ Includes v w := by
  simp [includes, Includes]

/-- Some allowed value is new. -/
def AllowedEnlarged (a b : AttributeDefinition) : Prop :=
  ∃ v w, a.allowedValues = some v ∧ b.allowedValues = some w ∧ ¬ Includes w v

theorem classifyAllowedValues_decides :
    Decides (classifyAllowedValues entity a b) (· = []) (AllowedKept a.allowedValues b.allowedValues)
      (AllowedEnlarged a b) := by
  rw [classifyAllowedValues, AllowedEnlarged]
  generalize a.allowedValues = source
  generalize b.allowedValues = destination
  cases source with
  | none =>
    cases destination with
    | none => exact ⟨fun _ => ⟨[], rfl⟩, fun _ _ => .any, fun c hc => by simp [← Option.some.inj hc]⟩
    | some w => exact ⟨fun h => (nomatch h), fun c hc => absurd hc (by simp), fun c hc => absurd hc (by simp)⟩
  | some v =>
    cases destination with
    | none => exact ⟨fun h => (nomatch h), fun c hc => absurd hc (by simp), fun c hc => absurd hc (by simp)⟩
    | some w =>
      dsimp only
      by_cases hkept : Includes v w
      · rw [if_pos (includes_iff.2 hkept)]
        by_cases hsame : Includes w v
        · rw [if_pos (includes_iff.2 hsame)]
          refine ⟨fun _ => ⟨[], rfl⟩, fun _ _ => .enlarged hkept, fun c hc => ?_⟩
          obtain rfl := Option.some.inj hc
          simp [hsame]
        · rw [if_neg (mt includes_iff.1 hsame)]
          refine ⟨fun _ => ⟨_, rfl⟩, fun _ _ => .enlarged hkept, fun c hc => ?_⟩
          obtain rfl := Option.some.inj hc
          simp [hsame]
      · rw [if_neg (mt includes_iff.1 hkept)]
        refine ⟨fun h => ?_, fun c hc => absurd hc (by simp), fun c hc => absurd hc (by simp)⟩
        cases h with
        | enlarged h => exact absurd h hkept

theorem attributeChanged_iff : AttributeChanged a b ↔
    a.description ≠ b.description ∨ a.retrievalMode ≠ b.retrievalMode ∨ AllowedEnlarged a b := by
  constructor
  · rintro (h | h | ⟨hv, hw, h⟩)
    · exact .inl h
    · exact .inr (.inl h)
    · exact .inr (.inr ⟨_, _, hv, hw, h⟩)
  · rintro (h | h | ⟨v, w, hv, hw, h⟩)
    · exact .description h
    · exact .retrievalMode h
    · exact .allowedValues hv hw h

/-- A list that is there under a condition. -/
theorem ite_eq_nil_iff {α : Type} {p : Prop} [Decidable p] {x : α} : (if p then [x] else []) = [] ↔ ¬ p := by
  by_cases h : p
  · simp [h]
  · simp [h]

theorem classifyAttributeChange_decides :
    Decides (classifyAttributeChange entity a b) (· = []) (AttributeKept a b) (AttributeChanged a b) := by
  unfold classifyAttributeChange
  by_cases hne : a.name ≠ b.name ∨ a.type ≠ b.type ∨ a.required ≠ b.required ∨ a.primaryKey ≠ b.primaryKey
  · rw [if_pos hne]
    refine ⟨fun h => ?_, fun c hc => absurd hc (by simp), fun c hc => absurd hc (by simp)⟩
    rcases hne with hne | hne | hne | hne
    · exact absurd h.name hne
    · exact absurd h.type hne
    · exact absurd h.required hne
    · exact absurd h.primaryKey hne
  · rw [if_neg hne]
    simp only [ne_eq, not_or, not_not] at hne
    obtain ⟨hname, htype, hrequired, hkey⟩ := hne
    have hallowed : Decides (classifyAllowedValues entity a b) _ _ _ := classifyAllowedValues_decides
    refine ⟨fun h => ?_, fun c hc => ?_, fun c hc => ?_⟩
    · obtain ⟨c, hc⟩ := hallowed.accepts h.allowed
      exact ⟨_, by rw [hc]; rfl⟩
    · obtain ⟨c', hc', -⟩ := Option.bind_eq_some_iff.1 hc
      exact ⟨hname, htype, hrequired, hkey, hallowed.kept c' hc'⟩
    · obtain ⟨c', hc', hrest⟩ := Option.bind_eq_some_iff.1 hc
      obtain rfl := Option.some.inj hrest
      rw [List.append_eq_nil_iff, List.append_eq_nil_iff, ite_eq_nil_iff, ite_eq_nil_iff, hallowed.quiet c' hc',
        attributeChanged_iff]
      tauto

/-! ## One entity -/

/-- An entity gains an attribute or one of its attributes changes. -/
def AttributesChanged (s d : List AttributeDefinition) : Prop :=
  s.length < d.length ∨ ∃ p ∈ s.zip d, AttributeChanged p.1 p.2

/-- Nothing is listed. -/
def Quiet (r : List MetadataChange × List FieldAddition) : Prop := r.1 = [] ∧ r.2 = []

theorem classifyAttributes_decides (hkey : ∀ a ∈ d, a.primaryKey = true → a.required = true) :
    Decides (classifyAttributes entity s d) Quiet (AttributesKept s d) (AttributesChanged s d) := by
  induction s generalizing d with
  | nil =>
    unfold classifyAttributes
    by_cases hany : d.any fun a => a.required || a.primaryKey
    · rw [if_pos hany]
      refine ⟨fun h => ?_, fun c hc => absurd hc (by simp), fun c hc => absurd hc (by simp)⟩
      cases h with
      | added h =>
        obtain ⟨a, ha, hor⟩ := List.any_eq_true.1 hany
        have hrequired : a.required = true := by
          rcases Bool.or_eq_true_iff.1 hor with hr | hk
          · exact hr
          · exact hkey a ha hk
        exact absurd (h a ha) (by simp [hrequired])
    · rw [if_neg hany]
      refine ⟨fun _ => ⟨_, rfl⟩, fun _ _ => .added fun a ha => ?_, fun c hc => ?_⟩
      · by_contra hr
        exact hany (List.any_eq_true.2 ⟨a, ha, by simpa using Or.inl (by simpa using hr)⟩)
      · obtain rfl := Option.some.inj hc
        rw [Quiet, AttributesChanged, List.zip_nil_left]
        simp [List.length_pos_iff]
  | cons a s ih =>
    cases d with
    | nil =>
      unfold classifyAttributes
      refine ⟨fun h => ?_, fun c hc => absurd hc (by simp), fun c hc => absurd hc (by simp)⟩
      cases h
    | cons b d =>
      obtain ⟨-, hkeys⟩ := List.forall_mem_cons.1 hkey
      have hhead : Decides (classifyAttributeChange entity a b) _ _ _ := classifyAttributeChange_decides
      have htail := ih hkeys
      have hparts : ∀ c, classifyAttributes entity (a :: s) (b :: d) = some c →
          ∃ changes, classifyAttributeChange entity a b = some changes ∧
            ∃ rest, classifyAttributes entity s d = some rest ∧ (changes ++ rest.1, rest.2) = c := by
        intro c hc
        simpa only [classifyAttributes, Option.bind_eq_bind, Option.bind_eq_some_iff, Option.some.injEq] using hc
      refine ⟨fun h => ?_, fun c hc => ?_, fun c hc => ?_⟩
      · cases h with
        | kept hk hrest =>
          obtain ⟨changes, hchanges⟩ := hhead.accepts hk
          obtain ⟨rest, hrest⟩ := htail.accepts hrest
          exact ⟨(changes ++ rest.1, rest.2), by simp [classifyAttributes, hchanges, hrest]⟩
      · obtain ⟨changes, hchanges, rest, hrest, -⟩ := hparts c hc
        exact .kept (hhead.kept _ hchanges) (htail.kept _ hrest)
      · obtain ⟨changes, hchanges, rest, hrest, rfl⟩ := hparts c hc
        have hq := hhead.quiet _ hchanges
        have hr := htail.quiet _ hrest
        rw [Quiet, AttributesChanged] at hr ⊢
        rw [List.append_eq_nil_iff, and_assoc, hr, hq, List.zip_cons_cons, List.length_cons, List.length_cons,
          Nat.add_lt_add_iff_right]
        simp only [List.mem_cons, exists_eq_or_imp, not_or]
        exact and_left_comm

end attributes

section transition

variable {m t : ManifestV2} {e d : EntityDefinition}

/-- A found entity. -/
theorem find_entity_iff {name : String} :
    (t.entities.find? fun d => d.name = name) = some d ↔ d ∈ t.entities ∧ d.name = name :=
  find?_name_eq_some_iff t.valid.entityNames

theorem entityChanged_iff :
    EntityChanged e d ↔ e.description ≠ d.description ∨ AttributesChanged e.attributes d.attributes := by
  constructor
  · rintro (h | h | ⟨hp, h⟩)
    · exact .inl h
    · exact .inr (.inl h)
    · exact .inr (.inr ⟨_, hp, h⟩)
  · rintro (h | h | ⟨p, hp, h⟩)
    · exact .description h
    · exact .gained h
    · exact .attribute hp h

theorem classifyEntity_decides : Decides (classifyEntity t e) Quiet (∃ d ∈ t.entities, EntityKept e d)
    (∃ d ∈ t.entities, d.name = e.name ∧ EntityChanged e d) := by
  cases hfind : t.entities.find? fun d => d.name = e.name with
  | none =>
    have hnone : classifyEntity t e = none := by
      rw [classifyEntity, hfind]
      rfl
    rw [hnone]
    refine ⟨?_, fun c hc => absurd hc (by simp), fun c hc => absurd hc (by simp)⟩
    rintro ⟨d, hd, hkept⟩
    exact absurd ((find_entity_iff.2 ⟨hd, hkept.name⟩).symm.trans hfind) (by simp)
  | some d =>
    obtain ⟨hd, hname⟩ := find_entity_iff.1 hfind
    have hkey : ∀ a ∈ d.attributes, a.primaryKey = true → a.required = true :=
      fun a ha => ((t.valid.entities d hd).attributes a ha).primaryKey
    have hattributes : Decides (classifyAttributes e.name e.attributes d.attributes) _ _ _ :=
      classifyAttributes_decides hkey
    have hself : ∀ d' ∈ t.entities, d'.name = e.name → d' = d := fun d' hd' hname' =>
      Option.some.inj ((find_entity_iff.2 ⟨hd', hname'⟩).symm.trans hfind)
    have hparts : ∀ c, classifyEntity t e = some c →
        ∃ r, classifyAttributes e.name e.attributes d.attributes = some r ∧
          ((if e.description ≠ d.description then
            [{ kind := .entityDescription, entity := e.name : MetadataChange }] else []) ++ r.1, r.2) = c := by
      intro c hc
      rw [classifyEntity, hfind, Option.bind_eq_bind, Option.bind_some] at hc
      obtain ⟨r, hr, hrest⟩ := Option.bind_eq_some_iff.1 hc
      exact ⟨r, hr, Option.some.inj hrest⟩
    refine ⟨?_, fun c hc => ?_, fun c hc => ?_⟩
    · rintro ⟨d', hd', hkept⟩
      obtain ⟨r, hr⟩ := hattributes.accepts (hself d' hd' hkept.name ▸ hkept.attributes)
      exact ⟨_, by rw [classifyEntity, hfind, Option.bind_eq_bind, Option.bind_some, hr]; rfl⟩
    · obtain ⟨r, hr, -⟩ := hparts c hc
      exact ⟨d, hd, hname, hattributes.kept r hr⟩
    · obtain ⟨r, hr, rfl⟩ := hparts c hc
      have hquiet := hattributes.quiet r hr
      have hchanged : (∃ d' ∈ t.entities, d'.name = e.name ∧ EntityChanged e d') ↔ EntityChanged e d := by
        constructor
        · rintro ⟨d', hd', hname', h⟩
          exact hself d' hd' hname' ▸ h
        · exact fun h => ⟨d, hd, hname, h⟩
      rw [Quiet] at hquiet ⊢
      rw [List.append_eq_nil_iff, and_assoc, hquiet, ite_eq_nil_iff, hchanged, entityChanged_iff, not_or]

/-! ## The transition -/

theorem mapM_isSome_iff {α β : Type} {f : α → Option β} {l : List α} :
    (∃ r, l.mapM f = some r) ↔ ∀ x ∈ l, ∃ y, f x = some y := by
  constructor
  · rintro ⟨r, hr⟩ x hx
    obtain ⟨y, -, hy⟩ := exists_of_forall₂ (mapM_eq_some hr) hx
    exact ⟨y, hy⟩
  · intro h
    induction l with
    | nil => exact ⟨[], rfl⟩
    | cons x l ih =>
      obtain ⟨hx, hl⟩ := List.forall_mem_cons.1 h
      obtain ⟨y, hy⟩ := hx
      obtain ⟨r, hr⟩ := ih hl
      exact ⟨y :: r, by rw [List.mapM_cons, hy, hr]; rfl⟩

theorem historyIsOneEntryExtension_iff : historyIsOneEntryExtension m t = true ↔
    ∃ h : MigrationHistoryEntry, t.migrationHistory = m.migrationHistory ++ [h] ∧
      h.fromSchemaVersion = m.schemaVersion ∧ h.toSchemaVersion = t.schemaVersion := by
  rw [historyIsOneEntryExtension]
  rcases List.eq_nil_or_concat t.migrationHistory with hnil | ⟨l, x, hconcat⟩
  · rw [hnil]
    simp
  · rw [hconcat]
    simp only [List.concat_eq_append, List.dropLast_concat, List.getLast?_concat, Option.any_some,
      Bool.and_eq_true, decide_eq_true_eq]
    constructor
    · rintro ⟨rfl, h⟩
      exact ⟨x, rfl, h⟩
    · rintro ⟨h, heq, hversions⟩
      obtain ⟨rfl, hlast⟩ := List.append_inj' heq rfl
      obtain rfl := List.singleton_inj.1 hlast
      exact ⟨rfl, hversions⟩

section named

variable {α β : Type} {name : α → String} {old new : List α}

/-- What has no name there was is new, and the other way round. -/
theorem unnamed_iff (hnodup : (new.map name).Nodup) (hkept : ∀ x ∈ old, x ∈ new) {x : α} (hx : x ∈ new) :
    (!old.any fun y => name y = name x) = true ↔ x ∉ old := by
  simp only [Bool.not_eq_true', List.any_eq_false, decide_eq_true_eq]
  exact ⟨fun h hmem => h x hmem rfl, fun h y hy hname => h (eq_of_name_eq hnodup (hkept y hy) hx hname ▸ hy)⟩

theorem sorted_unnamed_eq_nil_iff (hnodup : (new.map name).Nodup) (hkept : ∀ x ∈ old, x ∈ new) {f : α → β} :
    (sortedBy name (new.filter fun x => !old.any fun y => name y = name x)).map f = [] ↔
      ¬ ∃ x ∈ new, x ∉ old := by
  rw [List.map_eq_nil_iff, ← List.length_eq_zero_iff, (perm_sortedBy _ _).length_eq, List.length_eq_zero_iff,
    List.filter_eq_nil_iff]
  constructor
  · rintro h ⟨x, hx, hnot⟩
    exact h x hx ((unnamed_iff hnodup hkept hx).2 hnot)
  · exact fun h x hx hcond => h ⟨x, hx, (unnamed_iff hnodup hkept hx).1 hcond⟩

end named

theorem classifyRelationships_decides : Decides (classifyRelationships m t) (· = [])
    ((∀ r ∈ m.relationships, r ∈ t.relationships) ∧
      ∀ r ∈ t.relationships, r ∉ m.relationships → ∀ e ∈ m.entities, e.name ≠ r.from_.entity)
    (∃ r ∈ t.relationships, r ∉ m.relationships) where
  accepts := by
    rintro ⟨hkept, hfrom⟩
    refine ⟨_, if_pos ?_⟩
    rw [Bool.and_eq_true, List.all_eq_true, List.all_eq_true]
    refine ⟨fun r hr => decide_eq_true (hkept r hr), fun r hr => isNewEntity_iff.2 ?_⟩
    obtain ⟨hr, hnot⟩ := List.mem_filter.1 hr
    exact hfrom r hr ((unnamed_iff t.valid.relationshipNames hkept hr).1 hnot)
  kept := fun c hc => by
    obtain ⟨hkept, hfrom, -⟩ := classifyRelationships_eq_some hc
    refine ⟨hkept, fun r hr hnot => isNewEntity_iff.1 (hfrom r hr ?_)⟩
    simpa using (unnamed_iff t.valid.relationshipNames hkept hr).2 hnot
  quiet := fun c hc => by
    obtain ⟨hkept, -, rfl⟩ := classifyRelationships_eq_some hc
    exact sorted_unnamed_eq_nil_iff t.valid.relationshipNames hkept

theorem classifyIndices_decides : Decides (classifyIndices m t) (· = []) (∀ i ∈ m.indices, i ∈ t.indices)
    (∃ i ∈ t.indices, i ∉ m.indices) where
  accepts := fun hkept => ⟨_, if_pos (List.all_eq_true.2 fun i hi => decide_eq_true (hkept i hi))⟩
  kept := fun c hc => (classifyIndices_eq_some hc).1
  quiet := fun c hc => by
    obtain ⟨hkept, rfl⟩ := classifyIndices_eq_some hc
    exact sorted_unnamed_eq_nil_iff t.valid.indexNames hkept

theorem classifyGlobalMetadata_eq_nil_iff : classifyGlobalMetadata m t = [] ↔
    m.retrievalGuidance = t.retrievalGuidance ∧ m.queryPatterns = t.queryPatterns ∧
      m.discoveryFacets = t.discoveryFacets := by
  rw [classifyGlobalMetadata, List.append_eq_nil_iff, List.append_eq_nil_iff, ite_eq_nil_iff, ite_eq_nil_iff,
    ite_eq_nil_iff, not_not, not_not, not_not, and_assoc]

theorem newEntities_eq_nil_iff : ((compileManifest t).entities.filter fun e => isNewEntity m e.name) = [] ↔
    ¬ ∃ d ∈ t.entities, ∀ e ∈ m.entities, e.name ≠ d.name := by
  rw [List.filter_eq_nil_iff]
  constructor
  · rintro h ⟨d, hd, hnew⟩
    exact h (Relational.entity d) (mem_entities.2 ⟨d, hd, rfl⟩) (isNewEntity_iff.2 hnew)
  · rintro h e he hnew
    obtain ⟨d, hd, rfl⟩ := mem_entities.1 he
    exact h ⟨d, hd, isNewEntity_iff.1 hnew⟩

theorem changed_iff : Changed m t ↔
    (∃ d ∈ t.entities, ∀ e ∈ m.entities, e.name ≠ d.name) ∨ (∃ r ∈ t.relationships, r ∉ m.relationships) ∨
      (∃ i ∈ t.indices, i ∉ m.indices) ∨
      (∃ e ∈ m.entities, ∃ d ∈ t.entities, d.name = e.name ∧ EntityChanged e d) ∨
      ¬ (m.retrievalGuidance = t.retrievalGuidance ∧ m.queryPatterns = t.queryPatterns ∧
        m.discoveryFacets = t.discoveryFacets) := by
  constructor
  · rintro (⟨hd, h⟩ | ⟨hr, h⟩ | ⟨hi, h⟩ | ⟨he, hd, hname, h⟩ | h | h | h)
    · exact .inl ⟨_, hd, h⟩
    · exact .inr (.inl ⟨_, hr, h⟩)
    · exact .inr (.inr (.inl ⟨_, hi, h⟩))
    · exact .inr (.inr (.inr (.inl ⟨_, he, _, hd, hname, h⟩)))
    · exact .inr (.inr (.inr (.inr fun hall => h hall.1)))
    · exact .inr (.inr (.inr (.inr fun hall => h hall.2.1)))
    · exact .inr (.inr (.inr (.inr fun hall => h hall.2.2)))
  · rintro (⟨d, hd, h⟩ | ⟨r, hr, h⟩ | ⟨i, hi, h⟩ | ⟨e, he, d, hd, hname, h⟩ | h)
    · exact .newEntity hd h
    · exact .newRelationship hr h
    · exact .newIndex hi h
    · exact .entity he hd hname h
    · by_cases hguidance : m.retrievalGuidance = t.retrievalGuidance
      · by_cases hpatterns : m.queryPatterns = t.queryPatterns
        · exact .facets fun hfacets => h ⟨hguidance, hpatterns, hfacets⟩
        · exact .queryPatterns hpatterns
      · exact .guidance hguidance

/-- What the classification of the kept entities lists. -/
theorem kept_eq_nil_iff {kept : List (List MetadataChange × List FieldAddition)}
    (h : (sortedBy (·.name) m.entities).mapM (classifyEntity t) = some kept) :
    (kept.map Prod.fst).flatten = [] ∧ (kept.map Prod.snd).flatten = [] ↔
      ¬ ∃ e ∈ m.entities, ∃ d ∈ t.entities, d.name = e.name ∧ EntityChanged e d := by
  have hquiet : (kept.map Prod.fst).flatten = [] ∧ (kept.map Prod.snd).flatten = [] ↔ ∀ c ∈ kept, Quiet c := by
    rw [List.flatten_eq_nil_iff, List.flatten_eq_nil_iff, List.forall_mem_map, List.forall_mem_map]
    exact ⟨fun h c hc => ⟨h.1 c hc, h.2 c hc⟩, fun h => ⟨fun c hc => (h c hc).1, fun c hc => (h c hc).2⟩⟩
  rw [hquiet]
  constructor
  · rintro hall ⟨e, he, hchanged⟩
    obtain ⟨c, hc, hcalc⟩ := exists_of_forall₂ (mapM_eq_some h) (mem_sortedBy.2 he)
    exact (classifyEntity_decides.quiet c hcalc).1 (hall c hc) hchanged
  · intro hnone c hc
    obtain ⟨e, he, hcalc⟩ := exists_of_forall₂ (mapM_eq_some h).flip hc
    exact (classifyEntity_decides.quiet c hcalc).2 fun hchanged => hnone ⟨e, mem_sortedBy.1 he, hchanged⟩

theorem guard_eq_some_iff {p : Prop} [Decidable p] {u : Unit} : (guard p : Option Unit) = some u ↔ p := by
  by_cases h : p <;> simp [guard, h]

/-- What the classification of two manifests computes. -/
structure Computes (m t : ManifestV2) (kept : List (List MetadataChange × List FieldAddition)) (a : RelationalAdditions)
    (changes : List MetadataChange) : Prop where
  classified : (sortedBy (·.name) m.entities).mapM (classifyEntity t) = some kept
  entities : a.entities = (compileManifest t).entities.filter fun e => isNewEntity m e.name
  fields : a.fields = (kept.map Prod.snd).flatten
  relationships : classifyRelationships m t = some a.relationships
  indices : classifyIndices m t = some a.indices
  metadata : changes = (kept.map Prod.fst).flatten ++ classifyGlobalMetadata m t

theorem Computes.isEmpty_iff {kept : List (List MetadataChange × List FieldAddition)} {a : RelationalAdditions}
    {changes : List MetadataChange} (h : Computes m t kept a changes) :
    (a.isEmpty && changes.isEmpty) = true ↔ ¬ Changed m t := by
  have hkept := kept_eq_nil_iff h.classified
  have hrelationships := classifyRelationships_decides.quiet _ h.relationships
  have hindices := classifyIndices_decides.quiet _ h.indices
  simp only [RelationalAdditions.isEmpty, Bool.and_eq_true, List.isEmpty_iff, h.entities, h.fields, h.metadata,
    List.append_eq_nil_iff]
  rw [newEntities_eq_nil_iff, hrelationships, hindices, classifyGlobalMetadata_eq_nil_iff, changed_iff, not_or,
    not_or, not_or, not_or, ← hkept, not_not]
  exact ⟨fun ⟨⟨⟨⟨he, hf⟩, hr⟩, hi⟩, hc, hg⟩ => ⟨he, hr, hi, ⟨hc, hf⟩, hg⟩,
    fun ⟨he, hr, hi, ⟨hc, hf⟩, hg⟩ => ⟨⟨⟨⟨he, hf⟩, hr⟩, hi⟩, hc, hg⟩⟩

theorem classifyTransition_eq_some_iff {x : RelationalTransition} : classifyTransition m t = some x ↔
    t.schemaVersion = m.schemaVersion + 1 ∧ historyIsOneEntryExtension m t = true ∧
      ∃ kept changes, Computes m t kept x.additions changes ∧ Changed m t ∧ x.current = compileManifest m ∧
        x.target = compileManifest t ∧
        x.metadataChanges = changes.insertionSort fun a b => metadataSortKey a ≤ metadataSortKey b := by
  simp only [classifyTransition, Option.bind_eq_bind, Option.bind_eq_some_iff, guard_eq_some_iff, exists_const]
  constructor
  · rintro ⟨hversion, hhistory, kept, hkept, relationships, hr, indices, hi, hsome, hx⟩
    obtain rfl := Option.some.inj hx
    have hcomputes : Computes m t kept ⟨_, _, relationships, indices⟩ _ := ⟨hkept, rfl, rfl, hr, hi, rfl⟩
    refine ⟨hversion, hhistory, kept, _, hcomputes, ?_, rfl, rfl, rfl⟩
    by_contra hnot
    rw [hcomputes.isEmpty_iff.2 hnot] at hsome
    exact absurd hsome (by decide)
  · rintro ⟨hversion, hhistory, kept, changes, h, hchanged, hcurrent, htarget, hmetadata⟩
    refine ⟨hversion, hhistory, kept, h.classified, _, h.relationships, _, h.indices, ?_, ?_⟩
    · rw [Bool.not_eq_true', Bool.eq_false_iff, ← h.entities, ← h.fields, ← h.metadata]
      exact fun hempty => h.isEmpty_iff.1 hempty hchanged
    · rw [← h.entities, ← h.fields, ← h.metadata, ← hcurrent, ← htarget, ← hmetadata]

/-- **The classification accepts exactly the additive transitions.** -/
theorem classifyTransition_isSome_iff : (∃ x, classifyTransition m t = some x) ↔ Additive m t := by
  constructor
  · rintro ⟨x, hx⟩
    obtain ⟨hversion, hhistory, kept, changes, h, hchanged, -⟩ := classifyTransition_eq_some_iff.1 hx
    obtain ⟨hr, hnew⟩ := classifyRelationships_decides.kept _ h.relationships
    refine ⟨hversion, historyIsOneEntryExtension_iff.1 hhistory, fun e he => ?_, hr, hnew,
      classifyIndices_decides.kept _ h.indices, hchanged⟩
    obtain ⟨c, hc⟩ := mapM_isSome_iff.1 ⟨kept, h.classified⟩ e (mem_sortedBy.2 he)
    exact classifyEntity_decides.kept c hc
  · intro h
    obtain ⟨kept, hkept⟩ := mapM_isSome_iff.2 fun e he =>
      (classifyEntity_decides (t := t)).accepts (h.entities e (mem_sortedBy.1 he))
    obtain ⟨relationships, hr⟩ := classifyRelationships_decides.accepts ⟨h.relationships, h.newRelationships⟩
    obtain ⟨indices, hi⟩ := classifyIndices_decides.accepts h.indices
    exact ⟨⟨compileManifest m, compileManifest t, ⟨_, _, relationships, indices⟩, _⟩,
      classifyTransition_eq_some_iff.2 ⟨h.version, historyIsOneEntryExtension_iff.2 h.history, kept, _,
        ⟨hkept, rfl, rfl, hr, hi, rfl⟩, h.changed, rfl, rfl, rfl⟩⟩

end transition

end Relational

end Aipcs

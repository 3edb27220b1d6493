import Aipcs.Relational.Exact
import Aipcs.Transfer.Settled

/-!
# Transfer — what arrives of a manifest

A bundle holds a manifest's dump. What is read of it is the dump of the
manifest whose allowed floats are the integers they are printed as
(`readAs_manifest`). This is a valid manifest just where no allowed float
is inexact, or printed as an integer that is allowed beside it
(`settledManifest_iff`), and then it equals the one that was dumped and
lets the same members pass.
-/

namespace Aipcs

namespace Transfer

open Manifest Portable Relational Records Registry Data

/-! ## Equal manifests -/

section equal

variable {a v w : AllowedValue} {f g : AttributeDefinition} {e e' : EntityDefinition} {m n : ManifestV2}

/-- What equals one of two equal values equals the other. -/
theorem equal_right (h : v.equal w = true) : a.equal v = a.equal w := by
  have hsymm : ∀ b : AllowedValue, a.equal b = b.equal a := fun b => by
    rw [AllowedValue.equal, AllowedValue.equal, Bool.eq_iff_iff]
    simp only [Bool.or_eq_true, Bool.and_eq_true, decide_eq_true_eq]
    constructor
    · rintro (rfl | ⟨hsome, heq⟩)
      · exact .inl rfl
      · exact .inr ⟨heq ▸ hsome, heq.symm⟩
    · rintro (rfl | ⟨hsome, heq⟩)
      · exact .inl rfl
      · exact .inr ⟨heq ▸ hsome, heq.symm⟩
  cases hv : v.number with
  | some k =>
    have hw := (equal_iff_number hv).1 h
    rw [Bool.eq_iff_iff, hsymm, hsymm, equal_iff_number hv, equal_iff_number hw]
  | none =>
    rw [AllowedValue.equal, hv, Option.isSome_none, Bool.false_and, Bool.or_false, decide_eq_true_eq] at h
    rw [h]

theorem any_equal {vs ws : List AllowedValue} (h : List.Forall₂ (fun v w => v.equal w = true) vs ws) :
    vs.any a.equal = ws.any a.equal := by
  induction h with
  | nil => rfl
  | cons hvw _ ih => rw [List.any_cons, List.any_cons, equal_right hvw, ih]

/-- What equal fields have in common, but for the values they allow. -/
theorem attribute_of_equal (h : f.equal g = true) : f.name = g.name ∧ f.type = g.type ∧ f.required = g.required ∧
    Option.Rel (List.Forall₂ fun v w => v.equal w = true) f.allowedValues g.allowedValues := by
  rw [AttributeDefinition.equal, Bool.and_eq_true, decide_eq_true_eq] at h
  obtain ⟨hrest, hallowed⟩ := h
  simp only [AttributeDefinition.mk.injEq] at hrest
  refine ⟨hrest.1, hrest.2.1, hrest.2.2.1, ?_⟩
  cases hf : f.allowedValues with
  | none =>
    cases hg : g.allowedValues with
    | none => exact .none
    | some ws => rw [hf, hg] at hallowed; exact absurd hallowed (by simp)
  | some vs =>
    cases hg : g.allowedValues with
    | none => rw [hf, hg] at hallowed; exact absurd hallowed (by simp)
    | some ws =>
      rw [hf, hg] at hallowed
      exact .some (listEqual_iff.1 hallowed)

theorem validateValue_equal (h : f.equal g = true) (x : PortableJson) : validateValue f x = validateValue g x := by
  obtain ⟨-, htype, hrequired, hallowed⟩ := attribute_of_equal h
  by_cases hx : x = .null
  · rw [hx, validateValue, validateValue, hrequired]
  · have hsplit : ∀ k : AttributeDefinition, validateValue k x =
        (matchesType x k.type && k.allowedValues.all fun values => matchesEnumeration values x k.type) := fun k => by
      rw [validateValue]
      exact hx
    rw [hsplit, hsplit, htype]
    congr 1
    generalize f.allowedValues = vs? at hallowed
    generalize g.allowedValues = ws? at hallowed
    cases hallowed with
    | none => rfl
    | @some vs ws hvs =>
      have hany : allowed vs = allowed ws := funext fun x => by
        cases hs : scalar x <;> simp [allowed, hs, any_equal hvs]
      simp only [Option.all_some, matchesEnumeration, hany]

theorem entity_of_equal (h : m.toManifestDocument.equal n.toManifestDocument = true) (name : String) :
    Option.Rel (fun e e' : RecordEntity => e.name = e'.name ∧
        List.Forall₂ (fun f g => f.equal g = true) e.domainFields e'.domainFields)
      ((compileRecordSpecification m).entity name) ((compileRecordSpecification n).entity name) := by
  rw [ManifestDocument.equal, Bool.and_eq_true] at h
  have hentities := listEqual_iff.1 h.2
  have hfields : ∀ e e' : EntityDefinition, e.equal e' = true → e.name = e'.name ∧
      List.Forall₂ (fun f g => f.equal g = true) e.attributes e'.attributes := fun e e' hee' => by
    simp only [EntityDefinition.equal, Bool.and_eq_true, decide_eq_true_eq] at hee'
    exact ⟨hee'.1.1, listEqual_iff.1 hee'.2⟩
  have hsorted : List.Forall₂ (fun e e' => EntityDefinition.equal e e' = true) (sortedBy (·.name) m.entities)
      (sortedBy (·.name) n.entities) :=
    Sorting.forall₂_insertionSort (fun e e' hee' => (hfields e e' hee').1) hentities
  have hrecords : List.Forall₂ (fun e e' : RecordEntity => e.name = e'.name ∧
      List.Forall₂ (fun f g => f.equal g = true) e.domainFields e'.domainFields)
      (recordEntities m) (recordEntities n) := by
    rw [recordEntities, recordEntities, List.forall₂_map_left_iff, List.forall₂_map_right_iff]
    refine hsorted.imp fun e e' hee' => ⟨(hfields e e' hee').1, ?_⟩
    refine List.rel_filter (fun f g hfg => ?_) (Sorting.forall₂_insertionSort (fun f g hfg => ?_) (hfields e e' hee').2)
    · dsimp only
      rw [(attribute_of_equal hfg).1]
    · exact (attribute_of_equal hfg).1
  have hnames : ∀ e e' : RecordEntity, (e.name = e'.name ∧
      List.Forall₂ (fun f g => f.equal g = true) e.domainFields e'.domainFields) →
      decide (e.name = name) = decide (e'.name = name) := fun e e' hee' => by rw [hee'.1]
  exact Sorting.rel_find? hnames hrecords

/-- **Equal manifests let the same documents pass.** -/
theorem validateCreate_equal (h : m.toManifestDocument.equal n.toManifestDocument = true) (name : String)
    (o : FrozenJsonObject) : validateCreate (compileRecordSpecification m) name o =
      validateCreate (compileRecordSpecification n) name o := by
  rw [validateCreate, validateCreate, validateRecord, validateRecord]
  have hentity := entity_of_equal h name
  generalize (compileRecordSpecification m).entity name = e? at hentity ⊢
  generalize (compileRecordSpecification n).entity name = e'? at hentity ⊢
  cases hentity with
  | none => rfl
  | @some e e' hee' =>
    have hentry : validateEntry e.domainFields = validateEntry e'.domainFields := funext fun q => by
      have hnames : ∀ f g : RecordField, f.equal g = true → decide (f.name = q.1) = decide (g.name = q.1) :=
        fun f g hfg => by rw [(attribute_of_equal hfg).1]
      exact Sorting.any_eq_of_rel (fun f g hfg => validateValue_equal hfg q.2) (Sorting.rel_find? hnames hee'.2)
    have hrequired : (e.domainFields.all fun f => !f.required || o.names.contains f.name) =
        e'.domainFields.all fun f => !f.required || o.names.contains f.name :=
      Sorting.all_eq_of_forall₂ (fun f g hfg => by
        rw [(attribute_of_equal hfg).1, (attribute_of_equal hfg).2.2.1]) hee'.2
    dsimp only
    rw [hentry, hrequired]

/-- **Equal manifests let the same members pass.** -/
theorem validatePortableMembers_equal (h : m.toManifestDocument.equal n.toManifestDocument = true)
    (members : List PortableStoreMember) : validatePortableMembers members (compileRecordSpecification m) =
      validatePortableMembers members (compileRecordSpecification n) := by
  have hone : validMember (compileRecordSpecification m) = validMember (compileRecordSpecification n) :=
    funext fun x => by
      have hcreate := funext fun name => funext (validateCreate_equal h name)
      have hsome : ∀ name, ((compileRecordSpecification m).entity name).isSome =
          ((compileRecordSpecification n).entity name).isSome := fun name =>
        Sorting.isSome_eq_of_rel (entity_of_equal h name)
      cases x <;> simp only [validMember, validSnapshot, hcreate, hsome]
  rw [validatePortableMembers, validatePortableMembers, hone]

end equal

/-! ## The dump -/

def allowedPayload : AllowedValue → PyVal
  | .str s => textPayload s
  | .int i => .int i
  | .float x => .float x
  | .bool b => .bool b

def attributePayload (a : AttributeDefinition) : PyVal := payloadDict [
  ("allowed_values", optionalPayload (fun vs => .seq (vs.map allowedPayload)) a.allowedValues),
  ("description", optionalPayload textPayload a.description),
  ("name", textPayload a.name),
  ("primary_key", .bool a.primaryKey),
  ("required", .bool a.required),
  ("retrieval_mode", optionalPayload (fun r => textPayload r.value) a.retrievalMode),
  ("type", textPayload a.type.value)]

def entityPayload (e : EntityDefinition) : PyVal := payloadDict [
  ("attributes", .seq (e.attributes.map attributePayload)),
  ("description", optionalPayload textPayload e.description),
  ("name", textPayload e.name)]

def endpointPayload (r : RelationshipEndpoint) : PyVal :=
  payloadDict [("entity", textPayload r.entity), ("field", textPayload r.field)]

def relationshipPayload (r : RelationshipDefinition) : PyVal := payloadDict [
  ("from", endpointPayload r.from_),
  ("name", textPayload r.name),
  ("on_delete", textPayload "restrict"),
  ("to", endpointPayload r.to_)]

def indexPayload (i : IndexDefinition) : PyVal := payloadDict [
  ("entity", textPayload i.entity),
  ("fields", .seq (i.fields.map textPayload)),
  ("name", textPayload i.name),
  ("unique", .bool i.unique)]

def facetPayload (f : DiscoveryFacet) : PyVal :=
  payloadDict [("entity", textPayload f.entity), ("field", textPayload f.field)]

def migrationPayload (h : MigrationHistoryEntry) : PyVal := payloadDict [
  ("from_schema_version", .int h.fromSchemaVersion),
  ("operations", .seq (h.operations.map textPayload)),
  ("to_schema_version", .int h.toSchemaVersion)]

/-- `model_dump(mode="json", by_alias=True)`, its names in the order in which
the bundle puts them. -/
def manifestPayload (m : ManifestDocument) : PyVal := payloadDict [
  ("discovery_facets", .seq (m.discoveryFacets.map facetPayload)),
  ("entities", .seq (m.entities.map entityPayload)),
  ("indices", .seq (m.indices.map indexPayload)),
  ("manifest_version", .int 2),
  ("migration_history", .seq (m.migrationHistory.map migrationPayload)),
  ("query_patterns", .seq (m.queryPatterns.map textPayload)),
  ("relationships", .seq (m.relationships.map relationshipPayload)),
  ("retrieval_guidance", optionalPayload textPayload m.retrievalGuidance),
  ("schema_version", .int m.schemaVersion)]

/-! ## The dump as it arrives -/

/-- An allowed value, with the integer a float spells in its place. -/
def settleAllowed : AllowedValue → Option AllowedValue
  | .float x =>
    if h : x.Finite then
      match spelledInteger ⟨x, h⟩ with
      | some i => if -2 ^ 63 ≤ i ∧ i ≤ 2 ^ 63 - 1 then some (.int i) else none
      | none => some (.float x)
    else none
  | v => some v

def settleAttribute (a : AttributeDefinition) : Option AttributeDefinition :=
  match a.allowedValues with
  | none => some a
  | some values => (values.mapM settleAllowed).map fun settled => { a with allowedValues := some settled }

def settleEntity (e : EntityDefinition) : Option EntityDefinition :=
  (e.attributes.mapM settleAttribute).map fun settled => { e with attributes := settled }

/-- The manifest as a bundle brings it. -/
def settleManifest (m : ManifestDocument) : Option ManifestDocument :=
  (m.entities.mapM settleEntity).map fun settled => { m with entities := settled }

/-- What a value is read as, once it is frozen and settled. -/
def ReadAs (v : PyVal) (raw : Option PyVal) : Prop :=
  ∀ room j, freezeJson v room = some j → (settle j).map thawJson = raw

/-- What the entries of a dictionary are read as. -/
def EntriesReadAs (entries : List (String × PyVal)) (raws : Option (List (PyStr × PyVal))) : Prop :=
  ∀ room js, freezeEntries (entries.map fun e => (pyStr e.1, e.2)) room = some js →
    (settleEntries js).map thawEntries = raws

section reading

variable {α β : Type} {v : PyVal} {raw : Option PyVal} {entries : List (String × PyVal)}
  {raws : Option (List (PyStr × PyVal))} {f : α → Option α} {p : α → PyVal}

theorem readAs_text (s : String) : ReadAs (textPayload s) (some (textPayload s)) := fun room j hj => by
  rw [textPayload, freezeJson_str] at hj
  obtain rfl := Option.some.inj hj
  rfl

theorem readAs_int (i : ℤ) : ReadAs (.int i) (some (.int i)) := fun room j hj => by
  rw [freezeJson] at hj
  split_ifs at hj
  obtain rfl := Option.some.inj hj
  rfl

theorem readAs_bool (b : Bool) : ReadAs (.bool b) (some (.bool b)) := fun room j hj => by
  rw [freezeJson] at hj
  obtain rfl := Option.some.inj hj
  rfl

theorem readAs_none : ReadAs .none (some .none) := fun room j hj => by
  rw [freezeJson] at hj
  obtain rfl := Option.some.inj hj
  rfl

/-- An allowed value is read settled. -/
theorem readAs_allowed (v : AllowedValue) : ReadAs (allowedPayload v) ((settleAllowed v).map allowedPayload) := by
  cases v with
  | str s => exact readAs_text s
  | int i => exact readAs_int i
  | bool b => exact readAs_bool b
  | float x =>
    intro room j hj
    rw [allowedPayload, freezeJson] at hj
    split_ifs at hj with hx
    obtain rfl := Option.some.inj hj
    rw [settleAllowed, dif_pos hx, settle, settleFloat]
    cases spelledInteger ⟨x, hx⟩ with
    | none => rfl
    | some i =>
      dsimp only
      split_ifs <;> rfl

theorem readAs_optional {o : Option α} (h : ∀ a, ReadAs (p a) (some (p a))) :
    ReadAs (optionalPayload p o) (some (optionalPayload p o)) := by
  cases o with
  | none => exact readAs_none
  | some a => exact h a

theorem thawItems_settle (v : PortableJson) (rest : List PortableJson) : (settleItems (v :: rest)).map thawItems =
    ((settle v).map thawJson).bind fun w => ((settleItems rest).map thawItems).map (w :: ·) := by
  rw [settleItems]
  cases settle v <;> cases settleItems rest <;> rfl

theorem thawEntries_settle (n : String) (v : PortableJson) (rest : List (String × PortableJson)) :
    (settleEntries ((n, v) :: rest)).map thawEntries =
      ((settle v).map thawJson).bind fun w => ((settleEntries rest).map thawEntries).map ((pyStr n, w) :: ·) := by
  rw [settleEntries]
  cases settle v <;> cases settleEntries rest <;> rfl

theorem readAs_items {l : List α} (h : ∀ a ∈ l, ReadAs (p a) ((f a).map p)) {room : ℕ} {js : List PortableJson}
    (hjs : freezeItems (l.map p) room = some js) :
    (settleItems js).map thawItems = (l.mapM f).map fun l' => l'.map p := by
  induction l generalizing js with
  | nil =>
    obtain rfl := Option.some.inj hjs
    rfl
  | cons a l ih =>
    rw [List.forall_mem_cons] at h
    rw [List.map_cons, freezeItems] at hjs
    split at hjs
    · next j js' hj hjs' =>
      obtain rfl := Option.some.inj hjs
      rw [thawItems_settle, h.1 room j hj, ih h.2 hjs', List.mapM_cons]
      cases f a <;> cases l.mapM f <;> rfl
    · exact absurd hjs (by simp)

/-- A list is read item by item. -/
theorem readAs_seq {l : List α} (h : ∀ a ∈ l, ReadAs (p a) ((f a).map p)) :
    ReadAs (.seq (l.map p)) ((l.mapM f).map fun l' => .seq (l'.map p)) := by
  intro room j hj
  rw [freezeJson] at hj
  split_ifs at hj
  obtain ⟨js, hjs, rfl⟩ := Option.map_eq_some_iff.1 hj
  have hread := readAs_items h hjs
  have hthaw : thawJson ∘ PortableJson.arr = PyVal.seq ∘ thawItems := rfl
  rw [settle, Option.map_map, hthaw, ← Option.map_map, hread, Option.map_map]
  rfl

theorem readAs_kept {l : List α} (h : ∀ a, ReadAs (p a) (some (p a))) :
    ReadAs (.seq (l.map p)) (some (.seq (l.map p))) := by
  have hread : ReadAs (.seq (l.map p)) ((l.mapM some).map fun l' => .seq (l'.map p)) := readAs_seq fun a _ => h a
  have hall : ∀ l : List α, l.mapM some = some l := fun l => by
    induction l with
    | nil => rfl
    | cons a l ih => rw [List.mapM_cons, ih]; rfl
  rwa [hall] at hread

theorem entriesReadAs_nil : EntriesReadAs [] (some []) := fun room js hjs => by
  obtain rfl := Option.some.inj hjs
  rfl

theorem EntriesReadAs.cons {n : String} (hv : ReadAs v raw) (h : EntriesReadAs entries raws) :
    EntriesReadAs ((n, v) :: entries) (raw.bind fun w => raws.map ((pyStr n, w) :: ·)) := fun room js hjs => by
  rw [List.map_cons, freezeEntries, requireScalarText_pyStr] at hjs
  split at hjs
  · next name j js' hname hj hjs' =>
    obtain rfl := Option.some.inj hjs
    obtain rfl := Option.some.inj hname
    rw [thawEntries_settle, hv room j hj, h room js' hjs']
  · exact absurd hjs (by simp)

theorem freezeEntries_names {room : ℕ} {js : List (String × PortableJson)}
    (h : freezeEntries (entries.map fun e => (pyStr e.1, e.2)) room = some js) :
    js.map Prod.fst = entries.map Prod.fst := by
  induction entries generalizing js with
  | nil =>
    obtain rfl := Option.some.inj h
    rfl
  | cons e entries ih =>
    rw [List.map_cons, freezeEntries, requireScalarText_pyStr] at h
    split at h
    · next n j rest hn hj hrest =>
      obtain rfl := Option.some.inj hn
      obtain rfl := Option.some.inj h
      rw [List.map_cons, List.map_cons, ih hrest]
    · exact absurd h (by simp)

/-- **A dictionary is read entry by entry**, where its names stand in the
bundle's order. -/
theorem readAs_dict (hnames : StrictNames (entries.map Prod.fst)) (h : EntriesReadAs entries raws) :
    ReadAs (payloadDict entries) (raws.map .dict) := fun room j hj => by
  rw [payloadDict, freezeJson] at hj
  split_ifs at hj
  cases hf : freezeEntries (entries.map fun e => (pyStr e.1, e.2)) (room - 1) with
  | none => rw [hf] at hj; exact absurd hj (by simp)
  | some frozen =>
    rw [hf] at hj
    dsimp only at hj
    split_ifs at hj
    obtain rfl := Option.some.inj hj
    have hthaw : thawJson ∘ PortableJson.obj = PyVal.dict ∘ thawEntries := rfl
    have hsorted : sortEntries frozen = frozen := by
      refine sortEntries_of_pairwise (pairwise_names.2 ?_)
      rw [freezeEntries_names hf]
      exact hnames.imp fun hab => hab.1
    rw [hsorted, settle, Option.map_map, hthaw, ← Option.map_map, h _ _ hf]

theorem settleAttribute_allowed (a : AttributeDefinition) :
    ReadAs (optionalPayload (fun vs => .seq (vs.map allowedPayload)) a.allowedValues)
      ((settleAttribute a).map fun b => optionalPayload (fun vs => .seq (vs.map allowedPayload)) b.allowedValues) := by
  rw [settleAttribute]
  cases ha : a.allowedValues with
  | none =>
    rw [Option.map_some, ha]
    exact readAs_none
  | some vs =>
    rw [Option.map_map]
    exact readAs_seq fun v _ => readAs_allowed v

theorem settleAttribute_rest {a b : AttributeDefinition} (h : settleAttribute a = some b) :
    b = { a with allowedValues := b.allowedValues } := by
  unfold settleAttribute at h
  split at h
  · obtain rfl := Option.some.inj h
    rfl
  · obtain ⟨ws, -, rfl⟩ := Option.map_eq_some_iff.1 h
    rfl

theorem strict_attributeNames : StrictNames ["allowed_values", "description", "name", "primary_key", "required",
    "retrieval_mode", "type"] := by decide

theorem strict_entityNames : StrictNames ["attributes", "description", "name"] := by decide

theorem readAs_attribute (a : AttributeDefinition) :
    ReadAs (attributePayload a) ((settleAttribute a).map attributePayload) := by
  have hread : ReadAs (attributePayload a) _ := readAs_dict strict_attributeNames <|
    .cons (settleAttribute_allowed a) <| .cons (readAs_optional readAs_text) <| .cons (readAs_text a.name) <|
    .cons (readAs_bool a.primaryKey) <| .cons (readAs_bool a.required) <|
    .cons (readAs_optional fun r => readAs_text r.value) <| .cons (readAs_text a.type.value) entriesReadAs_nil
  refine cast (congrArg _ ?_) hread
  cases hs : settleAttribute a with
  | none => rfl
  | some b =>
    obtain ⟨values, rfl⟩ : ∃ values, b = { a with allowedValues := values } := ⟨_, settleAttribute_rest hs⟩
    rfl

theorem readAs_entity (e : EntityDefinition) : ReadAs (entityPayload e) ((settleEntity e).map entityPayload) := by
  have hread : ReadAs (entityPayload e) _ := readAs_dict strict_entityNames <|
    .cons (readAs_seq fun a _ => readAs_attribute a) <| .cons (readAs_optional readAs_text) <|
    .cons (readAs_text e.name) entriesReadAs_nil
  refine cast (congrArg _ ?_) hread
  rw [settleEntity]
  cases e.attributes.mapM settleAttribute <;> rfl

theorem strict_pairNames : StrictNames ["entity", "field"] := by decide

theorem strict_relationshipNames : StrictNames ["from", "name", "on_delete", "to"] := by decide

theorem strict_indexNames : StrictNames ["entity", "fields", "name", "unique"] := by decide

theorem strict_migrationNames : StrictNames ["from_schema_version", "operations", "to_schema_version"] := by decide

theorem strict_manifestNames : StrictNames ["discovery_facets", "entities", "indices", "manifest_version",
    "migration_history", "query_patterns", "relationships", "retrieval_guidance", "schema_version"] := by decide

/-- A dictionary is kept whose values are. -/
theorem readAs_keptDict (hnames : StrictNames (entries.map Prod.fst))
    (h : ∀ e ∈ entries, ReadAs e.2 (some e.2)) : ReadAs (payloadDict entries) (some (payloadDict entries)) := by
  have hentries : EntriesReadAs entries (some (entries.map fun e => (pyStr e.1, e.2))) := by
    clear hnames
    induction entries with
    | nil => exact entriesReadAs_nil
    | cons e entries ih =>
      rw [List.forall_mem_cons] at h
      exact .cons h.1 (ih h.2)
  exact readAs_dict hnames hentries

theorem readAs_endpoint (r : RelationshipEndpoint) : ReadAs (endpointPayload r) (some (endpointPayload r)) :=
  readAs_keptDict strict_pairNames (by simp [readAs_text])

theorem readAs_facet (f : DiscoveryFacet) : ReadAs (facetPayload f) (some (facetPayload f)) :=
  readAs_keptDict strict_pairNames (by simp [readAs_text])

theorem readAs_relationship (r : RelationshipDefinition) :
    ReadAs (relationshipPayload r) (some (relationshipPayload r)) :=
  readAs_keptDict strict_relationshipNames (by simp [readAs_text, readAs_endpoint])

theorem readAs_index (i : IndexDefinition) : ReadAs (indexPayload i) (some (indexPayload i)) :=
  readAs_keptDict strict_indexNames (by simp [readAs_text, readAs_bool, readAs_kept])

theorem readAs_migration (h : MigrationHistoryEntry) : ReadAs (migrationPayload h) (some (migrationPayload h)) :=
  readAs_keptDict strict_migrationNames (by simp [readAs_text, readAs_int, readAs_kept])

/-- **A manifest is read settled.** -/
theorem readAs_manifest (m : ManifestDocument) :
    ReadAs (manifestPayload m) ((settleManifest m).map manifestPayload) := by
  have hread : ReadAs (manifestPayload m) _ := readAs_dict strict_manifestNames <|
    .cons (readAs_kept readAs_facet) <| .cons (readAs_seq fun e _ => readAs_entity e) <|
    .cons (readAs_kept readAs_index) <| .cons (readAs_int 2) <| .cons (readAs_kept readAs_migration) <|
    .cons (readAs_kept readAs_text) <| .cons (readAs_kept readAs_relationship) <|
    .cons (readAs_optional readAs_text) <| .cons (readAs_int m.schemaVersion) entriesReadAs_nil
  refine cast (congrArg _ ?_) hread
  rw [settleManifest]
  cases m.entities.mapM settleEntity <;> rfl

end reading

/-! ## What is valid of it -/

/-- No allowed float is inexact, or printed as an integer that is allowed
beside it. -/
def AllowedExact (values : List AllowedValue) : Prop :=
  ∀ x : FiniteFloat, .float x.1 ∈ values → ¬ Inexact x ∧ ∀ i, .int i ∈ values → spelledInteger x ≠ some i

def ManifestExact (m : ManifestDocument) : Prop :=
  ∀ e ∈ m.entities, ∀ a ∈ e.attributes, ∀ values ∈ a.allowedValues, AllowedExact values

section validity

variable {v w : AllowedValue} {values settled : List AllowedValue} {t : LogicalType} {a b : AttributeDefinition}
  {e e' : EntityDefinition} {m d : ManifestDocument}

/-- What a valid list of allowed values is settled to, value by value. -/
theorem settleAllowed_eq (ht : allowedValueMatchesType v t) (h : settleAllowed v = some w) :
    w = v ∨ ∃ x i, v = .float x.1 ∧ w = .int i ∧ spelledInteger x = some i ∧ t = .number := by
  cases v with
  | float x =>
    rw [settleAllowed] at h
    split_ifs at h with hx
    have hnumber : t = .number := by cases t <;> first | rfl | exact ht.elim
    cases hs : spelledInteger ⟨x, hx⟩ with
    | none =>
      rw [hs] at h
      exact .inl (Option.some.inj h).symm
    | some i =>
      rw [hs] at h
      dsimp only at h
      split_ifs at h
      exact .inr ⟨⟨x, hx⟩, i, rfl, (Option.some.inj h).symm, hs, hnumber⟩
  | _ => exact .inl (Option.some.inj h).symm

/-- **An exact value is settled** to an equal one, of its type. -/
theorem settleAllowed_exact (ht : allowedValueMatchesType v t) (hx : ∀ x : FiniteFloat, v = .float x.1 → ¬ Inexact x) :
    ∃ w, settleAllowed v = some w ∧ w.equal v = true ∧ allowedValueMatchesType w t := by
  have hself : ∀ v : AllowedValue, v.equal v = true := fun v => by simp [AllowedValue.equal]
  cases v with
  | float x =>
    have hnumber : t = .number := by cases t <;> first | rfl | exact ht.elim
    subst hnumber
    have hfinite : x.Finite := ht
    rw [settleAllowed, dif_pos hfinite]
    cases hs : spelledInteger ⟨x, hfinite⟩ with
    | none => exact ⟨_, rfl, hself _, ht⟩
    | some i =>
      obtain ⟨hvalue, hexact⟩ := spelledInteger_exact (hx ⟨x, hfinite⟩ rfl) hs
      have hrange : -2 ^ 63 ≤ i ∧ i ≤ 2 ^ 63 - 1 := by
        unfold isExactInteger IEEE_754_EXACT_INTEGER_MAX at hexact
        omega
      refine ⟨.int i, if_pos hrange, ?_, hexact⟩
      exact (equal_iff_number (show (AllowedValue.int i).number = some (i * unit) from rfl)).2
        ((if_pos hfinite).trans (congrArg some hvalue.symm))
  | _ => exact ⟨_, rfl, hself _, ht⟩

/-- Two that are settled differently stay apart. -/
theorem settled_apart {v' w' : AllowedValue} (hexact : AllowedExact values) (hv : v ∈ values) (hw : w ∈ values)
    (ht : ∀ v ∈ values, allowedValueMatchesType v t) (hne : ¬ v.same w) (hv' : settleAllowed v = some v')
    (hw' : settleAllowed w = some w') : ¬ v'.same w' := by
  have hspelled : ∀ (x : FiniteFloat) (i : ℤ) (u : AllowedValue), .float x.1 ∈ values → u ∈ values →
      spelledInteger x = some i → u ≠ .int i := fun x i u hx hu hs heq =>
    (hexact x hx).2 i (heq ▸ hu) hs
  rcases settleAllowed_eq (ht v hv) hv' with rfl | ⟨x, i, rfl, rfl, hxi, -⟩
  · rcases settleAllowed_eq (ht w hw) hw' with rfl | ⟨y, j, rfl, rfl, hyj, -⟩
    · exact hne
    · intro hsame
      cases v' with
      | int i => exact hspelled y j _ hw hv hyj (congrArg _ (show i = j from hsame))
      | _ => exact hsame
  · rcases settleAllowed_eq (ht w hw) hw' with rfl | ⟨y, j, rfl, rfl, hyj, -⟩
    · intro hsame
      cases w' with
      | int j => exact hspelled x i _ hv hw hxi (congrArg _ (show i = j from hsame).symm)
      | _ => exact hsame
    · intro hsame
      obtain rfl : i = j := hsame
      have hxvalue := (spelledInteger_exact (hexact x hv).1 hxi).1
      have hyvalue := (spelledInteger_exact (hexact y hw).1 hyj).1
      exact hne (.inl ⟨x.2, y.2, hxvalue.symm.trans hyvalue⟩)

/-- **A list of allowed values arrives valid** just where it is exact. -/
theorem settledAllowed_iff (h : AllowedValuesValid values t) :
    (∃ settled, values.mapM settleAllowed = some settled ∧ AllowedValuesValid settled t) ↔ AllowedExact values := by
  constructor
  · rintro ⟨settled, hsettled, hvalid⟩ x hx
    have hall := mapM_eq_some hsettled
    obtain ⟨w, hw, hxw⟩ := exists_of_forall₂ hall hx
    have hnumber : t = .number := by
      have htyped := h.typed _ hx
      cases t <;> first | rfl | exact htyped.elim
    have hspelled : ∀ i, spelledInteger x = some i → w = .int i := fun i hs => by
      rw [settleAllowed, dif_pos x.2, hs] at hxw
      dsimp only at hxw
      split_ifs at hxw
      exact (Option.some.inj hxw).symm
    refine ⟨fun hinexact => ?_, fun i hi hs => ?_⟩
    · obtain ⟨i, hs, hnot⟩ := spelledInteger_inexact hinexact
      have htyped := hvalid.typed w hw
      rw [hspelled i hs, hnumber] at htyped
      exact hnot htyped
    · -- the float and the integer stand apart, and arrive as one integer
      have hdistinct : values.Pairwise fun u v => settleAllowed u ≠ settleAllowed v :=
        pairwise_of_forall₂ hall.flip hvalid.distinct fun u' u v' v hu hv hne heq => by
          obtain rfl := Option.some.inj (hu.symm.trans (heq.trans hv))
          exact hne (by cases u' <;> simp [AllowedValue.same, Classical.em])
      have hsame : settleAllowed (.float x.1) = settleAllowed (.int i) := by rw [hxw, hspelled i hs]; rfl
      rcases Sorting.rel_of_pairwise hdistinct hx hi with heq | hne | hne
      · exact absurd heq (by simp)
      · exact hne hsame
      · exact hne hsame.symm
  · intro hexact
    have hone : ∀ v ∈ values, ∃ w, settleAllowed v = some w ∧ w.equal v = true ∧ allowedValueMatchesType w t :=
      fun v hv => settleAllowed_exact (h.typed v hv) fun x hvx => (hexact x (hvx ▸ hv)).1
    obtain ⟨settled, hsettled⟩ := mapM_isSome_iff.2 fun v hv => by
      obtain ⟨w, hw, -⟩ := hone v hv
      exact ⟨w, hw⟩
    have hall := mapM_eq_some hsettled
    have hback : ∀ w ∈ settled, ∃ v ∈ values, settleAllowed v = some w := fun w hw =>
      exists_of_forall₂ hall.flip hw
    refine ⟨settled, hsettled, hall.length_eq ▸ h.length, ?_, fun w hw => ?_, fun w hw => ?_⟩
    · exact pairwise_of_forall₂ hall (List.Pairwise.and_mem.1 h.distinct) fun v v' w w' hv hw hne =>
        settled_apart hexact hne.1 hne.2.1 h.typed hne.2.2 hv hw
    · obtain ⟨v, hv, hvw⟩ := hback w hw
      obtain ⟨w', hw', -, htyped⟩ := hone v hv
      obtain rfl := Option.some.inj (hvw.symm.trans hw')
      exact htyped
    · obtain ⟨v, hv, hvw⟩ := hback w hw
      rcases settleAllowed_eq (h.typed v hv) hvw with rfl | ⟨x, i, -, rfl, -⟩
      · exact h.text _ hv
      · trivial

/-- Each result of a map beside what it was made of. -/
theorem forall₂_of_mapM {α β : Type} {f : α → Option β} {l : List α} {r : List β} {rel : β → α → Prop}
    (h : l.mapM f = some r) (hrel : ∀ a ∈ l, ∀ b, f a = some b → rel b a) : List.Forall₂ rel r l := by
  have hall := mapM_eq_some h
  clear h
  induction hall with
  | nil => exact .nil
  | cons hab _ ih =>
    rw [List.forall_mem_cons] at hrel
    exact .cons (hrel.1 _ hab) (ih hrel.2)

theorem equal_of_settledAllowed (h : AllowedValuesValid values t) (hexact : AllowedExact values)
    (hsettled : values.mapM settleAllowed = some settled) :
    List.Forall₂ (fun w v => w.equal v = true) settled values :=
  forall₂_of_mapM hsettled fun v hv w hw => by
    obtain ⟨w', hw', hequal, -⟩ := settleAllowed_exact (h.typed v hv) fun x hx => (hexact x (hx ▸ hv)).1
    obtain rfl := Option.some.inj (hw.symm.trans hw')
    exact hequal

/-- An attribute's settled values. -/
theorem settleAttribute_eq_some : settleAttribute a = some b ↔
    (a.allowedValues = none ∧ b = a) ∨ ∃ values settled, a.allowedValues = some values ∧
      values.mapM settleAllowed = some settled ∧ b = { a with allowedValues := some settled } := by
  unfold settleAttribute
  cases a.allowedValues with
  | none => simp [eq_comm]
  | some values => simp [eq_comm]

/-- **An attribute arrives valid** just where its allowed values are exact. -/
theorem settledAttribute_iff (h : a.Valid) : (∃ b, settleAttribute a = some b ∧ b.Valid) ↔
    ∀ values ∈ a.allowedValues, AllowedExact values := by
  constructor
  · rintro ⟨b, hb, hvalid⟩ values hvalues
    rcases settleAttribute_eq_some.1 hb with ⟨hnone, -⟩ | ⟨values', settled, hvalues', hsettled, rfl⟩
    · rw [hnone] at hvalues
      exact absurd hvalues (by simp)
    · obtain rfl := Option.some.inj (hvalues'.symm.trans hvalues)
      exact (settledAllowed_iff (h.allowedValues _ hvalues)).1 ⟨settled, hsettled, hvalid.allowedValues _ rfl⟩
  · intro hexact
    cases hvalues : a.allowedValues with
    | none => exact ⟨a, settleAttribute_eq_some.2 (.inl ⟨hvalues, rfl⟩), h⟩
    | some values =>
      obtain ⟨settled, hsettled, hvalid⟩ := (settledAllowed_iff (h.allowedValues _ hvalues)).2 (hexact _ hvalues)
      refine ⟨_, settleAttribute_eq_some.2 (.inr ⟨values, settled, hvalues, hsettled, rfl⟩), ?_⟩
      exact ⟨h.name, h.description, h.primaryKey, fun vs hvs => Option.some.inj hvs ▸ hvalid, h.membership,
        h.annotation⟩

theorem equal_of_settledAttribute (h : a.Valid) (hexact : ∀ values ∈ a.allowedValues, AllowedExact values)
    (hb : settleAttribute a = some b) : b.equal a = true := by
  rcases settleAttribute_eq_some.1 hb with ⟨-, rfl⟩ | ⟨values, settled, hvalues, hsettled, rfl⟩
  · exact b.equal_self
  · have hequal := equal_of_settledAllowed (h.allowedValues _ hvalues) (hexact _ hvalues) hsettled
    rw [AttributeDefinition.equal, hvalues]
    simp [listEqual_iff.2 hequal]

/-- A server-managed field allows every value, and is settled to itself. -/
theorem settle_managed : ∀ f ∈ SERVER_MANAGED_FIELDS, settleAttribute f = some f := by decide

/-- **An entity arrives valid** just where its allowed values are exact. -/
theorem settledEntity_iff (h : e.Valid) : (∃ e', settleEntity e = some e' ∧ e'.Valid) ↔
    ∀ a ∈ e.attributes, ∀ values ∈ a.allowedValues, AllowedExact values := by
  constructor
  · rintro ⟨e', he', hvalid⟩ a ha
    obtain ⟨settled, hsettled, rfl⟩ := Option.map_eq_some_iff.1 he'
    obtain ⟨b, hb, hab⟩ := exists_of_forall₂ (mapM_eq_some hsettled) ha
    exact (settledAttribute_iff (h.attributes a ha)).1 ⟨b, hab, hvalid.attributes b hb⟩
  · intro hexact
    have hone : ∀ a ∈ e.attributes, ∃ b, settleAttribute a = some b ∧ b.Valid := fun a ha =>
      (settledAttribute_iff (h.attributes a ha)).2 (hexact a ha)
    obtain ⟨settled, hsettled⟩ := mapM_isSome_iff.2 fun a ha => by
      obtain ⟨b, hb, -⟩ := hone a ha
      exact ⟨b, hb⟩
    have hall := mapM_eq_some hsettled
    have hback : ∀ b ∈ settled, ∃ a ∈ e.attributes, settleAttribute a = some b := fun b hb =>
      exists_of_forall₂ hall.flip hb
    have hnames : settled.map (·.name) = e.attributes.map (·.name) :=
      (map_eq_of_forall₂ hall fun a b hab => by rw [settleAttribute_rest hab]).symm
    refine ⟨{ e with attributes := settled }, by rw [settleEntity, hsettled, Option.map_some], h.name, h.description,
      fun b hb => ?_, hall.length_eq ▸ h.length, hnames ▸ h.distinct, fun f hf => ?_, fun b hb hkey => ?_⟩
    · obtain ⟨a, ha, hab⟩ := hback b hb
      obtain ⟨b', hb', hvalid⟩ := hone a ha
      obtain rfl := Option.some.inj (hab.symm.trans hb')
      exact hvalid
    · obtain ⟨b, hb, hfb⟩ := exists_of_forall₂ hall (h.managed f hf)
      obtain rfl := Option.some.inj ((settle_managed f hf).symm.trans hfb)
      exact hb
    · obtain ⟨a, ha, hab⟩ := hback b hb
      rw [settleAttribute_rest hab] at hkey ⊢
      exact h.onlyKey a ha hkey

theorem settleEntity_rest (h : settleEntity e = some e') : e'.name = e.name ∧ e'.description = e.description ∧
    List.Forall₂ (fun a b => settleAttribute a = some b) e.attributes e'.attributes := by
  obtain ⟨settled, hsettled, rfl⟩ := Option.map_eq_some_iff.1 h
  exact ⟨rfl, rfl, mapM_eq_some hsettled⟩

section references

variable {entities settled : List EntityDefinition}

variable (h : List.Forall₂ (fun e e' => settleEntity e = some e') entities settled)

include h

/-- The attribute under a name differs in its allowed values only. -/
theorem attributeFor_settled {a : AttributeDefinition} {entity field : String}
    (ha : attributeFor entities entity field = some a) :
    ∃ values, attributeFor settled entity field = some { a with allowedValues := values } := by
  obtain ⟨e, he, hfind⟩ := Option.bind_eq_some_iff.1 ha
  have hentity : Option.Rel (fun e e' => settleEntity e = some e') (entities.find? fun e => e.name = entity)
      (settled.find? fun e => e.name = entity) :=
    Sorting.rel_find? (fun e e' hee' => by rw [(settleEntity_rest hee').1]) h
  rw [he] at hentity
  generalize hfound : (settled.find? fun e => e.name = entity) = found at hentity
  cases hentity with
  | @some _ e' hee' =>
    have hattribute : Option.Rel (fun a b => settleAttribute a = some b)
        (e.attributes.find? fun a => a.name = field) (e'.attributes.find? fun a => a.name = field) :=
      Sorting.rel_find? (fun a b hab => by rw [settleAttribute_rest hab]) (settleEntity_rest hee').2.2
    rw [hfind] at hattribute
    generalize hfound' : (e'.attributes.find? fun a => a.name = field) = found' at hattribute
    cases hattribute with
    | @some _ b hab =>
      refine ⟨b.allowedValues, ?_⟩
      rw [attributeFor, hfound, Option.bind_some, hfound', ← settleAttribute_rest hab]

theorem relationshipSound_settled {r : RelationshipDefinition} (hr : RelationshipSound entities r) :
    RelationshipSound settled r := by
  obtain ⟨a, ha, hsource⟩ := hr.source
  obtain ⟨b, hb, htarget⟩ := hr.target
  obtain ⟨vs, hvs⟩ := attributeFor_settled h ha
  obtain ⟨ws, hws⟩ := attributeFor_settled h hb
  exact ⟨⟨_, hvs, hsource⟩, hr.declared, ⟨_, hws, htarget⟩, hr.id, hr.apart⟩

end references

/-- **A manifest arrives valid** just where its allowed values are exact. -/
theorem settledManifest_iff (h : m.Valid) : (∃ d, settleManifest m = some d ∧ d.Valid) ↔ ManifestExact m := by
  constructor
  · rintro ⟨d, hd, hvalid⟩ e he
    obtain ⟨settled, hsettled, rfl⟩ := Option.map_eq_some_iff.1 hd
    obtain ⟨e', he', hee'⟩ := exists_of_forall₂ (mapM_eq_some hsettled) he
    exact (settledEntity_iff (h.entities e he)).1 ⟨e', hee', hvalid.entities e' he'⟩
  · intro hexact
    have hone : ∀ e ∈ m.entities, ∃ e', settleEntity e = some e' ∧ e'.Valid := fun e he =>
      (settledEntity_iff (h.entities e he)).2 (hexact e he)
    obtain ⟨settled, hsettled⟩ := mapM_isSome_iff.2 fun e he => by
      obtain ⟨e', he', -⟩ := hone e he
      exact ⟨e', he'⟩
    have hall := mapM_eq_some hsettled
    have hback : ∀ e' ∈ settled, ∃ e ∈ m.entities, settleEntity e = some e' := fun e' he' =>
      exists_of_forall₂ hall.flip he'
    have hnames : settled.map (·.name) = m.entities.map (·.name) :=
      (map_eq_of_forall₂ hall fun e e' hee' => (settleEntity_rest hee').1.symm).symm
    have hname : ∀ e' ∈ settled, ∃ e ∈ m.entities, e'.name = e.name := fun e' he' => by
      obtain ⟨e, he, hee'⟩ := hback e' he'
      exact ⟨e, he, (settleEntity_rest hee').1⟩
    have hedges : requiredRelationshipEdges { m with entities := settled } = requiredRelationshipEdges m := by
      unfold requiredRelationshipEdges
      congr 1
      refine List.filter_congr fun r hr => ?_
      obtain ⟨a, ha, -⟩ := (h.relationshipsSound r hr).source
      obtain ⟨values, hvalues⟩ := attributeFor_settled hall ha
      rw [show attributeFor m.entities r.from_.entity r.from_.field = some a from ha, hvalues]
      rfl
    refine ⟨{ m with entities := settled }, by rw [settleManifest, hsettled, Option.map_some], ?_⟩
    exact { h with
      entities := fun e' he' => by
        obtain ⟨e, he, hee'⟩ := hback e' he'
        obtain ⟨e'', he'', hvalid⟩ := hone e he
        obtain rfl := Option.some.inj (hee'.symm.trans he'')
        exact hvalid
      entityCount := hall.length_eq ▸ h.entityCount
      entityNames := hnames ▸ h.entityNames
      entityReserved := fun e' he' => by
        obtain ⟨e, he, heq⟩ := hname e' he'
        exact heq ▸ h.entityReserved e he
      namesApart := fun e' he' => by
        obtain ⟨e, he, heq⟩ := hname e' he'
        exact heq ▸ h.namesApart e he
      facetTargets := fun f hf => by
        obtain ⟨a, ha⟩ := Option.isSome_iff_exists.1 (h.facetTargets f hf)
        obtain ⟨values, hvalues⟩ := attributeFor_settled hall ha
        rw [hvalues, Option.isSome_some]
      indexFields := fun i hi f hf => by
        obtain ⟨a, ha, htype⟩ := h.indexFields i hi f hf
        obtain ⟨values, hvalues⟩ := attributeFor_settled hall ha
        exact ⟨_, hvalues, htype⟩
      relationshipsSound := fun r hr => relationshipSound_settled hall (h.relationshipsSound r hr)
      acyclic := hedges ▸ h.acyclic }

theorem equal_of_settledEntity (h : e.Valid)
    (hexact : ∀ a ∈ e.attributes, ∀ values ∈ a.allowedValues, AllowedExact values) (he' : settleEntity e = some e') :
    e'.equal e = true := by
  obtain ⟨settled, hsettled, rfl⟩ := Option.map_eq_some_iff.1 he'
  have hequal : List.Forall₂ (fun b a => AttributeDefinition.equal b a = true) settled e.attributes :=
    forall₂_of_mapM hsettled fun a ha b hab => equal_of_settledAttribute (h.attributes a ha) (hexact a ha) hab
  rw [EntityDefinition.equal, listEqual_iff.2 hequal]
  simp

/-- What arrives of an exact manifest equals it. -/
theorem equal_of_settledManifest (h : m.Valid) (hexact : ManifestExact m) (hd : settleManifest m = some d) :
    d.equal m = true := by
  obtain ⟨settled, hsettled, rfl⟩ := Option.map_eq_some_iff.1 hd
  have hequal : List.Forall₂ (fun e' e => EntityDefinition.equal e' e = true) settled m.entities :=
    forall₂_of_mapM hsettled fun e he e' hee' => equal_of_settledEntity (h.entities e he) (hexact e he) hee'
  rw [ManifestDocument.equal, listEqual_iff.2 hequal]
  simp

end validity

end Transfer

end Aipcs

import Aipcs.Data.Evidence
import Aipcs.Data.Runs
import Aipcs.Relational.Shape

/-!
# Data — the constraints of a domain's tables

What the tables a manifest is compiled to ask of a row: columns that must
not be null, unique indices, and references, each checked at once when a
row is inserted. A row that is read and staged again has the columns it
had, as SQL compares them (`Mirrors`), so that of these constraints only
the references can go against it.
-/

namespace Aipcs

namespace Data

open Manifest Portable Relational Records Registry

deriving instance DecidableEq for SqlValue

/-! ## Columns -/

/-- A value as SQL compares it: a zero has no sign. -/
def comparedValue : SqlValue → SqlValue
  | .real x => .real (unsignedZero x)
  | c => c

/-- The column of an id. -/
def idValue (b : StorageBackend) (u : Uuid) : SqlValue := if b = .sqlite then .text u.text else .uuid u

/-- The column of a time. -/
def timeValue (b : StorageBackend) (t : Instant) : SqlValue := if b = .sqlite then .text t.text else .timestamp t

/-- The column of a version, which is signed in 64 bits. -/
def versionValue (n : ℕ) : SqlValue := if h : (n : ℤ) ≤ 2 ^ 63 - 1 then .integer ⟨n, by omega, h⟩ else .null

/-- What a row has in a column. -/
def RecordRow.column (b : StorageBackend) (r : RecordRow) (name : String) : SqlValue :=
  if name = "id" then idValue b r.id
  else if name = "owner_id" then .text r.ownerId
  else if name = "created_at" then timeValue b r.createdAt
  else if name = "updated_at" then timeValue b r.updatedAt
  else if name = "created_via" then .text r.createdVia
  else if name = "record_version" then versionValue r.recordVersion
  else cellOf r.cells name

/-- Two rows have one key of an index; a null is like nothing. -/
def sameKey (b : StorageBackend) (fields : List String) (q r : RecordRow) : Prop :=
  ∀ f ∈ fields, q.column b f ≠ .null ∧ comparedValue (q.column b f) = comparedValue (r.column b f)

instance (b : StorageBackend) (fields : List String) (q r : RecordRow) : Decidable (sameKey b fields q r) :=
  inferInstanceAs (Decidable (∀ _ ∈ _, _))

/-! ## Inserts -/

/-- What the domain's tables ask of a row, beside the rows there are. A
reference may lead to the row itself. -/
@[mk_iff]
structure Admits (b : StorageBackend) (s : RelationalSpecification) (rows : List RecordRow) (r : RecordRow) : Prop where
  table : ∃ e ∈ s.entities, e.name = r.entityName
  required : ∀ e ∈ s.entities, e.name = r.entityName → ∀ f ∈ e.fields, (f.required || f.primaryKey) = true →
    r.column b f.name ≠ .null
  unique : ∀ i ∈ s.indices, i.unique = true → i.entity = r.entityName → ∀ q ∈ rows, q.entityName = r.entityName →
    ¬ sameKey b i.fields q r
  references : ∀ k ∈ s.relationships, k.sourceEntity = r.entityName → r.column b k.sourceField ≠ .null →
    ∃ q ∈ rows ++ [r], q.entityName = k.targetEntity ∧ q.column b k.targetField = r.column b k.sourceField

instance (b : StorageBackend) (s : RelationalSpecification) (rows : List RecordRow) (r : RecordRow) :
    Decidable (Admits b s rows r) := decidable_of_iff' _ (admits_iff b s rows r)

/-- `INSERT` into an entity's table. -/
def insertDomainRow (b : StorageBackend) (s : RelationalSpecification) (x : Content) (r : RecordRow) : Option Content :=
  if Admits b s x.records.rows r then x.insertRow r else none

/-- The row of a record. -/
def recordRowOf (b : StorageBackend) (m : ManifestV2) (principalId : String) (v : RecordValue) : Option RecordRow := do
  let e ← (compileRecordSpecification m).entity v.entityName.1
  let cells ← encodeFields b e v.fields
  return ⟨v.entityName.1, v.recordId, principalId, v.createdAt, v.updatedAt, v.createdVia.1, v.recordVersion.1, cells⟩

/-! ## A column read and written again -/

section columns

variable {b : StorageBackend} {f : RecordField} {c : SqlValue} {w : PortableJson}

theorem comparedValue_columnValue (c : SqlValue) : comparedValue (columnValue b c) = comparedValue c := by
  cases c with
  | real x => by_cases hb : b = .sqlite <;> simp [columnValue, comparedValue, hb]
  | _ => rfl

theorem comparedValue_eq_null : comparedValue c = .null ↔ c = .null := by
  cases c <;> simp [comparedValue]

/-- **What a column is read as is written to it again.** -/
theorem encodeField_decodeField (hnumber : f.type = .number → ∀ i, c ≠ .integer i) (h : decodeField b f c = some w) :
    ∃ c', encodeField b f w = some c' ∧ (c' = .null ↔ c = .null) ∧ (f.type ≠ .stringList → c' = c) := by
  cases c with
  | null =>
    obtain rfl := Option.some.inj h
    exact ⟨.null, rfl, Iff.rfl, fun _ => rfl⟩
  | integer i =>
    cases hf : f.type <;> simp only [decodeField, hf, reduceCtorEq] at h
    case boolean =>
      split_ifs at h with hzero hone
      · obtain rfl := Option.some.inj h
        obtain ⟨rfl, hi⟩ := hzero
        refine ⟨.integer i, ?_, by simp, fun _ => rfl⟩
        have hvalue : (⟨0, by omega⟩ : Signed64) = i := Subtype.ext hi.symm
        simp [encodeField, hf, hvalue]
      · obtain rfl := Option.some.inj h
        obtain ⟨rfl, hi⟩ := hone
        refine ⟨.integer i, ?_, by simp, fun _ => rfl⟩
        have hvalue : (⟨1, by omega⟩ : Signed64) = i := Subtype.ext hi.symm
        simp [encodeField, hf, hvalue]
    case integer =>
      obtain rfl := Option.some.inj h
      exact ⟨.integer i, by simp [encodeField, hf], by simp, fun _ => rfl⟩
    case number => exact absurd rfl (hnumber hf i)
  | real x =>
    cases hf : f.type <;> simp only [decodeField, hf, reduceCtorEq] at h
    obtain rfl := Option.some.inj h
    exact ⟨.real x, by simp [encodeField, hf], by simp, fun _ => rfl⟩
  | text s =>
    cases hf : f.type <;> simp only [decodeField, hf, reduceCtorEq] at h
    case string =>
      obtain rfl := Option.some.inj h
      exact ⟨.text s, by simp [encodeField, hf], by simp, fun _ => rfl⟩
    all_goals
      split_ifs at h with hb
      obtain rfl := Option.some.inj h
      exact ⟨.text s, by simp [encodeField, hf, hb], by simp, fun _ => rfl⟩
  | boolean x =>
    cases hf : f.type <;> simp only [decodeField, hf, reduceCtorEq] at h
    split_ifs at h with hb
    obtain rfl := Option.some.inj h
    exact ⟨.boolean x, by simp [encodeField, hf, hb], by simp, fun _ => rfl⟩
  | uuid u =>
    cases hf : f.type <;> simp only [decodeField, hf, reduceCtorEq] at h
    split_ifs at h with hb
    obtain rfl := Option.some.inj h
    exact ⟨.uuid u, by simp [encodeField, hf, hb, Uuid.ofText_text], by simp, fun _ => rfl⟩
  | timestamp t =>
    cases hf : f.type <;> simp only [decodeField, hf, reduceCtorEq] at h
    split_ifs at h with hb
    obtain rfl := Option.some.inj h
    exact ⟨.timestamp t, by simp [encodeField, hf, hb, parseDatetime_isoText], by simp, fun _ => rfl⟩
  | json text =>
    cases hf : f.type <;> simp only [decodeField, hf, reduceCtorEq] at h
    cases hload : loadJson b text with
    | none => simp [hload] at h
    | some v =>
      cases v with
      | arr items =>
        rw [hload] at h
        obtain rfl := Option.some.inj h
        exact ⟨.json (storeJson b (.arr items)), by simp [encodeField, hf], by simp, fun hne => absurd rfl hne⟩
      | _ => simp [hload] at h

end columns

/-! ## A row read and staged again -/

section rows

variable {b : StorageBackend} {m : ManifestV2} {p : String} {r q : RecordRow} {v : RecordValue}
  {s : RecordSpecification} {fields : FrozenJsonObject}

theorem column_of_domain {n : String} (h : serverManaged n = false) (r : RecordRow) :
    r.column b n = cellOf r.cells n := by
  simp only [serverManaged, SERVER_MANAGED_FIELDS, List.any_cons, List.any_nil, Bool.or_false, Bool.or_eq_false_iff,
    decide_eq_false_iff_not, eq_comm (b := n)] at h
  obtain ⟨hid, howner, hcreated, hupdated, hvia, hversion⟩ := h
  rw [RecordRow.column, if_neg hid, if_neg howner, if_neg hcreated, if_neg hupdated, if_neg hvia, if_neg hversion]

theorem decodeRecord_row (h : decodeRecord b s r = some v) :
    decodeFields b s r.entityName r.cells = some v.fields ∧ v.entityName.1 = r.entityName ∧ v.recordId = r.id ∧
      v.recordVersion.1 = r.recordVersion ∧ v.createdAt = r.createdAt ∧ v.updatedAt = r.updatedAt ∧
      v.createdVia.1 = r.createdVia := by
  obtain ⟨fields, hfields, h⟩ := Option.bind_eq_some_iff.1 h
  split_ifs at h
  obtain ⟨hentity, hid, hversion, hcreated, hupdated, hvia, hv⟩ := buildRecord_eq_some h
  exact ⟨by rw [hv]; exact hfields, hentity, hid, hversion, hcreated, hupdated, hvia⟩

/-- The fields of a row are what its columns are read as. -/
theorem decodeFields_value (h : decodeFields b s r.entityName r.cells = some fields) :
    ∃ e, Normalised s r.entityName e fields ∧
      ∀ f ∈ e.domainFields, decodeField b f (cellOf r.cells f.name) = some (fieldValue fields f) := by
  obtain ⟨o, ho, hnormal⟩ := Option.bind_eq_some_iff.1 h
  obtain ⟨e, he, values, hvalues, hmapping, -⟩ := recordFields_eq_some.1 ho
  obtain ⟨-, hvalue, -⟩ := get?_of_collect hvalues hmapping
  obtain ⟨e', he', hnormalised⟩ := normaliseFields_normalised hnormal
  obtain rfl := Option.some.inj (he.symm.trans he'.entity)
  refine ⟨e, he', fun f hf => ?_⟩
  obtain ⟨w, hw, hget⟩ := hvalue f hf
  have hback := hnormalised f hf
  rw [fieldValue, hget, Option.getD_some, normaliseValue_of_normal (normal_decodeField hw)] at hback
  rw [hw, fieldValue, ← hback, Option.getD_some]

/-- A row and the one it is staged as: the same, as the constraints see them. -/
structure Mirrors (b : StorageBackend) (m : ManifestV2) (r q : RecordRow) : Prop where
  entityName : q.entityName = r.entityName
  id : q.id = r.id
  null : ∀ e ∈ (compileManifest m).entities, e.name = r.entityName → ∀ f ∈ e.fields,
    (q.column b f.name = .null ↔ r.column b f.name = .null)
  compared : ∀ e ∈ (compileManifest m).entities, e.name = r.entityName → ∀ f ∈ e.fields,
    f.logicalType ≠ .stringList → comparedValue (q.column b f.name) = comparedValue (r.column b f.name)

/-- No number is kept as an integer: the columns are floating. -/
def Floating (m : ManifestV2) (r : RecordRow) : Prop :=
  ∀ e ∈ (compileManifest m).entities, e.name = r.entityName → ∀ f ∈ e.fields, f.logicalType = .number →
    ∀ i, cellOf r.cells f.name ≠ .integer i

/-- **A record is staged as a row that mirrors its own.** -/
theorem exists_mirror (hr : decodeRecord b (compileRecordSpecification m) r = some v) (howner : r.ownerId = p)
    (hfloating : Floating m r) : ∃ q, recordRowOf b m p v = some q ∧ Mirrors b m r q := by
  obtain ⟨hfields, hentity, hid, hversion, hcreated, hupdated, hvia⟩ := decodeRecord_row hr
  obtain ⟨e, hnormal, hvalue⟩ := decodeFields_value hfields
  obtain ⟨d, hd, hname, rfl⟩ := entity_compile hnormal.entity
  have hback : ∀ a ∈ (recordEntity d).domainFields, ∃ c, encodeField b a (fieldValue v.fields a) = some c ∧
      (c = .null ↔ cellOf r.cells a.name = .null) ∧ (a.type ≠ .stringList → c = cellOf r.cells a.name) := fun a ha => by
    refine encodeField_decodeField (fun htype i => ?_) (hvalue a ha)
    exact hfloating (entity d) (mem_entities.2 ⟨d, hd, rfl⟩) hname (field a)
      (List.mem_map_of_mem (mem_domainFields.1 ha).1) htype i
  obtain ⟨cells, hcells⟩ := collect_isSome (g := fun f => (encodeField b f (fieldValue v.fields f)).map (columnValue b))
    fun a ha => by
      obtain ⟨c, hc, -⟩ := hback a ha
      rw [hc, Option.map_some, Option.isSome_some]
  have hrow : recordRowOf b m p v = some ⟨r.entityName, r.id, p, r.createdAt, r.updatedAt, r.createdVia,
      r.recordVersion, cells⟩ := by
    have hencode : encodeFields b (recordEntity d) v.fields = some cells := hcells
    simp only [recordRowOf, hentity, hnormal.entity, hencode, Option.bind_eq_bind, Option.bind_some, hid, hversion,
      hcreated, hupdated, hvia]
    rfl
  -- a column of the row is its own, or one that its field is written to again
  have hcolumn : ∀ e ∈ (compileManifest m).entities, e.name = r.entityName → ∀ f ∈ e.fields, ∀ q : RecordRow,
      q = ⟨r.entityName, r.id, p, r.createdAt, r.updatedAt, r.createdVia, r.recordVersion, cells⟩ →
      q.column b f.name = r.column b f.name ∨ ∃ c, q.column b f.name = columnValue b c ∧
        (c = .null ↔ r.column b f.name = .null) ∧ (f.logicalType ≠ .stringList → c = r.column b f.name) := by
    rintro e he hename f hf q rfl
    obtain ⟨d', hd', rfl⟩ := mem_entities.1 he
    obtain rfl : d' = d := List.inj_on_of_nodup_map m.valid.entityNames hd' hd (hename.trans hname.symm)
    obtain ⟨a, ha, rfl⟩ := List.mem_map.1 hf
    by_cases hmanaged : serverManaged a.name = true
    · left
      simp only [serverManaged, SERVER_MANAGED_FIELDS, List.any_cons, List.any_nil, Bool.or_false, Bool.or_eq_true,
        decide_eq_true_eq] at hmanaged
      rcases hmanaged with h | h | h | h | h | h <;>
        simp only [field, ← h, RecordRow.column, howner] <;> simp
    · right
      rw [Bool.not_eq_true] at hmanaged
      have hdomain : a ∈ (recordEntity d').domainFields := mem_domainFields.2 ⟨ha, hmanaged⟩
      obtain ⟨c, hc, hnull, hsame⟩ := hback a hdomain
      obtain ⟨c', hc', hcell⟩ := hnormal.cellOf_eq hcells hdomain
      obtain rfl := Option.some.inj (hc.symm.trans hc')
      have hown : ∀ r' : RecordRow, r'.column b (field a).name = cellOf r'.cells a.name := column_of_domain hmanaged
      rw [hown, hown]
      exact ⟨c, hcell, hnull, hsame⟩
  refine ⟨_, hrow, rfl, rfl, fun e he hename f hf => ?_, fun e he hename f hf htype => ?_⟩
  · rcases hcolumn e he hename f hf _ rfl with h | ⟨c, hc, hnull, -⟩
    · rw [h]
    · rw [hc, ← hnull, ← comparedValue_eq_null, comparedValue_columnValue, comparedValue_eq_null]
  · rcases hcolumn e he hename f hf _ rfl with h | ⟨c, hc, -, hsame⟩
    · rw [h]
    · rw [hc, comparedValue_columnValue, hsame htype]

/-! ## What an insert turns on -/

theorem column_id (r : RecordRow) : r.column b "id" = idValue b r.id := rfl

theorem comparedValue_eq_idValue {c : SqlValue} {u : Uuid} : comparedValue c = idValue b u ↔ c = idValue b u := by
  cases c <;> by_cases hb : b = .sqlite <;> simp [comparedValue, idValue, hb]

theorem idValue_ne_null (u : Uuid) : idValue b u ≠ .null := by
  by_cases hb : b = .sqlite <;> simp [idValue, hb]

theorem idValue_injective : Function.Injective (idValue b) := fun u u' h => by
  by_cases hb : b = .sqlite
  · simp only [idValue, if_pos hb, SqlValue.text.injEq] at h
    have hu := Uuid.ofText_text u
    rw [h, Uuid.ofText_text] at hu
    exact (Option.some.inj hu).symm
  · simpa [idValue, hb] using h

/-- A column of an id is read as its text. -/
theorem decodeField_idValue {f : RecordField} {c : SqlValue} {u : Uuid} (hf : f.type = .uuid) :
    decodeField b f c = some (.str u.text) ↔ c = idValue b u := by
  have htext : ∀ {u' : Uuid}, u'.text = u.text → u' = u := fun h => by
    have hu := Uuid.ofText_text u
    rw [← h, Uuid.ofText_text] at hu
    exact Option.some.inj hu
  constructor
  · intro h
    cases c <;> simp only [decodeField, hf, reduceCtorEq, Option.some.injEq] at h
    case text s =>
      split_ifs at h with hb
      rw [idValue, if_pos hb, PortableJson.str.inj (Option.some.inj h)]
    case uuid u' =>
      split_ifs at h with hb
      have hne : b ≠ .sqlite := fun hb' => by simp [hb'] at hb
      rw [idValue, if_neg hne, htext (PortableJson.str.inj (Option.some.inj h))]
  · rintro rfl
    cases b <;> simp [idValue, decodeField, hf]

/-- The field a relationship starts from is an id of the domain. -/
theorem source_field {k : RelationalRelationship} (hk : k ∈ (compileManifest m).relationships) :
    k.targetField = "id" ∧ ∃ d ∈ m.entities, d.name = k.sourceEntity ∧
      ∃ a ∈ (recordEntity d).domainFields, a.name = k.sourceField ∧ a.type = .uuid := by
  obtain ⟨d, hd, rfl⟩ := mem_relationships.1 hk
  have hsound := m.valid.relationshipsSound d hd
  obtain ⟨a, ha, -, htype⟩ := hsound.source
  obtain ⟨e, he, ha⟩ := Option.bind_eq_some_iff.1 ha
  have hname : a.name = d.from_.field := by simpa using List.find?_some ha
  have hentity : e.name = d.from_.entity := by simpa using List.find?_some he
  refine ⟨hsound.id, e, List.mem_of_find?_eq_some he, hentity, a, ?_, hname, htype⟩
  exact mem_domainFields.2 ⟨List.mem_of_find?_eq_some ha, hname ▸ hsound.declared⟩

/-- The columns of an index are compared one by one. -/
theorem index_column {i : RelationalIndex} (hi : i ∈ (compileManifest m).indices) {n : String} (hn : n ∈ i.fields) :
    ∃ e ∈ (compileManifest m).entities, e.name = i.entity ∧
      ∃ f ∈ e.fields, f.name = n ∧ f.logicalType ≠ .stringList := by
  obtain ⟨f, hf, htype⟩ := (compileManifest_valid m).indexFields i hi n hn
  obtain ⟨e, he, hf⟩ := Option.bind_eq_some_iff.1 hf
  exact ⟨e, List.mem_of_find?_eq_some he, by simpa using List.find?_some he, f, List.mem_of_find?_eq_some hf,
    by simpa using List.find?_some hf, htype⟩

/-- What a row's references need: of each, the row it leads to. -/
def Referred (b : StorageBackend) (m : ManifestV2) (rows : List RecordRow) (r : RecordRow) : Prop :=
  ∀ k ∈ (compileManifest m).relationships, k.sourceEntity = r.entityName → r.column b k.sourceField ≠ .null →
    ∃ q ∈ rows, q.entityName = k.targetEntity ∧ r.column b k.sourceField = idValue b q.id

section mirrors

variable {others rows : List RecordRow}

/-- The rows of a source are as far apart as those they are staged as. -/
theorem Mirrors.sameKey {i : RelationalIndex} {q' r' : RecordRow} (hi : i ∈ (compileManifest m).indices)
    (hr : Mirrors b m r q) (hr' : Mirrors b m r' q') (hentity : i.entity = r.entityName)
    (hentity' : i.entity = r'.entityName) (h : sameKey b i.fields q' q) : sameKey b i.fields r' r := by
  intro n hn
  obtain ⟨hnull, hsame⟩ := h n hn
  obtain ⟨e, he, hname, f, hf, rfl, htype⟩ := index_column hi hn
  refine ⟨fun hnone => hnull ((hr'.null e he (hname.trans hentity') f hf).2 hnone), ?_⟩
  rw [← hr'.compared e he (hname.trans hentity') f hf htype, ← hr.compared e he (hname.trans hentity) f hf htype]
  exact hsame

/-- A reference leads where it led. -/
theorem Mirrors.reference {k : RelationalRelationship} {u : Uuid} (hk : k ∈ (compileManifest m).relationships)
    (hr : Mirrors b m r q) (hentity : k.sourceEntity = r.entityName) :
    (q.column b k.sourceField = .null ↔ r.column b k.sourceField = .null) ∧
      (q.column b k.sourceField = idValue b u ↔ r.column b k.sourceField = idValue b u) := by
  obtain ⟨-, d, hd, hname, a, ha, hfield, htype⟩ := source_field hk
  have he : entity d ∈ (compileManifest m).entities := mem_entities.2 ⟨d, hd, rfl⟩
  have hf : field a ∈ (entity d).fields := List.mem_map_of_mem (mem_domainFields.1 ha).1
  have hlist : (field a).logicalType ≠ .stringList := by
    rw [show (field a).logicalType = .uuid from htype]
    decide
  have hcompared := hr.compared _ he (hname.trans hentity) _ hf hlist
  have hnull := hr.null _ he (hname.trans hentity) _ hf
  rw [show (field a).name = k.sourceField from hfield] at hcompared hnull
  refine ⟨hnull, ?_⟩
  rw [← comparedValue_eq_idValue, hcompared, comparedValue_eq_idValue]

/-- **A row that was admitted is admitted again** where its references
lead to rows that are there. -/
theorem Mirrors.admits_iff (hr : Mirrors b m r q) (hadmits : Admits b (compileManifest m) others r)
    (hrows : ∀ q' ∈ rows, ∃ r' ∈ others, Mirrors b m r' q') :
    Admits b (compileManifest m) rows q ↔ Referred b m (rows ++ [q]) r := by
  constructor
  · intro h k hk hentity hne
    obtain ⟨q', hq', htarget, hcolumn⟩ := h.references k hk (hentity.trans hr.entityName.symm) fun hnull =>
      hne ((hr.reference (u := q.id) hk hentity).1.1 hnull)
    rw [(source_field hk).1, column_id] at hcolumn
    exact ⟨q', hq', htarget, (hr.reference hk hentity).2.1 hcolumn.symm⟩
  · intro h
    refine ⟨?_, fun e he hname f hf hrequired hnull => ?_, fun i hi hunique hentity q' hq' hname hsame => ?_,
      fun k hk hentity hne => ?_⟩
    · obtain ⟨e, he, hname⟩ := hadmits.table
      exact ⟨e, he, hname.trans hr.entityName.symm⟩
    · have hname' : e.name = r.entityName := hname.trans hr.entityName
      exact hadmits.required e he hname' f hf hrequired ((hr.null e he hname' f hf).1 hnull)
    · obtain ⟨r', hr', hmirror⟩ := hrows q' hq'
      rw [hr.entityName] at hentity hname
      have hname' : r'.entityName = r.entityName := hmirror.entityName.symm.trans hname
      exact hadmits.unique i hi hunique hentity r' hr' hname'
        (hr.sameKey hi hmirror hentity (hentity.trans hname'.symm) hsame)
    · rw [hr.entityName] at hentity
      obtain ⟨q', hq', htarget, hcolumn⟩ := h k hk hentity fun hnull =>
        hne ((hr.reference (u := q.id) hk hentity).1.2 hnull)
      refine ⟨q', hq', htarget, ?_⟩
      rw [(source_field hk).1, column_id, (hr.reference hk hentity).2.2 hcolumn]

end mirrors

end rows

end Data

end Aipcs

import Aipcs.Data.History
import Aipcs.Data.Times

/-!
# Data — what PostgreSQL remembers of a record

A record that is written leaves a row, the documents of a history event
and the document of its result, which a replay is answered from. Each is
read another way. The documents come back where every float is kept by
`jsonb`, the row where every datetime is spelled as the store spells it.
-/

namespace Aipcs

namespace Data

open Manifest Portable Relational Records Registry Store.Mutating

/-! ## Objects and their names -/

section objects

variable {o p : FrozenJsonObject} {entries : List (String × PortableJson)}

/-- Entries that have an object's values freeze to the object. -/
theorem fromMapping_of_lookup (hnodup : (entries.map Prod.fst).Nodup) (h : ∀ n, entries.lookup n = o.get? n) :
    FrozenJsonObject.fromMapping entries = some o := by
  have hmem : ∀ e, e ∈ entries ↔ e ∈ o.entries := fun e => by
    rw [← lookup_eq_some_iff_mem hnodup (k := e.1) (v := e.2), h, FrozenJsonObject.get?,
      lookup_eq_some_iff_mem o.nodup_names]
  have hperm : entries.Perm o.entries :=
    (List.perm_ext_iff_of_nodup hnodup.of_map o.nodup_names.of_map).2 hmem
  have hsorted : entries.insertionSort (fun a b => a.1 ≤ b.1) = o.entries := by
    refine ((List.perm_insertionSort _ entries).trans hperm).eq_of_pairwise (fun a b hsort hb hab hba => ?_)
      (List.pairwise_insertionSort _ entries) ((List.pairwise_map.1 o.pairwise_names).imp le_of_lt)
    have ha : a ∈ o.entries := (hmem a).1 ((List.perm_insertionSort _ entries).mem_iff.1 hsort)
    exact List.inj_on_of_nodup_map o.nodup_names ha hb (le_antisymm hab hba)
  rw [FrozenJsonObject.fromMapping, hsorted, FrozenJsonObject.ofEntries_eq_some]

end objects

section fields

variable {s : RecordSpecification} {entityName : String} {e : RecordEntity} {fields : FrozenJsonObject}
  {cells : List (String × SqlValue)} {f : RecordField} {v : PortableJson}

/-- Collected again, the values of normalised fields are the fields. -/
theorem Normalised.collect_self (h : Normalised s entityName e fields) {g : RecordField → Option PortableJson}
    (hg : ∀ f ∈ e.domainFields, g f = some (fieldValue fields f)) :
    ∃ entries, collect g e.domainFields = some entries ∧ FrozenJsonObject.fromMapping entries = some fields := by
  obtain ⟨entries, hentries⟩ := collect_isSome (g := g) fun f hf => by rw [hg f hf, Option.isSome_some]
  have hnodup := h.nodup
  rw [← collect_names hentries] at hnodup
  refine ⟨entries, hentries, fromMapping_of_lookup hnodup fun n => ?_⟩
  by_cases hn : n ∈ e.domainFields.map (·.name)
  · obtain ⟨f, hf, rfl⟩ := List.mem_map.1 hn
    obtain ⟨v, hv, hlookup⟩ := lookup_collect hentries h.nodup hf
    rw [hlookup, ← hv, hg f hf, (h.fieldValue_eq hf).1]
  · rw [lookup_collect_eq_none hentries hn, h.others n hn]

/-- **Normalised fields are normalised to themselves.** -/
theorem Normalised.normaliseFields_self (h : Normalised s entityName e fields) :
    normaliseFields s entityName fields = some fields := by
  obtain ⟨complete, hcomplete, hmapping⟩ := h.collect_self
    (g := fun f => normaliseValue f (fieldValue fields f)) fun f hf => normaliseValue_of_normal (h.fieldValue_eq hf).2
  exact normaliseFields_eq_some.2 ⟨e, h.entity, complete, hcomplete, hmapping, h.valid⟩

theorem Normalised.acceptFields_self (h : Normalised s entityName e fields) :
    acceptFields s entityName fields = some fields := by
  rw [acceptFields, if_pos h.valid, h.normaliseFields_self]

/-- A field's value is null, or of the field's type. -/
theorem Normalised.matchesType (h : Normalised s entityName e fields) (hf : f ∈ e.domainFields)
    (hv : fields.get? f.name = some v) : v = .null ∨ Records.matchesType v f.type = true := by
  obtain ⟨e', he', hall⟩ := validateRecord_entity h.valid
  obtain rfl := Option.some.inj (h.entity.symm.trans he')
  have hentry := List.all_eq_true.1 hall _ ((lookup_eq_some_iff_mem fields.nodup_names).1 hv)
  rw [validateEntry, (find?_name_eq_some_iff h.nodup).2 ⟨hf, rfl⟩, Option.any_some] at hentry
  by_cases hnull : v = .null
  · exact .inl hnull
  · rw [validateValue, Bool.and_eq_true] at hentry
    · exact .inr hentry.1
    · exact hnull

/-- The fields are of the entity's names only. -/
theorem Normalised.mem_entries (h : Normalised s entityName e fields) {n : String} (hv : (n, v) ∈ fields.entries) :
    ∃ f ∈ e.domainFields, f.name = n ∧ fields.get? n = some v := by
  have hget : fields.get? n = some v := (lookup_eq_some_iff_mem fields.nodup_names).2 hv
  have hn : n ∈ e.domainFields.map (·.name) := by
    by_contra hn
    rw [h.others n hn] at hget
    exact absurd hget (by simp)
  obtain ⟨f, hf, rfl⟩ := List.mem_map.1 hn
  exact ⟨f, hf, rfl, hget⟩

/-! ## Values of a type -/

theorem keptItems_of_listItem : ∀ {items : List PortableJson}, items.all listItem = true → KeptItems items
  | [], _ => trivial
  | v :: rest, h => by
    rw [List.all_cons, Bool.and_eq_true] at h
    refine ⟨?_, keptItems_of_listItem h.2⟩
    cases v with
    | str text => exact trivial
    | _ => exact absurd h.1 (by simp [listItem])

/-- Of a value that has a type, only a float may not come back from `jsonb`. -/
theorem kept_of_matchesType {t : LogicalType} (h : v = .null ∨ Records.matchesType v t = true)
    (hfloat : ∀ x, v = .float x → Kept v) : Kept v := by
  rcases h with rfl | h
  · exact trivial
  · cases v with
    | float x => exact hfloat x rfl
    | arr items =>
      cases t <;> simp only [Records.matchesType, Bool.and_eq_true, reduceCtorEq] at h
      exact keptItems_of_listItem h.1.2
    | obj entries => cases t <;> exact absurd h (by simp [Records.matchesType])
    | _ => exact trivial

/-! ## The row -/

/-- Every datetime is spelled as the store spells it. -/
def AllSpelled (e : RecordEntity) (o : FrozenJsonObject) : Prop :=
  ∀ f ∈ e.domainFields, f.type = .datetime → ∀ text, o.get? f.name = some (.str text) → Spelled text

/-- **PostgreSQL's column gives a value back**, a datetime as the store spells it. -/
theorem decodeField_postgresql {c : SqlValue} (hv : validateJson v = true)
    (htype : v = .null ∨ Records.matchesType v f.type = true) (hn : Normal f v)
    (h : encodeField .postgresql f v = some c) :
    ∃ w, decodeField .postgresql f (columnValue .postgresql c) = some w ∧
      (f.type ≠ .datetime → w = v) ∧
      ∀ text, f.type = .datetime → v = .str text → ∃ t, parseDatetime text = some t ∧ w = .str (isoText t) := by
  cases v with
  | null =>
    obtain rfl := Option.some.inj h
    exact ⟨.null, rfl, fun _ => rfl, fun text _ htext => absurd htext (by simp)⟩
  | bool x =>
    cases hf : f.type <;> simp only [encodeField, hf, reduceCtorEq] at h
    obtain rfl := Option.some.inj h
    exact ⟨.bool x, by simp [columnValue, decodeField, hf], fun _ => rfl, fun text hd => absurd hd (by simp)⟩
  | int i =>
    cases hf : f.type <;> simp only [encodeField, hf, reduceCtorEq] at h
    · obtain rfl := Option.some.inj h
      exact ⟨.int i, by simp [columnValue, decodeField, hf], fun _ => rfl, fun text hd => absurd hd (by simp)⟩
    · exact absurd rfl (hn hf i)
  | float x =>
    cases hf : f.type <;> simp only [encodeField, hf, reduceCtorEq] at h
    obtain rfl := Option.some.inj h
    exact ⟨.float x, by simp [columnValue, decodeField, hf], fun _ => rfl, fun text hd => absurd hd (by simp)⟩
  | str text =>
    cases hf : f.type <;> simp only [encodeField, hf, if_false, reduceCtorEq] at h
    case string =>
      obtain rfl := Option.some.inj h
      exact ⟨.str text, by simp [columnValue, decodeField, hf], fun _ => rfl, fun text hd => absurd hd (by simp)⟩
    case datetime =>
      obtain ⟨t, ht, rfl⟩ := Option.map_eq_some_iff.1 h
      refine ⟨.str (isoText t), by simp [columnValue, decodeField, hf], fun hd => absurd rfl hd, ?_⟩
      rintro text' - htext
      obtain rfl := PortableJson.str.inj htext
      exact ⟨t, ht, rfl⟩
    case uuid =>
      obtain ⟨u, hu, rfl⟩ := Option.map_eq_some_iff.1 h
      refine ⟨.str text, ?_, fun _ => rfl, fun text hd => absurd hd (by simp)⟩
      simp [columnValue, decodeField, hf, Uuid.text_of_ofText hu]
  | arr items =>
    cases hf : f.type <;> simp only [encodeField, hf, reduceCtorEq] at h
    obtain rfl := Option.some.inj h
    refine ⟨.arr items, ?_, fun _ => rfl, fun text hd => absurd hd (by simp)⟩
    have hload : loadJson .postgresql (storeJson .postgresql (.arr items)) = some (.arr items) := by
      rw [loadJson_storeJson_postgresql hv, read_of_kept (kept_of_matchesType htype fun x hx => absurd hx (by simp)),
        Option.bind_some, freezeValue_thawJson hv]
    simp only [columnValue, decodeField, hf, hload]
  | obj entries =>
    cases hf : f.type <;> simp [encodeField, hf] at h

/-- The column of a field, as its row has it. -/
theorem Normalised.cellOf_eq {b : StorageBackend} (h : Normalised s entityName e fields)
    (hcells : encodeFields b e fields = some cells) (hf : f ∈ e.domainFields) :
    ∃ c, encodeField b f (fieldValue fields f) = some c ∧ cellOf cells f.name = columnValue b c := by
  obtain ⟨c, hc, hlookup⟩ := lookup_collect hcells h.nodup hf
  obtain ⟨c', hc', rfl⟩ := Option.map_eq_some_iff.1 hc
  exact ⟨c', hc', by rw [cellOf, hlookup, Option.getD_some]⟩

/-- A field's column read again. -/
theorem Normalised.decodeField_cellOf (h : Normalised s entityName e fields)
    (hcells : encodeFields .postgresql e fields = some cells) (hf : f ∈ e.domainFields) :
    ∃ w, decodeField .postgresql f (cellOf cells f.name) = some w ∧
      (f.type ≠ .datetime → w = fieldValue fields f) ∧ ∀ text, f.type = .datetime →
        fieldValue fields f = .str text → ∃ t, parseDatetime text = some t ∧ w = .str (isoText t) := by
  obtain ⟨c, hc, hcell⟩ := h.cellOf_eq hcells hf
  obtain ⟨hget, hnormal⟩ := h.fieldValue_eq hf
  rw [hcell]
  exact decodeField_postgresql (validateJson_of_get? hget) (h.matchesType hf hget) hnormal hc

/-- **A row is read as the fields it was written from** just where every
datetime is spelled as the store spells it. -/
theorem Normalised.decodeFields_postgresql (h : Normalised s entityName e fields)
    (hcells : encodeFields .postgresql e fields = some cells) :
    decodeFields .postgresql s entityName cells = some fields ↔ AllSpelled e fields := by
  constructor
  · intro hdecode f hf htype text htext
    obtain ⟨o, ho, hnormal⟩ := Option.bind_eq_some_iff.1 hdecode
    obtain ⟨e', he', values, hvalues, hmapping, -⟩ := recordFields_eq_some.1 ho
    obtain rfl := Option.some.inj (h.entity.symm.trans he')
    obtain ⟨-, hvalue, -⟩ := get?_of_collect hvalues hmapping
    obtain ⟨w, hw, hget⟩ := hvalue f hf
    obtain ⟨w', hw', -, hspelled⟩ := h.decodeField_cellOf hcells hf
    obtain rfl := Option.some.inj (hw.symm.trans hw')
    obtain ⟨t, ht, rfl⟩ := hspelled text htype (by rw [fieldValue, htext, Option.getD_some])
    obtain ⟨e', he', hnormalised⟩ := normaliseFields_normalised hnormal
    obtain rfl := Option.some.inj (h.entity.symm.trans he'.entity)
    have hback := hnormalised f hf
    rw [fieldValue, hget, Option.getD_some, htext] at hback
    obtain hback : isoText t = text := PortableJson.str.inj (Option.some.inj hback)
    rw [Spelled, ht, Option.map_some, hback]
  · intro hspelled
    obtain ⟨values, hvalues, hmapping⟩ := h.collect_self
      (g := fun f => decodeField .postgresql f (cellOf cells f.name)) fun f hf => by
        obtain ⟨w, hw, hsame, hdatetime⟩ := h.decodeField_cellOf hcells hf
        rw [hw]
        by_cases htype : f.type = .datetime
        · obtain ⟨hget, -⟩ := h.fieldValue_eq hf
          rcases h.matchesType hf hget with hnull | hmatches
          · obtain ⟨c, hc, hcell⟩ := h.cellOf_eq hcells hf
            rw [hnull] at hc ⊢
            obtain rfl := Option.some.inj hc
            rw [hcell] at hw
            exact hw.symm
          · rw [htype] at hmatches
            cases hv : fieldValue fields f with
            | str text =>
              obtain ⟨t, ht, rfl⟩ := hdatetime text htype hv
              have htext := hspelled f hf htype text (by rw [hget, hv])
              rw [Spelled, ht, Option.map_some] at htext
              rw [Option.some.inj htext]
            | _ =>
              rw [hv] at hmatches
              exact absurd hmatches (by simp [Records.matchesType])
        · rw [hsame htype]
    rw [decodeFields, recordFields_eq_some.2 ⟨e, h.entity, values, hvalues, hmapping, h.valid⟩, Option.bind_some,
      h.normaliseFields_self]

/-! ## The documents -/

/-- The object that `json.loads` has returned, frozen. -/
def freezeObject (raw : PyVal) : Option FrozenJsonObject :=
  match freezeValue raw with
  | some (.obj entries) => FrozenJsonObject.ofEntries entries
  | _ => none

/-- The fields of a document: `validate_create` and `_normalise`. -/
def readFields (s : RecordSpecification) (entityName : String) (raw : PyVal) : Option FrozenJsonObject :=
  (freezeObject raw).bind (acceptFields s entityName)

/-- Every number is kept by `jsonb`. -/
def AllKept (e : RecordEntity) (o : FrozenJsonObject) : Prop :=
  ∀ f ∈ e.domainFields, ∀ x, o.get? f.name = some (.float x) → Kept (.float x)

theorem keptEntries_of_forall : ∀ {entries : List (String × PortableJson)}, (∀ p ∈ entries, Kept p.2) →
    KeptEntries entries
  | [], _ => trivial
  | p :: _, h => ⟨h p List.mem_cons_self, keptEntries_of_forall fun q hq => h q (List.mem_cons_of_mem _ hq)⟩

/-- The entries that are frozen are those that were printed, each as it is read. -/
theorem mem_freezeNamed : ∀ {entries : List (String × PortableJson)} {d : List (PyStr × PyVal)}
    {es : List (String × PortableJson)}, jsonbStyle.readEntries entries = some d → freezeNamed d = some es →
    ∀ n v, (n, v) ∈ entries → ∃ w v', jsonbStyle.read v = some w ∧ freezeValue w = some v' ∧ (n, v') ∈ es
  | [], _, _, _, _, _, _, hmem => absurd hmem List.not_mem_nil
  | (name, u) :: rest, d, es, hread, hfreeze, n, v, hmem => by
    rw [JsonStyle.readEntries] at hread
    split at hread
    · rename_i w d' hw hd
      obtain rfl := Option.some.inj hread
      rw [freezeNamed, requireScalarText_pyStr] at hfreeze
      split at hfreeze
      · rename_i name' v' es' hname hv' hes
        obtain rfl := Option.some.inj hname
        obtain rfl := Option.some.inj hfreeze
        rcases List.mem_cons.1 hmem with heq | hmem
        · obtain ⟨rfl, rfl⟩ := Prod.mk.inj heq
          exact ⟨w, v', hw, hv', List.mem_cons_self⟩
        · obtain ⟨w₁, v₁, hread₁, hfreeze₁, hmem₁⟩ := mem_freezeNamed hd hes n v hmem
          exact ⟨w₁, v₁, hread₁, hfreeze₁, List.mem_cons_of_mem _ hmem₁⟩
      · exact absurd hfreeze (by simp)
    · exact absurd hread (by simp)

/-- A value of the object, as it comes back from `jsonb`. -/
theorem get?_freezeObject {o : FrozenJsonObject} {raw : PyVal} (hread : jsonbStyle.read fields.value = some raw)
    (ho : freezeObject raw = some o) {n : String} (hget : fields.get? n = some v) :
    ∃ w v', jsonbStyle.read v = some w ∧ freezeValue w = some v' ∧ o.get? n = some v' := by
  obtain ⟨d, hd, rfl⟩ := Option.map_eq_some_iff.1 hread
  rw [freezeObject, freezeValue] at ho
  cases hes : freezeNamed d with
  | none =>
    rw [hes] at ho
    exact absurd ho (by simp)
  | some es =>
    rw [hes] at ho
    have hentries : o.entries = es.insertionSort fun a b => a.1 ≤ b.1 := FrozenJsonObject.ofEntries_eq_some.1 ho
    obtain ⟨w, v', hw, hv', hmem⟩ :=
      mem_freezeNamed hd hes n v ((lookup_eq_some_iff_mem fields.nodup_names).1 hget)
    refine ⟨w, v', hw, hv', (lookup_eq_some_iff_mem o.nodup_names).2 ?_⟩
    rw [hentries]
    exact (List.perm_insertionSort _ es).mem_iff.2 hmem

/-- **A document's fields are read as they were** just where `jsonb` keeps every number. -/
theorem Normalised.readFields_iff (h : Normalised s entityName e fields) :
    (jsonbStyle.read fields.value).bind (readFields s entityName) = some fields ↔ AllKept e fields := by
  constructor
  · intro hfields f hf x hx
    obtain ⟨raw, hraw, hfields⟩ := Option.bind_eq_some_iff.1 hfields
    obtain ⟨o, ho, haccept⟩ := Option.bind_eq_some_iff.1 hfields
    obtain ⟨w, v', hw, hv', hget⟩ := get?_freezeObject hraw ho hx
    unfold acceptFields at haccept
    split_ifs at haccept
    obtain ⟨e', he', hnormalised⟩ := normaliseFields_normalised haccept
    obtain rfl := Option.some.inj (h.entity.symm.trans he'.entity)
    have hback := hnormalised f hf
    rw [fieldValue, hget, Option.getD_some, hx] at hback
    have htype : f.type = .number := by
      rcases h.matchesType hf hx with hnull | hmatches
      · exact absurd hnull (by simp)
      · cases htype : f.type <;> rw [htype] at hmatches <;> first
          | rfl
          | exact absurd hmatches (by simp [Records.matchesType])
    by_cases hsmall : Below1e16 x
    · have hread := numberValue_jsonbLiteral hsmall
      obtain rfl : .float (unsignedZero x).1 = w := Option.some.inj (hread.symm.trans hw)
      rw [freezeValue, dif_pos (unsignedZero x).2] at hv'
      obtain rfl := Option.some.inj hv'
      exact ⟨hsmall, PortableJson.float.inj (Option.some.inj hback)⟩
    · obtain ⟨i, rfl, hi⟩ := numberValue_jsonbLiteral_large hsmall hw
      rw [freezeValue] at hv'
      split_ifs at hv'
      obtain rfl := Option.some.inj hv'
      rw [normaliseValue, if_pos htype, if_neg hi] at hback
      exact absurd hback (by simp)
  · intro hkept
    have hentries : KeptEntries fields.entries := keptEntries_of_forall fun p hp => by
      obtain ⟨n, v⟩ := p
      obtain ⟨f, hf, rfl, hget⟩ := h.mem_entries hp
      exact kept_of_matchesType (h.matchesType hf hget) fun x hx => hx ▸ hkept f hf x (hx ▸ hget)
    have hread : jsonbStyle.read fields.value = some (thawJson fields.value) := read_of_kept (v := .obj _) hentries
    have hfreeze : freezeObject (thawJson fields.value) = some fields := by
      have hvalue : freezeValue (thawJson fields.value) = some (.obj fields.entries) := freezeValue_thawJson fields.frozen
      rw [freezeObject, hvalue]
      exact FrozenJsonObject.ofEntries_eq_some.2 rfl
    rw [hread, Option.bind_some, readFields, hfreeze, Option.bind_some, h.acceptFields_self]

end fields

/-! ## History -/

/-- `_snapshot`. -/
def readSnapshotFields (s : RecordSpecification) (entityName : String) :
    Option (List Char) → Option (Option FrozenJsonObject)
  | none => some none
  | some text => ((jsonLoads text).bind (readFields s entityName)).map some

/-- `_history_event`. -/
def historyEvent (s : RecordSpecification) (h : HistoryRow) : Option RecordHistoryEvent := do
  let before ← readSnapshotFields s h.entityName h.beforeJson
  let after ← readSnapshotFields s h.entityName h.afterJson
  if hvalid : isIdentifier h.entityName = true ∧ 1 ≤ h.recordVersion ∧ h.recordVersion ≤ MAX_REVISION ∧
      (h.eventKind = .create → before.isNone = true ∧ after.isSome = true) ∧
      (h.eventKind = .delete → before.isSome = true ∧ after.isNone = true) then
    some ⟨⟨h.entityName, hvalid.1⟩, h.recordId, ⟨h.recordVersion, hvalid.2.1⟩, h.eventKind, h.occurredAt, before,
      after, fun hkind => (hvalid.2.2.2.1 hkind).imp_left Option.isNone_iff_eq_none.1,
      fun hkind => (hvalid.2.2.2.2 hkind).imp_right Option.isNone_iff_eq_none.1⟩
  else none

/-! ## Results -/

/-- A name's value in what `json.loads` has returned. -/
def member (name : String) : PyVal → Option PyVal
  | .dict entries => entries.lookup (pyStr name)
  | _ => none

/-- `_string`. -/
def stringOf : PyVal → Option String
  | .str text => requireScalarText text
  | _ => none

/-- `_revision`. -/
def revisionOf : PyVal → Option ℕ
  | .int i => if 1 ≤ i ∧ i ≤ MAX_REVISION then some i.toNat else none
  | _ => none

/-- `_record_result`; the version is one of the column's. -/
def recordResult (v : RecordValue) : Option PortableJson :=
  if h : v.recordVersion.1 ≤ MAX_REVISION then
    some (.obj [("kind", .str "record"), ("record", .obj [
      ("created_at", .str (isoText v.createdAt)), ("created_via", .str v.createdVia.1),
      ("entity_name", .str v.entityName.1), ("fields", v.fields.value), ("id", .str v.recordId.text),
      ("record_version", .int ⟨v.recordVersion.1, by omega, by rw [MAX_REVISION] at h; omega⟩),
      ("updated_at", .str (isoText v.updatedAt))])])
  else none

/-- `_record_result_decode`. -/
def recordResultDecode (s : RecordSpecification) (text : List Char) : Option RecordValue := do
  let raw ← jsonLoads text
  let record ← member "record" raw
  let kind ← (member "kind" raw).bind stringOf
  let entityName ← (member "entity_name" record).bind stringOf
  let fields ← (member "fields" record).bind (readFields s entityName)
  let id ← ((member "id" record).bind stringOf).bind Uuid.ofText
  let version ← (member "record_version" record).bind revisionOf
  let createdAt ← ((member "created_at" record).bind stringOf).bind parseDatetime
  let updatedAt ← ((member "updated_at" record).bind stringOf).bind parseDatetime
  let createdVia ← (member "created_via" record).bind stringOf
  if kind = "record" then buildRecord entityName id version createdAt updatedAt createdVia fields else none

section results

variable {s : RecordSpecification} {v : RecordValue} {doc : PortableJson}

theorem distinct_value (o : FrozenJsonObject) : o.value.Distinct := distinct_of_validate o.frozen

theorem buildRecord_self (v : RecordValue) : buildRecord v.entityName.1 v.recordId v.recordVersion.1 v.createdAt
    v.updatedAt v.createdVia.1 v.fields = some v := by
  rw [buildRecord, dif_pos ⟨v.entityName.2, v.recordVersion.2, v.createdVia.2, v.ordered, v.domain⟩]

/-- The fields a snapshot is read as. -/
theorem readSnapshotFields_snapshot {entityName : String} (o : FrozenJsonObject) :
    readSnapshotFields s entityName (some (snapshot .postgresql o)) =
      ((jsonbStyle.read o.value).bind (readFields s entityName)).map some := by
  rw [readSnapshotFields, snapshot, storeJson, JsonStyle.jsonLoads_print (distinct_value o)]

/-- What a result's document is read as. -/
def rawResult (v : RecordValue) (raw : PyVal) : PyVal :=
  .dict [(pyStr "kind", .str (pyStr "record")), (pyStr "record", .dict [
    (pyStr "created_at", .str (pyStr (isoText v.createdAt))), (pyStr "created_via", .str (pyStr v.createdVia.1)),
    (pyStr "entity_name", .str (pyStr v.entityName.1)), (pyStr "fields", raw),
    (pyStr "id", .str (pyStr v.recordId.text)), (pyStr "record_version", .int v.recordVersion.1),
    (pyStr "updated_at", .str (pyStr (isoText v.updatedAt)))])]

theorem jsonLoads_recordResult (h : recordResult v = some doc) :
    jsonLoads (storeJson .postgresql doc) = (jsonbStyle.read v.fields.value).map (rawResult v) := by
  unfold recordResult at h
  split_ifs at h
  obtain rfl := Option.some.inj h
  rw [storeJson, JsonStyle.jsonLoads_print]
  · cases hraw : jsonbStyle.read v.fields.value <;>
      simp [JsonStyle.read, JsonStyle.readEntries, hraw, rawResult]
  · simp [PortableJson.Distinct, PortableJson.DistinctEntries, distinct_value]

theorem member_cons {name name' : String} {w : PyVal} {rest : List (PyStr × PyVal)} :
    member name (.dict ((pyStr name', w) :: rest)) = if name = name' then some w else member name (.dict rest) := by
  by_cases hname : name = name'
  · rw [if_pos hname, hname, member, List.lookup_cons_self]
  · have hne : (pyStr name == pyStr name') = false := by simpa using fun h => hname (pyStr_injective h)
    rw [if_neg hname, member, member, List.lookup_cons, hne]

theorem revisionOf_version (h : recordResult v = some doc) :
    revisionOf (.int v.recordVersion.1) = some v.recordVersion.1 := by
  unfold recordResult at h
  split_ifs at h with hle
  have hpos := v.recordVersion.2
  rw [revisionOf, if_pos (by omega), Int.toNat_natCast]

/-- **A result is read as the record** just where its fields are. -/
theorem recordResultDecode_iff (h : recordResult v = some doc) :
    recordResultDecode s (storeJson .postgresql doc) = some v ↔
      (jsonbStyle.read v.fields.value).bind (readFields s v.entityName.1) = some v.fields := by
  have hversion := revisionOf_version h
  have hdecode : recordResultDecode s (storeJson .postgresql doc) =
      ((jsonbStyle.read v.fields.value).bind (readFields s v.entityName.1)).bind
        (buildRecord v.entityName.1 v.recordId v.recordVersion.1 v.createdAt v.updatedAt v.createdVia.1) := by
    rw [recordResultDecode, jsonLoads_recordResult h]
    cases jsonbStyle.read v.fields.value with
    | none => rfl
    | some raw =>
      simp only [Option.map_some, Option.bind_eq_bind, Option.bind_some, rawResult, member_cons, stringOf,
        requireScalarText_pyStr, parseDatetime_isoText, Uuid.ofText_text, hversion, reduceIte,
        String.reduceEq]
  rw [hdecode]
  constructor
  · intro hv
    obtain ⟨fields, hfields, hbuild⟩ := Option.bind_eq_some_iff.1 hv
    obtain ⟨-, -, -, -, -, -, rfl⟩ := buildRecord_eq_some hbuild
    exact hfields
  · intro hfields
    rw [hfields, Option.bind_some, buildRecord_self]

end results

end Data

end Aipcs

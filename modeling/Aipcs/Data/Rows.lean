import Aipcs.Data.Fields

/-!
# Data — a record's fields in its row

A row has a column for every domain field of its entity. Its fields are
read column by column, and normalised; a record's projection is its fields
by name, with nothing where a name has no column. A row represents a
projection when its columns are read as that projection says.
-/

namespace Aipcs

namespace Data

open Manifest Portable Relational Records Registry

/-! ## Field by field -/

section collect

variable {β : Type} {g : RecordField → Option β} {fields : List RecordField} {entries : List (String × β)}

/-- A value for every field, under its name. -/
def collect (g : RecordField → Option β) : List RecordField → Option (List (String × β))
  | [] => some []
  | f :: rest =>
    match g f, collect g rest with
    | some v, some entries => some ((f.name, v) :: entries)
    | _, _ => none

theorem collect_names (h : collect g fields = some entries) : entries.map Prod.fst = fields.map (·.name) := by
  induction fields generalizing entries with
  | nil =>
    obtain rfl := Option.some.inj h
    rfl
  | cons f rest ih =>
    rw [collect] at h
    split at h
    · rename_i v es _ hes
      obtain rfl := Option.some.inj h
      rw [List.map_cons, List.map_cons, ih hes]
    · exact absurd h (by simp)

/-- The value under a field's name is the field's. -/
theorem mem_collect (h : collect g fields = some entries) {f : RecordField} (hf : f ∈ fields) :
    ∃ v, g f = some v ∧ (f.name, v) ∈ entries := by
  induction fields generalizing entries with
  | nil => exact absurd hf List.not_mem_nil
  | cons f' rest ih =>
    rw [collect] at h
    split at h
    · rename_i v es hv hes
      obtain rfl := Option.some.inj h
      rcases List.mem_cons.1 hf with rfl | hf
      · exact ⟨v, hv, List.mem_cons_self⟩
      · obtain ⟨w, hw, hmem⟩ := ih hes hf
        exact ⟨w, hw, List.mem_cons_of_mem _ hmem⟩
    · exact absurd h (by simp)

theorem collect_congr {g' : RecordField → Option β} (h : ∀ f ∈ fields, g f = g' f) :
    collect g fields = collect g' fields := by
  induction fields with
  | nil => rfl
  | cons f rest ih =>
    rw [collect, collect, h f List.mem_cons_self, ih fun f' hf' => h f' (List.mem_cons_of_mem _ hf')]

/-- Where every field has a value there is one for each. -/
theorem collect_isSome (h : ∀ f ∈ fields, (g f).isSome = true) : ∃ entries, collect g fields = some entries := by
  induction fields with
  | nil => exact ⟨[], rfl⟩
  | cons f rest ih =>
    obtain ⟨v, hv⟩ := Option.isSome_iff_exists.1 (h f List.mem_cons_self)
    obtain ⟨es, hes⟩ := ih fun f' hf' => h f' (List.mem_cons_of_mem _ hf')
    exact ⟨(f.name, v) :: es, by rw [collect, hv, hes]⟩

/-- Where no two fields have one name, a name's value is its field's. -/
theorem lookup_collect (h : collect g fields = some entries) (hnodup : (fields.map (·.name)).Nodup)
    {f : RecordField} (hf : f ∈ fields) : ∃ v, g f = some v ∧ entries.lookup f.name = some v := by
  obtain ⟨v, hv, hmem⟩ := mem_collect h hf
  rw [← collect_names h] at hnodup
  exact ⟨v, hv, (lookup_eq_some_iff_mem hnodup).2 hmem⟩

theorem lookup_collect_eq_none (h : collect g fields = some entries) {n : String}
    (hn : n ∉ fields.map (·.name)) : entries.lookup n = none := by
  rw [← collect_names h] at hn
  refine List.lookup_eq_none_iff.2 fun p hp => ?_
  have hne : n ≠ p.1 := fun heq => hn (heq ▸ List.mem_map_of_mem hp)
  simpa using hne

end collect

/-! ## Records' fields -/

/-- A field's value in an object, nothing where it has none. -/
def fieldValue (o : FrozenJsonObject) (f : RecordField) : PortableJson := (o.get? f.name).getD .null

/-- `_normalise_fields` and `_normalise`. -/
def normaliseFields (s : RecordSpecification) (entityName : String) (o : FrozenJsonObject) :
    Option FrozenJsonObject := do
  let e ← s.entity entityName
  let complete ← collect (fun f => normaliseValue f (fieldValue o f)) e.domainFields
  let fields ← FrozenJsonObject.fromMapping complete
  if validateCreate s entityName fields then some fields else none

/-- The columns of a record's fields. -/
def encodeFields (b : StorageBackend) (e : RecordEntity) (o : FrozenJsonObject) :
    Option (List (String × SqlValue)) :=
  collect (fun f => (encodeField b f (fieldValue o f)).map (columnValue b)) e.domainFields

/-- A column's value; a column that has been added since has none. -/
def cellOf (cells : List (String × SqlValue)) (name : String) : SqlValue := (cells.lookup name).getD .null

/-- `_record_fields`: the fields of a row, checked. -/
def recordFields (b : StorageBackend) (s : RecordSpecification) (entityName : String)
    (cells : List (String × SqlValue)) : Option FrozenJsonObject := do
  let e ← s.entity entityName
  let values ← collect (fun f => decodeField b f (cellOf cells f.name)) e.domainFields
  let fields ← FrozenJsonObject.fromMapping values
  if validateCreate s entityName fields then some fields else none

/-- The fields of `_decode_record` and `_record`: those of the row, normalised. -/
def decodeFields (b : StorageBackend) (s : RecordSpecification) (entityName : String)
    (cells : List (String × SqlValue)) : Option FrozenJsonObject :=
  (recordFields b s entityName cells).bind (normaliseFields s entityName)

theorem fromMapping_eq_some {entries : List (String × PortableJson)} {o : FrozenJsonObject}
    (h : FrozenJsonObject.fromMapping entries = some o) :
    (entries.map Prod.fst).Nodup ∧ ∀ n, o.get? n = entries.lookup n := by
  have hentries := FrozenJsonObject.ofEntries_eq_some.1 h
  have hperm : o.entries.Perm entries := hentries ▸ List.perm_insertionSort _ entries
  exact ⟨((hperm.map Prod.fst).nodup_iff).1 o.nodup_names, fun n => lookup_perm hperm o.nodup_names n⟩

/-- An object collected from the fields of an entity has their values. -/
theorem get?_of_collect {g : RecordField → Option PortableJson} {fields : List RecordField}
    {entries : List (String × PortableJson)} {o : FrozenJsonObject} (h : collect g fields = some entries)
    (ho : FrozenJsonObject.fromMapping entries = some o) :
    (fields.map (·.name)).Nodup ∧ (∀ f ∈ fields, ∃ v, g f = some v ∧ o.get? f.name = some v) ∧
      ∀ n, n ∉ fields.map (·.name) → o.get? n = none := by
  obtain ⟨hnodup, hget⟩ := fromMapping_eq_some ho
  rw [collect_names h] at hnodup
  refine ⟨hnodup, fun f hf => ?_, fun n hn => ?_⟩
  · rw [hget]
    exact lookup_collect h hnodup hf
  · rw [hget]
    exact lookup_collect_eq_none h hn

/-! ## Projections -/

/-- A record's fields by name. -/
abbrev Projection : Type := String → PortableJson

/-- The projection of an object, up to the signs of zeros. -/
def projection (o : FrozenJsonObject) : Projection := fun n => plainValue ((o.get? n).getD .null)

/-- The row's columns are read as the projection says, which has nothing
under other names. -/
structure Represents (b : StorageBackend) (e : RecordEntity) (cells : List (String × SqlValue))
    (p : Projection) : Prop where
  columns : ∀ f ∈ e.domainFields, ∃ w, decodeField b f (cellOf cells f.name) = some w ∧ plainValue w = p f.name
  others : ∀ n, n ∉ e.domainFields.map (·.name) → cells.lookup n = none ∧ p n = .null

section fields

variable {s : RecordSpecification} {entityName : String} {o fields : FrozenJsonObject} {e : RecordEntity}
  {b : StorageBackend} {cells : List (String × SqlValue)} {p : Projection}

theorem normaliseFields_eq_some : normaliseFields s entityName o = some fields ↔
    ∃ e, s.entity entityName = some e ∧
      ∃ complete, collect (fun f => normaliseValue f (fieldValue o f)) e.domainFields = some complete ∧
        FrozenJsonObject.fromMapping complete = some fields ∧ validateCreate s entityName fields = true := by
  simp only [normaliseFields, Option.bind_eq_bind, Option.bind_eq_some_iff, Option.ite_none_right_eq_some,
    Option.some.injEq]
  constructor
  · rintro ⟨e, he, complete, hcomplete, x, hx, hvalid, rfl⟩
    exact ⟨e, he, complete, hcomplete, hx, hvalid⟩
  · rintro ⟨e, he, complete, hcomplete, hx, hvalid⟩
    exact ⟨e, he, complete, hcomplete, fields, hx, hvalid, rfl⟩

theorem recordFields_eq_some : recordFields b s entityName cells = some fields ↔
    ∃ e, s.entity entityName = some e ∧
      ∃ values, collect (fun f => decodeField b f (cellOf cells f.name)) e.domainFields = some values ∧
        FrozenJsonObject.fromMapping values = some fields ∧ validateCreate s entityName fields = true := by
  simp only [recordFields, Option.bind_eq_bind, Option.bind_eq_some_iff, Option.ite_none_right_eq_some,
    Option.some.injEq]
  constructor
  · rintro ⟨e, he, values, hvalues, x, hx, hvalid, rfl⟩
    exact ⟨e, he, values, hvalues, hx, hvalid⟩
  · rintro ⟨e, he, values, hvalues, hx, hvalid⟩
    exact ⟨e, he, values, hvalues, fields, hx, hvalid, rfl⟩

/-- The fields are those of the entity, each with a normalised value. -/
structure Normalised (s : RecordSpecification) (entityName : String) (e : RecordEntity)
    (fields : FrozenJsonObject) : Prop where
  entity : s.entity entityName = some e
  nodup : (e.domainFields.map (·.name)).Nodup
  value : ∀ f ∈ e.domainFields, ∃ v, fields.get? f.name = some v ∧ Normal f v
  others : ∀ n, n ∉ e.domainFields.map (·.name) → fields.get? n = none
  valid : validateCreate s entityName fields = true

/-- **What normalising gives.** -/
theorem normaliseFields_normalised (h : normaliseFields s entityName o = some fields) :
    ∃ e, Normalised s entityName e fields ∧
      ∀ f ∈ e.domainFields, normaliseValue f (fieldValue o f) = fields.get? f.name := by
  obtain ⟨e, he, complete, hcomplete, hfields, hvalid⟩ := normaliseFields_eq_some.1 h
  obtain ⟨hnodup, hvalue, hothers⟩ := get?_of_collect hcomplete hfields
  refine ⟨e, ⟨he, hnodup, fun f hf => ?_, hothers, hvalid⟩, fun f hf => ?_⟩
  · obtain ⟨v, hv, hget⟩ := hvalue f hf
    exact ⟨v, hget, normal_normaliseValue hv⟩
  · obtain ⟨v, hv, hget⟩ := hvalue f hf
    rw [hv, hget]

namespace Normalised

variable (h : Normalised s entityName e fields)

include h

theorem fieldValue_eq {f : RecordField} (hf : f ∈ e.domainFields) :
    fields.get? f.name = some (fieldValue fields f) ∧ Normal f (fieldValue fields f) := by
  obtain ⟨v, hv, hn⟩ := h.value f hf
  rw [fieldValue, hv]
  exact ⟨rfl, hn⟩

theorem projection_of_not_mem {n : String} (hn : n ∉ e.domainFields.map (·.name)) :
    projection fields n = .null := by
  rw [projection, h.others n hn]
  rfl

/-- A row of the fields' columns represents their projection, where each
column gives its value back up to the sign of a zero. -/
theorem represents (hcells : encodeFields b e fields = some cells)
    (hcolumn : ∀ f ∈ e.domainFields, ∀ c, encodeField b f (fieldValue fields f) = some c →
      ∃ w, decodeField b f (columnValue b c) = some w ∧ plainValue w = plainValue (fieldValue fields f)) :
    Represents b e cells (projection fields) where
  columns f hf := by
    obtain ⟨c, hc, hlookup⟩ := lookup_collect hcells h.nodup hf
    obtain ⟨c', hc', rfl⟩ := Option.map_eq_some_iff.1 hc
    obtain ⟨w, hw, hplain⟩ := hcolumn f hf c' hc'
    refine ⟨w, by rw [cellOf, hlookup]; exact hw, ?_⟩
    rw [hplain, projection, fieldValue]
  others _ hn := ⟨lookup_collect_eq_none hcells hn, h.projection_of_not_mem hn⟩

end Normalised

/-- A value of an object is valid JSON. -/
theorem validateJson_of_get? {n : String} {v : PortableJson} (h : o.get? n = some v) : validateJson v = true := by
  have hall : ∀ (entries : List (String × PortableJson)), validateEntries entries = true →
      ∀ p ∈ entries, validateJson p.2 = true := by
    intro entries
    induction entries with
    | nil => exact fun _ p hp => absurd hp List.not_mem_nil
    | cons q rest ih =>
      intro hq p hp
      rw [validateEntries, Bool.and_eq_true] at hq
      rcases List.mem_cons.1 hp with rfl | hp
      · exact hq.1
      · exact ih hq.2 p hp
  have hfrozen := o.frozen
  rw [validateJson, Bool.and_eq_true, Bool.and_eq_true] at hfrozen
  exact hall _ hfrozen.1.2 _ ((lookup_eq_some_iff_mem o.nodup_names).1 h)

/-- **SQLite's row represents the fields it is written from.** -/
theorem Normalised.represents_sqlite (h : Normalised s entityName e fields)
    (hcells : encodeFields .sqlite e fields = some cells) :
    Represents .sqlite e cells (projection fields) :=
  h.represents hcells fun _ hf _ hc =>
    decodeField_sqlite (validateJson_of_get? (h.fieldValue_eq hf).1) (h.fieldValue_eq hf).2 hc

theorem Represents.recordFields (h : Represents b e cells p) (he : s.entity entityName = some e)
    (hfields : recordFields b s entityName cells = some fields) : projection fields = p := by
  obtain ⟨e', he', values, hvalues, hmapping, -⟩ := recordFields_eq_some.1 hfields
  obtain rfl := Option.some.inj (he.symm.trans he')
  obtain ⟨-, hvalue, hothers⟩ := get?_of_collect hvalues hmapping
  funext n
  by_cases hn : n ∈ e.domainFields.map (·.name)
  · obtain ⟨f, hf, rfl⟩ := List.mem_map.1 hn
    obtain ⟨v, hv, hget⟩ := hvalue f hf
    obtain ⟨w, hw, hplain⟩ := h.columns f hf
    obtain rfl := Option.some.inj (hv.symm.trans hw)
    rw [projection, hget]
    exact hplain
  · rw [projection, hothers n hn, (h.others n hn).2]
    rfl

/-- A number's column is read as a float. -/
theorem normal_decodeField {f : RecordField} {c : SqlValue} {v : PortableJson}
    (h : decodeField b f c = some v) : Normal f v := by
  intro hf i hv
  subst hv
  cases c <;> simp only [decodeField, hf, reduceCtorEq] at h
  case null => exact absurd (Option.some.inj h) (by simp)
  case integer j =>
    split_ifs at h
    obtain ⟨x, -, hx⟩ := Option.map_eq_some_iff.1 h
    exact absurd hx (by simp)
  case real x => exact absurd (Option.some.inj h) (by simp)

/-- Normalising leaves fields that are normalised already. -/
theorem normaliseFields_projection (ho : ∀ e, s.entity entityName = some e →
      ∀ f ∈ e.domainFields, Normal f (fieldValue o f)) (hothers : ∀ e, s.entity entityName = some e →
      ∀ n, n ∉ e.domainFields.map (·.name) → o.get? n = none)
    (h : normaliseFields s entityName o = some fields) : projection fields = projection o := by
  obtain ⟨e, he, hvalue⟩ := normaliseFields_normalised h
  funext n
  by_cases hn : n ∈ e.domainFields.map (·.name)
  · obtain ⟨f, hf, rfl⟩ := List.mem_map.1 hn
    rw [projection, ← hvalue f hf, normaliseValue_of_normal (ho e he.entity f hf), Option.getD_some,
      projection, fieldValue]
  · rw [he.projection_of_not_mem hn, projection, hothers e he.entity n hn]
    rfl

/-- **What a row is read as has the projection it represents.** -/
theorem Represents.decodeFields (h : Represents b e cells p) (he : s.entity entityName = some e)
    (hfields : decodeFields b s entityName cells = some fields) : projection fields = p := by
  obtain ⟨o, ho, hnormal⟩ := Option.bind_eq_some_iff.1 hfields
  obtain ⟨e', he', values, hvalues, hmapping, -⟩ := recordFields_eq_some.1 ho
  obtain rfl := Option.some.inj (he.symm.trans he')
  obtain ⟨-, hvalue, hothers⟩ := get?_of_collect hvalues hmapping
  refine (normaliseFields_projection (fun e₁ he₁ f hf => ?_) (fun e₁ he₁ n hn => ?_) hnormal).trans
    (h.recordFields he ho)
  · obtain rfl := Option.some.inj (he.symm.trans he₁)
    obtain ⟨v, hv, hget⟩ := hvalue f hf
    rw [fieldValue, hget]
    exact normal_decodeField hv
  · obtain rfl := Option.some.inj (he.symm.trans he₁)
    exact hothers n hn

end fields

end Data

end Aipcs

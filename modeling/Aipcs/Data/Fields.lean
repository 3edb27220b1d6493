import Aipcs.Common.Table
import Aipcs.Data.Jsonb
import Aipcs.Records.Value

/-!
# Data — fields and documents as the two stores keep them

A record's fields are kept twice: each in a column of its own, and all
together in the JSON documents of the history and of the replays. SQLite
keeps datetimes and ids as text and documents as they are printed;
PostgreSQL has types of its own for them, and `jsonb`.
-/

namespace Aipcs

namespace Data

open Manifest Portable Relational Records Registry

/-! ## Documents -/

mutual

/-- `_freeze_json`, of what `json.loads` returns. -/
def freezeValue : PyVal → Option PortableJson
  | .none => some .null
  | .bool b => some (.bool b)
  | .int i => if h : -2 ^ 63 ≤ i ∧ i ≤ 2 ^ 63 - 1 then some (.int ⟨i, h⟩) else none
  | .float x => if h : x.Finite then some (.float ⟨x, h⟩) else none
  | .str s => (requireScalarText s).map .str
  | .seq items => (freezeValues items).map .arr
  | .dict entries => (freezeNamed entries).map fun es => .obj (es.insertionSort fun a b => a.1 ≤ b.1)
  | .portable _ => none
  | .unsupported => none

def freezeValues : List PyVal → Option (List PortableJson)
  | [] => some []
  | v :: rest =>
    match freezeValue v, freezeValues rest with
    | some v, some rest => some (v :: rest)
    | _, _ => none

def freezeNamed : List (PyStr × PyVal) → Option (List (String × PortableJson))
  | [] => some []
  | (name, v) :: rest =>
    match requireScalarText name, freezeValue v, freezeNamed rest with
    | some name, some v, some rest => some ((name, v) :: rest)
    | _, _, _ => none

end

mutual

/-- A valid value's objects have distinct names. -/
theorem distinct_of_validate : ∀ {v : PortableJson}, validateJson v = true → v.Distinct
  | .null, _ => trivial
  | .bool _, _ => trivial
  | .int _, _ => trivial
  | .float _, _ => trivial
  | .str _, _ => trivial
  | .arr items, h => distinct_of_validateItems (show validateItems items = true by simpa [validateJson] using h)
  | .obj entries, h => by
    rw [validateJson, Bool.and_eq_true, Bool.and_eq_true, frozenNames, Bool.and_eq_true,
      decide_eq_true_eq] at h
    exact ⟨h.1.1.2.imp fun hlt => ne_of_lt hlt, distinct_of_validateEntries h.1.2⟩

theorem distinct_of_validateItems : ∀ {items : List PortableJson}, validateItems items = true →
    PortableJson.DistinctItems items
  | [], _ => trivial
  | v :: rest, h => by
    rw [validateItems, Bool.and_eq_true] at h
    exact ⟨distinct_of_validate h.1, distinct_of_validateItems h.2⟩

theorem distinct_of_validateEntries : ∀ {entries : List (String × PortableJson)},
    validateEntries entries = true → PortableJson.DistinctEntries entries
  | [], _ => trivial
  | (_, v) :: rest, h => by
    rw [validateEntries, Bool.and_eq_true] at h
    exact ⟨distinct_of_validate h.1, distinct_of_validateEntries h.2⟩

end

mutual

/-- **A valid value is frozen as it is.** -/
theorem freezeValue_thawJson : ∀ {v : PortableJson}, validateJson v = true → freezeValue (thawJson v) = some v
  | .null, _ => rfl
  | .bool _, _ => rfl
  | .int i, _ => dif_pos i.2
  | .float x, _ => dif_pos x.2
  | .str s, _ => by rw [thawJson, freezeValue, requireScalarText_pyStr, Option.map_some]
  | .arr items, h => by
    rw [thawJson, freezeValue,
      freezeValues_thawItems (show validateItems items = true by simpa [validateJson] using h), Option.map_some]
  | .obj entries, h => by
    rw [validateJson, Bool.and_eq_true, Bool.and_eq_true, frozenNames, Bool.and_eq_true,
      decide_eq_true_eq] at h
    rw [thawJson, freezeValue, freezeNamed_thawEntries h.1.2, Option.map_some,
      List.Pairwise.insertionSort_eq ((List.pairwise_map.1 h.1.1.2).imp le_of_lt)]

theorem freezeValues_thawItems : ∀ {items : List PortableJson}, validateItems items = true →
    freezeValues (thawItems items) = some items
  | [], _ => rfl
  | v :: rest, h => by
    rw [validateItems, Bool.and_eq_true] at h
    rw [thawItems, freezeValues, freezeValue_thawJson h.1, freezeValues_thawItems h.2]

theorem freezeNamed_thawEntries : ∀ {entries : List (String × PortableJson)}, validateEntries entries = true →
    freezeNamed (thawEntries entries) = some entries
  | [], _ => rfl
  | (name, v) :: rest, h => by
    rw [validateEntries, Bool.and_eq_true] at h
    rw [thawEntries, freezeNamed, requireScalarText_pyStr, freezeValue_thawJson h.1,
      freezeNamed_thawEntries h.2]

end

/-- The document as the column gives it back. -/
def storeJson (b : StorageBackend) (v : PortableJson) : List Char :=
  match b with
  | .sqlite => dumps v
  | .postgresql => jsonbStyle.print v

/-- The document read; SQLite's `_decode_canonical_json` asks that it is
printed as it stands. -/
def loadJson (b : StorageBackend) (text : List Char) : Option PortableJson :=
  ((jsonLoads text).bind freezeValue).filter fun v => b = .postgresql || decide (dumps v = text)

/-- **SQLite gives back the document that was stored.** -/
theorem loadJson_storeJson_sqlite {v : PortableJson} (h : validateJson v = true) :
    loadJson .sqlite (storeJson .sqlite v) = some v := by
  rw [loadJson, storeJson, jsonLoads_dumps (distinct_of_validate h), Option.bind_some,
    freezeValue_thawJson h, Option.filter_some, if_pos (by simp)]

theorem loadJson_postgresql (text : List Char) :
    loadJson .postgresql text = (jsonLoads text).bind freezeValue := by
  rw [loadJson]
  cases (jsonLoads text).bind freezeValue with
  | none => rfl
  | some v => rw [Option.filter_some, if_pos (by simp)]

/-- What PostgreSQL gives back is what the document's text is read as. -/
theorem loadJson_storeJson_postgresql {v : PortableJson} (h : validateJson v = true) :
    loadJson .postgresql (storeJson .postgresql v) = (jsonbStyle.read v).bind freezeValue := by
  rw [loadJson_postgresql, storeJson, JsonStyle.jsonLoads_print (distinct_of_validate h)]

/-! ## Columns -/

/-- A value in a column; one of a JSON column is the text it is read from. -/
inductive SqlValue where
  | null
  | integer (i : Signed64)
  | real (x : FiniteFloat)
  | text (s : String)
  | boolean (b : Bool)
  | uuid (u : Uuid)
  | timestamp (t : Instant)
  | json (text : List Char)

/-- `float(value)` of an integer. -/
def toFloat (i : ℤ) : Option FiniteFloat :=
  let x := Binary64.ofSignedDecimal (decide (i < 0)) i.natAbs 0
  if h : x.Finite then some ⟨x, h⟩ else none

/-- `isoformat().replace("+00:00", "Z")`. -/
def isoText (t : Instant) : String :=
  if t.micros % 1000000 = 0 then String.ofList (t.chars.take 19 ++ ['Z']) else t.text

/-- `_encode_field` and `_encode`, cast to the type of the column. -/
def encodeField (b : StorageBackend) (f : RecordField) : PortableJson → Option SqlValue
  | .null => some .null
  | v =>
    match f.type, v with
    | .boolean, .bool x => some (if b = .sqlite then .integer (if x then ⟨1, by omega⟩ else ⟨0, by omega⟩) else .boolean x)
    | .integer, .int i => some (.integer i)
    | .number, .int i => if isExactInteger i.1 then (toFloat i.1).map .real else none
    | .number, .float x => some (.real x)
    | .string, .str s => some (.text s)
    | .datetime, .str s => if b = .sqlite then some (.text s) else (parseDatetime s).map .timestamp
    | .uuid, .str s => if b = .sqlite then some (.text s) else (Uuid.ofText s).map .uuid
    | .stringList, .arr items => some (.json (storeJson b (.arr items)))
    | _, _ => none

/-- A value as its column keeps it: SQLite writes an integral `REAL` as an
integer, and with it loses the sign of a zero. -/
def columnValue (b : StorageBackend) : SqlValue → SqlValue
  | .real x => .real (if b = .sqlite then unsignedZero x else x)
  | c => c

/-- `_decode_field` and `_decode`. -/
def decodeField (b : StorageBackend) (f : RecordField) : SqlValue → Option PortableJson
  | .null => some .null
  | c =>
    match f.type, c with
    | .boolean, .boolean x => if b = .postgresql then some (.bool x) else none
    | .boolean, .integer i =>
      if b = .sqlite ∧ i.1 = 0 then some (.bool false)
      else if b = .sqlite ∧ i.1 = 1 then some (.bool true) else none
    | .integer, .integer i => some (.int i)
    | .number, .integer i => if isExactInteger i.1 then (toFloat i.1).map .float else none
    | .number, .real x => some (.float x)
    | .string, .text s => some (.str s)
    | .datetime, .text s => if b = .sqlite then some (.str s) else none
    | .datetime, .timestamp t => if b = .postgresql then some (.str (isoText t)) else none
    | .uuid, .text s => if b = .sqlite then some (.str s) else none
    | .uuid, .uuid u => if b = .postgresql then some (.str u.text) else none
    | .stringList, .json text =>
      match loadJson b text with
      | some (.arr items) => some (.arr items)
      | _ => none
    | _, _ => none

/-- What a field's value is normalised to: numbers are floats. -/
def normaliseValue (f : RecordField) : PortableJson → Option PortableJson
  | .int i => if f.type = .number then if isExactInteger i.1 then (toFloat i.1).map .float else none else some (.int i)
  | v => some v

/-- The value is normalised: no number is an integer. -/
def Normal (f : RecordField) (v : PortableJson) : Prop := f.type = .number → ∀ i, v ≠ .int i

theorem normal_normaliseValue {f : RecordField} {v w : PortableJson} (h : normaliseValue f v = some w) :
    Normal f w := by
  intro hf i hw
  subst hw
  cases v <;> simp only [normaliseValue, hf, if_true] at h
  case int j =>
    split_ifs at h
    obtain ⟨x, -, hx⟩ := Option.map_eq_some_iff.1 h
    exact absurd hx (by simp)
  all_goals exact absurd (Option.some.inj h) (by simp)

/-- **What is normalised stays.** -/
theorem normaliseValue_of_normal {f : RecordField} {v : PortableJson} (h : Normal f v) :
    normaliseValue f v = some v := by
  cases v with
  | int i =>
    have hf : f.type ≠ .number := fun hf => h hf i rfl
    exact if_neg hf
  | _ => rfl

/-! ## A value's way through its column -/

/-- A value up to the sign of a zero. -/
def plainValue : PortableJson → PortableJson
  | .float x => .float (unsignedZero x)
  | v => v

@[simp] theorem plainValue_idem (v : PortableJson) : plainValue (plainValue v) = plainValue v := by
  cases v <;> simp [plainValue]

section column

variable {f : RecordField} {v : PortableJson} {c : SqlValue}

/-- **SQLite's column gives a value back**, up to the sign of a zero. -/
theorem decodeField_sqlite (hv : validateJson v = true) (hn : Normal f v)
    (h : encodeField .sqlite f v = some c) :
    ∃ w, decodeField .sqlite f (columnValue .sqlite c) = some w ∧ plainValue w = plainValue v := by
  cases v with
  | null =>
    obtain rfl := Option.some.inj h
    exact ⟨.null, rfl, rfl⟩
  | bool x =>
    cases hf : f.type <;> simp only [encodeField, hf, reduceCtorEq] at h
    obtain rfl := Option.some.inj h
    cases x <;> exact ⟨_, by simp [columnValue, decodeField, hf], rfl⟩
  | int i =>
    cases hf : f.type <;> simp only [encodeField, hf, reduceCtorEq] at h
    · obtain rfl := Option.some.inj h
      exact ⟨.int i, by simp [columnValue, decodeField, hf], rfl⟩
    · exact absurd rfl (hn hf i)
  | float x =>
    cases hf : f.type <;> simp only [encodeField, hf, reduceCtorEq] at h
    obtain rfl := Option.some.inj h
    exact ⟨.float (unsignedZero x), by simp [columnValue, decodeField, hf], by simp [plainValue]⟩
  | str s =>
    cases hf : f.type <;> simp only [encodeField, hf, if_true, reduceCtorEq] at h <;>
      obtain rfl := Option.some.inj h <;>
      exact ⟨.str s, by simp [columnValue, decodeField, hf], rfl⟩
  | arr items =>
    cases hf : f.type <;> simp only [encodeField, hf, reduceCtorEq] at h
    obtain rfl := Option.some.inj h
    refine ⟨.arr items, ?_, rfl⟩
    simp only [columnValue, decodeField, hf, loadJson_storeJson_sqlite hv]
  | obj entries =>
    cases hf : f.type <;> simp [encodeField, hf] at h

end column

end Data

end Aipcs

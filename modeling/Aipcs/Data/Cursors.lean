import Aipcs.Common.Base64
import Aipcs.Data.Evidence
import Aipcs.Portable.Canonical

/-!
# Data — cursors

A page's cursor is the base64 of a JSON document that names the query it
belongs to and the place where its page ends. SQLite prints the document
with its version and asks what it reads to be its own dump; a branch
cursor is wrapped a second time. PostgreSQL prints two members and reads
any document that has them.
-/

namespace Aipcs

namespace Data

open Portable

/-! ## Page cursors -/

/-- `PageCursor`. -/
structure PageCursor where
  value : List Char
  bounds : value ≠ [] ∧ value.length ≤ 1024 ∧ Base64.AllDigits value
deriving DecidableEq

/-- `PageCursor(value)`. -/
def pageCursor (value : List Char) : Option PageCursor :=
  if h : value ≠ [] ∧ value.length ≤ 1024 ∧ Base64.AllDigits value then some ⟨value, h⟩ else none

theorem pageCursor_eq_some {value : List Char} {c : PageCursor} : pageCursor value = some c ↔ c.value = value := by
  unfold pageCursor
  constructor
  · intro h
    split_ifs at h
    exact (congrArg PageCursor.value (Option.some.inj h)).symm
  · rintro rfl
    exact dif_pos c.bounds

/-- A document's text as a cursor. -/
def encodeText (text : List Char) : Option PageCursor := pageCursor (Base64.encode (utf8Encode text))

theorem encodeText_eq_some {text : List Char} {c : PageCursor} :
    encodeText text = some c ↔ c.value = Base64.encode (utf8Encode text) := pageCursor_eq_some

/-! ## SQLite -/

/-- What a document holds beside its version, kind and query. -/
inductive Slot where
  | position
  | inner
deriving DecidableEq

def Slot.name : Slot → String
  | .position => "position"
  | .inner => "inner"

/-- `_encode_cursor`, in both modules, and `_wrap_branch_cursor`. -/
def encodeCursor (slot : Slot) (kind identity : String) (v : PyVal) : Option PageCursor :=
  (canonicalText (.dict [(pyStr "v", .int 1), (pyStr "kind", .str (pyStr kind)),
    (pyStr "query", .str (pyStr identity)), (pyStr slot.name, v)])).bind encodeText

/-- The names of a document, in order. -/
def Slot.names : Slot → List String
  | .position => ["kind", "position", "query", "v"]
  | .inner => ["inner", "kind", "query", "v"]

/-- `type(raw) is dict and set(raw) == names`. -/
def isDictOf (names : List String) : PyVal → Bool
  | .dict entries => hasNames entries names
  | _ => false

/-- `1.0`. -/
def floatOne : Binary64 := ⟨false, 1023 * 2 ^ 52, by omega⟩

/-- `value == 1`. -/
def equalsOne : PyVal → Bool
  | .bool b => b
  | .int i => i = 1
  | .float x => x = floatOne
  | _ => false

/-- `value == text`. -/
def equalsText (text : String) : PyVal → Bool
  | .str s => s = pyStr text
  | _ => false

/-- `_cursor_position`, in both modules, and `_unwrap_branch_cursor`, up
to what is made of the position; the topology's does not ask for the
base64 that the bytes would be written in. -/
def cursorPosition (exact : Bool) (slot : Slot) (kind identity : String) (c : PageCursor) : Option PyVal := do
  let bytes ← Base64.decode c.value
  let text ← utf8Decode bytes
  let raw ← plainLoads text
  let v ← member "v" raw
  let rawKind ← member "kind" raw
  let query ← member "query" raw
  if (exact = true → Base64.encode bytes = c.value) ∧ canonicalText raw = some text ∧
      isDictOf slot.names raw = true ∧ equalsOne v = true ∧ equalsText kind rawKind = true ∧
      equalsText identity query = true
  then member slot.name raw else none

/-- `UUID(position)`, where `str` gives it back and it is not zero. -/
def uuidPosition : PyVal → Option Uuid
  | .str s => (requireScalarText s).bind Uuid.ofText
  | _ => none

/-- The place of an event. -/
abbrev Sequence : Type := { n : ℕ // 1 ≤ n }

theorem one_le_toNat {i : ℤ} (h : 1 ≤ i) : 1 ≤ i.toNat := by omega

/-- A position of `int`. -/
def intPosition : PyVal → Option Sequence
  | .int i => if h : 1 ≤ i then some ⟨i.toNat, one_le_toNat h⟩ else none
  | _ => none

/-- `PageCursor(raw["inner"])`. -/
def innerCursor : PyVal → Option PageCursor
  | .str s => (requireScalarText s).bind fun text => pageCursor text.toList
  | _ => none

/-- One of the two sides' codecs, under one identity: a position's cursor, and a cursor's position. -/
structure CursorCodec (P : Type) where
  encode : P → Option PageCursor
  decode : PageCursor → Option P

/-- The cursors of records. -/
def recordCursors (identity : String) : CursorCodec Uuid where
  encode id := encodeCursor .position "record" identity (.str (pyStr id.text))
  decode c := (cursorPosition true .position "record" identity c).bind uuidPosition

/-- The cursors of history. -/
def historyCursors (identity : String) : CursorCodec Sequence where
  encode sequence := encodeCursor .position "history" identity (.int sequence.1)
  decode c := (cursorPosition true .position "history" identity c).bind intPosition

/-- The topology's own cursors of branches. -/
def topologyCursors (identity : String) : CursorCodec Uuid where
  encode id := encodeCursor .position "branch" identity (.str (pyStr id.text))
  decode c := (cursorPosition false .position "branch" identity c).bind uuidPosition

/-- `_wrap_branch_cursor` and `_unwrap_branch_cursor`. -/
def wrapCursors (identity : String) : CursorCodec PageCursor where
  encode c := encodeCursor .inner "branch_scope" identity (.str (pyStr (String.ofList c.value)))
  decode c := (cursorPosition true .inner "branch_scope" identity c).bind innerCursor

/-- The cursors of branches, under the identity of the query and the topology's own. -/
def branchCursors (identity inner : String) : CursorCodec Uuid where
  encode id := ((topologyCursors inner).encode id).bind (wrapCursors identity).encode
  decode c := ((wrapCursors identity).decode c).bind (topologyCursors inner).decode

/-! ## PostgreSQL -/

/-- `decoded.get(name)`, of a dictionary. -/
def textMember (name : String) (raw : PyVal) : Option String := (member name raw).bind stringOf

/-- `cursor` and `cursor_record`. -/
def postgresqlCursors (identity : String) : CursorCodec Uuid where
  encode id := (canonicalText (.dict [(pyStr "i", .str (pyStr identity)), (pyStr "r", .str (pyStr id.text))])).bind encodeText
  decode c := do
    let bytes ← Base64.decode c.value
    let text ← utf8Decode bytes
    let raw ← plainLoads text
    let record ← textMember "r" raw
    if textMember "i" raw = some identity then Uuid.ofText record else none

/-! ## SQLite's documents -/

/-- What a document can have for its version: Python takes them for equal. -/
inductive Version where
  | int
  | bool
  | float
deriving DecidableEq

namespace Version

def value : Version → PyVal
  | .int => .int 1
  | .bool => .bool true
  | .float => .float floatOne

def text : Version → List Char
  | .int => ['1']
  | .bool => ['t', 'r', 'u', 'e']
  | .float => ['1', '.', '0']

theorem canonicalText_value (s : Version) : canonicalText s.value = some s.text := by
  cases s with
  | int => decide +kernel
  | bool => rfl
  | float => decide +kernel

theorem spells (s : Version) : Spells s.text s.value := by
  have hone : floatOne.Finite := by decide
  have hfloat : floatText floatOne = ['1', '.', '0'] := by decide +kernel
  cases s with
  | int => exact spells_int (i := 1) (Nat.one_lt_pow (by decide) (by decide))
  | bool => exact spells_true
  | float =>
    have h := spells_float ⟨floatOne, hone⟩
    rwa [hfloat] at h

end Version

theorem equalsOne_iff {v : PyVal} : equalsOne v = true ↔ ∃ s : Version, v = s.value := by
  constructor
  · intro h
    cases v with
    | bool b => exact ⟨.bool, congrArg PyVal.bool h⟩
    | int i => exact ⟨.int, congrArg PyVal.int (by simpa [equalsOne] using h)⟩
    | float x => exact ⟨.float, congrArg PyVal.float (by simpa [equalsOne] using h)⟩
    | _ => exact absurd h Bool.false_ne_true
  · rintro ⟨s, rfl⟩
    cases s with
    | int => rfl
    | bool => rfl
    | float => exact decide_eq_true (rfl : floatOne = floatOne)

theorem equalsText_iff {text : String} {v : PyVal} : equalsText text v = true ↔ v = .str (pyStr text) := by
  cases v <;> simp [equalsText]

/-- The members of a document, in order. -/
def documentMembers (slot : Slot) (kind identity : String) (version position : List Char) : List (String × List Char) :=
  match slot with
  | .position => [("kind", encodeString kind), ("position", position), ("query", encodeString identity), ("v", version)]
  | .inner => [("inner", position), ("kind", encodeString kind), ("query", encodeString identity), ("v", version)]

/-- A document's text, by the texts of its version and its position. -/
def documentText (slot : Slot) (kind identity : String) (s : Version) (position : List Char) : List Char :=
  objectText (documentMembers slot kind identity s.text position)

section documents

variable {exact : Bool} {slot : Slot} {kind identity : String} {c : PageCursor} {v : PyVal} {position : List Char}

theorem canonicalText_document (slot : Slot) (kind identity : String) (hposition : canonicalText v = some position) :
    canonicalText (.dict [(pyStr "v", .int 1), (pyStr "kind", .str (pyStr kind)), (pyStr "query", .str (pyStr identity)),
      (pyStr slot.name, v)]) = some (documentText slot kind identity .int position) := by
  have hone : intText 1 = Version.int.text := by decide +kernel
  have hentries : canonicalEntries [(pyStr "v", .int 1), (pyStr "kind", .str (pyStr kind)),
      (pyStr "query", .str (pyStr identity)), (pyStr slot.name, v)] =
      some [("v", Version.int.text), ("kind", encodeString kind), ("query", encodeString identity),
        (slot.name, position)] := by
    simp only [canonicalEntries, requireScalarText_pyStr, canonicalText, hone, Option.map_some, hposition]
  rw [canonicalText, hentries, Option.map_some, documentText, Option.some.injEq]
  cases slot with
  | position => simp +decide [sortNames, List.insertionSort, List.orderedInsert, documentMembers, Slot.name]
  | inner => simp +decide [sortNames, List.insertionSort, List.orderedInsert, documentMembers, Slot.name]

/-- **A cursor that is encoded** is the document's text. -/
theorem encodeCursor_eq_some (hposition : canonicalText v = some position) : encodeCursor slot kind identity v = some c ↔
    c.value = Base64.encode (utf8Encode (documentText slot kind identity .int position)) := by
  rw [encodeCursor, canonicalText_document slot kind identity hposition, Option.bind_some, encodeText_eq_some]

theorem sorted_names (slot : Slot) : slot.names.Pairwise (· < ·) := by
  cases slot <;> decide

/-- **What SQLite reads is a document of its own making**, but for the version. -/
theorem document_of_cursorPosition (h : cursorPosition exact slot kind identity c = some v) :
    ∃ s position, canonicalText v = some position ∧
      Base64.decode c.value = some (utf8Encode (documentText slot kind identity s position)) ∧
      (exact = true → c.value = Base64.encode (utf8Encode (documentText slot kind identity s position))) := by
  simp only [cursorPosition, Option.bind_eq_bind, Option.bind_eq_some_iff] at h
  obtain ⟨bytes, hbytes, text, htext, raw, hraw, version, hversion, rawKind, hkind, query, hquery, hfinal⟩ := h
  split_ifs at hfinal with hchecks
  obtain ⟨hexact, hcanonical, hdict, hone, hk, hq⟩ := hchecks
  obtain ⟨s, rfl⟩ := equalsOne_iff.1 hone
  obtain rfl := equalsText_iff.1 hk
  obtain rfl := equalsText_iff.1 hq
  cases raw with
  | dict entries =>
    obtain ⟨members, rfl, hmembers⟩ := objectText_of_canonicalText (nodup_of_plainLoads hraw) hdict (sorted_names slot) hcanonical
    obtain rfl := utf8Encode_of_utf8Decode htext
    -- what a name has is what its member is the text of
    have hmember : ∀ {n w t}, (∃ w', entries.lookup (pyStr n) = some w' ∧ canonicalText w' = some t) →
        member n (.dict entries) = some w → canonicalText w = some t := by
      rintro n w t ⟨w', hw', ht⟩ hw
      obtain rfl := Option.some.inj (hw'.symm.trans hw)
      exact ht
    have hstring : ∀ t, canonicalText (.str (pyStr t)) = some (encodeString t) := fun t => by
      rw [canonicalText, requireScalarText_pyStr, Option.map_some]
    have hfound : ∃ position, canonicalText v = some position ∧
        members = documentMembers slot kind identity s.text position := by
      cases slot with
      | position =>
        simp only [Slot.names, List.forall₂_cons_left_iff, List.forall₂_nil_left_iff] at hmembers
        obtain ⟨⟨_, t₁⟩, _, ⟨rfl, h₁⟩, ⟨⟨_, t₂⟩, _, ⟨rfl, h₂⟩, ⟨⟨_, t₃⟩, _, ⟨rfl, h₃⟩, ⟨⟨_, t₄⟩, _, ⟨rfl, h₄⟩, rfl, rfl⟩, rfl⟩,
          rfl⟩, rfl⟩ := hmembers
        obtain rfl := Option.some.inj ((hmember h₁ hkind).symm.trans (hstring kind))
        obtain rfl := Option.some.inj ((hmember h₃ hquery).symm.trans (hstring identity))
        obtain rfl := Option.some.inj ((hmember h₄ hversion).symm.trans s.canonicalText_value)
        exact ⟨t₂, hmember h₂ hfinal, rfl⟩
      | inner =>
        simp only [Slot.names, List.forall₂_cons_left_iff, List.forall₂_nil_left_iff] at hmembers
        obtain ⟨⟨_, t₁⟩, _, ⟨rfl, h₁⟩, ⟨⟨_, t₂⟩, _, ⟨rfl, h₂⟩, ⟨⟨_, t₃⟩, _, ⟨rfl, h₃⟩, ⟨⟨_, t₄⟩, _, ⟨rfl, h₄⟩, rfl, rfl⟩, rfl⟩,
          rfl⟩, rfl⟩ := hmembers
        obtain rfl := Option.some.inj ((hmember h₂ hkind).symm.trans (hstring kind))
        obtain rfl := Option.some.inj ((hmember h₃ hquery).symm.trans (hstring identity))
        obtain rfl := Option.some.inj ((hmember h₄ hversion).symm.trans s.canonicalText_value)
        exact ⟨t₁, hmember h₁ hfinal, rfl⟩
    obtain ⟨position, hposition, rfl⟩ := hfound
    exact ⟨s, position, hposition, hbytes, fun he => (hexact he).symm⟩
  | _ => exact absurd hdict Bool.false_ne_true

/-- What a document is read as. -/
def documentEntries (slot : Slot) (kind identity : String) (s : Version) (v : PyVal) : List (PyStr × PyVal) :=
  match slot with
  | .position => [(pyStr "kind", .str (pyStr kind)), (pyStr "position", v), (pyStr "query", .str (pyStr identity)),
      (pyStr "v", s.value)]
  | .inner => [(pyStr "inner", v), (pyStr "kind", .str (pyStr kind)), (pyStr "query", .str (pyStr identity)),
      (pyStr "v", s.value)]

theorem plainLoads_documentText (slot : Slot) (kind identity : String) (s : Version) (h : Spells position v) :
    plainLoads (documentText slot kind identity s position) = some (.dict (documentEntries slot kind identity s v)) := by
  have hk := spells_string kind
  have hq := spells_string identity
  have hs := s.spells
  cases slot with
  | position =>
    refine loads_objectText (.cons ⟨rfl, hk⟩ (.cons ⟨rfl, h⟩ (.cons ⟨rfl, hq⟩ (.cons ⟨rfl, hs⟩ .nil)))) (List.cons_ne_nil _ _) ?_
    simp [documentEntries, pyStr_injective.eq_iff]
  | inner =>
    refine loads_objectText (.cons ⟨rfl, h⟩ (.cons ⟨rfl, hk⟩ (.cons ⟨rfl, hq⟩ (.cons ⟨rfl, hs⟩ .nil)))) (List.cons_ne_nil _ _) ?_
    simp [documentEntries, pyStr_injective.eq_iff]

theorem canonicalText_documentEntries (slot : Slot) (kind identity : String) (s : Version)
    (hposition : canonicalText v = some position) :
    canonicalText (.dict (documentEntries slot kind identity s v)) = some (documentText slot kind identity s position) := by
  cases slot with
  | position =>
    simp only [canonicalText, documentEntries, canonicalEntries, requireScalarText_pyStr, s.canonicalText_value,
      Option.map_some, hposition, documentText, Option.some.injEq]
    simp +decide [sortNames, List.insertionSort, documentMembers]
  | inner =>
    simp only [canonicalText, documentEntries, canonicalEntries, requireScalarText_pyStr, s.canonicalText_value,
      Option.map_some, hposition, documentText, Option.some.injEq]
    simp +decide [sortNames, List.insertionSort, documentMembers]

/-- Such a document is read. -/
theorem cursorPosition_document (s : Version) (hspells : Spells position v) (hposition : canonicalText v = some position)
    (hdecode : Base64.decode c.value = some (utf8Encode (documentText slot kind identity s position)))
    (hexact : exact = true → c.value = Base64.encode (utf8Encode (documentText slot kind identity s position))) :
    cursorPosition exact slot kind identity c = some v := by
  have hloads := plainLoads_documentText slot kind identity s hspells
  have hcanonical := canonicalText_documentEntries slot kind identity s hposition
  have hone : equalsOne s.value = true := equalsOne_iff.2 ⟨s, rfl⟩
  rw [cursorPosition, hdecode]
  simp only [Option.bind_eq_bind, Option.bind_some, utf8Decode_utf8Encode, hloads, hcanonical, true_and]
  have hk : equalsText kind (.str (pyStr kind)) = true := equalsText_iff.2 rfl
  have hq : equalsText identity (.str (pyStr identity)) = true := equalsText_iff.2 rfl
  cases slot with
  | position =>
    simp only [documentEntries, member_cons, Slot.name, String.reduceEq, reduceIte, Option.bind_some]
    rw [if_pos ⟨fun he => (hexact he).symm, by simp [isDictOf, hasNames, Slot.names, pyStr_injective.eq_iff], hone, hk, hq⟩]
  | inner =>
    simp only [documentEntries, member_cons, Slot.name, String.reduceEq, reduceIte, Option.bind_some]
    rw [if_pos ⟨fun he => (hexact he).symm, by simp [isDictOf, hasNames, Slot.names, pyStr_injective.eq_iff], hone, hk, hq⟩]

end documents

/-! ## Positions -/

/-- A kind of position: what it is read from, and the text that spells it. -/
structure PositionKind (P : Type) where
  read : PyVal → Option P
  write : P → PyVal
  text : P → List Char
  read_iff : ∀ {v : PyVal} {p : P}, read v = some p ↔ v = write p
  canonical : ∀ p, canonicalText (write p) = some (text p)
  spells : ∀ p, (text p).length ≤ 1024 → Spells (text p) (write p)

namespace PositionKind

theorem canonicalText_str (s : String) : canonicalText (.str (pyStr s)) = some (encodeString s) := by
  rw [canonicalText, requireScalarText_pyStr, Option.map_some]

/-- Text that is read by a partial inverse of what writes it. -/
def ofText {P : Type} (read : PyVal → Option P) (text : P → String)
    (h : ∀ {v : PyVal} {p : P}, read v = some p ↔ v = .str (pyStr (text p))) : PositionKind P where
  read := read
  write p := .str (pyStr (text p))
  text p := encodeString (text p)
  read_iff := h
  canonical p := canonicalText_str (text p)
  spells p _ := spells_string (text p)

/-- The ids of rows. -/
def ids : PositionKind Uuid := ofText uuidPosition Uuid.text <| by
  intro v u
  constructor
  · intro h
    cases v with
    | str s =>
      obtain ⟨t, ht, hu⟩ := Option.bind_eq_some_iff.1 h
      rw [Uuid.text_of_ofText hu, ← pyStr_of_scalar ht]
    | _ => exact absurd h (by simp [uuidPosition])
  · rintro rfl
    rw [uuidPosition, requireScalarText_pyStr, Option.bind_some, Uuid.ofText_text]

/-- The cursors that others wrap. -/
def inners : PositionKind PageCursor := ofText innerCursor (fun c => String.ofList c.value) <| by
  intro v c
  constructor
  · intro h
    cases v with
    | str s =>
      obtain ⟨t, ht, hc⟩ := Option.bind_eq_some_iff.1 h
      rw [pageCursor_eq_some.1 hc, String.ofList_toList, ← pyStr_of_scalar ht]
    | _ => exact absurd h (by simp [innerCursor])
  · rintro rfl
    rw [innerCursor, requireScalarText_pyStr, Option.bind_some, String.toList_ofList]
    exact pageCursor_eq_some.2 rfl

/-- The places of events. -/
def sequences : PositionKind Sequence where
  read := intPosition
  write n := .int n.1
  text n := intText n.1
  read_iff := by
    intro v n
    constructor
    · intro h
      cases v with
      | int i =>
        rw [intPosition] at h
        split_ifs at h with hi
        obtain rfl := Option.some.inj h
        rw [Int.toNat_of_nonneg (by omega)]
      | _ => exact absurd h (by simp [intPosition])
    · rintro rfl
      have hn := n.2
      rw [intPosition, dif_pos (by omega)]
      rfl
  canonical _ := rfl
  spells n h := by
    have hlength : (natText n.1).length ≤ MAX_INT_DIGITS := by
      rw [intText, if_neg (by omega), Int.natAbs_natCast] at h
      exact h.trans (by decide)
    exact spells_int ((natText_length_le le_rfl).trans_le (Nat.pow_le_pow_right (by decide) hlength))

end PositionKind

section positions

variable {P : Type} (k : PositionKind P) {exact : Bool} {slot : Slot} {kind identity : String} {c : PageCursor} {p : P}

/-- A document is no longer than the cursor it is in. -/
theorem length_position_le {s : Version} {position : List Char}
    (h : Base64.decode c.value = some (utf8Encode (documentText slot kind identity s position))) : position.length ≤ 1024 := by
  have hbytes := Base64.length_le_of_decode h
  have htext := length_le_utf8Encode (documentText slot kind identity s position)
  have hposition : position.length ≤ (documentText slot kind identity s position).length := by
    cases slot with
    | position =>
      simp only [documentText, objectText, documentMembers, List.map_cons, List.map_nil, joinComma, memberText,
        List.length_cons, List.length_append]
      omega
    | inner =>
      simp only [documentText, objectText, documentMembers, List.map_cons, List.map_nil, joinComma, memberText,
        List.length_cons, List.length_append]
      omega
  exact hposition.trans (htext.trans (hbytes.trans c.bounds.2.1))

/-- **What is decoded**: a document with some spelling of its version. -/
theorem decode_iff : (cursorPosition exact slot kind identity c).bind k.read = some p ↔
    ∃ s, Base64.decode c.value = some (utf8Encode (documentText slot kind identity s (k.text p))) ∧
      (exact = true → c.value = Base64.encode (utf8Encode (documentText slot kind identity s (k.text p)))) := by
  constructor
  · intro h
    obtain ⟨v, hv, hp⟩ := Option.bind_eq_some_iff.1 h
    obtain rfl := k.read_iff.1 hp
    obtain ⟨s, position, hposition, hdocument⟩ := document_of_cursorPosition hv
    obtain rfl := Option.some.inj (hposition.symm.trans (k.canonical p))
    exact ⟨s, hdocument⟩
  · rintro ⟨s, hdecode, hexact⟩
    have hspells := k.spells p (length_position_le hdecode)
    rw [cursorPosition_document s hspells (k.canonical p) hdecode hexact, Option.bind_some]
    exact k.read_iff.2 rfl

end positions

/-! ## Exactness -/

namespace CursorCodec

variable {P : Type} (K : CursorCodec P)

/-- What a position is encoded as is decoded to it. -/
def RoundTrips : Prop := ∀ p c, K.encode p = some c → K.decode c = some p

/-- The cursor is decoded just where it is what some position is encoded as. -/
def Exact (c : PageCursor) : Prop := (∃ p, K.decode c = some p) ↔ ∃ p, K.encode p = some c

/-- The ways in which a cursor can be read as a position, and which of
them are the encoder's. -/
structure Reads (c : PageCursor) (ι : Type) where
  spelled : ι → P → Prop
  written : ι → P → Prop
  decode_iff : ∀ p, K.decode c = some p ↔ ∃ i, spelled i p
  encode_iff : ∀ p, K.encode p = some c ↔ ∃ i, spelled i p ∧ written i p
  unique : ∀ i j p, spelled i p → spelled j p → written j p → written i p

variable {K} {c : PageCursor} {ι : Type}

theorem Reads.decode_of_encode (r : K.Reads c ι) {p : P} (h : K.encode p = some c) : K.decode c = some p := by
  obtain ⟨i, hi, -⟩ := (r.encode_iff p).1 h
  exact (r.decode_iff p).2 ⟨i, hi⟩

/-- **A codec is exact at a cursor** that is read in no way but the encoder's. -/
theorem Reads.exact_iff (r : K.Reads c ι) : K.Exact c ↔ ¬ ∃ i p, r.spelled i p ∧ ¬ r.written i p := by
  constructor
  · rintro hexact ⟨i, p, hi, hwritten⟩
    have hp := (r.decode_iff p).2 ⟨i, hi⟩
    obtain ⟨q, hq⟩ := hexact.1 ⟨p, hp⟩
    obtain rfl := Option.some.inj (hp.symm.trans (r.decode_of_encode hq))
    obtain ⟨j, hj, hjwritten⟩ := (r.encode_iff p).1 hq
    exact hwritten (r.unique i j p hi hj hjwritten)
  · intro hnone
    refine ⟨fun ⟨p, hp⟩ => ?_, fun ⟨p, hp⟩ => ⟨p, r.decode_of_encode hp⟩⟩
    obtain ⟨i, hi⟩ := (r.decode_iff p).1 hp
    exact ⟨p, (r.encode_iff p).2 ⟨i, hi, Classical.not_not.1 fun hw => hnone ⟨i, p, hi, hw⟩⟩⟩

end CursorCodec

section sqlite

variable {P : Type} {k : PositionKind P} {slot : Slot} {kind identity : String} {s s' : Version} {c : PageCursor} {p : P}

/-- The cursor is a document's, with its version so spelled. -/
def IsDocument (k : PositionKind P) (slot : Slot) (kind identity : String) (c : PageCursor) (s : Version) (p : P) : Prop :=
  c.value = Base64.encode (utf8Encode (documentText slot kind identity s (k.text p)))

theorem version_text_injective : Function.Injective Version.text := by
  intro s s' h
  cases s <;> cases s' <;> simp [Version.text] at h ⊢

theorem version_unique (h : IsDocument k slot kind identity c s p) (h' : IsDocument k slot kind identity c s' p) :
    s = s' := by
  have htext := utf8Encode_injective (Base64.encode_injective (h.symm.trans h'))
  apply version_text_injective
  cases slot with
  | position => simpa [documentText, objectText, documentMembers, joinComma, memberText] using htext
  | inner => simpa [documentText, objectText, documentMembers, joinComma, memberText] using htext

theorem encode_write_iff : encodeCursor slot kind identity (k.write p) = some c ↔
    IsDocument k slot kind identity c .int p := encodeCursor_eq_some (k.canonical p)

theorem decode_iff_document : (cursorPosition true slot kind identity c).bind k.read = some p ↔
    ∃ s, IsDocument k slot kind identity c s p := by
  rw [decode_iff]
  refine exists_congr fun s => ⟨fun h => h.2 rfl, fun h => ⟨?_, fun _ => h⟩⟩
  rw [show c.value = _ from h, Base64.decode_encode]

/-- How a cursor with its base64 checked is read. -/
def exactReads (K : CursorCodec P) (hencode : ∀ p, K.encode p = encodeCursor slot kind identity (k.write p))
    (hdecode : ∀ c, K.decode c = (cursorPosition true slot kind identity c).bind k.read) (c : PageCursor) :
    K.Reads c Version where
  spelled := IsDocument k slot kind identity c
  written s _ := s = .int
  decode_iff p := by rw [hdecode, decode_iff_document]
  encode_iff p := by
    rw [hencode, encode_write_iff]
    exact ⟨fun h => ⟨.int, h, rfl⟩, fun ⟨s, h, hs⟩ => hs ▸ h⟩
  unique i j p hi hj hwritten := (version_unique hi hj).trans hwritten

/-- The cursor's version is spelled `true` or `1.0`. -/
def VersionRespelled (k : PositionKind P) (slot : Slot) (kind identity : String) (c : PageCursor) : Prop :=
  ∃ s p, IsDocument k slot kind identity c s p ∧ s ≠ .int

end sqlite

theorem recordCursors_exact_iff (identity : String) (c : PageCursor) :
    (recordCursors identity).Exact c ↔ ¬ VersionRespelled .ids .position "record" identity c :=
  (exactReads (k := .ids) (recordCursors identity) (fun _ => rfl) (fun _ => rfl) c).exact_iff

theorem historyCursors_exact_iff (identity : String) (c : PageCursor) :
    (historyCursors identity).Exact c ↔ ¬ VersionRespelled .sequences .position "history" identity c :=
  (exactReads (k := .sequences) (historyCursors identity) (fun _ => rfl) (fun _ => rfl) c).exact_iff

/-! ## Branches -/

section branches

variable {identity inner : String} {c : PageCursor}

/-- One way to read a branch cursor: the cursor in it, and the spelling of either version. -/
structure BranchReading where
  cursor : PageCursor
  outer : Version
  version : Version

/-- The cursor is read in this way, as this branch. -/
def BranchReading.Holds (identity inner : String) (c : PageCursor) (i : BranchReading) (id : Uuid) : Prop :=
  IsDocument .inners .inner "branch_scope" identity c i.outer i.cursor ∧
    Base64.decode i.cursor.value = some (utf8Encode (documentText .position "branch" inner i.version (encodeString id.text)))

/-- Both versions are spelled `1`, and the bits that the last character of the inner cursor has too many are zero. -/
def BranchReading.Written (inner : String) (i : BranchReading) (id : Uuid) : Prop :=
  i.outer = .int ∧ IsDocument .ids .position "branch" inner i.cursor .int id

theorem topologyCursors_decode_iff {id : Uuid} : (topologyCursors inner).decode c = some id ↔
    ∃ s, Base64.decode c.value = some (utf8Encode (documentText .position "branch" inner s (encodeString id.text))) := by
  change (cursorPosition false .position "branch" inner c).bind PositionKind.ids.read = some id ↔ _
  rw [decode_iff]
  exact exists_congr fun s => ⟨fun h => h.1, fun h => ⟨h, fun he => absurd he Bool.false_ne_true⟩⟩

/-- How a branch cursor is read. -/
def branchReads (identity inner : String) (c : PageCursor) : (branchCursors identity inner).Reads c BranchReading where
  spelled := BranchReading.Holds identity inner c
  written := BranchReading.Written inner
  decode_iff id := by
    change ((wrapCursors identity).decode c).bind (topologyCursors inner).decode = some id ↔ _
    rw [Option.bind_eq_some_iff]
    constructor
    · rintro ⟨c', hc', hid⟩
      obtain ⟨s, hs⟩ := (decode_iff_document (k := .inners)).1 hc'
      obtain ⟨s', hs'⟩ := topologyCursors_decode_iff.1 hid
      exact ⟨⟨c', s, s'⟩, hs, hs'⟩
    · rintro ⟨⟨c', s, s'⟩, hs, hs'⟩
      exact ⟨c', (decode_iff_document (k := .inners)).2 ⟨s, hs⟩, topologyCursors_decode_iff.2 ⟨s', hs'⟩⟩
  encode_iff id := by
    change ((topologyCursors inner).encode id).bind (wrapCursors identity).encode = some c ↔ _
    rw [Option.bind_eq_some_iff]
    constructor
    · rintro ⟨c', hc', hc⟩
      have hinner := (encode_write_iff (k := .ids)).1 hc'
      have houter := (encode_write_iff (k := .inners)).1 hc
      refine ⟨⟨c', .int, .int⟩, ⟨houter, ?_⟩, rfl, hinner⟩
      rw [show c'.value = _ from hinner, Base64.decode_encode]
      rfl
    · rintro ⟨⟨c', s, s'⟩, ⟨houter, -⟩, rfl, hinner⟩
      exact ⟨c', (encode_write_iff (k := .ids)).2 hinner, (encode_write_iff (k := .inners)).2 houter⟩
  unique := by
    rintro ⟨c₁, s₁, s₁'⟩ ⟨c₂, s₂, s₂'⟩ id ⟨hi, -⟩ ⟨hj, -⟩ ⟨rfl, hwritten⟩
    -- the inner cursor is the one the outer is decoded to
    have hi' := (decode_iff_document (k := .inners)).2 ⟨s₁, hi⟩
    have hj' := (decode_iff_document (k := .inners)).2 ⟨.int, hj⟩
    obtain rfl := Option.some.inj (hi'.symm.trans hj')
    exact ⟨version_unique hi hj, hwritten⟩

/-- The cursor names a branch, but not as it would be written: a version
is spelled `true` or `1.0`, or the inner cursor's last character has bits
that its bytes do not need. -/
def BranchRespelled (identity inner : String) (c : PageCursor) : Prop :=
  ∃ i id, BranchReading.Holds identity inner c i id ∧ ¬ BranchReading.Written inner i id

end branches

/-! ## PostgreSQL's documents -/

section postgresql

variable {identity : String} {c : PageCursor}

/-- What a cursor is read through: its bytes, their text and its document. -/
structure PairReading where
  bytes : List UInt8
  text : List Char
  raw : PyVal

/-- The cursor is read in this way, as this id. -/
def PairReading.Holds (identity : String) (c : PageCursor) (i : PairReading) (id : Uuid) : Prop :=
  Base64.decode c.value = some i.bytes ∧ utf8Decode i.bytes = some i.text ∧ plainLoads i.text = some i.raw ∧
    textMember "i" i.raw = some identity ∧ textMember "r" i.raw = some id.text

/-- What SQLite asks: the base64 is the bytes' own, the document its own dump, and there are no other members. -/
def PairReading.Written (c : PageCursor) (i : PairReading) (_ : Uuid) : Prop :=
  Base64.encode i.bytes = c.value ∧ canonicalText i.raw = some i.text ∧ isDictOf ["i", "r"] i.raw = true

/-- The text of PostgreSQL's document. -/
def pairText (identity : String) (id : Uuid) : List Char :=
  objectText [("i", encodeString identity), ("r", encodeString id.text)]

/-- What it is read as. -/
def pairEntries (identity : String) (id : Uuid) : List (PyStr × PyVal) :=
  [(pyStr "i", .str (pyStr identity)), (pyStr "r", .str (pyStr id.text))]

theorem canonicalText_pair (identity : String) (id : Uuid) :
    canonicalText (.dict (pairEntries identity id)) = some (pairText identity id) := by
  simp only [canonicalText, pairEntries, canonicalEntries, requireScalarText_pyStr, Option.map_some, pairText,
    Option.some.injEq]
  simp +decide [sortNames, List.insertionSort]

theorem plainLoads_pair (identity : String) (id : Uuid) :
    plainLoads (pairText identity id) = some (.dict (pairEntries identity id)) := by
  refine loads_objectText (.cons ⟨rfl, spells_string identity⟩ (.cons ⟨rfl, spells_string id.text⟩ .nil))
    (List.cons_ne_nil _ _) ?_
  simp [pairEntries, pyStr_injective.eq_iff]

theorem textMember_eq_some {name text : String} {raw : PyVal} :
    textMember name raw = some text ↔ member name raw = some (.str (pyStr text)) := by
  constructor
  · intro h
    obtain ⟨v, hv, ht⟩ := Option.bind_eq_some_iff.1 h
    cases v with
    | str s => rw [hv, ← pyStr_of_scalar ht]
    | _ => exact absurd ht (by simp [stringOf])
  · intro h
    rw [textMember, h, Option.bind_some, stringOf, requireScalarText_pyStr]

/-- The document that is its own dump, of two members, is the pair's. -/
theorem text_of_written {i : PairReading} {id : Uuid} (h : i.Holds identity c id) (hwritten : i.Written c id) :
    i.text = pairText identity id := by
  obtain ⟨bytes, text, raw⟩ := i
  obtain ⟨-, -, hraw, hi, hr⟩ := h
  obtain ⟨-, hcanonical, hdict⟩ := hwritten
  cases raw with
  | dict entries =>
    obtain ⟨members, htext, hmembers⟩ := objectText_of_canonicalText (nodup_of_plainLoads hraw) hdict (by decide) hcanonical
    simp only [List.forall₂_cons_left_iff, List.forall₂_nil_left_iff] at hmembers
    obtain ⟨⟨_, t₁⟩, _, ⟨rfl, v₁, hv₁, ht₁⟩, ⟨⟨_, t₂⟩, _, ⟨rfl, v₂, hv₂, ht₂⟩, rfl, rfl⟩, rfl⟩ := hmembers
    obtain rfl := Option.some.inj (hv₁.symm.trans (textMember_eq_some.1 hi))
    obtain rfl := Option.some.inj (hv₂.symm.trans (textMember_eq_some.1 hr))
    obtain rfl := Option.some.inj (ht₁.symm.trans (PositionKind.canonicalText_str identity))
    obtain rfl := Option.some.inj (ht₂.symm.trans (PositionKind.canonicalText_str id.text))
    exact htext
  | _ => exact absurd hdict Bool.false_ne_true

/-- How PostgreSQL reads a cursor. -/
def postgresqlReads (identity : String) (c : PageCursor) : (postgresqlCursors identity).Reads c PairReading where
  spelled := PairReading.Holds identity c
  written := PairReading.Written c
  decode_iff id := by
    simp only [postgresqlCursors, Option.bind_eq_bind, Option.bind_eq_some_iff]
    constructor
    · rintro ⟨bytes, hbytes, text, htext, raw, hraw, record, hr, hfinal⟩
      split_ifs at hfinal with hi
      exact ⟨⟨bytes, text, raw⟩, hbytes, htext, hraw, hi, by rw [hr, Uuid.text_of_ofText hfinal]⟩
    · rintro ⟨⟨bytes, text, raw⟩, hbytes, htext, hraw, hi, hr⟩
      exact ⟨bytes, hbytes, text, htext, raw, hraw, id.text, hr, by rw [if_pos hi, Uuid.ofText_text]⟩
  encode_iff id := by
    change (canonicalText (.dict (pairEntries identity id))).bind encodeText = some c ↔ _
    rw [canonicalText_pair, Option.bind_some, encodeText_eq_some]
    constructor
    · intro hc
      refine ⟨⟨utf8Encode (pairText identity id), pairText identity id, .dict (pairEntries identity id)⟩, ⟨?_, ?_, ?_, ?_, ?_⟩,
        hc.symm, canonicalText_pair identity id, ?_⟩
      · rw [hc, Base64.decode_encode]
      · exact utf8Decode_utf8Encode _
      · exact plainLoads_pair identity id
      · exact textMember_eq_some.2 (by simp [pairEntries, member_cons])
      · exact textMember_eq_some.2 (by simp [pairEntries, member_cons])
      · simp [isDictOf, hasNames, pairEntries, pyStr_injective.eq_iff]
    · rintro ⟨i, hholds, hwritten⟩
      rw [← text_of_written hholds hwritten, utf8Encode_of_utf8Decode hholds.2.1]
      exact hwritten.1.symm
  unique := by
    rintro ⟨b₁, t₁, r₁⟩ ⟨b₂, t₂, r₂⟩ id ⟨hb₁, ht₁, hr₁, -⟩ ⟨hb₂, ht₂, hr₂, -⟩ hwritten
    obtain rfl := Option.some.inj (hb₁.symm.trans hb₂)
    obtain rfl := Option.some.inj (ht₁.symm.trans ht₂)
    obtain rfl := Option.some.inj (hr₁.symm.trans hr₂)
    exact hwritten

/-- The cursor names an id under the identity, but not as it would be
written: the last character has bits that the bytes do not need, or the
document is not its own dump or has other members. -/
def LooselyWritten (identity : String) (c : PageCursor) : Prop :=
  ∃ i id, PairReading.Holds identity c i id ∧ ¬ PairReading.Written c i id

end postgresql

/-! ## The codecs together -/

/-- **What is encoded is decoded, in all the codecs, and each is exact just
where no other spelling of a position stands**: SQLite's, where no version
is `true` or `1.0`, and for branches where the inner cursor's last
character has no bits to spare; PostgreSQL's, where the document is the
one it prints. -/
theorem cursor_codecs_exact_iff (identity inner : String) (c : PageCursor) :
    ((recordCursors identity).RoundTrips ∧ (historyCursors identity).RoundTrips ∧
      (branchCursors identity inner).RoundTrips ∧ (postgresqlCursors identity).RoundTrips) ∧
    ((recordCursors identity).Exact c ↔ ¬ VersionRespelled .ids .position "record" identity c) ∧
    ((historyCursors identity).Exact c ↔ ¬ VersionRespelled .sequences .position "history" identity c) ∧
    ((branchCursors identity inner).Exact c ↔ ¬ BranchRespelled identity inner c) ∧
    ((postgresqlCursors identity).Exact c ↔ ¬ LooselyWritten identity c) := by
  refine ⟨⟨?_, ?_, ?_, ?_⟩, recordCursors_exact_iff identity c, historyCursors_exact_iff identity c, ?_, ?_⟩
  · exact fun _ c => (exactReads (k := .ids) (recordCursors identity) (fun _ => rfl) (fun _ => rfl) c).decode_of_encode
  · exact fun _ c => (exactReads (k := .sequences) (historyCursors identity) (fun _ => rfl) (fun _ => rfl) c).decode_of_encode
  · exact fun _ c => (branchReads identity inner c).decode_of_encode
  · exact fun _ c => (postgresqlReads identity c).decode_of_encode
  · exact (branchReads identity inner c).exact_iff
  · exact (postgresqlReads identity c).exact_iff

/-- A digest that a query may have. -/
def sampleIdentity : String := "e3b0c44298fc1c149afbf4c8996fb92427ae41e4649b934ca495991b7852b855"

def sampleId : Uuid := ⟨0x00000000000040008000000000000001, by decide, by decide⟩

/-- The cursor of a record, but that its version is `true`. -/
def trueCursor : PageCursor where
  value := "eyJraW5kIjoicmVjb3JkIiwicG9zaXRpb24iOiIwMDAwMDAwMC0wMDAwLTQwMDAtODAwMC0wMDAwMDAwMDAwMDEiLCJxdWVyeSI6ImUzYjBjNDQyOThmYzFjMTQ5YWZiZjRjODk5NmZiOTI0MjdhZTQxZTQ2NDliOTM0Y2E0OTU5OTFiNzg1MmI4NTUiLCJ2Ijp0cnVlfQ".toList
  bounds := by
    rw [String.toList_ofList]
    decide +kernel

/-- PostgreSQL's cursor of a record, but that its members change places. -/
def reorderedCursor : PageCursor where
  value := "eyJyIjoiMDAwMDAwMDAtMDAwMC00MDAwLTgwMDAtMDAwMDAwMDAwMDAxIiwiaSI6ImUzYjBjNDQyOThmYzFjMTQ5YWZiZjRjODk5NmZiOTI0MjdhZTQxZTQ2NDliOTM0Y2E0OTU5OTFiNzg1MmI4NTUifQ".toList
  bounds := by
    rw [String.toList_ofList]
    decide +kernel

/-- **Neither side's codec is exact**: SQLite takes a version `true` for
the number it writes, and PostgreSQL any order of the members. -/
theorem cursor_codecs_inexact :
    ¬ (recordCursors sampleIdentity).Exact trueCursor ∧ ¬ (postgresqlCursors sampleIdentity).Exact reorderedCursor := by
  constructor
  · rw [recordCursors_exact_iff, Classical.not_not]
    have hdocument : trueCursor.value =
        Base64.encode (utf8Encode (documentText .position "record" sampleIdentity .bool (encodeString sampleId.text))) := by
      decide +kernel
    exact ⟨.bool, sampleId, hdocument, by decide⟩
  · rw [(postgresqlReads sampleIdentity reorderedCursor).exact_iff, Classical.not_not]
    let text := objectText [("r", encodeString sampleId.text), ("i", encodeString sampleIdentity)]
    let entries := [(pyStr "r", PyVal.str (pyStr sampleId.text)), (pyStr "i", .str (pyStr sampleIdentity))]
    have hloads : plainLoads text = some (.dict entries) :=
      loads_objectText (.cons ⟨rfl, spells_string _⟩ (.cons ⟨rfl, spells_string _⟩ .nil)) (List.cons_ne_nil _ _)
        (by simp [entries, pyStr_injective.eq_iff])
    have hcanonical : canonicalText (.dict entries) = some (pairText sampleIdentity sampleId) := by
      simp only [canonicalText, entries, canonicalEntries, requireScalarText_pyStr, Option.map_some, pairText,
        Option.some.injEq]
      decide +kernel
    have hvalue : reorderedCursor.value = Base64.encode (utf8Encode text) := by decide +kernel
    refine ⟨⟨utf8Encode text, text, .dict entries⟩, sampleId, ⟨?_, ?_, hloads, ?_, ?_⟩, fun hwritten => ?_⟩
    · rw [hvalue, Base64.decode_encode]
    · exact utf8Decode_utf8Encode text
    · exact textMember_eq_some.2 (by simp [entries, member_cons])
    · exact textMember_eq_some.2 (by simp [entries, member_cons])
    · have hne : pairText sampleIdentity sampleId ≠ text := by decide +kernel
      exact hne (Option.some.inj (hcanonical.symm.trans hwritten.2.1))

end Data

end Aipcs

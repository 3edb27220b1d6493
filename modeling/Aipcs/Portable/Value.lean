import Aipcs.Common.Binary64
import Mathlib.Data.List.Sort
import Mathlib.Data.List.Basic

/-!
# Portable — JSON values

The values of the bundle format: what a caller hands over (`PyVal`, any
Python object, with unbounded integers, infinities and lone surrogates)
and what freezing leaves of it (`PortableJson`: signed-64 integers,
finite floats, scalar text, objects in UTF-16 name order). The domain
checks of the freeze are carried by the types where a type can carry
them; what is left, the order and distinctness of an object's names, is
`PortableJson.Ordered`.
-/

namespace Aipcs

namespace Portable

/-! ## The format's constants -/

def MAX_JSON_DEPTH : ℕ := 64
def MAX_FRAME_BYTES : ℕ := 1024 * 1024
def DEFAULT_MAX_BUNDLE_BYTES : ℕ := 256 * 1024 * 1024
def ABSOLUTE_MAX_BUNDLE_BYTES : ℕ := 1024 * 1024 * 1024
def MAX_BUNDLE_FRAMES : ℕ := 1000000

/-! ## Numbers and text -/

/-- The integers of the format. -/
abbrev Signed64 : Type := { i : ℤ // -2 ^ 63 ≤ i ∧ i ≤ 2 ^ 63 - 1 }

/-- The floats of the format. -/
abbrev FiniteFloat : Type := { x : Binary64 // x.Finite }

/-- A Unicode code point, surrogates included. -/
structure CodePoint where
  val : ℕ
  lt : val < 0x110000
deriving DecidableEq

/-- The code point with a number, which the callers keep in range. -/
def CodePoint.ofNat (n : ℕ) : CodePoint := ⟨n % 0x110000, Nat.mod_lt _ (by omega)⟩

/-- A Python `str`. -/
abbrev PyStr := List CodePoint

/-- Is the code point a surrogate? -/
def surrogate (p : CodePoint) : Prop := 0xD800 ≤ p.val ∧ p.val ≤ 0xDFFF

instance (p : CodePoint) : Decidable (surrogate p) := inferInstanceAs (Decidable (_ ∧ _))

/-- The code point of a character. -/
def codePoint (c : Char) : CodePoint := ⟨c.toNat, by
  have := c.valid
  simp only [UInt32.isValidChar, Nat.isValidChar] at this
  change c.val.toNat < _
  omega⟩

/-- Text as a Python `str`. -/
def pyStr (s : String) : PyStr := s.toList.map codePoint

/-- `_require_scalar_text`: the text, unless a code point is a surrogate. -/
def requireScalarText (s : PyStr) : Option String :=
  if ∃ p ∈ s, surrogate p then none else some (String.ofList (s.map fun p => Char.ofNat p.val))

theorem not_surrogate_codePoint (c : Char) : ¬ surrogate (codePoint c) := by
  have := c.valid
  simp only [UInt32.isValidChar, Nat.isValidChar] at this
  intro h
  have h1 : 0xD800 ≤ c.val.toNat := h.1
  have h2 : c.val.toNat ≤ 0xDFFF := h.2
  omega

@[simp] theorem requireScalarText_pyStr (s : String) : requireScalarText (pyStr s) = some s := by
  have hnone : ¬ ∃ p ∈ pyStr s, surrogate p := by
    rintro ⟨p, hp, hsur⟩
    obtain ⟨c, -, rfl⟩ := List.mem_map.mp hp
    exact not_surrogate_codePoint c hsur
  rw [requireScalarText, if_neg hnone, pyStr, List.map_map]
  have hid : (fun p : CodePoint => Char.ofNat p.val) ∘ codePoint = id := by
    funext c
    exact Char.ofNat_toNat c
  rw [hid, List.map_id, String.ofList_toList]

/-! ## Frozen values -/

/-- A frozen JSON value. -/
inductive PortableJson where
  | null
  | bool (b : Bool)
  | int (i : Signed64)
  | float (x : FiniteFloat)
  | str (s : String)
  | arr (items : List PortableJson)
  | obj (entries : List (String × PortableJson))

/-- The UTF-16 units of a character, big-endian, as bytes. -/
def utf16Bytes (c : Char) : List ℕ :=
  let n := c.toNat
  if n < 0x10000 then [n / 256, n % 256]
  else
    let hi := 0xD800 + (n - 0x10000) / 1024
    let lo := 0xDC00 + (n - 0x10000) % 1024
    [hi / 256, hi % 256, lo / 256, lo % 256]

/-- `_utf16_sort_key`. -/
def utf16SortKey (s : String) : List ℕ := s.toList.flatMap utf16Bytes

/-- The order an object's names stand in. -/
def nameLe (a b : String) : Prop := ¬ List.Lex (· < ·) (utf16SortKey b) (utf16SortKey a)

instance (a b : String) : Decidable (nameLe a b) := inferInstanceAs (Decidable (¬ _))

/-- `entries.sort(key=...)`. -/
def sortEntries {α : Type} (entries : List (String × α)) : List (String × α) :=
  entries.insertionSort fun a b => nameLe a.1 b.1

mutual

/-- Every object's names are distinct and in order. -/
def PortableJson.Ordered : PortableJson → Prop
  | .arr items => PortableJson.OrderedItems items
  | .obj entries =>
    (entries.map Prod.fst).Nodup ∧ entries.Pairwise (fun a b => nameLe a.1 b.1) ∧
      PortableJson.OrderedEntries entries
  | _ => True

def PortableJson.OrderedItems : List PortableJson → Prop
  | [] => True
  | v :: rest => v.Ordered ∧ PortableJson.OrderedItems rest

def PortableJson.OrderedEntries : List (String × PortableJson) → Prop
  | [] => True
  | (_, v) :: rest => v.Ordered ∧ PortableJson.OrderedEntries rest

end

/-- `PortableJsonObject`: a frozen object. -/
structure PortableJsonObject where
  entries : List (String × PortableJson)
  ordered : (PortableJson.obj entries).Ordered

namespace PortableJsonObject

/-- The object as a value. -/
def value (o : PortableJsonObject) : PortableJson := .obj o.entries

/-- `__getitem__` and `get`. -/
def get? (o : PortableJsonObject) (name : String) : Option PortableJson := o.entries.lookup name

/-- `set(self)`: the names. -/
def names (o : PortableJsonObject) : List String := o.entries.map Prod.fst

end PortableJsonObject

/-! ## Caller values -/

/-- A Python object handed to the codec, or returned by `json.loads`. -/
inductive PyVal where
  | none
  | bool (b : Bool)
  | int (i : ℤ)
  | float (x : Binary64)
  | str (s : PyStr)
  | seq (items : List PyVal)
  | dict (entries : List (PyStr × PyVal))
  | portable (o : PortableJsonObject)
  | unsupported

mutual

/-- The depth check of freezing an already frozen value again. -/
def PortableJson.within : PortableJson → ℕ → Bool
  | .arr items, room => 0 < room && PortableJson.withinItems items (room - 1)
  | .obj entries, room => 0 < room && PortableJson.withinEntries entries (room - 1)
  | _, _ => true

def PortableJson.withinItems : List PortableJson → ℕ → Bool
  | [], _ => true
  | v :: rest, room => v.within room && PortableJson.withinItems rest room

def PortableJson.withinEntries : List (String × PortableJson) → ℕ → Bool
  | [], _ => true
  | (_, v) :: rest, room => v.within room && PortableJson.withinEntries rest room

end

mutual

/-- `_freeze_json`, with the depth that is left instead of the depth reached. -/
def freezeJson : PyVal → ℕ → Option PortableJson
  | .none, _ => some .null
  | .bool b, _ => some (.bool b)
  | .int i, _ => if h : -2 ^ 63 ≤ i ∧ i ≤ 2 ^ 63 - 1 then some (.int ⟨i, h⟩) else none
  | .float x, _ => if h : x.Finite then some (.float ⟨x, h⟩) else none
  | .str s, _ => (requireScalarText s).map .str
  | .seq items, room => if room = 0 then none else (freezeItems items (room - 1)).map .arr
  | .dict entries, room =>
    if room = 0 then none
    else
      match freezeEntries entries (room - 1) with
      | some frozen =>
        if (frozen.map Prod.fst).Nodup then some (.obj (sortEntries frozen)) else none
      | none => none
  | .portable o, room => if o.value.within room then some o.value else none
  | .unsupported, _ => none

def freezeItems : List PyVal → ℕ → Option (List PortableJson)
  | [], _ => some []
  | v :: rest, room =>
    match freezeJson v room, freezeItems rest room with
    | some v, some rest => some (v :: rest)
    | _, _ => none

def freezeEntries : List (PyStr × PyVal) → ℕ → Option (List (String × PortableJson))
  | [], _ => some []
  | (name, v) :: rest, room =>
    match requireScalarText name, freezeJson v room, freezeEntries rest room with
    | some name, some v, some rest => some ((name, v) :: rest)
    | _, _, _ => none

end

/-- `freeze_portable_json`. -/
def freezePortableJson (v : PyVal) : Option PortableJson := freezeJson v MAX_JSON_DEPTH

mutual

/-- `_thaw_json`: tuples become lists and objects dictionaries. -/
def thawJson : PortableJson → PyVal
  | .null => .none
  | .bool b => .bool b
  | .int i => .int i.1
  | .float x => .float x.1
  | .str s => .str (pyStr s)
  | .arr items => .seq (thawItems items)
  | .obj entries => .dict (thawEntries entries)

def thawItems : List PortableJson → List PyVal
  | [] => []
  | v :: rest => thawJson v :: thawItems rest

def thawEntries : List (String × PortableJson) → List (PyStr × PyVal)
  | [] => []
  | (name, v) :: rest => (pyStr name, thawJson v) :: thawEntries rest

end

end Portable

end Aipcs

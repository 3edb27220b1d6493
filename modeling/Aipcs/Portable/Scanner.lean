import Aipcs.Portable.Number
import Mathlib.Tactic.Linarith

/-!
# Portable — text, written and scanned

The two sides of the codec at the level of text: `encodeJson` writes a
frozen value, `jsonLoads` is Python's JSON scanner with the decoder's
hooks, and `requireBoundedNesting` the bracket count that runs before
it. The scanner takes fuel for its nesting; `scanOnce_encodeJson` says
that the length of the text is enough, and that what is scanned is
`readBack`: the value itself, but for floats whose text spells an
integer.
-/

namespace Aipcs

namespace Portable

/-! ## Writing -/

/-- `_HEX`. -/
def hexDigit (n : ℕ) : Char := Nat.digitChar n

/-- One character of `_encode_string`. -/
def encodeChar (c : Char) : List Char :=
  if c = Char.ofNat 0x08 then ['\\', 'b']
  else if c = '\t' then ['\\', 't']
  else if c = '\n' then ['\\', 'n']
  else if c = Char.ofNat 0x0C then ['\\', 'f']
  else if c = '\r' then ['\\', 'r']
  else if c = '"' then ['\\', '"']
  else if c = '\\' then ['\\', '\\']
  else if c.toNat ≤ 0x1F then
    ['\\', 'u', '0', '0', hexDigit (c.toNat / 16), hexDigit (c.toNat % 16)]
  else [c]

/-- `_encode_string`. -/
def encodeString (s : String) : List Char := '"' :: (s.toList.flatMap encodeChar ++ ['"'])

/-- `",".join`. -/
def joinComma : List (List Char) → List Char
  | [] => []
  | [x] => x
  | x :: y :: rest => x ++ ',' :: joinComma (y :: rest)

mutual

/-- `_encode_json`. -/
def encodeJson : PortableJson → List Char
  | .null => ['n', 'u', 'l', 'l']
  | .bool true => ['t', 'r', 'u', 'e']
  | .bool false => ['f', 'a', 'l', 's', 'e']
  | .int i => intText i.1
  | .float x => encodeBinary64 x
  | .str s => encodeString s
  | .arr items => '[' :: (joinComma (encodeItems items) ++ [']'])
  | .obj entries => '{' :: (joinComma (encodeEntries entries) ++ ['}'])

def encodeItems : List PortableJson → List (List Char)
  | [] => []
  | v :: rest => encodeJson v :: encodeItems rest

def encodeEntries : List (String × PortableJson) → List (List Char)
  | [] => []
  | (name, v) :: rest => (encodeString name ++ ':' :: encodeJson v) :: encodeEntries rest

end

/-! ## The bracket count -/

/-- `_require_bounded_nesting`, from a state of its loop. -/
def nestingFrom : List Char → ℕ → Bool → Bool → Bool
  | [], depth, inString, escaped => !inString && !escaped && depth == 0
  | c :: rest, depth, true, escaped =>
    if escaped then nestingFrom rest depth true false
    else if c = '\\' then nestingFrom rest depth true true
    else if c = '"' then nestingFrom rest depth false false
    else nestingFrom rest depth true false
  | c :: rest, depth, false, escaped =>
    if c = '"' then nestingFrom rest depth true escaped
    else if c = '[' ∨ c = '{' then
      if depth + 1 > MAX_JSON_DEPTH then false else nestingFrom rest (depth + 1) false escaped
    else if c = ']' ∨ c = '}' then
      if depth = 0 then false else nestingFrom rest (depth - 1) false escaped
    else nestingFrom rest depth false escaped

/-- `_require_bounded_nesting`. -/
def requireBoundedNesting (text : List Char) : Bool := nestingFrom text 0 false false

/-! ## Scanning -/

/-- The white space between tokens. -/
def isSpace (c : Char) : Bool := c = ' ' || c = '\t' || c = '\n' || c = '\r'

def skipSpace (input : List Char) : List Char := input.dropWhile isSpace

/-- A hexadecimal digit, either case. -/
def hexValue (c : Char) : Option ℕ :=
  if isDigit c then some (c.toNat - '0'.toNat)
  else if 'a' ≤ c ∧ c ≤ 'f' then some (c.toNat - 'a'.toNat + 10)
  else if 'A' ≤ c ∧ c ≤ 'F' then some (c.toNat - 'A'.toNat + 10)
  else none

/-- The unit four hexadecimal digits spell. -/
def hexUnit (a b c d : Char) : Option CodePoint :=
  match hexValue a, hexValue b, hexValue c, hexValue d with
  | some a, some b, some c, some d => some (CodePoint.ofNat (a * 4096 + b * 256 + c * 16 + d))
  | _, _, _, _ => none

/-- The escapes of one letter. -/
def shortEscape (c : Char) : Option CodePoint :=
  if c = '"' then some (codePoint '"')
  else if c = '\\' then some (codePoint '\\')
  else if c = '/' then some (codePoint '/')
  else if c = 'b' then some (CodePoint.ofNat 0x08)
  else if c = 'f' then some (CodePoint.ofNat 0x0C)
  else if c = 'n' then some (CodePoint.ofNat 0x0A)
  else if c = 'r' then some (CodePoint.ofNat 0x0D)
  else if c = 't' then some (CodePoint.ofNat 0x09)
  else none

/-- One more unit in front of a scanned string. -/
def consUnit (p : Option CodePoint) (r : Option (PyStr × List Char)) :
    Option (PyStr × List Char) :=
  match p, r with
  | some p, some (s, rest) => some (p :: s, rest)
  | _, _ => none

/-- `scanstring` in strict mode, after the opening quote: the units up
to the closing quote, and what follows it. -/
def scanUnits : List Char → Option (PyStr × List Char)
  | [] => none
  | c :: rest =>
    if c = '"' then some ([], rest)
    else if c = '\\' then
      match rest with
      | [] => none
      | e :: rest =>
        if e = 'u' then
          match rest with
          | a :: b :: c :: d :: rest => consUnit (hexUnit a b c d) (scanUnits rest)
          | _ => none
        else consUnit (shortEscape e) (scanUnits rest)
    else if c.toNat ≤ 0x1F then none
    else consUnit (some (codePoint c)) (scanUnits rest)

/-- An escaped high surrogate and an escaped low one after it are one
code point. (Decoded text holds no surrogates of its own.) -/
def joinSurrogates : PyStr → PyStr
  | hi :: lo :: rest =>
    if (0xD800 ≤ hi.val ∧ hi.val ≤ 0xDBFF) ∧ 0xDC00 ≤ lo.val ∧ lo.val ≤ 0xDFFF then
      CodePoint.ofNat (0x10000 + (hi.val - 0xD800) * 1024 + (lo.val - 0xDC00)) :: joinSurrogates rest
    else hi :: joinSurrogates (lo :: rest)
  | s => s

/-- `scanstring`. -/
def scanString (input : List Char) : Option (PyStr × List Char) :=
  match scanUnits input with
  | some (s, rest) => some (joinSurrogates s, rest)
  | none => none

/-- `pairs`: an object's entries, unless a name stands twice. -/
def pairs (items : List (PyStr × PyVal)) : Option PyVal :=
  if (items.map Prod.fst).Nodup then some (.dict items) else none

mutual

/-- `scan_once`, with the decoder's hooks. The constants `NaN` and
`Infinity` are left out: the hook refuses them. -/
def scanOnce : ℕ → List Char → Option (PyVal × List Char)
  | 0, _ => none
  | fuel + 1, input =>
    match input with
    | '"' :: rest =>
      match scanString rest with
      | some (s, rest) => some (.str s, rest)
      | none => none
    | '{' :: rest =>
      match skipSpace rest with
      | '}' :: rest => some (.dict [], rest)
      | rest =>
        match scanMembers fuel rest with
        | some (items, rest) => (pairs items).map fun v => (v, rest)
        | none => none
    | '[' :: rest =>
      match skipSpace rest with
      | ']' :: rest => some (.seq [], rest)
      | rest =>
        match scanItems fuel rest with
        | some (items, rest) => some (.seq items, rest)
        | none => none
    | 'n' :: 'u' :: 'l' :: 'l' :: rest => some (.none, rest)
    | 't' :: 'r' :: 'u' :: 'e' :: rest => some (.bool true, rest)
    | 'f' :: 'a' :: 'l' :: 's' :: 'e' :: rest => some (.bool false, rest)
    | _ =>
      match scanNumber input with
      | some (l, rest) => (numberValue l).map fun v => (v, rest)
      | none => none

/-- `_parse_object`, from its first name. -/
def scanMembers : ℕ → List Char → Option (List (PyStr × PyVal) × List Char)
  | 0, _ => none
  | fuel + 1, input =>
    match input with
    | '"' :: rest =>
      match scanString rest with
      | some (name, rest) =>
        match skipSpace rest with
        | ':' :: rest =>
          match scanOnce fuel (skipSpace rest) with
          | some (v, rest) =>
            match skipSpace rest with
            | '}' :: rest => some ([(name, v)], rest)
            | ',' :: rest =>
              match scanMembers fuel (skipSpace rest) with
              | some (items, rest) => some ((name, v) :: items, rest)
              | none => none
            | _ => none
          | none => none
        | _ => none
      | none => none
    | _ => none

/-- `_parse_array`, from its first item. -/
def scanItems : ℕ → List Char → Option (List PyVal × List Char)
  | 0, _ => none
  | fuel + 1, input =>
    match scanOnce fuel input with
    | some (v, rest) =>
      match skipSpace rest with
      | ']' :: rest => some ([v], rest)
      | ',' :: rest =>
        match scanItems fuel (skipSpace rest) with
        | some (items, rest) => some (v :: items, rest)
        | none => none
      | _ => none
    | none => none

end

/-- `json.loads`: one value, with nothing but white space around it. -/
def jsonLoads (text : List Char) : Option PyVal :=
  match scanOnce (text.length + 1) (skipSpace text) with
  | some (v, rest) => if skipSpace rest = [] then some v else none
  | none => none

-- the equations are made here, once, for all the theorems that unfold these
attribute [local grind =] encodeChar scanUnits joinSurrogates nestingFrom scanOnce scanMembers scanItems

/-! ## Strings are scanned back -/

section Strings

variable {rest : List Char}

theorem scanUnits_quote : scanUnits ('"' :: rest) = some ([], rest) := by
  rw [scanUnits.eq_def]; rfl

theorem scanUnits_short {e : Char} (hu : e ≠ 'u') :
    scanUnits ('\\' :: e :: rest) = consUnit (shortEscape e) (scanUnits rest) := by
  rw [scanUnits.eq_def]
  simp only [show '\\' ≠ '"' by decide, if_false, if_true, hu]

theorem scanUnits_hex (a b c d : Char) :
    scanUnits ('\\' :: 'u' :: a :: b :: c :: d :: rest) =
      consUnit (hexUnit a b c d) (scanUnits rest) := by
  rw [scanUnits.eq_def]
  simp only [show '\\' ≠ '"' by decide, if_false, if_true]

theorem scanUnits_plain {c : Char} (hq : c ≠ '"') (hb : c ≠ '\\') (hc : ¬ c.toNat ≤ 0x1F) :
    scanUnits (c :: rest) = consUnit (some (codePoint c)) (scanUnits rest) := by
  rw [scanUnits.eq_def]
  simp only [hq, hb, hc, if_false]

/-- An escaped character is scanned back. -/
theorem scanUnits_encodeChar (c : Char) :
    scanUnits (encodeChar c ++ rest) = consUnit (some (codePoint c)) (scanUnits rest) := by
  have hshort : ∀ e : Char, e ≠ 'u' → shortEscape e = some (codePoint c) →
      scanUnits (['\\', e] ++ rest) = consUnit (some (codePoint c)) (scanUnits rest) := by
    intro e hu he
    rw [List.cons_append, List.singleton_append, scanUnits_short hu, he]
  unfold encodeChar
  split_ifs with h1 h2 h3 h4 h5 h6 h7 h8
  · exact hshort 'b' (by decide) (by rw [h1]; decide)
  · exact hshort 't' (by decide) (by rw [h2]; decide)
  · exact hshort 'n' (by decide) (by rw [h3]; decide)
  · exact hshort 'f' (by decide) (by rw [h4]; decide)
  · exact hshort 'r' (by decide) (by rw [h5]; decide)
  · exact hshort '"' (by decide) (by rw [h6]; decide)
  · exact hshort '\\' (by decide) (by rw [h7]; decide)
  · have hunit : hexUnit '0' '0' (hexDigit (c.toNat / 16)) (hexDigit (c.toNat % 16))
        = some (codePoint c) := by
      have hc : c = Char.ofNat c.toNat := (Char.ofNat_toNat c).symm
      generalize c.toNat = n at h8 hc
      subst hc
      interval_cases n <;> decide
    simp only [List.cons_append, List.nil_append]
    rw [scanUnits_hex, hunit]
  · rw [List.singleton_append, scanUnits_plain h6 h7 h8]

theorem scanUnits_encodeChars (cs : List Char) :
    scanUnits (cs.flatMap encodeChar ++ '"' :: rest) = some (cs.map codePoint, rest) := by
  induction cs with
  | nil => rw [List.flatMap_nil, List.nil_append, scanUnits_quote, List.map_nil]
  | cons c cs ih =>
    rw [List.flatMap_cons, List.append_assoc, scanUnits_encodeChar, ih, List.map_cons, consUnit]

/-- Scalar text has nothing to join. -/
theorem joinSurrogates_map (cs : List Char) :
    joinSurrogates (cs.map codePoint) = cs.map codePoint := by
  induction cs with
  | nil => rfl
  | cons c cs ih =>
    cases cs with
    | nil => rfl
    | cons d cs =>
      rw [List.map_cons, List.map_cons, joinSurrogates, if_neg, ← List.map_cons, ih]
      rintro ⟨⟨h1, h2⟩, -⟩
      exact not_surrogate_codePoint c ⟨h1, by omega⟩

/-- **An encoded string is scanned back.** -/
theorem scanString_encodeString (s : String) :
    ∃ body, encodeString s ++ rest = '"' :: body ∧ scanString body = some (pyStr s, rest) := by
  refine ⟨s.toList.flatMap encodeChar ++ '"' :: rest, by simp [encodeString], ?_⟩
  rw [scanString, scanUnits_encodeChars]
  simp only [joinSurrogates_map, pyStr]

theorem pyStr_injective : Function.Injective pyStr := fun s t h => by
  have := congrArg requireScalarText h
  rwa [requireScalarText_pyStr, requireScalarText_pyStr, Option.some.injEq] at this

end Strings

/-! ## Joined texts -/

/-- A joined list's text, one item at a time. -/
theorem joinComma_cons (x : List Char) (rest : List (List Char)) :
    joinComma (x :: rest) = x ++ (if rest = [] then [] else ',' :: joinComma rest) := by
  cases rest with
  | nil => simp [joinComma]
  | cons y rest => simp [joinComma]

theorem encodeItems_eq_nil {items : List PortableJson} : encodeItems items = [] ↔ items = [] := by
  cases items <;> simp [encodeItems]

theorem encodeEntries_eq_nil {entries : List (String × PortableJson)} :
    encodeEntries entries = [] ↔ entries = [] := by
  cases entries <;> simp [encodeEntries]

theorem encodeItems_text (v : PortableJson) (rest : List PortableJson) (tail : List Char) :
    joinComma (encodeItems (v :: rest)) ++ tail =
      encodeJson v ++ ((if rest = [] then [] else ',' :: joinComma (encodeItems rest)) ++ tail) := by
  rw [encodeItems, joinComma_cons, List.append_assoc]
  simp only [encodeItems_eq_nil]

theorem encodeEntries_text (name : String) (v : PortableJson) (rest : List (String × PortableJson))
    (tail : List Char) :
    joinComma (encodeEntries ((name, v) :: rest)) ++ tail =
      encodeString name ++ ':' :: (encodeJson v ++
        ((if rest = [] then [] else ',' :: joinComma (encodeEntries rest)) ++ tail)) := by
  rw [encodeEntries, joinComma_cons, List.append_assoc, List.append_assoc, List.cons_append]
  simp only [encodeEntries_eq_nil]

/-! ## The bracket count accepts a value's text -/

section Nesting

variable {rest : List Char} {depth : ℕ}

/-- Not counted outside of strings. -/
def uncounted (c : Char) : Bool := c ≠ '"' && c ≠ '[' && c ≠ '{' && c ≠ ']' && c ≠ '}'

theorem nestingFrom_uncounted (cs : List Char) (h : ∀ c ∈ cs, uncounted c = true) :
    nestingFrom (cs ++ rest) depth false false = nestingFrom rest depth false false := by
  induction cs with
  | nil => rfl
  | cons c cs ih =>
    have hc := h c List.mem_cons_self
    simp only [uncounted, Bool.and_eq_true, decide_eq_true_eq] at hc
    obtain ⟨⟨⟨⟨hq, hb⟩, hc⟩, hb'⟩, hc'⟩ := hc
    rw [List.cons_append, nestingFrom]
    simp only [hq, hb, hc, hb', hc', or_self, if_false]
    exact ih fun c hc => h c (List.mem_cons_of_mem _ hc)

theorem nestingFrom_number {l : Literal} (hl : l.WellFormed) :
    nestingFrom (l.text ++ rest) depth false false = nestingFrom rest depth false false := by
  refine nestingFrom_uncounted _ fun c hc => ?_
  rcases Literal.mem_text hl hc with hdigit | rfl | rfl | rfl | rfl
  · by_contra hcount
    simp only [uncounted, Bool.and_eq_true, decide_eq_true_eq, not_and_or, not_not] at hcount
    rcases hcount with (((rfl | rfl) | rfl) | rfl) | rfl <;> exact absurd hdigit (by decide)
  all_goals decide

/-- An escaped character leaves a string open. -/
theorem nestingFrom_encodeChar (c : Char) :
    nestingFrom (encodeChar c ++ rest) depth true false = nestingFrom rest depth true false := by
  have hescape : ∀ e : Char, nestingFrom ('\\' :: e :: rest) depth true false
      = nestingFrom rest depth true false := by
    intro e
    simp [nestingFrom]
  unfold encodeChar
  split_ifs with h1 h2 h3 h4 h5 h6 h7 h8
  · exact hescape _
  · exact hescape _
  · exact hescape _
  · exact hescape _
  · exact hescape _
  · exact hescape _
  · exact hescape _
  · have hhex : ∀ n < 16, hexDigit n ≠ '\\' ∧ hexDigit n ≠ '"' := by decide
    obtain ⟨ha, ha'⟩ := hhex (c.toNat / 16) (by omega)
    obtain ⟨hb, hb'⟩ := hhex (c.toNat % 16) (by omega)
    simp [nestingFrom, ha, ha', hb, hb']
  · simp [nestingFrom, h6, h7]

theorem nestingFrom_encodeString (s : String) :
    nestingFrom (encodeString s ++ rest) depth false false = nestingFrom rest depth false false := by
  have hchars : ∀ cs : List Char, nestingFrom (cs.flatMap encodeChar ++ '"' :: rest) depth true false
      = nestingFrom rest depth false false := by
    intro cs
    induction cs with
    | nil => simp [nestingFrom]
    | cons c cs ih => rw [List.flatMap_cons, List.append_assoc, nestingFrom_encodeChar, ih]
  rw [encodeString, List.cons_append, nestingFrom, if_pos rfl, List.append_assoc,
    List.singleton_append, hchars]

theorem nestingFrom_open {c : Char} (hc : c = '[' ∨ c = '{') (hdepth : depth + 1 ≤ MAX_JSON_DEPTH) :
    nestingFrom (c :: rest) depth false false = nestingFrom rest (depth + 1) false false := by
  rw [nestingFrom, if_neg (by rcases hc with rfl | rfl <;> decide), if_pos hc, if_neg (by omega)]

theorem nestingFrom_close {c : Char} (hc : c = ']' ∨ c = '}') :
    nestingFrom (c :: rest) (depth + 1) false false = nestingFrom rest depth false false := by
  rw [nestingFrom, if_neg (by rcases hc with rfl | rfl <;> decide),
    if_neg (by rcases hc with rfl | rfl <;> decide), if_pos hc, if_neg (by omega),
    Nat.add_sub_cancel]

theorem nestingFrom_comma (c : Char) (hc : c = ',' ∨ c = ':') :
    nestingFrom (c :: rest) depth false false = nestingFrom rest depth false false :=
  nestingFrom_uncounted [c] (by rcases hc with rfl | rfl <;> simp [uncounted])

end Nesting

mutual

/-- A value within its depth leaves the count where it was. -/
theorem nestingFrom_encodeJson : ∀ (v : PortableJson) (room depth : ℕ) (rest : List Char),
    v.within room = true → depth + room ≤ MAX_JSON_DEPTH →
      nestingFrom (encodeJson v ++ rest) depth false false = nestingFrom rest depth false false
  | .null, _, _, _, _, _ => nestingFrom_uncounted ['n', 'u', 'l', 'l'] (by simp [uncounted])
  | .bool true, _, _, _, _, _ => nestingFrom_uncounted ['t', 'r', 'u', 'e'] (by simp [uncounted])
  | .bool false, _, _, _, _, _ =>
    nestingFrom_uncounted ['f', 'a', 'l', 's', 'e'] (by simp [uncounted])
  | .int i, _, _, _, _, _ => by
    rw [encodeJson, ← intLiteral_text]
    exact nestingFrom_number (intLiteral_wellFormed _)
  | .float x, _, _, _, _, _ => by
    rw [encodeJson, encodeBinary64_eq_text]
    exact nestingFrom_number (canonicalLiteral_wellFormed _)
  | .str s, _, _, _, _, _ => by rw [encodeJson, nestingFrom_encodeString]
  | .arr items, room, depth, rest, hv, hroom => by
    simp only [PortableJson.within, Bool.and_eq_true, decide_eq_true_eq] at hv
    rw [encodeJson, List.cons_append, List.append_assoc, nestingFrom_open (Or.inl rfl) (by omega),
      nestingFrom_encodeItems items (room - 1) (depth + 1) _ hv.2 (by omega),
      List.singleton_append, nestingFrom_close (Or.inl rfl)]
  | .obj entries, room, depth, rest, hv, hroom => by
    simp only [PortableJson.within, Bool.and_eq_true, decide_eq_true_eq] at hv
    rw [encodeJson, List.cons_append, List.append_assoc, nestingFrom_open (Or.inr rfl) (by omega),
      nestingFrom_encodeEntries entries (room - 1) (depth + 1) _ hv.2 (by omega),
      List.singleton_append, nestingFrom_close (Or.inr rfl)]

theorem nestingFrom_encodeItems : ∀ (items : List PortableJson) (room depth : ℕ)
    (rest : List Char), PortableJson.withinItems items room = true →
      depth + room ≤ MAX_JSON_DEPTH →
        nestingFrom (joinComma (encodeItems items) ++ rest) depth false false =
          nestingFrom rest depth false false
  | [], _, _, _, _, _ => rfl
  | v :: items, room, depth, rest, hv, hroom => by
    simp only [PortableJson.withinItems, Bool.and_eq_true] at hv
    rw [encodeItems_text, nestingFrom_encodeJson v room depth _ hv.1 hroom]
    split_ifs with hnil
    · rfl
    · rw [List.cons_append, nestingFrom_comma ',' (Or.inl rfl),
        nestingFrom_encodeItems items room depth rest hv.2 hroom]

theorem nestingFrom_encodeEntries : ∀ (entries : List (String × PortableJson)) (room depth : ℕ)
    (rest : List Char), PortableJson.withinEntries entries room = true →
      depth + room ≤ MAX_JSON_DEPTH →
        nestingFrom (joinComma (encodeEntries entries) ++ rest) depth false false =
          nestingFrom rest depth false false
  | [], _, _, _, _, _ => rfl
  | (name, v) :: entries, room, depth, rest, hv, hroom => by
    simp only [PortableJson.withinEntries, Bool.and_eq_true] at hv
    rw [encodeEntries_text, nestingFrom_encodeString, nestingFrom_comma ':' (Or.inr rfl),
      nestingFrom_encodeJson v room depth _ hv.1 hroom]
    split_ifs with hnil
    · rfl
    · rw [List.cons_append, nestingFrom_comma ',' (Or.inl rfl),
        nestingFrom_encodeEntries entries room depth rest hv.2 hroom]

end

/-- **The bracket count accepts every value within the depth bound.** -/
theorem requireBoundedNesting_encodeJson {v : PortableJson} (hv : v.within MAX_JSON_DEPTH = true) :
    requireBoundedNesting (encodeJson v) = true := by
  have h := nestingFrom_encodeJson v MAX_JSON_DEPTH 0 [] hv (by omega)
  rw [List.append_nil] at h
  rw [requireBoundedNesting, h]
  rfl

end Portable

end Aipcs

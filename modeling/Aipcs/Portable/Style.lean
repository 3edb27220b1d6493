import Aipcs.Portable.Scanner

/-!
# Portable — printed values are scanned back

`JsonStyle` is a way to print JSON: how it spells strings and floats,
both of which the scanner takes back. Whatever is printed in a style,
`jsonLoads` reads as what its leaves are read as (`jsonLoads_print`). The
codec's canonical text is one style; Python's `json.dumps`, which spells
floats another way, is a second.
-/

namespace Aipcs

namespace Portable

/-! ## Styles -/

/-- How a printer spells strings and floats. -/
structure JsonStyle where
  string : String → List Char
  float : FiniteFloat → Literal
  scanned : ∀ (s : String) (rest : List Char),
    ∃ body, string s ++ rest = '"' :: body ∧ scanString body = some (pyStr s, rest)
  wellFormed : ∀ x, (float x).WellFormed

namespace JsonStyle

variable (style : JsonStyle)

mutual

/-- A value printed. -/
def print : PortableJson → List Char
  | .null => ['n', 'u', 'l', 'l']
  | .bool true => ['t', 'r', 'u', 'e']
  | .bool false => ['f', 'a', 'l', 's', 'e']
  | .int i => intText i.1
  | .float x => (style.float x).text
  | .str s => style.string s
  | .arr items => '[' :: (joinComma (printItems items) ++ [']'])
  | .obj entries => '{' :: (joinComma (printEntries entries) ++ ['}'])

def printItems : List PortableJson → List (List Char)
  | [] => []
  | v :: rest => print v :: printItems rest

def printEntries : List (String × PortableJson) → List (List Char)
  | [] => []
  | (name, v) :: rest => (style.string name ++ ':' :: print v) :: printEntries rest

end

mutual

/-- What `json.loads` returns for a value's text. -/
def read : PortableJson → Option PyVal
  | .null => some .none
  | .bool b => some (.bool b)
  | .int i => some (.int i.1)
  | .float x => numberValue (style.float x)
  | .str s => some (.str (pyStr s))
  | .arr items => (readItems items).map .seq
  | .obj entries => (readEntries entries).map .dict

def readItems : List PortableJson → Option (List PyVal)
  | [] => some []
  | v :: rest =>
    match read v, readItems rest with
    | some v, some rest => some (v :: rest)
    | _, _ => none

def readEntries : List (String × PortableJson) → Option (List (PyStr × PyVal))
  | [] => some []
  | (name, v) :: rest =>
    match read v, readEntries rest with
    | some v, some rest => some ((pyStr name, v) :: rest)
    | _, _ => none

end

variable {style}

theorem readEntries_names {entries : List (String × PortableJson)} {d : List (PyStr × PyVal)}
    (h : style.readEntries entries = some d) : d.map Prod.fst = (entries.map Prod.fst).map pyStr := by
  induction entries generalizing d with
  | nil => obtain rfl := Option.some.inj h; rfl
  | cons e entries ih =>
    obtain ⟨name, v⟩ := e
    rw [readEntries] at h
    cases hv : style.read v with
    | none => rw [hv] at h; exact absurd h (by simp)
    | some w =>
      cases hr : style.readEntries entries with
      | none => rw [hv, hr] at h; exact absurd h (by simp)
      | some r =>
        rw [hv, hr] at h
        obtain rfl := Option.some.inj h
        rw [List.map_cons, ih hr, List.map_cons, List.map_cons]

end JsonStyle

mutual

/-- Every object in the value has distinct names. -/
def PortableJson.Distinct : PortableJson → Prop
  | .arr items => PortableJson.DistinctItems items
  | .obj entries => (entries.map Prod.fst).Nodup ∧ PortableJson.DistinctEntries entries
  | _ => True

def PortableJson.DistinctItems : List PortableJson → Prop
  | [] => True
  | v :: rest => v.Distinct ∧ PortableJson.DistinctItems rest

def PortableJson.DistinctEntries : List (String × PortableJson) → Prop
  | [] => True
  | (_, v) :: rest => v.Distinct ∧ PortableJson.DistinctEntries rest

end

/-! ## Numbers -/

/-- The first character of a number's text. -/
theorem Literal.text_head {l : Literal} (hl : l.WellFormed) :
    ∃ c rest, l.text = c :: rest ∧ (c = '-' ∨ isDigit c = true) := by
  obtain ⟨neg, int, frac, exp⟩ := l
  obtain ⟨c, ds, rfl⟩ : ∃ c ds, int = c :: ds := List.exists_cons_of_ne_nil hl.int.1
  cases neg with
  | true => exact ⟨'-', _, rfl, Or.inl rfl⟩
  | false => exact ⟨c, _, rfl, Or.inr (hl.int.2 c (by simp))⟩

/-- A number is scanned back. -/
theorem scanOnce_number {l : Literal} (hl : l.WellFormed) {rest : List Char}
    (hrest : EndsNumber rest) (fuel : ℕ) :
    scanOnce (fuel + 1) (l.text ++ rest) = (numberValue l).map fun v => (v, rest) := by
  obtain ⟨c, more, htext, hc⟩ := Literal.text_head hl
  have hne : ∀ d : Char, d ≠ '-' → isDigit d = false → ∀ tail, l.text ++ rest ≠ d :: tail := by
    intro d hd hdigit tail h
    rw [htext, List.cons_append] at h
    obtain ⟨rfl, -⟩ := List.cons.inj h
    rcases hc with rfl | hc
    · exact hd rfl
    · rw [hc] at hdigit; exact absurd hdigit (by simp)
  rw [scanOnce.eq_def]
  dsimp only
  split
  · next h => exact absurd h (hne '"' (by decide) (by decide) _)
  · next h => exact absurd h (hne '{' (by decide) (by decide) _)
  · next h => exact absurd h (hne '[' (by decide) (by decide) _)
  · next h => exact absurd h (hne 'n' (by decide) (by decide) _)
  · next h => exact absurd h (hne 't' (by decide) (by decide) _)
  · next h => exact absurd h (hne 'f' (by decide) (by decide) _)
  · rw [scanNumber_text hl hrest]

theorem skipSpace_cons {c : Char} (hc : isSpace c = false) (rest : List Char) :
    skipSpace (c :: rest) = c :: rest :=
  List.dropWhile_cons_of_neg (by simp [hc])

theorem endsNumber_cons {c : Char} (hc : c = ',' ∨ c = ']' ∨ c = '}') (rest : List Char) :
    EndsNumber (c :: rest) := by
  intro d hd
  obtain rfl : c = d := by simpa using hd
  rcases hc with rfl | rfl | rfl <;> decide

namespace JsonStyle

variable {style : JsonStyle}

/-! ## Texts -/

/-- A string's text starts with a quote. -/
theorem string_cons (s : String) : ∃ more, style.string s = '"' :: more := by
  obtain ⟨body, htext, -⟩ := style.scanned s []
  rw [List.append_nil] at htext
  exact ⟨body, htext⟩

/-- A value's text starts with neither white space nor a closing
bracket. -/
theorem print_head (v : PortableJson) :
    ∃ c rest, style.print v = c :: rest ∧ isSpace c = false ∧ c ≠ ']' := by
  have hnumber : ∀ l : Literal, l.WellFormed →
      ∃ c rest, l.text = c :: rest ∧ isSpace c = false ∧ c ≠ ']' := by
    intro l hl
    obtain ⟨c, rest, htext, hc⟩ := Literal.text_head hl
    refine ⟨c, rest, htext, ?_, ?_⟩
    · rcases hc with rfl | hc
      · decide
      · by_contra hs
        simp only [isSpace, Bool.not_eq_false, Bool.or_eq_true, decide_eq_true_eq] at hs
        rcases hs with ((rfl | rfl) | rfl) | rfl <;> exact absurd hc (by decide)
    · rintro rfl
      rcases hc with h | h
      · exact absurd h (by decide)
      · exact absurd h (by decide)
  cases v with
  | null => exact ⟨'n', _, rfl, by decide, by decide⟩
  | bool b =>
    cases b with
    | true => exact ⟨'t', _, rfl, by decide, by decide⟩
    | false => exact ⟨'f', _, rfl, by decide, by decide⟩
  | int i =>
    rw [print, ← intLiteral_text]
    exact hnumber _ (intLiteral_wellFormed _)
  | float x =>
    rw [print]
    exact hnumber _ (style.wellFormed _)
  | str s =>
    obtain ⟨more, htext⟩ := @string_cons style s
    exact ⟨'"', more, by rw [print, htext], by decide, by decide⟩
  | arr items => exact ⟨'[', _, rfl, by decide, by decide⟩
  | obj entries => exact ⟨'{', _, rfl, by decide, by decide⟩

theorem skipSpace_print (v : PortableJson) (rest : List Char) :
    skipSpace (style.print v ++ rest) = style.print v ++ rest := by
  obtain ⟨c, more, htext, hc, -⟩ := @print_head style v
  rw [htext, List.cons_append, skipSpace_cons hc]

theorem printItems_eq_nil {items : List PortableJson} : style.printItems items = [] ↔ items = [] := by
  cases items <;> simp [printItems]

theorem printEntries_eq_nil {entries : List (String × PortableJson)} :
    style.printEntries entries = [] ↔ entries = [] := by
  cases entries <;> simp [printEntries]

theorem printItems_text (v : PortableJson) (rest : List PortableJson) (tail : List Char) :
    joinComma (style.printItems (v :: rest)) ++ tail =
      style.print v ++
        ((if rest = [] then [] else ',' :: joinComma (style.printItems rest)) ++ tail) := by
  rw [printItems, joinComma_cons, List.append_assoc]
  simp only [printItems_eq_nil]

theorem printEntries_text (name : String) (v : PortableJson) (rest : List (String × PortableJson))
    (tail : List Char) :
    joinComma (style.printEntries ((name, v) :: rest)) ++ tail =
      style.string name ++ ':' :: (style.print v ++
        ((if rest = [] then [] else ',' :: joinComma (style.printEntries rest)) ++ tail)) := by
  rw [printEntries, joinComma_cons, List.append_assoc, List.append_assoc, List.cons_append]
  simp only [printEntries_eq_nil]

end JsonStyle

/-! ## One constructor at a time -/

section Steps

variable {style : JsonStyle} {fuel : ℕ} {rest : List Char}

-- the scanner's equations, unfolded once for all that follows
attribute [local simp] scanOnce.eq_def scanItems.eq_1 scanItems.eq_2 scanMembers.eq_1 scanMembers.eq_2

theorem scanOnce_string (s : String) :
    scanOnce (fuel + 1) (style.string s ++ rest) = some (.str (pyStr s), rest) := by
  obtain ⟨body, htext, hscan⟩ := style.scanned s rest
  rw [htext, scanOnce.eq_def]
  simp only [hscan]

theorem scanOnce_arr_nil : scanOnce (fuel + 1) ('[' :: ']' :: rest) = some (.seq [], rest) := by
  rw [scanOnce.eq_def]
  simp only [skipSpace_cons (c := ']') (by decide)]

theorem scanOnce_obj_nil : scanOnce (fuel + 1) ('{' :: '}' :: rest) = some (.dict [], rest) := by
  rw [scanOnce.eq_def]
  simp only [skipSpace_cons (c := '}') (by decide)]

theorem scanOnce_arr {c : Char} (hspace : isSpace c = false) (hc : c ≠ ']') :
    scanOnce (fuel + 1) ('[' :: c :: rest) =
      (scanItems fuel (c :: rest)).map fun r => (.seq r.1, r.2) := by
  rw [scanOnce.eq_def]
  simp only [skipSpace_cons hspace]
  split
  · next h => exact absurd (List.cons.inj h).1 hc
  · cases scanItems fuel (c :: rest) <;> rfl

theorem scanOnce_obj :
    scanOnce (fuel + 1) ('{' :: '"' :: rest) =
      (scanMembers fuel ('"' :: rest)).bind fun r => (pairs r.1).map fun v => (v, r.2) := by
  rw [scanOnce.eq_def]
  simp only [skipSpace_cons (c := '"') (by decide)]
  split
  · next h => exact absurd (List.cons.inj h).1 (by decide)
  · cases scanMembers fuel ('"' :: rest) <;> rfl

/-- The last item of an array. -/
theorem scanItems_last {input : List Char} {r : Option PyVal}
    (h : scanOnce fuel input = r.map fun v => (v, ']' :: rest)) :
    scanItems (fuel + 1) input = r.map fun v => ([v], rest) := by
  rw [scanItems, h]
  cases r with
  | none => rfl
  | some v => simp only [Option.map_some, skipSpace_cons (c := ']') (by decide)]

/-- An item and a comma. -/
theorem scanItems_more {input more : List Char} {r : Option PyVal}
    (h : scanOnce fuel input = r.map fun v => (v, ',' :: more)) (hmore : skipSpace more = more) :
    scanItems (fuel + 1) input =
      r.bind fun v => (scanItems fuel more).map fun q => (v :: q.1, q.2) := by
  rw [scanItems, h]
  cases r with
  | none => rfl
  | some v =>
    simp only [Option.map_some, skipSpace_cons (c := ',') (by decide), hmore, Option.bind_some]
    cases scanItems fuel more <;> rfl

variable {name : String} {value more : List Char} {r : Option PyVal}

/-- The last member of an object. -/
theorem scanMembers_last (hvalue : skipSpace value = value)
    (h : scanOnce fuel value = r.map fun v => (v, '}' :: rest)) :
    scanMembers (fuel + 1) (style.string name ++ ':' :: value) =
      r.map fun v => ([(pyStr name, v)], rest) := by
  obtain ⟨body, htext, hscan⟩ := style.scanned name (':' :: value)
  rw [htext, scanMembers, hscan]
  simp only [skipSpace_cons (c := ':') (by decide), hvalue, h]
  cases r with
  | none => rfl
  | some v => simp only [Option.map_some, skipSpace_cons (c := '}') (by decide)]

/-- A member and a comma. -/
theorem scanMembers_more (hvalue : skipSpace value = value)
    (h : scanOnce fuel value = r.map fun v => (v, ',' :: more)) (hmore : skipSpace more = more) :
    scanMembers (fuel + 1) (style.string name ++ ':' :: value) =
      r.bind fun v => (scanMembers fuel more).map fun q => ((pyStr name, v) :: q.1, q.2) := by
  obtain ⟨body, htext, hscan⟩ := style.scanned name (':' :: value)
  rw [htext, scanMembers, hscan]
  simp only [skipSpace_cons (c := ':') (by decide), hvalue, h]
  cases r with
  | none => rfl
  | some v =>
    simp only [Option.map_some, skipSpace_cons (c := ',') (by decide), hmore, Option.bind_some]
    cases scanMembers fuel more <;> rfl

end Steps

namespace JsonStyle

variable {style : JsonStyle}

/-! ## Values -/

mutual

/-- **A value's text is scanned back**, with fuel for its length, and
whatever follows it that cannot extend a number. -/
theorem scanOnce_print : ∀ (v : PortableJson), v.Distinct → ∀ (fuel : ℕ) (rest : List Char),
    (style.print v).length ≤ fuel → EndsNumber rest →
      scanOnce fuel (style.print v ++ rest) = (style.read v).map fun w => (w, rest)
  | v, hv, 0, rest, hfuel, _ => by
    obtain ⟨c, more, htext, -⟩ := @print_head style v
    rw [htext] at hfuel
    exact absurd hfuel (by simp)
  | .null, _, fuel + 1, rest, _, _ => by rw [scanOnce.eq_def]; rfl
  | .bool true, _, fuel + 1, rest, _, _ => by rw [scanOnce.eq_def]; rfl
  | .bool false, _, fuel + 1, rest, _, _ => by rw [scanOnce.eq_def]; rfl
  | .int i, _, fuel + 1, rest, _, hrest => by
    rw [print, ← intLiteral_text, scanOnce_number (intLiteral_wellFormed _) hrest,
      numberValue_intLiteral, read]
  | .float x, _, fuel + 1, rest, _, hrest => by
    rw [print, scanOnce_number (style.wellFormed _) hrest, read]
  | .str s, _, fuel + 1, rest, _, _ => by rw [print, scanOnce_string, read]; rfl
  | .arr [], _, fuel + 1, rest, _, _ => scanOnce_arr_nil
  | .arr (v :: items), hv, fuel + 1, rest, hfuel, _ => by
    have hitems := scanItems_printItems v items hv fuel rest (by
      simpa [print] using hfuel)
    obtain ⟨c, more, htext, hspace, hc⟩ := @print_head style v
    rw [print, List.cons_append, List.append_assoc, List.singleton_append]
    have hcons := @printItems_text style v items (']' :: rest)
    rw [htext, List.cons_append] at hcons
    rw [hcons, scanOnce_arr hspace hc, ← hcons, hitems, read]
    cases style.readItems (v :: items) <;> rfl
  | .obj [], _, fuel + 1, rest, _, _ => scanOnce_obj_nil
  | .obj ((name, v) :: entries), hv, fuel + 1, rest, hfuel, _ => by
    obtain ⟨hnodup, hentries⟩ := hv
    have hmembers := scanMembers_printEntries name v entries hentries fuel rest (by
      simpa [print] using hfuel)
    obtain ⟨more, htext⟩ := @string_cons style name
    rw [print, List.cons_append, List.append_assoc, List.singleton_append]
    have hcons := @printEntries_text style name v entries ('}' :: rest)
    rw [htext, List.cons_append] at hcons
    rw [hcons, scanOnce_obj, ← hcons, hmembers, read]
    cases hread : style.readEntries ((name, v) :: entries) with
    | none => rfl
    | some d =>
      have hd : (d.map Prod.fst).Nodup := by
        rw [readEntries_names hread]
        exact hnodup.map pyStr_injective
      rw [Option.map_some, Option.bind_some, pairs, if_pos hd]
      rfl

theorem scanItems_printItems : ∀ (v : PortableJson) (items : List PortableJson),
    PortableJson.DistinctItems (v :: items) → ∀ (fuel : ℕ) (rest : List Char),
      (joinComma (style.printItems (v :: items)) ++ [']']).length ≤ fuel →
        scanItems fuel (joinComma (style.printItems (v :: items)) ++ ']' :: rest) =
          (style.readItems (v :: items)).map fun w => (w, rest)
  | v, items, _, 0, rest, hfuel => absurd hfuel (by simp)
  | v, [], hv, fuel + 1, rest, hfuel => by
    rw [printItems_text] at hfuel ⊢
    have hlen : (style.print v).length ≤ fuel := by simpa using hfuel
    rw [if_pos rfl, List.nil_append,
      scanItems_last (scanOnce_print v hv.1 fuel _ hlen (endsNumber_cons (by simp) _)),
      readItems]
    cases style.read v <;> rfl
  | v, w :: items, hv, fuel + 1, rest, hfuel => by
    rw [printItems_text] at hfuel ⊢
    rw [if_neg (by simp)] at hfuel ⊢
    have hlen : (style.print v).length ≤ fuel := by
      simp only [List.length_append, List.length_cons] at hfuel; omega
    have hlen' : (joinComma (style.printItems (w :: items)) ++ [']']).length ≤ fuel := by
      simp only [List.length_append, List.length_cons] at hfuel ⊢; omega
    have hmore : skipSpace (joinComma (style.printItems (w :: items)) ++ ']' :: rest)
        = joinComma (style.printItems (w :: items)) ++ ']' :: rest := by
      rw [printItems_text, skipSpace_print]
    rw [List.cons_append, scanItems_more
      (scanOnce_print v hv.1 fuel _ hlen (endsNumber_cons (by simp) _)) hmore,
      scanItems_printItems w items hv.2 fuel rest hlen']
    conv_rhs => rw [readItems]
    cases style.read v with
    | none => rfl
    | some _ => cases style.readItems (w :: items) <;> rfl

theorem scanMembers_printEntries : ∀ (name : String) (v : PortableJson)
    (entries : List (String × PortableJson)), PortableJson.DistinctEntries ((name, v) :: entries) →
      ∀ (fuel : ℕ) (rest : List Char),
        (joinComma (style.printEntries ((name, v) :: entries)) ++ ['}']).length ≤ fuel →
          scanMembers fuel (joinComma (style.printEntries ((name, v) :: entries)) ++ '}' :: rest) =
            (style.readEntries ((name, v) :: entries)).map fun w => (w, rest)
  | name, v, entries, _, 0, rest, hfuel => absurd hfuel (by simp)
  | name, v, [], hv, fuel + 1, rest, hfuel => by
    rw [printEntries_text] at hfuel ⊢
    have hlen : (style.print v).length ≤ fuel := by
      simp only [List.length_append, List.length_cons] at hfuel; omega
    rw [if_pos rfl, List.nil_append, scanMembers_last (skipSpace_print v _)
      (scanOnce_print v hv.1 fuel _ hlen (endsNumber_cons (by simp) _)), readEntries]
    cases style.read v <;> rfl
  | name, v, (name', w) :: entries, hv, fuel + 1, rest, hfuel => by
    rw [printEntries_text] at hfuel ⊢
    rw [if_neg (by simp)] at hfuel ⊢
    have hlen : (style.print v).length ≤ fuel := by
      simp only [List.length_append, List.length_cons] at hfuel; omega
    have hlen' : (joinComma (style.printEntries ((name', w) :: entries)) ++ ['}']).length ≤ fuel := by
      simp only [List.length_append, List.length_cons] at hfuel ⊢; omega
    have hmore : skipSpace (joinComma (style.printEntries ((name', w) :: entries)) ++ '}' :: rest)
        = joinComma (style.printEntries ((name', w) :: entries)) ++ '}' :: rest := by
      obtain ⟨more, htext⟩ := @string_cons style name'
      rw [printEntries_text, htext, List.cons_append, skipSpace_cons (by decide)]
    rw [List.cons_append, scanMembers_more (skipSpace_print v _)
      (scanOnce_print v hv.1 fuel _ hlen (endsNumber_cons (by simp) _)) hmore,
      scanMembers_printEntries name' w entries hv.2 fuel rest hlen']
    conv_rhs => rw [readEntries]
    cases style.read v with
    | none => rfl
    | some _ => cases style.readEntries ((name', w) :: entries) <;> rfl

end

/-- **`json.loads` of a value's text.** -/
theorem jsonLoads_print {v : PortableJson} (hv : v.Distinct) :
    jsonLoads (style.print v) = style.read v := by
  have hscan := @scanOnce_print style v hv ((style.print v).length + 1) [] (by omega)
    (by intro c hc; exact absurd hc (by simp))
  have hskip := @skipSpace_print style v []
  rw [List.append_nil] at hscan hskip
  rw [jsonLoads, hskip, hscan]
  cases style.read v with
  | none => rfl
  | some w => simp [skipSpace]

end JsonStyle

/-! ## The canonical style -/

/-- The style of `_encode_json`. -/
def canonicalStyle : JsonStyle where
  string := encodeString
  float := canonicalLiteral
  scanned := fun s rest => @scanString_encodeString rest s
  wellFormed := canonicalLiteral_wellFormed

mutual

/-- What `json.loads` returns for a frozen value's text. -/
def readBack : PortableJson → Option PyVal
  | .null => some .none
  | .bool b => some (.bool b)
  | .int i => some (.int i.1)
  | .float x => numberValue (canonicalLiteral x)
  | .str s => some (.str (pyStr s))
  | .arr items => (readItems items).map .seq
  | .obj entries => (readEntries entries).map .dict

def readItems : List PortableJson → Option (List PyVal)
  | [] => some []
  | v :: rest =>
    match readBack v, readItems rest with
    | some v, some rest => some (v :: rest)
    | _, _ => none

def readEntries : List (String × PortableJson) → Option (List (PyStr × PyVal))
  | [] => some []
  | (name, v) :: rest =>
    match readBack v, readEntries rest with
    | some v, some rest => some ((pyStr name, v) :: rest)
    | _, _ => none

end

mutual

theorem print_canonicalStyle : ∀ v : PortableJson, canonicalStyle.print v = encodeJson v
  | .null => rfl
  | .bool true => rfl
  | .bool false => rfl
  | .int _ => rfl
  | .float x => (encodeBinary64_eq_text x).symm
  | .str _ => rfl
  | .arr items => by rw [JsonStyle.print, encodeJson, printItems_canonicalStyle items]
  | .obj entries => by rw [JsonStyle.print, encodeJson, printEntries_canonicalStyle entries]

theorem printItems_canonicalStyle : ∀ items : List PortableJson,
    canonicalStyle.printItems items = encodeItems items
  | [] => rfl
  | v :: rest => by
    rw [JsonStyle.printItems, encodeItems, print_canonicalStyle v, printItems_canonicalStyle rest]

theorem printEntries_canonicalStyle : ∀ entries : List (String × PortableJson),
    canonicalStyle.printEntries entries = encodeEntries entries
  | [] => rfl
  | (name, v) :: rest => by
    rw [JsonStyle.printEntries, encodeEntries, print_canonicalStyle v, printEntries_canonicalStyle rest]
    rfl

end

mutual

theorem read_canonicalStyle : ∀ v : PortableJson, canonicalStyle.read v = readBack v
  | .null => rfl
  | .bool _ => rfl
  | .int _ => rfl
  | .float _ => rfl
  | .str _ => rfl
  | .arr items => by rw [JsonStyle.read, readBack, readItems_canonicalStyle items]
  | .obj entries => by rw [JsonStyle.read, readBack, readEntries_canonicalStyle entries]

theorem readItems_canonicalStyle : ∀ items : List PortableJson,
    canonicalStyle.readItems items = readItems items
  | [] => rfl
  | v :: rest => by
    rw [JsonStyle.readItems, readItems, read_canonicalStyle v, readItems_canonicalStyle rest]

theorem readEntries_canonicalStyle : ∀ entries : List (String × PortableJson),
    canonicalStyle.readEntries entries = readEntries entries
  | [] => rfl
  | (name, v) :: rest => by
    rw [JsonStyle.readEntries, readEntries, read_canonicalStyle v, readEntries_canonicalStyle rest]

end

mutual

/-- What is in order is distinct. -/
theorem PortableJson.Ordered.distinct : ∀ {v : PortableJson}, v.Ordered → v.Distinct
  | .null, _ => trivial
  | .bool _, _ => trivial
  | .int _, _ => trivial
  | .float _, _ => trivial
  | .str _, _ => trivial
  | .arr _, h => PortableJson.OrderedItems.distinct h
  | .obj _, ⟨hnodup, _, hentries⟩ => ⟨hnodup, PortableJson.OrderedEntries.distinct hentries⟩

theorem PortableJson.OrderedItems.distinct : ∀ {items : List PortableJson},
    PortableJson.OrderedItems items → PortableJson.DistinctItems items
  | [], _ => trivial
  | _ :: _, ⟨hv, hrest⟩ => ⟨hv.distinct, PortableJson.OrderedItems.distinct hrest⟩

theorem PortableJson.OrderedEntries.distinct : ∀ {entries : List (String × PortableJson)},
    PortableJson.OrderedEntries entries → PortableJson.DistinctEntries entries
  | [], _ => trivial
  | (_, _) :: _, ⟨hv, hrest⟩ => ⟨hv.distinct, PortableJson.OrderedEntries.distinct hrest⟩

end

/-- A canonical text starts with neither white space nor a closing bracket. -/
theorem encodeJson_head (v : PortableJson) :
    ∃ c rest, encodeJson v = c :: rest ∧ isSpace c = false ∧ c ≠ ']' := by
  rw [← print_canonicalStyle]
  exact JsonStyle.print_head v

/-- **`json.loads` of a canonical text.** -/
theorem jsonLoads_encodeJson {v : PortableJson} (hv : v.Ordered) :
    jsonLoads (encodeJson v) = readBack v := by
  rw [← print_canonicalStyle, JsonStyle.jsonLoads_print hv.distinct, read_canonicalStyle]

end Portable

end Aipcs

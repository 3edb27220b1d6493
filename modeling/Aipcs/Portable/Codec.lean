import Aipcs.Portable.Style

/-!
# Portable — the canonical JSON codec

`canonicalJsonBytes` freezes a value and writes it;
`decodeCanonicalJsonObject` scans bytes, freezes what it scanned and
accepts it only if it is written back as the same bytes. So acceptance
is exact by construction. What decoding returns for bytes that encoding
wrote is `settle`: the object, with the integers its floats spell in
place of those floats, or nothing if one of those integers is out of
range.

The round trip the codec promises therefore holds exactly for the
objects all of whose floats are `SpelledExactly`
(`codec_roundTrip_iff`).
-/

namespace Aipcs

namespace Portable

/-! ## Bytes -/

/-- `encode("utf-8")`. -/
def utf8Encode (text : List Char) : List UInt8 := text.flatMap String.utf8EncodeChar

/-- `decode("utf-8", errors="strict")`. -/
def utf8Decode (bytes : List UInt8) : Option (List Char) :=
  bytes.toByteArray.utf8Decode?.map Array.toList

@[simp] theorem utf8Decode_utf8Encode (text : List Char) : utf8Decode (utf8Encode text) = some text := by
  have h := List.utf8Decode?_utf8Encode (l := text)
  rw [List.utf8Encode] at h
  rw [utf8Decode, utf8Encode, h, Option.map_some]

theorem utf8Encode_injective : Function.Injective utf8Encode := fun s t h => by
  have := congrArg utf8Decode h
  rwa [utf8Decode_utf8Encode, utf8Decode_utf8Encode, Option.some.injEq] at this

/-- Bytes are those of the text they decode to. -/
theorem utf8Encode_of_utf8Decode {bytes : List UInt8} {text : List Char} (h : utf8Decode bytes = some text) :
    utf8Encode text = bytes := by
  obtain ⟨chars, hchars, rfl⟩ := Option.map_eq_some_iff.1 h
  have hsome : bytes.toByteArray.utf8Decode?.isSome = true := by rw [hchars, Option.isSome_some]
  have hget := ByteArray.utf8Encode_get_utf8Decode? (h := hsome)
  simp only [hchars, Option.get_some, List.utf8Encode] at hget
  exact List.toByteArray_inj.1 hget

theorem length_le_utf8Encode (text : List Char) : text.length ≤ (utf8Encode text).length := by
  induction text with
  | nil => exact Nat.zero_le _
  | cons c text ih =>
    have hc := c.utf8Size_pos
    rw [utf8Encode, List.flatMap_cons, List.length_append, String.length_utf8EncodeChar, List.length_cons, ← utf8Encode]
    omega

theorem utf8Encode_append (s t : List Char) : utf8Encode (s ++ t) = utf8Encode s ++ utf8Encode t :=
  List.flatMap_append

/-! ## Freezing keeps the order and the depth -/

theorem sortEntries_perm {α : Type} (entries : List (String × α)) :
    (sortEntries entries).Perm entries := List.perm_insertionSort _ _

theorem nameLe_total (a b : String) : nameLe a b ∨ nameLe b a :=
  @List.le_total ℕ _ _ (utf16SortKey a) (utf16SortKey b)

theorem nameLe_trans {a b c : String} (hab : nameLe a b) (hbc : nameLe b c) : nameLe a c :=
  @List.le_trans ℕ _ _ _ _ (utf16SortKey a) (utf16SortKey b) (utf16SortKey c) hab hbc

theorem sortEntries_pairwise {α : Type} (entries : List (String × α)) :
    (sortEntries entries).Pairwise fun a b => nameLe a.1 b.1 := by
  have : Std.Total (fun a b : String × α => nameLe a.1 b.1) := ⟨fun a b => nameLe_total a.1 b.1⟩
  have : IsTrans (String × α) (fun a b => nameLe a.1 b.1) := ⟨fun _ _ _ => nameLe_trans⟩
  exact List.pairwise_insertionSort _ _

/-- Entries already in order stay where they are. -/
theorem sortEntries_of_pairwise {α : Type} {entries : List (String × α)}
    (h : entries.Pairwise fun a b => nameLe a.1 b.1) : sortEntries entries = entries :=
  List.Pairwise.insertionSort_eq h

theorem orderedEntries_iff {entries : List (String × PortableJson)} :
    PortableJson.OrderedEntries entries ↔ ∀ e ∈ entries, e.2.Ordered := by
  induction entries with
  | nil => simp [PortableJson.OrderedEntries]
  | cons e entries ih => obtain ⟨name, v⟩ := e; simp [PortableJson.OrderedEntries, ih]

theorem withinEntries_iff {entries : List (String × PortableJson)} {room : ℕ} :
    PortableJson.withinEntries entries room = true ↔ ∀ e ∈ entries, e.2.within room = true := by
  induction entries with
  | nil => simp [PortableJson.withinEntries]
  | cons e entries ih => obtain ⟨name, v⟩ := e; simp [PortableJson.withinEntries, ih]

/-- A frozen value is in order and within its depth. -/
def Frozen (room : ℕ) (v : PortableJson) : Prop := v.Ordered ∧ v.within room = true

mutual

theorem freezeJson_frozen : ∀ (v : PyVal) (room : ℕ) (j : PortableJson),
    freezeJson v room = some j → Frozen room j
  | .none => fun _ j h => by
    rw [freezeJson] at h
    obtain rfl := Option.some.inj h
    exact ⟨trivial, rfl⟩
  | .bool b => fun _ j h => by
    rw [freezeJson] at h
    obtain rfl := Option.some.inj h
    exact ⟨trivial, rfl⟩
  | .int i => fun _ j h => by
    rw [freezeJson] at h
    split_ifs at h
    obtain rfl := Option.some.inj h
    exact ⟨trivial, rfl⟩
  | .float x => fun _ j h => by
    rw [freezeJson] at h
    split_ifs at h
    obtain rfl := Option.some.inj h
    exact ⟨trivial, rfl⟩
  | .str s => fun _ j h => by
    rw [freezeJson] at h
    obtain ⟨t, -, rfl⟩ := Option.map_eq_some_iff.mp h
    exact ⟨trivial, rfl⟩
  | .seq items => fun room j h => by
    rw [freezeJson] at h
    split_ifs at h with hroom
    obtain ⟨frozen, hf, rfl⟩ := Option.map_eq_some_iff.mp h
    obtain ⟨ho, hw⟩ := freezeItems_frozen _ _ _ hf
    exact ⟨ho, by simp [PortableJson.within, hw, Nat.pos_of_ne_zero hroom]⟩
  | .dict entries => fun room j h => by
    rw [freezeJson] at h
    split_ifs at h with hroom
    cases hf : freezeEntries entries (room - 1) with
    | none => rw [hf] at h; exact absurd h (by simp)
    | some frozen =>
      rw [hf] at h
      dsimp only at h
      split_ifs at h with hnodup
      obtain rfl := Option.some.inj h
      have hall := freezeEntries_frozen _ _ _ hf
      have hperm := sortEntries_perm frozen
      refine ⟨⟨(hperm.map Prod.fst).nodup_iff.mpr hnodup, sortEntries_pairwise frozen,
        orderedEntries_iff.mpr fun e he => (hall e (hperm.mem_iff.mp he)).1⟩, ?_⟩
      have hw : PortableJson.withinEntries (sortEntries frozen) (room - 1) = true :=
        withinEntries_iff.mpr fun e he => (hall e (hperm.mem_iff.mp he)).2
      simp [PortableJson.within, hw, Nat.pos_of_ne_zero hroom]
  | .portable o => fun room j h => by
    rw [freezeJson] at h
    split_ifs at h with hw
    obtain rfl := Option.some.inj h
    exact ⟨o.ordered, hw⟩
  | .unsupported => fun _ _ h => absurd h (by simp [freezeJson])

theorem freezeItems_frozen : ∀ (items : List PyVal) (room : ℕ) (js : List PortableJson),
    freezeItems items room = some js →
      PortableJson.OrderedItems js ∧ PortableJson.withinItems js room = true
  | [] => fun _ j h => by
    rw [freezeItems] at h
    obtain rfl := Option.some.inj h
    exact ⟨trivial, rfl⟩
  | v :: rest => fun room j h => by
    rw [freezeItems] at h
    cases hv : freezeJson v room with
    | none => rw [hv] at h; exact absurd h (by simp)
    | some j =>
      cases hr : freezeItems rest room with
      | none => rw [hv, hr] at h; exact absurd h (by simp)
      | some js =>
        rw [hv, hr] at h
        obtain rfl := Option.some.inj h
        obtain ⟨ho, hw⟩ := freezeJson_frozen _ _ _ hv
        obtain ⟨hos, hws⟩ := freezeItems_frozen _ _ _ hr
        exact ⟨⟨ho, hos⟩, by simp [PortableJson.withinItems, hw, hws]⟩

theorem freezeEntries_frozen : ∀ (entries : List (PyStr × PyVal)) (room : ℕ)
    (js : List (String × PortableJson)), freezeEntries entries room = some js →
      ∀ e ∈ js, Frozen room e.2
  | [] => fun _ j h => by
    rw [freezeEntries] at h
    obtain rfl := Option.some.inj h
    simp
  | (name, v) :: rest => fun room j h => by
    rw [freezeEntries] at h
    cases hn : requireScalarText name with
    | none => rw [hn] at h; exact absurd h (by simp)
    | some n =>
      cases hv : freezeJson v room with
      | none => rw [hn, hv] at h; exact absurd h (by simp)
      | some j =>
        cases hr : freezeEntries rest room with
        | none => rw [hn, hv, hr] at h; exact absurd h (by simp)
        | some js =>
          rw [hn, hv, hr] at h
          obtain rfl := Option.some.inj h
          intro e he
          rcases List.mem_cons.mp he with rfl | he
          · exact freezeJson_frozen _ _ _ hv
          · exact freezeEntries_frozen _ _ _ hr e he

end

/-! ## The codec -/

/-- `freeze_portable_json`, where the value must be an object. -/
def freezeObject (v : PyVal) : Option PortableJsonObject :=
  match h : freezePortableJson v with
  | some (.obj entries) => some ⟨entries, (freezeJson_frozen _ _ _ h).1⟩
  | _ => none

/-- `canonical_json_bytes`. -/
def canonicalJsonBytes (v : PyVal) : Option (List UInt8) :=
  (freezePortableJson v).map fun j => utf8Encode (encodeJson j)

/-- `decode_canonical_json_object`. -/
def decodeCanonicalJsonObject (value : List UInt8) : Option PortableJsonObject :=
  if value = [] then none
  else
    match utf8Decode value with
    | none => none
    | some text =>
      if text.head? = some '\uFEFF' then none
      else if requireBoundedNesting text = false then none
      else
        match (jsonLoads text).bind freezeObject with
        | none => none
        | some detached =>
          if canonicalJsonBytes (.portable detached) = some value then some detached else none

theorem freezeObject_eq_some {v : PyVal} {o : PortableJsonObject} :
    freezeObject v = some o ↔ freezePortableJson v = some o.value := by
  unfold freezeObject
  constructor
  · intro h
    split at h
    · next entries hfreeze =>
      obtain rfl := Option.some.inj h
      exact hfreeze
    · exact absurd h (by simp)
  · intro h
    split
    · next entries hfreeze =>
      have heq := hfreeze.symm.trans h
      obtain ⟨entries', ho⟩ := o
      simp only [PortableJsonObject.value, Option.some.injEq, PortableJson.obj.injEq] at heq
      subst heq
      rfl
    · next hne => exact absurd h (hne o.entries)

/-- **Acceptance is exact**: what is decoded is encoded as the bytes it
was decoded from. -/
theorem canonicalJsonBytes_of_decode {value : List UInt8} {o : PortableJsonObject}
    (h : decodeCanonicalJsonObject value = some o) :
    canonicalJsonBytes (.portable o) = some value := by
  unfold decodeCanonicalJsonObject at h
  split_ifs at h
  split at h
  · exact absurd h (by simp)
  · split_ifs at h
    split at h
    · exact absurd h (by simp)
    · split_ifs at h with heq
      obtain rfl := Option.some.inj h
      exact heq

/-! ## What decoding returns for what encoding wrote -/

/-- A float as its text is read. -/
def settleFloat (x : FiniteFloat) : Option PortableJson :=
  match spelledInteger x with
  | some i => if h : -2 ^ 63 ≤ i ∧ i ≤ 2 ^ 63 - 1 then some (.int ⟨i, h⟩) else none
  | none => some (.float x)

mutual

/-- A value with the integers its floats spell in place of those floats. -/
def settle : PortableJson → Option PortableJson
  | .float x => settleFloat x
  | .arr items => (settleItems items).map .arr
  | .obj entries => (settleEntries entries).map .obj
  | v => some v

def settleItems : List PortableJson → Option (List PortableJson)
  | [] => some []
  | v :: rest =>
    match settle v, settleItems rest with
    | some v, some rest => some (v :: rest)
    | _, _ => none

def settleEntries : List (String × PortableJson) → Option (List (String × PortableJson))
  | [] => some []
  | (name, v) :: rest =>
    match settle v, settleEntries rest with
    | some v, some rest => some ((name, v) :: rest)
    | _, _ => none

end

/-- Freezing the number a float's text is read as. -/
theorem freezeJson_numberValue (x : FiniteFloat) (room : ℕ) :
    (numberValue (canonicalLiteral x)).bind (freezeJson · room) = settleFloat x := by
  rw [numberValue_canonicalLiteral, settleFloat]
  cases h : spelledInteger x with
  | none =>
    dsimp only
    rw [Option.bind_some, freezeJson, dif_pos x.2]
  | some i =>
    dsimp only
    by_cases hi : -2 ^ 63 ≤ i ∧ i ≤ 2 ^ 63 - 1
    · rw [if_pos hi, dif_pos hi, Option.bind_some, freezeJson, dif_pos hi]
    · rw [if_neg hi, dif_neg hi, Option.bind_none]

theorem settleEntries_names {entries js : List (String × PortableJson)}
    (h : settleEntries entries = some js) : js.map Prod.fst = entries.map Prod.fst := by
  induction entries generalizing js with
  | nil => obtain rfl := Option.some.inj h; rfl
  | cons e entries ih =>
    obtain ⟨name, v⟩ := e
    rw [settleEntries] at h
    split at h
    · next w rest _ hrest =>
      obtain rfl := Option.some.inj h
      rw [List.map_cons, List.map_cons, ih hrest]
    · exact absurd h (by simp)

/-- Entries stand in order by their names alone. -/
theorem pairwise_names {entries : List (String × PortableJson)} :
    (entries.Pairwise fun a b => nameLe a.1 b.1) ↔ (entries.map Prod.fst).Pairwise nameLe :=
  List.pairwise_map.symm

mutual

/-- **Freezing what is scanned is settling.** -/
theorem freezeJson_readBack : ∀ (v : PortableJson) (room : ℕ), Frozen room v →
    (readBack v).bind (freezeJson · room) = settle v
  | .null, _, _ => by rw [readBack, Option.bind_some, freezeJson, settle.eq_def]
  | .bool b, _, _ => by rw [readBack, Option.bind_some, freezeJson, settle.eq_def]
  | .int i, _, _ => by rw [readBack, Option.bind_some, freezeJson, dif_pos i.2, settle.eq_def]
  | .float x, room, _ => by rw [readBack, freezeJson_numberValue, settle]
  | .str s, _, _ => by
    rw [readBack, Option.bind_some, freezeJson, requireScalarText_pyStr, Option.map_some,
      settle.eq_def]
  | .arr items, room, ⟨ho, hw⟩ => by
    simp only [PortableJson.within, Bool.and_eq_true, decide_eq_true_eq] at hw
    have hitems := freezeItems_readItems items (room - 1) ho hw.2
    rw [readBack, settle, ← hitems]
    cases readItems items with
    | none => rfl
    | some d => rw [Option.map_some, Option.bind_some, freezeJson, if_neg (by omega)]; rfl
  | .obj entries, room, ⟨⟨hnodup, hsorted, ho⟩, hw⟩ => by
    simp only [PortableJson.within, Bool.and_eq_true, decide_eq_true_eq] at hw
    have hentries := freezeEntries_readEntries entries (room - 1) ho hw.2
    rw [readBack, settle, ← hentries]
    cases hread : readEntries entries with
    | none => rfl
    | some d =>
      rw [Option.map_some, Option.bind_some, Option.bind_some, freezeJson, if_neg (by omega)]
      cases hfreeze : freezeEntries d (room - 1) with
      | none => rfl
      | some frozen =>
        rw [hread, Option.bind_some, hfreeze] at hentries
        have hnames := settleEntries_names hentries.symm
        dsimp only
        rw [if_pos (hnames ▸ hnodup), sortEntries_of_pairwise
          (pairwise_names.mpr (hnames ▸ pairwise_names.mp hsorted)), Option.map_some]

theorem freezeItems_readItems : ∀ (items : List PortableJson) (room : ℕ),
    PortableJson.OrderedItems items → PortableJson.withinItems items room = true →
      (readItems items).bind (freezeItems · room) = settleItems items
  | [], _, _, _ => by rw [readItems, Option.bind_some, freezeItems, settleItems]
  | v :: rest, room, ho, hw => by
    simp only [PortableJson.withinItems, Bool.and_eq_true] at hw
    have hv := freezeJson_readBack v room ⟨ho.1, hw.1⟩
    have hrest := freezeItems_readItems rest room ho.2 hw.2
    rw [readItems, settleItems, ← hv, ← hrest]
    cases readBack v with
    | none => rfl
    | some w =>
      cases readItems rest with
      | none =>
        simp only [Option.bind_some, Option.bind_none]
        cases freezeJson w room <;> rfl
      | some d =>
        cases hw : freezeJson w room <;> cases hd : freezeItems d room <;>
          simp [freezeItems, hw, hd]

theorem freezeEntries_readEntries : ∀ (entries : List (String × PortableJson)) (room : ℕ),
    PortableJson.OrderedEntries entries → PortableJson.withinEntries entries room = true →
      (readEntries entries).bind (freezeEntries · room) = settleEntries entries
  | [], _, _, _ => by rw [readEntries, Option.bind_some, freezeEntries, settleEntries]
  | (name, v) :: rest, room, ho, hw => by
    simp only [PortableJson.withinEntries, Bool.and_eq_true] at hw
    have hv := freezeJson_readBack v room ⟨ho.1, hw.1⟩
    have hrest := freezeEntries_readEntries rest room ho.2 hw.2
    rw [readEntries, settleEntries, ← hv, ← hrest]
    cases readBack v with
    | none => rfl
    | some w =>
      cases readEntries rest with
      | none =>
        simp only [Option.bind_some, Option.bind_none]
        cases freezeJson w room <;> rfl
      | some d =>
        simp only [Option.bind_some, freezeEntries, requireScalarText_pyStr]
        cases freezeJson w room <;> cases freezeEntries d room <;> rfl

end

mutual

/-- A settled value is written as the value was. -/
theorem encodeJson_settle : ∀ (v j : PortableJson), settle v = some j → encodeJson j = encodeJson v
  | .null, _, h => by rw [settle.eq_def] at h; obtain rfl := Option.some.inj h; rfl
  | .bool b, _, h => by rw [settle.eq_def] at h; obtain rfl := Option.some.inj h; rfl
  | .int i, _, h => by rw [settle.eq_def] at h; obtain rfl := Option.some.inj h; rfl
  | .str s, _, h => by rw [settle.eq_def] at h; obtain rfl := Option.some.inj h; rfl
  | .float x, _, h => by
    rw [settle, settleFloat] at h
    cases hs : spelledInteger x with
    | none => rw [hs] at h; obtain rfl := Option.some.inj h; rfl
    | some i =>
      rw [hs] at h
      dsimp only at h
      split_ifs at h with hi
      obtain rfl := Option.some.inj h
      rw [encodeJson, encodeJson, encodeBinary64_eq_text, canonicalLiteral_of_spelled hs,
        intLiteral_text]
  | .arr items, _, h => by
    rw [settle] at h
    obtain ⟨js, hjs, rfl⟩ := Option.map_eq_some_iff.mp h
    rw [encodeJson, encodeJson, encodeItems_settle items js hjs]
  | .obj entries, _, h => by
    rw [settle] at h
    obtain ⟨js, hjs, rfl⟩ := Option.map_eq_some_iff.mp h
    rw [encodeJson, encodeJson, encodeEntries_settle entries js hjs]

theorem encodeItems_settle : ∀ (items js : List PortableJson), settleItems items = some js →
    encodeItems js = encodeItems items
  | [], _, h => by rw [settleItems] at h; obtain rfl := Option.some.inj h; rfl
  | v :: rest, _, h => by
    rw [settleItems] at h
    split at h
    · next j js hv hrest =>
      obtain rfl := Option.some.inj h
      rw [encodeItems, encodeItems, encodeJson_settle v j hv, encodeItems_settle rest js hrest]
    · exact absurd h (by simp)

theorem encodeEntries_settle : ∀ (entries js : List (String × PortableJson)),
    settleEntries entries = some js → encodeEntries js = encodeEntries entries
  | [], _, h => by rw [settleEntries] at h; obtain rfl := Option.some.inj h; rfl
  | (name, v) :: rest, _, h => by
    rw [settleEntries] at h
    split at h
    · next j js hv hrest =>
      obtain rfl := Option.some.inj h
      rw [encodeEntries, encodeEntries, encodeJson_settle v j hv,
        encodeEntries_settle rest js hrest]
    · exact absurd h (by simp)

end

/-- **Decoding what encoding wrote**: the settled object, if there is
one. -/
theorem decode_encodeJson {o : PortableJsonObject} (hw : o.value.within MAX_JSON_DEPTH = true)
    (o' : PortableJsonObject) :
    decodeCanonicalJsonObject (utf8Encode (encodeJson o.value)) = some o' ↔
      settle o.value = some o'.value := by
  have hfreeze := freezeJson_readBack o.value MAX_JSON_DEPTH ⟨o.ordered, hw⟩
  have hne : utf8Encode (encodeJson o.value) ≠ [] := by
    intro h
    have := utf8Encode_injective (h.trans (show [] = utf8Encode [] from rfl))
    obtain ⟨c, rest, htext, -⟩ := encodeJson_head o.value
    rw [htext] at this
    exact absurd this (by simp)
  have hbom : (encodeJson o.value).head? ≠ some '\uFEFF' := by
    rw [PortableJsonObject.value, encodeJson, List.head?_cons]
    decide
  rw [decodeCanonicalJsonObject, if_neg hne, utf8Decode_utf8Encode]
  dsimp only
  rw [if_neg hbom, if_neg (by rw [requireBoundedNesting_encodeJson hw]; simp),
    jsonLoads_encodeJson (v := o.value) o.ordered, ← hfreeze]
  cases hread : readBack o.value with
  | none => simp
  | some w =>
    rw [Option.bind_some, Option.bind_some]
    constructor
    · intro h
      split at h
      · exact absurd h (by simp)
      · next detached hd =>
        split_ifs at h
        obtain rfl := Option.some.inj h
        exact freezeObject_eq_some.mp hd
    · intro h
      rw [freezeObject_eq_some.mpr h]
      dsimp only
      rw [if_pos]
      have hs : settle o.value = some o'.value := by
        rw [← hfreeze, hread, Option.bind_some]
        exact h
      rw [canonicalJsonBytes, freezePortableJson, freezeJson, if_pos (freezeJson_frozen _ _ _ h).2,
        Option.map_some, encodeJson_settle _ _ hs]

/-! ## Equal values -/

mutual

/-- Equality of JSON values: integers and floats by their numeric value,
all else by its parts. -/
def JsonEq : PortableJson → PortableJson → Prop
  | .null, .null => True
  | .bool a, .bool b => a = b
  | .int i, .int k => i = k
  | .int i, .float y => i.1 * unit = y.1.signedUnits
  | .float x, .int k => x.1.signedUnits = k.1 * unit
  | .float x, .float y => x.1.signedUnits = y.1.signedUnits
  | .str s, .str t => s = t
  | .arr xs, .arr ys => JsonEqItems xs ys
  | .obj xs, .obj ys => JsonEqEntries xs ys
  | _, _ => False

def JsonEqItems : List PortableJson → List PortableJson → Prop
  | [], [] => True
  | v :: xs, w :: ys => JsonEq v w ∧ JsonEqItems xs ys
  | _, _ => False

def JsonEqEntries : List (String × PortableJson) → List (String × PortableJson) → Prop
  | [], [] => True
  | (n, v) :: xs, (m, w) :: ys => n = m ∧ JsonEq v w ∧ JsonEqEntries xs ys
  | _, _ => False

end

mutual

/-- The floats inside a value. -/
def PortableJson.floats : PortableJson → List FiniteFloat
  | .float x => [x]
  | .arr items => PortableJson.floatsItems items
  | .obj entries => PortableJson.floatsEntries entries
  | _ => []

def PortableJson.floatsItems : List PortableJson → List FiniteFloat
  | [] => []
  | v :: rest => v.floats ++ PortableJson.floatsItems rest

def PortableJson.floatsEntries : List (String × PortableJson) → List FiniteFloat
  | [] => []
  | (_, v) :: rest => v.floats ++ PortableJson.floatsEntries rest

end

/-- If the float is a nonzero integer below 10²¹ in magnitude, then its
shortest decimal is exact and it is a signed 64-bit integer. -/
def SpelledExactly (x : FiniteFloat) : Prop :=
  x.1.bits ≠ 0 → unit ∣ units x.1.bits → units x.1.bits < 10 ^ 21 * unit →
    shortMagnitude x.1.bits * unit = units x.1.bits ∧
      -2 ^ 63 * (unit : ℤ) ≤ x.1.signedUnits ∧ x.1.signedUnits ≤ (2 ^ 63 - 1) * unit

section Exact

variable {x : FiniteFloat}

theorem unit_pos_int : (0 : ℤ) < unit := by exact_mod_cast unit_pos

/-- The integer a nonzero float spells has the float's sign. -/
theorem signedUnits_eq_iff (neg : Bool) (u n : ℕ) :
    (if neg then -(u : ℤ) else u) = (if neg then -(n : ℤ) else n) * unit ↔ n * unit = u := by
  cases neg with
  | true =>
    rw [if_pos rfl, if_pos rfl, Int.neg_mul, neg_inj, eq_comm]
    exact_mod_cast Iff.rfl
  | false =>
    rw [if_neg (by simp), if_neg (by simp), eq_comm]
    exact_mod_cast Iff.rfl

/-- **A float settles to an equal value exactly if it is spelled
exactly.** -/
theorem settleFloat_iff (x : FiniteFloat) :
    (∃ j, settleFloat x = some j ∧ JsonEq (.float x) j) ↔ SpelledExactly x := by
  unfold settleFloat SpelledExactly
  by_cases h0 : x.1.bits = 0
  · have hs : spelledInteger x = some 0 := by rw [spelledInteger, if_pos h0]
    have hu : x.1.signedUnits = 0 := by
      rw [Binary64.signedUnits, h0, units_zero]
      simp
    refine ⟨fun _ h => absurd h0 h, fun _ => ⟨.int ⟨0, by decide⟩, ?_, ?_⟩⟩
    · rw [hs]
      exact dif_pos _
    · rw [JsonEq, hu]
      simp
  by_cases hsp : printedPlain x.1.bits ∧ 0 ≤ (shortest x.1.bits).2
  · have hint := (spelled_iff h0).mp hsp
    have hs : spelledInteger x = some
        (if x.1.neg then -(shortMagnitude x.1.bits : ℤ) else shortMagnitude x.1.bits) := by
      rw [spelledInteger, if_neg h0, if_pos hsp]
    have heq := signedUnits_eq_iff x.1.neg (units x.1.bits) (shortMagnitude x.1.bits)
    change x.1.signedUnits = _ ↔ _ at heq
    rw [hs]
    dsimp only
    generalize (if x.1.neg then -(shortMagnitude x.1.bits : ℤ) else shortMagnitude x.1.bits) = i
      at heq ⊢
    have hrange : x.1.signedUnits = i * unit → ((-2 ^ 63 ≤ i ∧ i ≤ 2 ^ 63 - 1) ↔
        -2 ^ 63 * (unit : ℤ) ≤ x.1.signedUnits ∧ x.1.signedUnits ≤ (2 ^ 63 - 1) * unit) := by
      intro h
      rw [h, mul_le_mul_iff_left₀ unit_pos_int, mul_le_mul_iff_left₀ unit_pos_int]
    constructor
    · rintro ⟨j, hj, hjeq⟩ - - -
      split_ifs at hj with hi
      obtain rfl := Option.some.inj hj
      exact ⟨heq.mp hjeq, (hrange hjeq).mp hi⟩
    · intro h
      obtain ⟨hexact, hin⟩ := h h0 hint.1 hint.2
      have hi := (hrange (heq.mpr hexact)).mpr hin
      exact ⟨.int ⟨i, hi⟩, dif_pos hi, heq.mpr hexact⟩
  · have hs : spelledInteger x = none := by rw [spelledInteger, if_neg h0, if_neg hsp]
    rw [hs]
    refine ⟨fun _ _ hdvd hlt => absurd ((spelled_iff h0).mpr ⟨hdvd, hlt⟩) hsp, fun _ =>
      ⟨.float x, rfl, rfl⟩⟩

end Exact

mutual

/-- **A value settles to an equal one exactly if all its floats are
spelled exactly.** -/
theorem settle_iff : ∀ v : PortableJson,
    (∃ j, settle v = some j ∧ JsonEq v j) ↔ ∀ x ∈ v.floats, SpelledExactly x
  | .null => ⟨by simp [PortableJson.floats], fun _ => ⟨.null, by rw [settle.eq_def], trivial⟩⟩
  | .bool b => ⟨by simp [PortableJson.floats], fun _ => ⟨.bool b, by rw [settle.eq_def], rfl⟩⟩
  | .int i => ⟨by simp [PortableJson.floats], fun _ => ⟨.int i, by rw [settle.eq_def], rfl⟩⟩
  | .str s => ⟨by simp [PortableJson.floats], fun _ => ⟨.str s, by rw [settle.eq_def], rfl⟩⟩
  | .float x => by
    rw [settle, settleFloat_iff, PortableJson.floats]
    simp
  | .arr items => by
    rw [settle, PortableJson.floats, ← settleItems_iff items]
    constructor
    · rintro ⟨j, hj, heq⟩
      obtain ⟨js, hjs, rfl⟩ := Option.map_eq_some_iff.mp hj
      exact ⟨js, hjs, heq⟩
    · rintro ⟨js, hjs, heq⟩
      exact ⟨.arr js, by rw [hjs, Option.map_some], heq⟩
  | .obj entries => by
    rw [settle, PortableJson.floats, ← settleEntries_iff entries]
    constructor
    · rintro ⟨j, hj, heq⟩
      obtain ⟨js, hjs, rfl⟩ := Option.map_eq_some_iff.mp hj
      exact ⟨js, hjs, heq⟩
    · rintro ⟨js, hjs, heq⟩
      exact ⟨.obj js, by rw [hjs, Option.map_some], heq⟩

theorem settleItems_iff : ∀ items : List PortableJson,
    (∃ js, settleItems items = some js ∧ JsonEqItems items js) ↔
      ∀ x ∈ PortableJson.floatsItems items, SpelledExactly x
  | [] => ⟨by simp [PortableJson.floatsItems], fun _ => ⟨[], by rw [settleItems], trivial⟩⟩
  | v :: rest => by
    rw [settleItems, PortableJson.floatsItems, List.forall_mem_append, ← settle_iff v,
      ← settleItems_iff rest]
    constructor
    · rintro ⟨js, hjs, heq⟩
      split at hjs
      · next j js' hv hrest =>
        obtain rfl := Option.some.inj hjs
        exact ⟨⟨j, hv, heq.1⟩, js', hrest, heq.2⟩
      · exact absurd hjs (by simp)
    · rintro ⟨⟨j, hv, heq⟩, js, hrest, heqs⟩
      exact ⟨j :: js, by rw [hv, hrest], heq, heqs⟩

theorem settleEntries_iff : ∀ entries : List (String × PortableJson),
    (∃ js, settleEntries entries = some js ∧ JsonEqEntries entries js) ↔
      ∀ x ∈ PortableJson.floatsEntries entries, SpelledExactly x
  | [] => ⟨by simp [PortableJson.floatsEntries], fun _ => ⟨[], by rw [settleEntries], trivial⟩⟩
  | (name, v) :: rest => by
    rw [settleEntries, PortableJson.floatsEntries, List.forall_mem_append, ← settle_iff v,
      ← settleEntries_iff rest]
    constructor
    · rintro ⟨js, hjs, heq⟩
      split at hjs
      · next j js' hv hrest =>
        obtain rfl := Option.some.inj hjs
        exact ⟨⟨j, hv, heq.2.1⟩, js', hrest, heq.2.2⟩
      · exact absurd hjs (by simp)
    · rintro ⟨⟨j, hv, heq⟩, js, hrest, heqs⟩
      exact ⟨(name, j) :: js, by rw [hv, hrest], rfl, heq, heqs⟩

end

/-! ## Equal values are written alike -/

theorem spelledInteger_of_settle {x : FiniteFloat} (h : settle (.float x) = some (.float x)) :
    spelledInteger x = none := by
  rw [settle, settleFloat] at h
  cases hs : spelledInteger x with
  | none => rfl
  | some i =>
    rw [hs] at h
    dsimp only at h
    split_ifs at h
    exact absurd (Option.some.inj h) (by simp)

/-- A signed 64-bit integer is not the value of a float that is not
spelled as an integer. -/
theorem int_ne_float {i : Signed64} {x : FiniteFloat} (hs : spelledInteger x = none) :
    i.1 * unit ≠ x.1.signedUnits := by
  intro h
  have h0 : x.1.bits ≠ 0 := by
    intro h0
    rw [spelledInteger, if_pos h0] at hs
    exact absurd hs (by simp)
  have hnat : i.1.natAbs * unit = units x.1.bits := by
    have := congrArg Int.natAbs h
    rw [Int.natAbs_mul, Int.natAbs_natCast, Binary64.signedUnits] at this
    rw [this]
    split_ifs
    · rw [Int.natAbs_neg, Int.natAbs_natCast]
    · rw [Int.natAbs_natCast]
  have hlt : units x.1.bits < 10 ^ 21 * unit := by
    rw [← hnat]
    refine Nat.mul_lt_mul_of_pos_right ?_ unit_pos
    have := i.2
    omega
  have hplain := (spelled_iff h0).mpr ⟨⟨_, hnat ▸ Nat.mul_comm _ _⟩, hlt⟩
  rw [spelledInteger, if_neg h0, if_pos hplain] at hs
  exact absurd hs (by simp)

/-- Equal floats that are not spelled as integers, so not zero, are the
same float. -/
theorem float_ext {x y : FiniteFloat} (hx : x.1.bits ≠ 0) (h : x.1.signedUnits = y.1.signedUnits) :
    x = y := by
  obtain ⟨⟨neg, bits, hlt⟩, hfin⟩ := x
  obtain ⟨⟨neg', bits', hlt'⟩, hfin'⟩ := y
  have hpos : 0 < units bits := units_zero ▸ units_strictMono (Nat.pos_of_ne_zero hx)
  have hparts : neg = neg' ∧ units bits = units bits' := by
    simp only [Binary64.signedUnits] at h
    cases neg <;> cases neg' <;> simp at h ⊢ <;> omega
  obtain ⟨rfl, hunits⟩ := hparts
  obtain rfl := units_strictMono.injective hunits
  rfl

theorem settleItems_of_arr {xs : List PortableJson} (h : settle (.arr xs) = some (.arr xs)) :
    settleItems xs = some xs := by
  rw [settle] at h
  obtain ⟨js, hjs, heq⟩ := Option.map_eq_some_iff.mp h
  rw [hjs, PortableJson.arr.inj heq]

theorem settleEntries_of_obj {xs : List (String × PortableJson)}
    (h : settle (.obj xs) = some (.obj xs)) : settleEntries xs = some xs := by
  rw [settle] at h
  obtain ⟨js, hjs, heq⟩ := Option.map_eq_some_iff.mp h
  rw [hjs, PortableJson.obj.inj heq]

theorem settleItems_cons {v : PortableJson} {xs : List PortableJson}
    (h : settleItems (v :: xs) = some (v :: xs)) :
    settle v = some v ∧ settleItems xs = some xs := by
  rw [settleItems] at h
  split at h
  · next j js hv hxs =>
    obtain ⟨rfl, rfl⟩ := List.cons.inj (Option.some.inj h)
    exact ⟨hv, hxs⟩
  · exact absurd h (by simp)

theorem settleEntries_cons {name : String} {v : PortableJson} {xs : List (String × PortableJson)}
    (h : settleEntries ((name, v) :: xs) = some ((name, v) :: xs)) :
    settle v = some v ∧ settleEntries xs = some xs := by
  rw [settleEntries] at h
  split at h
  · next j js hv hxs =>
    obtain ⟨hpair, rfl⟩ := List.cons.inj (Option.some.inj h)
    obtain rfl := (Prod.mk.inj hpair).2
    exact ⟨hv, hxs⟩
  · exact absurd h (by simp)

mutual

/-- **Equal settled values have the same text.** -/
theorem encodeJson_of_jsonEq : ∀ v w : PortableJson, settle v = some v → settle w = some w →
    JsonEq v w → encodeJson v = encodeJson w
  | .null, w, _, _, h => by cases w <;> first | rfl | exact absurd h (by simp [JsonEq])
  | .bool b, w, _, _, h => by
    cases w with
    | bool c => rw [show b = c from h]
    | _ => exact absurd h (by simp [JsonEq])
  | .str s, w, _, _, h => by
    cases w with
    | str t => rw [show s = t from h]
    | _ => exact absurd h (by simp [JsonEq])
  | .int i, w, _, hw, h => by
    cases w with
    | int k => rw [show i = k from h]
    | float y => exact absurd h (int_ne_float (spelledInteger_of_settle hw))
    | _ => exact absurd h (by simp [JsonEq])
  | .float x, w, hv, _, h => by
    have hs := spelledInteger_of_settle hv
    cases w with
    | int k => exact absurd h.symm (int_ne_float hs)
    | float y =>
      have h0 : x.1.bits ≠ 0 := by
        intro h0
        rw [spelledInteger, if_pos h0] at hs
        exact absurd hs (by simp)
      rw [float_ext h0 h]
    | _ => exact absurd h (by simp [JsonEq])
  | .arr xs, w, hv, hw, h => by
    cases w with
    | arr ys =>
      rw [encodeJson, encodeJson,
        encodeItems_of_jsonEq xs ys (settleItems_of_arr hv) (settleItems_of_arr hw) h]
    | _ => exact absurd h (by simp [JsonEq])
  | .obj xs, w, hv, hw, h => by
    cases w with
    | obj ys =>
      rw [encodeJson, encodeJson,
        encodeEntries_of_jsonEq xs ys (settleEntries_of_obj hv) (settleEntries_of_obj hw) h]
    | _ => exact absurd h (by simp [JsonEq])

theorem encodeItems_of_jsonEq : ∀ xs ys : List PortableJson, settleItems xs = some xs →
    settleItems ys = some ys → JsonEqItems xs ys → encodeItems xs = encodeItems ys
  | [], [], _, _, _ => rfl
  | [], _ :: _, _, _, h => absurd h (by simp [JsonEqItems])
  | _ :: _, [], _, _, h => absurd h (by simp [JsonEqItems])
  | v :: xs, w :: ys, hxs, hys, h => by
    obtain ⟨hv, hxs⟩ := settleItems_cons hxs
    obtain ⟨hw, hys⟩ := settleItems_cons hys
    rw [encodeItems, encodeItems, encodeJson_of_jsonEq v w hv hw h.1,
      encodeItems_of_jsonEq xs ys hxs hys h.2]

theorem encodeEntries_of_jsonEq : ∀ xs ys : List (String × PortableJson),
    settleEntries xs = some xs → settleEntries ys = some ys → JsonEqEntries xs ys →
      encodeEntries xs = encodeEntries ys
  | [], [], _, _, _ => rfl
  | [], _ :: _, _, _, h => absurd h (by simp [JsonEqEntries])
  | _ :: _, [], _, _, h => absurd h (by simp [JsonEqEntries])
  | (n, v) :: xs, (m, w) :: ys, hxs, hys, h => by
    obtain ⟨hv, hxs⟩ := settleEntries_cons hxs
    obtain ⟨hw, hys⟩ := settleEntries_cons hys
    rw [encodeEntries, encodeEntries, encodeJson_of_jsonEq v w hv hw h.2.1,
      encodeEntries_of_jsonEq xs ys hxs hys h.2.2, h.1]

end

/-- What an accepted object is written as. -/
theorem accepted_bytes {bytes : List UInt8} {o : PortableJsonObject}
    (h : decodeCanonicalJsonObject bytes = some o) :
    bytes = utf8Encode (encodeJson o.value) ∧ o.value.within MAX_JSON_DEPTH = true := by
  have hbytes := canonicalJsonBytes_of_decode h
  rw [canonicalJsonBytes, freezePortableJson, freezeJson] at hbytes
  split_ifs at hbytes with hw
  · exact ⟨(Option.some.inj hbytes).symm, hw⟩
  · exact absurd hbytes (by simp)

/-- An accepted object is settled. -/
theorem settle_of_accepted {bytes : List UInt8} {o : PortableJsonObject}
    (h : decodeCanonicalJsonObject bytes = some o) : settle o.value = some o.value := by
  obtain ⟨rfl, hw⟩ := accepted_bytes h
  exact (decode_encodeJson hw o).mp h

/-- **Accepted bytes are determined by the value they denote.** -/
theorem accepted_injective {bytes bytes' : List UInt8} {o o' : PortableJsonObject}
    (h : decodeCanonicalJsonObject bytes = some o) (h' : decodeCanonicalJsonObject bytes' = some o')
    (heq : JsonEq o.value o'.value) : bytes = bytes' := by
  rw [(accepted_bytes h).1, (accepted_bytes h').1,
    encodeJson_of_jsonEq _ _ (settle_of_accepted h) (settle_of_accepted h') heq]

/-- **An object comes back exactly if its floats are spelled exactly.** -/
theorem decode_roundTrip {v : PyVal} {o : PortableJsonObject} (h : freezeObject v = some o) :
    canonicalJsonBytes v = some (utf8Encode (encodeJson o.value)) ∧
      requireBoundedNesting (encodeJson o.value) = true ∧
      ((∃ o', decodeCanonicalJsonObject (utf8Encode (encodeJson o.value)) = some o' ∧
          JsonEq o.value o'.value) ↔ ∀ x ∈ o.value.floats, SpelledExactly x) := by
  have hfreeze := freezeObject_eq_some.mp h
  have hw := (freezeJson_frozen _ _ _ hfreeze).2
  refine ⟨by rw [canonicalJsonBytes, hfreeze, Option.map_some], requireBoundedNesting_encodeJson hw,
    ?_⟩
  rw [← settle_iff]
  constructor
  · rintro ⟨o', hdecode, heq⟩
    exact ⟨o'.value, (decode_encodeJson hw o').mp hdecode, heq⟩
  · rintro ⟨j, hj, heq⟩
    -- the settled object is an object of the same names
    obtain ⟨js, hjs, rfl⟩ := Option.map_eq_some_iff.mp (show (settleEntries o.entries).map .obj = some j from hj)
    have hframe : readBack o.value ≠ none := by
      intro hnone
      have := freezeJson_readBack o.value MAX_JSON_DEPTH ⟨o.ordered, hw⟩
      rw [hnone, hj] at this
      exact absurd this (by simp)
    obtain ⟨w, hread⟩ := Option.ne_none_iff_exists'.mp hframe
    have hfrozen : freezeJson w MAX_JSON_DEPTH = some (.obj js) := by
      have := freezeJson_readBack o.value MAX_JSON_DEPTH ⟨o.ordered, hw⟩
      rwa [hread, hj] at this
    exact ⟨⟨js, (freezeJson_frozen _ _ _ hfrozen).1⟩, (decode_encodeJson hw _).mpr hj, heq⟩

/-- **The codec's laws.** An accepted object is written within the
nesting bound, and it is read back as an equal one exactly if each of
its floats is spelled exactly; accepted bytes are written again as they
were; and two byte strings accepted for equal objects are the same. -/
theorem canonical_codec_laws {v : PyVal} {o : PortableJsonObject} (h : freezeObject v = some o) :
    (∃ bytes, canonicalJsonBytes v = some bytes ∧
      requireBoundedNesting (encodeJson o.value) = true ∧
      ((∃ o', decodeCanonicalJsonObject bytes = some o' ∧ JsonEq o.value o'.value) ↔
        ∀ x ∈ o.value.floats, SpelledExactly x)) ∧
    (∀ bytes o, decodeCanonicalJsonObject bytes = some o →
      canonicalJsonBytes (.portable o) = some bytes) ∧
    (∀ bytes bytes' o o', decodeCanonicalJsonObject bytes = some o →
      decodeCanonicalJsonObject bytes' = some o' → JsonEq o.value o'.value → bytes = bytes') :=
  ⟨⟨_, decode_roundTrip h⟩, fun _ _ => canonicalJsonBytes_of_decode,
    fun _ _ _ _ => accepted_injective⟩

/-- An object of one name. -/
def singleton (name : String) (v : PortableJson) (hv : v.Ordered) : PortableJsonObject :=
  ⟨[(name, v)], by simp [PortableJson.Ordered, PortableJson.OrderedEntries, hv]⟩

theorem freeze_singleton (name : String) (x : FiniteFloat) :
    freezePortableJson (.dict [(pyStr name, .float x.1)]) =
      some (singleton name (.float x) trivial).value := by
  rw [freezePortableJson, freezeJson, if_neg (by decide)]
  simp only [freezeEntries, requireScalarText_pyStr, freezeJson, dif_pos x.2]
  rfl

/-- The float `1.5`. -/
def oneAndAHalf : FiniteFloat := ⟨⟨false, 0x3FF8000000000000, by decide⟩, by decide⟩

/-- `{"a": 1.5}` comes back. -/
theorem decode_oneAndAHalf : ∃ bytes o', canonicalJsonBytes (.dict [(pyStr "a",
    .float oneAndAHalf.1)]) = some bytes ∧ decodeCanonicalJsonObject bytes = some o' ∧
      JsonEq (singleton "a" (.float oneAndAHalf) trivial).value o'.value := by
  obtain ⟨⟨bytes, hbytes, -, hback⟩, -⟩ := canonical_codec_laws
    (freezeObject_eq_some.mpr (freeze_singleton "a" oneAndAHalf))
  have hfloat : ∀ x ∈ (singleton "a" (.float oneAndAHalf) trivial).value.floats,
      SpelledExactly x := by
    intro x hx
    obtain rfl : x = oneAndAHalf := by
      simpa [PortableJsonObject.value, singleton, PortableJson.floats,
        PortableJson.floatsEntries] using hx
    have hnot : ¬ unit ∣ units oneAndAHalf.1.bits := by decide +kernel
    exact fun _ hdvd => absurd hdvd hnot
  obtain ⟨o', ho', heq⟩ := hback.mpr hfloat
  exact ⟨bytes, o', hbytes, ho', heq⟩

/-- The float `1e19`. -/
def tenToThe19 : FiniteFloat := ⟨⟨false, 0x43E158E460913D00, by decide⟩, by decide⟩

/-- `{"a": 1e19}` is written as `{"a":10000000000000000000}`, which is
refused: the integer is out of range. -/
theorem decode_refuses_tenToThe19 :
    ∃ bytes, canonicalJsonBytes (.dict [(pyStr "a", .float tenToThe19.1)]) = some bytes ∧
      bytes = utf8Encode "\x7b\"a\":10000000000000000000\x7d".toList ∧
      decodeCanonicalJsonObject bytes = none := by
  set o := singleton "a" (.float tenToThe19) trivial
  have hspelled : spelledInteger tenToThe19 = some 10000000000000000000 := by decide +kernel
  have htext : encodeJson o.value = "\x7b\"a\":10000000000000000000\x7d".toList := by
    change '{' :: ((encodeString "a" ++ ':' :: encodeBinary64 tenToThe19) ++ ['}']) = _
    rw [encodeBinary64_eq_text, canonicalLiteral_of_spelled hspelled]
    decide
  have hsettle : settle o.value = none := by
    change (settleEntries [("a", .float tenToThe19)]).map PortableJson.obj = none
    rw [settleEntries, settle, settleFloat, hspelled]
    rfl
  refine ⟨utf8Encode (encodeJson o.value), ?_, by rw [htext], ?_⟩
  · rw [canonicalJsonBytes, freeze_singleton, Option.map_some]
  · rw [Option.eq_none_iff_forall_ne_some]
    intro o' h
    rw [decode_encodeJson (by decide), hsettle] at h
    exact absurd h (by simp)

end Portable

end Aipcs

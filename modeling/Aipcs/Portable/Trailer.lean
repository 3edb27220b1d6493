import Aipcs.Portable.Frame

/-!
# Portable — sections and the trailer

The trailer counts and hashes the sections before it. `PortableSection`
and `PortableTrailer` carry the checks of their constructors as fields;
`decodeTrailer_eq_some` and `encodeTrailer_eq_some` say that one object
stands for each trailer, and `decode_trailerLine` that the line which
encoding writes is read back.
-/

namespace Aipcs

namespace Portable

def EMPTY_SHA256 : String := "e3b0c44298fc1c149afbf4c8996fb92427ae41e4649b934ca495991b7852b855"

/-- The digest of no bytes. -/
theorem hexdigest_nil : hexdigest [] = EMPTY_SHA256 := by
  have h : sha256Hex [] = EMPTY_SHA256.toList := by decide +kernel
  rw [hexdigest, h, String.ofList_toList]

/-! ## Sections -/

/-- `PortableSection`. -/
structure PortableSection where
  kind : SectionKind
  count : ℕ
  sha256 : String
  count_lt : count < MAX_BUNDLE_FRAMES
  sha256_ok : isSha256 sha256.toList = true
deriving DecidableEq

def SECTION_KEYS : List String := ["count", "kind", "sha256"]

theorem strict_sectionKeys : StrictNames SECTION_KEYS := by decide

namespace PortableSection

/-- The constructor's checks. -/
def make (kind : SectionKind) (count : ℕ) (sha256 : String) : Option PortableSection :=
  if h : count < MAX_BUNDLE_FRAMES ∧ isSha256 sha256.toList = true then
    some ⟨kind, count, sha256, h.1, h.2⟩
  else none

/-- `payload`: the mapping, frozen. -/
def payload (s : PortableSection) : PortableJsonObject where
  entries := [("count", natJson s.count (lt_signed_of_frames s.count_lt)), ("kind", .str s.kind.name),
    ("sha256", .str s.sha256)]
  ordered := by
    refine ordered_obj strict_sectionKeys ?_
    simp only [List.forall_mem_cons, List.not_mem_nil, false_implies, implies_true, and_true]
    exact ⟨trivial, trivial, trivial⟩

end PortableSection

/-- One section of `decode_trailer`. -/
def decodeSection (expected : SectionKind) (raw : PortableJsonObject) : Option PortableSection :=
  if sameNames raw SECTION_KEYS then
    match raw.get? "kind", raw.get? "count", raw.get? "sha256" with
    | some (.str kind), some (.int count), some (.str digest) =>
      if kind ≠ expected.name ∨ count.1 < 0 then none
      else PortableSection.make expected count.1.toNat digest
    | _, _, _ => none
  else none

/-- Is the value an object? -/
def objectOf : (v : PortableJson) → v.Ordered → Option PortableJsonObject
  | .obj entries, h => some ⟨entries, h⟩
  | _, _ => none

/-- The sections of `decode_trailer`: one for each kind. -/
def decodeSections : List SectionKind → (items : List PortableJson) →
    PortableJson.OrderedItems items → Option (List PortableSection)
  | [], [], _ => some []
  | expected :: kinds, raw :: items, h =>
    match (objectOf raw h.1).bind (decodeSection expected), decodeSections kinds items h.2 with
    | some s, some rest => some (s :: rest)
    | _, _ => none
  | _, _, _ => none

theorem natJson_toNat {i : Signed64} (h : 0 ≤ i.1) (hn : i.1.toNat < 2 ^ 63) :
    natJson i.1.toNat hn = .int i := by
  unfold natJson
  congr 1
  exact Subtype.ext (Int.toNat_of_nonneg h)

theorem decodeSection_eq_some {expected : SectionKind} {raw : PortableJsonObject}
    {s : PortableSection} :
    decodeSection expected raw = some s ↔ raw.value = s.payload.value ∧ s.kind = expected := by
  have hvalue := @value_eq_iff raw s.payload.entries strict_sectionKeys
  rw [show s.payload.value = .obj s.payload.entries from rfl, hvalue]
  constructor
  · intro h
    unfold decodeSection at h
    by_cases hsame : sameNames raw SECTION_KEYS
    swap
    · rw [if_neg hsame] at h; exact absurd h (by simp)
    rw [if_pos hsame] at h
    split at h
    swap
    · exact absurd h (by simp)
    next kind count digest hk hc hd =>
    split_ifs at h with hbad
    rw [not_or, not_not, not_lt] at hbad
    unfold PortableSection.make at h
    split_ifs at h with hok
    obtain rfl := Option.some.inj h
    refine ⟨⟨hsame, ?_⟩, rfl⟩
    simp only [PortableSection.payload, List.forall_mem_cons, List.not_mem_nil, false_implies,
      implies_true, and_true]
    exact ⟨by rw [hc, natJson_toNat hbad.2], by rw [hk, hbad.1], hd⟩
  · rintro ⟨⟨hsame, hget⟩, rfl⟩
    simp only [PortableSection.payload, List.forall_mem_cons, List.not_mem_nil, false_implies,
      implies_true, and_true] at hget
    obtain ⟨hc, hk, hd⟩ := hget
    unfold decodeSection
    rw [if_pos (show sameNames raw SECTION_KEYS from hsame)]
    simp only [hk, hc, hd, natJson]
    rw [if_neg (by simp), PortableSection.make, dif_pos ⟨by simpa using s.count_lt, s.sha256_ok⟩]
    simp

theorem objectOf_eq_some {v : PortableJson} {h : v.Ordered} {o : PortableJsonObject} :
    objectOf v h = some o ↔ v = o.value := by
  constructor
  · intro hv
    cases v with
    | obj entries => obtain rfl := Option.some.inj hv; rfl
    | _ => exact absurd hv (by simp [objectOf])
  · rintro rfl
    rfl

theorem decodeSections_eq_some {kinds : List SectionKind} {items : List PortableJson}
    {h : PortableJson.OrderedItems items} {sections : List PortableSection} :
    decodeSections kinds items h = some sections ↔
      items = sections.map (fun s => s.payload.value) ∧ sections.map PortableSection.kind = kinds := by
  induction kinds generalizing items sections with
  | nil =>
    cases items with
    | nil => cases sections <;> simp [decodeSections]
    | cons v items => cases sections <;> simp [decodeSections]
  | cons k kinds ih =>
    cases items with
    | nil => cases sections <;> simp [decodeSections]
    | cons v items =>
      constructor
      · intro hs
        rw [decodeSections] at hs
        split at hs
        · next s rest hsection hrest =>
          obtain rfl := Option.some.inj hs
          obtain ⟨raw, hraw, hsection⟩ := Option.bind_eq_some_iff.mp hsection
          obtain ⟨hvalue, hkind⟩ := decodeSection_eq_some.mp hsection
          obtain ⟨hitems, hkinds⟩ := ih.mp hrest
          rw [List.map_cons, List.map_cons, ← hvalue, ← objectOf_eq_some.mp hraw, hitems, hkind,
            hkinds]
          exact ⟨rfl, rfl⟩
        · exact absurd hs (by simp)
      · rintro ⟨hitems, hkinds⟩
        obtain ⟨s, rest, rfl, hs, hrest⟩ := List.map_eq_cons_iff.mp hkinds
        obtain ⟨hv, htail⟩ := List.cons.inj hitems
        rw [decodeSections, objectOf_eq_some.mpr hv, Option.bind_some,
          decodeSection_eq_some.mpr ⟨rfl, hs⟩, ih.mpr ⟨htail, hrest⟩]

/-! ## The trailer -/

/-- The checks of `PortableTrailer`. -/
structure TrailerChecks (ordinal preTrailerByteCount : ℕ) (rootSha256 : String)
    (sections : List PortableSection) : Prop where
  ordinal_lt : ordinal < MAX_BUNDLE_FRAMES
  preTrailer_le : preTrailerByteCount ≤ ABSOLUTE_MAX_BUNDLE_BYTES
  root_ok : isSha256 rootSha256.toList = true
  kinds : sections.map PortableSection.kind = SECTION_KINDS
  counts : (sections.map PortableSection.count).sum = ordinal
  audit : ∀ s ∈ sections.getLast?, s.count = 0 ∧ s.sha256 = EMPTY_SHA256

instance (ordinal preTrailerByteCount : ℕ) (rootSha256 : String) (sections : List PortableSection) :
    Decidable (TrailerChecks ordinal preTrailerByteCount rootSha256 sections) :=
  decidable_of_iff (ordinal < MAX_BUNDLE_FRAMES ∧ preTrailerByteCount ≤ ABSOLUTE_MAX_BUNDLE_BYTES ∧
      isSha256 rootSha256.toList = true ∧ sections.map PortableSection.kind = SECTION_KINDS ∧
      (sections.map PortableSection.count).sum = ordinal ∧
      ∀ s ∈ sections.getLast?, s.count = 0 ∧ s.sha256 = EMPTY_SHA256)
    ⟨fun ⟨h1, h2, h3, h4, h5, h6⟩ => ⟨h1, h2, h3, h4, h5, h6⟩,
      fun ⟨h1, h2, h3, h4, h5, h6⟩ => ⟨h1, h2, h3, h4, h5, h6⟩⟩

/-- `PortableTrailer`. -/
structure PortableTrailer where
  ordinal : ℕ
  preTrailerByteCount : ℕ
  rootSha256 : String
  sections : List PortableSection
  checks : TrailerChecks ordinal preTrailerByteCount rootSha256 sections
deriving DecidableEq

def TRAILER_KEYS : List String := ["kind", "ordinal", "payload"]

def TRAILER_PAYLOAD_KEYS : List String := ["pre_trailer_byte_count", "root_sha256", "sections"]

theorem strict_trailerKeys : StrictNames TRAILER_KEYS := by decide

theorem strict_trailerPayloadKeys : StrictNames TRAILER_PAYLOAD_KEYS := by decide

theorem orderedItems_sections (sections : List PortableSection) :
    PortableJson.OrderedItems (sections.map fun s => s.payload.value) := by
  induction sections with
  | nil => trivial
  | cons s sections ih => exact ⟨s.payload.ordered, ih⟩

theorem lt_signed_of_bytes {n : ℕ} (h : n ≤ ABSOLUTE_MAX_BUNDLE_BYTES) : n < 2 ^ 63 := by
  unfold ABSOLUTE_MAX_BUNDLE_BYTES at h; omega

namespace PortableTrailer

/-- The constructor's checks. -/
def make (ordinal preTrailerByteCount : ℕ) (rootSha256 : String)
    (sections : List PortableSection) : Option PortableTrailer :=
  if h : TrailerChecks ordinal preTrailerByteCount rootSha256 sections then
    some ⟨ordinal, preTrailerByteCount, rootSha256, sections, h⟩
  else none

/-- `payload`: the mapping, frozen. -/
def payload (t : PortableTrailer) : PortableJsonObject where
  entries := [("pre_trailer_byte_count",
      natJson t.preTrailerByteCount (lt_signed_of_bytes t.checks.preTrailer_le)),
    ("root_sha256", .str t.rootSha256),
    ("sections", .arr (t.sections.map fun s => s.payload.value))]
  ordered := by
    refine ordered_obj strict_trailerPayloadKeys ?_
    simp only [List.forall_mem_cons, List.not_mem_nil, false_implies, implies_true, and_true]
    exact ⟨trivial, trivial, orderedItems_sections t.sections⟩

/-- The trailer as it is written. -/
def value (t : PortableTrailer) : PortableJson := .obj [("kind", .str "trailer"),
  ("ordinal", natJson t.ordinal (lt_signed_of_frames t.checks.ordinal_lt)),
  ("payload", t.payload.value)]

/-- The trailer's line. -/
def line (t : PortableTrailer) : List UInt8 := utf8Encode (encodeJson t.value) ++ [10]

theorem ordered_value (t : PortableTrailer) : t.value.Ordered := by
  refine ordered_obj strict_trailerKeys ?_
  simp only [List.forall_mem_cons, List.not_mem_nil, false_implies, implies_true, and_true]
  exact ⟨trivial, trivial, t.payload.ordered⟩

end PortableTrailer

/-- `encode_trailer`. -/
def encodeTrailer (trailer : PortableTrailer) : Option (List UInt8) := do
  let value ← fromMapping [("kind", .str (pyStr "trailer")), ("ordinal", .int trailer.ordinal),
    ("payload", .portable trailer.payload)]
  let bytes ← canonicalJsonBytes (.portable value)
  let line := bytes ++ [10]
  if MAX_FRAME_BYTES < line.length then none else some line

/-- The object under `sections`, as the items it holds. -/
def decodeSectionList (payload : PortableJsonObject) : Option (List PortableSection) :=
  match h : payload.get? "sections" with
  | some (.arr items) =>
    decodeSections SECTION_KINDS items (PortableJsonObject.ordered_of_get? h)
  | _ => none

/-- `decode_trailer`. -/
def decodeTrailer (value : PortableJsonObject) : Option PortableTrailer :=
  if sameNames value TRAILER_KEYS then
    match value.get? "kind", value.get? "ordinal", value.getObject? "payload" with
    | some (.str kind), some (.int ordinal), some payload =>
      if kind ≠ "trailer" then none
      else if sameNames payload TRAILER_PAYLOAD_KEYS then
        match decodeSectionList payload, payload.get? "pre_trailer_byte_count",
          payload.get? "root_sha256" with
        | some sections, some (.int bytes), some (.str root) =>
          if ordinal.1 < 0 ∨ bytes.1 < 0 then none
          else PortableTrailer.make ordinal.1.toNat bytes.1.toNat root sections
        | _, _, _ => none
      else none
    | _, _, _ => none
  else none

theorem decodeSectionList_eq_some {payload : PortableJsonObject}
    {sections : List PortableSection} : decodeSectionList payload = some sections ↔
      payload.get? "sections" = some (.arr (sections.map fun s => s.payload.value)) ∧
        sections.map PortableSection.kind = SECTION_KINDS := by
  unfold decodeSectionList
  constructor
  · intro h
    split at h
    · next items hitems =>
      obtain ⟨rfl, hkinds⟩ := decodeSections_eq_some.mp h
      exact ⟨hitems, hkinds⟩
    · exact absurd h (by simp)
  · rintro ⟨hget, hkinds⟩
    split
    · next items hitems =>
      have := hitems.symm.trans hget
      obtain rfl := PortableJson.arr.inj (Option.some.inj this)
      exact decodeSections_eq_some.mpr ⟨rfl, hkinds⟩
    · next hne => exact absurd hget (hne _)

/-- What stands under the names of a trailer's payload. -/
theorem trailerPayload_get? (t : PortableTrailer) :
    sameNames t.payload TRAILER_PAYLOAD_KEYS ∧
      t.payload.get? "pre_trailer_byte_count" =
        some (natJson t.preTrailerByteCount (lt_signed_of_bytes t.checks.preTrailer_le)) ∧
      t.payload.get? "root_sha256" = some (.str t.rootSha256) ∧
      t.payload.get? "sections" = some (.arr (t.sections.map fun s => s.payload.value)) := by
  obtain ⟨hsame, hget⟩ := (@value_eq_iff t.payload t.payload.entries
    strict_trailerPayloadKeys).mp rfl
  exact ⟨hsame, hget _ List.mem_cons_self, hget _ (List.mem_cons_of_mem _ List.mem_cons_self),
    hget _ (List.mem_cons_of_mem _ (List.mem_cons_of_mem _ List.mem_cons_self))⟩

/-- **One object stands for each trailer.** -/
theorem decodeTrailer_eq_some {o : PortableJsonObject} {t : PortableTrailer} :
    decodeTrailer o = some t ↔ o.value = t.value := by
  rw [PortableTrailer.value, value_eq_iff (by exact strict_trailerKeys)]
  constructor
  · intro h
    unfold decodeTrailer at h
    by_cases hsame : sameNames o TRAILER_KEYS
    swap
    · rw [if_neg hsame] at h; exact absurd h (by simp)
    rw [if_pos hsame] at h
    split at h
    swap
    · exact absurd h (by simp)
    next kind ordinal payload hk ho hp =>
    by_cases hkind : kind ≠ "trailer"
    · rw [if_pos hkind] at h; exact absurd h (by simp)
    by_cases hsame' : sameNames payload TRAILER_PAYLOAD_KEYS
    swap
    · rw [if_neg hkind, if_neg hsame'] at h; exact absurd h (by simp)
    rw [if_neg hkind, if_pos hsame'] at h
    split at h
    swap
    · exact absurd h (by simp)
    next sections bytes root hs hb hr =>
    split_ifs at h with hneg
    rw [not_or, not_lt, not_lt] at hneg
    unfold PortableTrailer.make at h
    split_ifs at h with hchecks
    obtain rfl := Option.some.inj h
    have hpayload : payload.value = (PortableTrailer.payload ⟨_, _, _, _, hchecks⟩).value := by
      refine (value_eq_iff (by exact strict_trailerPayloadKeys)).mpr ⟨hsame', ?_⟩
      simp only [PortableTrailer.payload, List.forall_mem_cons, List.not_mem_nil, false_implies,
        implies_true, and_true]
      exact ⟨by rw [hb, natJson_toNat hneg.2], hr, (decodeSectionList_eq_some.mp hs).1⟩
    refine ⟨hsame, ?_⟩
    simp only [List.forall_mem_cons, List.not_mem_nil, false_implies, implies_true, and_true]
    exact ⟨by rw [hk, not_not.mp hkind], by rw [ho, natJson_toNat hneg.1],
      by rw [PortableJsonObject.getObject?_eq_some.mp hp, hpayload]⟩
  · rintro ⟨hsame, hget⟩
    simp only [List.forall_mem_cons, List.not_mem_nil, false_implies, implies_true, and_true]
      at hget
    obtain ⟨hk, ho, hp⟩ := hget
    obtain ⟨hsame', hb, hr, hs⟩ := trailerPayload_get? t
    unfold decodeTrailer
    rw [if_pos (show sameNames o TRAILER_KEYS from hsame)]
    simp only [hk, ho, PortableJsonObject.getObject?_eq_some.mpr hp, natJson]
    rw [if_neg (by simp), if_pos hsame', decodeSectionList_eq_some.mpr ⟨hs, t.checks.kinds⟩]
    simp only [hb, hr, natJson]
    rw [if_neg (by simp), PortableTrailer.make, dif_pos (by simpa using t.checks)]
    simp

/-- A trailer's object nests three deep. -/
theorem within_trailer (t : PortableTrailer) :
    t.payload.value.within (MAX_JSON_DEPTH - 1) = true := by
  have hitems : PortableJson.withinItems (t.sections.map fun s => s.payload.value) 61 = true := by
    induction t.sections with
    | nil => rfl
    | cons s sections ih => rw [List.map_cons, PortableJson.withinItems, ih]; rfl
  change (true && (true && (true && ((true && PortableJson.withinItems
    (t.sections.map fun s => s.payload.value) 61) && true)))) = true
  rw [hitems]
  rfl

/-- **What encoding writes**: the trailer's line, if it is not too long. -/
theorem encodeTrailer_eq_some {t : PortableTrailer} {line : List UInt8} :
    encodeTrailer t = some line ↔ line = t.line ∧ line.length ≤ MAX_FRAME_BYTES := by
  have hmapping : fromMapping [("kind", .str (pyStr "trailer")), ("ordinal", .int t.ordinal),
      ("payload", .portable t.payload)] = some ⟨_, t.ordered_value⟩ := by
    rw [StrictNames.fromMapping_eq_some (by exact strict_trailerKeys)]
    simp only [List.map_cons, List.map_nil, freezeEntries, requireScalarText_pyStr, freezeJson_str,
      freezeJson_nat (lt_signed_of_frames t.checks.ordinal_lt), freezeJson_portable,
      within_trailer t, if_true]
    rfl
  unfold encodeTrailer
  rw [hmapping]
  simp only [Option.bind_eq_bind, Option.bind_some, canonicalJsonBytes_of_frozen hmapping]
  change (if MAX_FRAME_BYTES < t.line.length then none else some t.line) = some line ↔ _
  constructor
  · intro h
    split_ifs at h with hlen
    obtain rfl := Option.some.inj h
    exact ⟨rfl, not_lt.mp hlen⟩
  · rintro ⟨rfl, hlen⟩
    exact if_neg (not_lt.mpr hlen)

/-- A trailer has no floats to settle. -/
theorem settle_trailer (t : PortableTrailer) : settle t.value = some t.value := by
  have hsections : ∀ sections : List PortableSection,
      settleItems (sections.map fun s => s.payload.value)
        = some (sections.map fun s => s.payload.value) := by
    intro sections
    induction sections with
    | nil => rfl
    | cons s sections ih =>
      rw [List.map_cons, settleItems, ih]
      rfl
  have hpayload : settle t.payload.value = some t.payload.value := by
    rw [PortableJsonObject.value, PortableTrailer.payload, settle, settleEntries, settleEntries,
      settleEntries, settle, hsections]
    rfl
  rw [PortableTrailer.value, settle, settleEntries, settleEntries, settleEntries, hpayload]
  rfl

/-- **A trailer's line is read back.** -/
theorem decode_trailerLine (t : PortableTrailer) :
    decodeCanonicalJsonObject (utf8Encode (encodeJson t.value)) = some ⟨_, t.ordered_value⟩ := by
  have hw : t.value.within MAX_JSON_DEPTH = true := by
    have := within_trailer t
    change (true && (true && (true && (t.payload.value.within (MAX_JSON_DEPTH - 1) && true)))) = true
    rw [this]
    rfl
  exact (@decode_encodeJson ⟨_, t.ordered_value⟩ hw _).mpr (settle_trailer t)

end Portable

end Aipcs

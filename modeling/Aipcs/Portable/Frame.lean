import Aipcs.Common.Sha256
import Aipcs.Portable.Codec
import Mathlib.Data.List.Pairwise

/-!
# Portable — frames and the header

One frame is one line: a canonical object of a section kind, an ordinal,
a payload, and the digest of the other three. `encodeNonTrailerFrame`
and `decodeNonTrailerFrame` are the two sides; both are described by
the frame they agree on (`encodeNonTrailerFrame_eq_some`,
`decodeNonTrailerFrame_eq_some`): its value, that its digest is that of
its core, and that its payload leaves room for the object around it.
-/

namespace Aipcs

namespace Portable

/-- `hashlib.sha256(value).hexdigest()`. -/
@[irreducible] def hexdigest (value : List UInt8) : String := String.ofList (sha256Hex value)

/-! ## Section kinds -/

/-- `SectionKind`. -/
inductive SectionKind where
  | header
  | service
  | record
  | history
  | branch
  | branchMembership
  | audit
deriving DecidableEq

namespace SectionKind

/-- The kind's text. -/
def name : SectionKind → String
  | header => "header"
  | service => "service"
  | record => "record"
  | history => "history"
  | branch => "branch"
  | branchMembership => "branch_membership"
  | audit => "audit"

/-- `SECTION_KINDS.index`. -/
def index : SectionKind → ℕ
  | header => 0
  | service => 1
  | record => 2
  | history => 3
  | branch => 4
  | branchMembership => 5
  | audit => 6

end SectionKind

/-- `SECTION_KINDS`. -/
def SECTION_KINDS : List SectionKind :=
  [.header, .service, .record, .history, .branch, .branchMembership, .audit]

/-- The kind with a text. -/
def SectionKind.ofName (s : String) : Option SectionKind := SECTION_KINDS.find? fun k => k.name = s

theorem SectionKind.mem_kinds (k : SectionKind) : k ∈ SECTION_KINDS := by cases k <;> decide

@[simp] theorem SectionKind.ofName_name (k : SectionKind) : SectionKind.ofName k.name = some k := by
  cases k <;> decide

theorem SectionKind.name_of_ofName {s : String} {k : SectionKind}
    (h : SectionKind.ofName s = some k) : k.name = s := by
  unfold SectionKind.ofName at h
  simpa using List.find?_some h

theorem SectionKind.name_injective : Function.Injective SectionKind.name := fun a b h => by
  have := congrArg SectionKind.ofName h
  rwa [ofName_name, ofName_name, Option.some.injEq] at this

theorem SectionKind.index_injective : Function.Injective SectionKind.index := fun a b h => by
  cases a <;> cases b <;> first | rfl | exact absurd h (by decide)

/-! ## Objects -/

/-- `PortableJsonObject.from_mapping`. -/
def fromMapping (entries : List (String × PyVal)) : Option PortableJsonObject :=
  freezeObject (.dict (entries.map fun e => (pyStr e.1, e.2)))

/-- `set(value) == names`. -/
def sameNames (value : PortableJsonObject) (names : List String) : Prop :=
  (∀ n ∈ value.names, n ∈ names) ∧ ∀ n ∈ names, n ∈ value.names

instance (value : PortableJsonObject) (names : List String) : Decidable (sameNames value names) :=
  inferInstanceAs (Decidable (_ ∧ _))

theorem PortableJsonObject.ordered_of_get? {o : PortableJsonObject} {n : String} {v : PortableJson}
    (h : o.get? n = some v) : v.Ordered := by
  obtain ⟨l₁, l₂, hl, -⟩ := List.lookup_eq_some_iff.mp h
  exact orderedEntries_iff.mp o.ordered.2.2 (n, v) (by rw [hl]; simp)

/-- The object under a name. -/
def PortableJsonObject.getObject? (o : PortableJsonObject) (n : String) :
    Option PortableJsonObject :=
  match h : o.get? n with
  | some (.obj entries) => some ⟨entries, PortableJsonObject.ordered_of_get? h⟩
  | _ => none

@[ext] theorem PortableJsonObject.ext_value {o o' : PortableJsonObject} (h : o.value = o'.value) :
    o = o' := by
  obtain ⟨entries, hordered⟩ := o
  obtain ⟨entries', hordered'⟩ := o'
  obtain rfl := PortableJson.obj.inj h
  rfl

theorem PortableJsonObject.getObject?_eq_some {o p : PortableJsonObject} {n : String} :
    o.getObject? n = some p ↔ o.get? n = some p.value := by
  unfold getObject?
  constructor
  · intro h
    split at h
    · next entries hget =>
      obtain rfl := Option.some.inj h
      exact hget
    · exact absurd h (by simp)
  · intro h
    split
    · next entries hget =>
      refine congrArg some (PortableJsonObject.ext_value ?_)
      exact Option.some.inj (hget.symm.trans h)
    · next hne => exact absurd h (hne p.entries)

/-- A list of names in strict order. -/
def StrictNames (names : List String) : Prop := names.Pairwise fun a b => nameLe a b ∧ ¬ nameLe b a

instance (names : List String) : Decidable (StrictNames names) :=
  inferInstanceAs (Decidable (names.Pairwise _))

theorem nameLe_refl (a : String) : nameLe a a :=
  @List.le_refl ℕ _ _ (utf16SortKey a)

theorem StrictNames.nodup {names : List String} (h : StrictNames names) : names.Nodup :=
  List.Pairwise.imp (fun {a b} hab (heq : a = b) => hab.2 (heq ▸ nameLe_refl a)) h

/-- An object with the names of a strict list has them in the list's
order. -/
theorem StrictNames.names_eq {names : List String} (h : StrictNames names) {o : PortableJsonObject}
    (hsame : sameNames o names) : o.names = names := by
  obtain ⟨hno, hso, -⟩ := o.ordered
  have hperm : o.names.Perm names :=
    (List.perm_ext_iff_of_nodup hno h.nodup).mpr fun a => ⟨hsame.1 a, hsame.2 a⟩
  refine hperm.eq_of_pairwise (fun a b ha hb hab hba => ?_) (List.pairwise_map.mpr hso)
    (h.imp fun hab => hab.1)
  by_contra hne
  have : Std.Symm fun a b : String => ¬ (nameLe a b ∧ nameLe b a) :=
    ⟨fun a b hab hba => hab hba.symm⟩
  have hstrict : names.Pairwise fun a b => ¬ (nameLe a b ∧ nameLe b a) :=
    h.imp fun hab hle => hab.2 hle.2
  exact hstrict.forall (hperm.mem_iff.mp ha) hb hne ⟨hab, hba⟩

/-- Freezing entries whose names stand in strict order already. -/
theorem StrictNames.fromMapping_eq_some {entries : List (String × PyVal)}
    (h : StrictNames (entries.map Prod.fst)) {o : PortableJsonObject} :
    fromMapping entries = some o ↔
      (freezeEntries (entries.map fun e => (pyStr e.1, e.2)) (MAX_JSON_DEPTH - 1)).map
        PortableJson.obj = some o.value := by
  have hnames : ∀ (es : List (String × PyVal)) (room : ℕ) (js : List (String × PortableJson)),
      freezeEntries (es.map fun e => (pyStr e.1, e.2)) room = some js →
        js.map Prod.fst = es.map Prod.fst := by
    intro es room
    induction es with
    | nil =>
      intro js hjs
      rw [List.map_nil, freezeEntries] at hjs
      obtain rfl := Option.some.inj hjs
      rfl
    | cons e es ih =>
      intro js hjs
      rw [List.map_cons, freezeEntries, requireScalarText_pyStr] at hjs
      split at hjs
      · next n j rest hn hj hrest =>
        obtain rfl := Option.some.inj hn
        obtain rfl := Option.some.inj hjs
        rw [List.map_cons, List.map_cons, ih _ hrest]
      · exact absurd hjs (by simp)
  rw [fromMapping, freezeObject_eq_some, freezePortableJson, freezeJson, if_neg (by decide)]
  cases hf : freezeEntries (entries.map fun e => (pyStr e.1, e.2)) (MAX_JSON_DEPTH - 1) with
  | none => simp
  | some frozen =>
    have hn := hnames _ _ _ hf
    dsimp only
    rw [if_pos (hn ▸ h.nodup), sortEntries_of_pairwise
      (pairwise_names.mpr (hn ▸ h.imp fun hab => hab.1)), Option.map_some]

/-- Two entry lists with the same distinct names and the same value
under each name are the same. -/
theorem entries_ext {l m : List (String × PortableJson)} (hnames : l.map Prod.fst = m.map Prod.fst)
    (hnodup : (m.map Prod.fst).Nodup) (hget : ∀ e ∈ m, l.lookup e.1 = some e.2) : l = m := by
  induction m generalizing l with
  | nil => exact List.map_eq_nil_iff.mp hnames
  | cons e m ih =>
    obtain ⟨e', l', rfl, hfst, htail⟩ := List.map_eq_cons_iff.mp hnames
    obtain ⟨name, v⟩ := e
    obtain ⟨name', v'⟩ := e'
    obtain rfl : name' = name := hfst
    rw [List.map_cons, List.nodup_cons] at hnodup
    have hv : v' = v := by
      have := hget (name', v) List.mem_cons_self
      simpa [List.lookup_cons] using this
    rw [hv, ih htail hnodup.2 fun e he => ?_]
    have hne : e.1 ≠ name' := by
      rintro rfl
      exact hnodup.1 (List.mem_map.mpr ⟨e, he, rfl⟩)
    have := hget e (List.mem_cons_of_mem _ he)
    rwa [List.lookup_cons, beq_false_of_ne hne] at this

/-- An object by its names and what stands under them. -/
theorem value_eq_iff {o : PortableJsonObject} {entries : List (String × PortableJson)}
    (h : StrictNames (entries.map Prod.fst)) :
    o.value = .obj entries ↔
      sameNames o (entries.map Prod.fst) ∧ ∀ e ∈ entries, o.get? e.1 = some e.2 := by
  constructor
  · intro hvalue
    have hentries : o.entries = entries := PortableJson.obj.inj hvalue
    refine ⟨by rw [sameNames, PortableJsonObject.names, hentries]; exact ⟨fun _ => id, fun _ => id⟩,
      fun e he => ?_⟩
    rw [PortableJsonObject.get?, hentries, List.lookup_eq_some_iff]
    obtain ⟨l₁, l₂, rfl⟩ := List.append_of_mem he
    refine ⟨l₁, l₂, rfl, fun p hp => ?_⟩
    have hnodup := h.nodup
    rw [List.map_append, List.map_cons, List.nodup_append] at hnodup
    have := hnodup.2.2 p.1 (List.mem_map_of_mem hp) e.1 (by simp)
    simpa [bne_iff_ne] using this.symm
  · rintro ⟨hsame, hget⟩
    exact congrArg PortableJson.obj (entries_ext (h.names_eq hsame) h.nodup hget)

/-! ## The header -/

/-- `_VERSION`. -/
def isVersion (s : List Char) : Bool :=
  match s with
  | [] => false
  | c :: rest =>
    (isDigit c || c.isAlpha) && rest.length ≤ 63 &&
      rest.all fun c => isDigit c || c.isAlpha || c = '.' || c = '+' || c = '_' || c = '-'

/-- Does the text have a pattern's shape: a digit at each `d`, and the
pattern's own character elsewhere? -/
def matchesPattern : List Char → List Char → Bool
  | [], [] => true
  | c :: s, p :: pattern => (if p = 'd' then isDigit c else c = p) && matchesPattern s pattern
  | _, _ => false

/-- The number of days in a month. -/
def daysInMonth (year month : ℕ) : ℕ :=
  if month = 2 then
    if year % 4 = 0 ∧ (year % 100 ≠ 0 ∨ year % 400 = 0) then 29 else 28
  else if month = 4 ∨ month = 6 ∨ month = 9 ∨ month = 11 then 30
  else 31

/-- The number the digits at a place spell. -/
def numberAt (s : List Char) (start length : ℕ) : ℕ := digitsValue ((s.drop start).take length)

/-- `_UTC_INSTANT`, and an instant that `strptime` reads and `strftime`
prints again. -/
def isUtcInstant (s : List Char) : Bool :=
  let year := numberAt s 0 4
  let month := numberAt s 5 2
  let day := numberAt s 8 2
  matchesPattern s "dddd-dd-ddTdd:dd:dd.ddddddZ".toList &&
    1 ≤ year && 1 ≤ month && month ≤ 12 && 1 ≤ day && day ≤ daysInMonth year month &&
    numberAt s 11 2 ≤ 23 && numberAt s 14 2 ≤ 59 && numberAt s 17 2 ≤ 59

/-- `SourceBackend`. -/
inductive SourceBackend where
  | sqlite
  | postgresql
deriving DecidableEq

/-- The backend with a text. -/
def SourceBackend.ofName (s : String) : Option SourceBackend :=
  if s = "sqlite" then some sqlite else if s = "postgresql" then some postgresql else none

def EXPORT_FORMAT_VERSION : ℤ := 1
def CANONICALIZATION_PROFILE : String := "aipcs-json-c14n-1"
def LIMIT_PROFILE : String := "aipcs-bundle-limits-1"
def PRODUCER_PACKAGE : String := "aipcs"

/-- `PortableHeader`, without the four fields that hold a constant. -/
structure PortableHeader where
  producerPackageVersion : String
  producerMcpContract : String
  createdAt : String
  sourceBackend : SourceBackend
  packageVersion_ok : isVersion producerPackageVersion.toList = true
  mcpContract_ok : isVersion producerMcpContract.toList = true
  createdAt_ok : isUtcInstant createdAt.toList = true
deriving DecidableEq

def HEADER_KEYS : List String :=
  ["export_format_version", "canonicalization", "limit_profile", "producer_package",
    "producer_package_version", "producer_mcp_contract", "created_at", "source_backend"]

/-- `PortableHeader.from_payload`. -/
def PortableHeader.fromPayload (payload : PortableJsonObject) : Option PortableHeader :=
  if sameNames payload HEADER_KEYS then
    match payload.get? "export_format_version", payload.get? "canonicalization",
      payload.get? "limit_profile", payload.get? "producer_package",
      payload.get? "producer_package_version", payload.get? "producer_mcp_contract",
      payload.get? "created_at", payload.get? "source_backend" with
    | some (.int format), some (.str canonicalization), some (.str limit), some (.str package),
      some (.str version), some (.str contract), some (.str created), some (.str backend) =>
      if format.1 = EXPORT_FORMAT_VERSION ∧ canonicalization = CANONICALIZATION_PROFILE ∧
          limit = LIMIT_PROFILE ∧ package = PRODUCER_PACKAGE then
        match SourceBackend.ofName backend with
        | some backend =>
          if h : isVersion version.toList = true ∧ isVersion contract.toList = true ∧
              isUtcInstant created.toList = true then
            some ⟨version, contract, created, backend, h.1, h.2.1, h.2.2⟩
          else none
        | none => none
      else none
    | _, _, _, _, _, _, _, _ => none
  else none

/-! ## Frames -/

/-- `PortableFrame`. -/
structure PortableFrame where
  kind : SectionKind
  ordinal : ℕ
  payload : PortableJsonObject
  sha256 : String
  ordinal_lt : ordinal < MAX_BUNDLE_FRAMES
  sha256_ok : isSha256 sha256.toList = true

/-- A natural number below the frame bounds, as a value. -/
def natJson (n : ℕ) (h : n < 2 ^ 63) : PortableJson := .int ⟨n, by omega, by omega⟩

/-- Frame numbers and byte counts are small. -/
theorem lt_signed_of_frames {n : ℕ} (h : n < MAX_BUNDLE_FRAMES) : n < 2 ^ 63 := by
  unfold MAX_BUNDLE_FRAMES at h; omega

namespace PortableFrame

variable (f : PortableFrame)

/-- The frame without its digest. -/
def core : PortableJson := .obj [("kind", .str f.kind.name),
  ("ordinal", natJson f.ordinal (lt_signed_of_frames f.ordinal_lt)), ("payload", f.payload.value)]

/-- The frame as it is written. -/
def value : PortableJson := .obj [("kind", .str f.kind.name),
  ("ordinal", natJson f.ordinal (lt_signed_of_frames f.ordinal_lt)), ("payload", f.payload.value),
  ("sha256", .str f.sha256)]

/-- The frame's line. -/
def line : List UInt8 := utf8Encode (encodeJson f.value) ++ [10]

/-- The digest is that of the core, and the payload leaves room for the
object around it. -/
structure Sound (f : PortableFrame) : Prop where
  digest : f.sha256 = hexdigest (utf8Encode (encodeJson f.core))
  room : f.payload.value.within (MAX_JSON_DEPTH - 1) = true

end PortableFrame

def FRAME_KEYS : List String := ["kind", "ordinal", "payload", "sha256"]

/-- The object that a frame's digest covers. -/
def frameCore (kind : SectionKind) (ordinal : ℕ) (payload : PortableJsonObject) :
    Option PortableJsonObject :=
  fromMapping [("kind", .str (pyStr kind.name)), ("ordinal", .int ordinal),
    ("payload", .portable payload)]

/-- `encode_non_trailer_frame`. -/
def encodeNonTrailerFrame (kind : SectionKind) (ordinal : ℕ) (payload : PyVal) :
    Option (List UInt8) := do
  let detached ← freezeObject payload
  if MAX_BUNDLE_FRAMES ≤ ordinal then none
  else
    let core ← frameCore kind ordinal detached
    let coreBytes ← canonicalJsonBytes (.portable core)
    let frame ← fromMapping [("kind", .str (pyStr kind.name)), ("ordinal", .int ordinal),
      ("payload", .portable detached), ("sha256", .str (pyStr (hexdigest coreBytes)))]
    let frameBytes ← canonicalJsonBytes (.portable frame)
    let line := frameBytes ++ [10]
    if MAX_FRAME_BYTES < line.length then none else some line

/-- `decode_non_trailer_frame`. -/
def decodeNonTrailerFrame (value : PortableJsonObject) : Option PortableFrame :=
  if sameNames value FRAME_KEYS then
    match value.get? "kind", value.get? "ordinal", value.getObject? "payload",
      value.get? "sha256" with
    | some (.str kind), some (.int ordinal), some payload, some (.str digest) =>
      match SectionKind.ofName kind with
      | some kind =>
        if h : 0 ≤ ordinal.1 ∧ ordinal.1.toNat < MAX_BUNDLE_FRAMES ∧
            isSha256 digest.toList = true then
          match (frameCore kind ordinal.1.toNat payload).bind fun core =>
            canonicalJsonBytes (.portable core) with
          | some bytes =>
            if hexdigest bytes ≠ digest then none
            else if kind = .header ∧ PortableHeader.fromPayload payload = none then none
            else some ⟨kind, ordinal.1.toNat, payload, digest, h.2.1, h.2.2⟩
          | none => none
        else none
      | none => none
    | _, _, _, _ => none
  else none

/-! ## What the two sides agree on -/

section Agreement

variable {room n : ℕ}

@[simp] theorem freezeJson_str (s : String) : freezeJson (.str (pyStr s)) room = some (.str s) := by
  rw [freezeJson, requireScalarText_pyStr, Option.map_some]

theorem freezeJson_nat (h : n < 2 ^ 63) : freezeJson (.int n) room = some (natJson n h) := by
  rw [freezeJson, dif_pos (by omega)]
  rfl

theorem freezeJson_portable (o : PortableJsonObject) : freezeJson (.portable o) room =
    if o.value.within room then some o.value else none := by rw [freezeJson]

/-- A frozen object is written. -/
theorem canonicalJsonBytes_of_frozen {v : PyVal} {o : PortableJsonObject}
    (h : freezeObject v = some o) :
    canonicalJsonBytes (.portable o) = some (utf8Encode (encodeJson o.value)) := by
  have hw := (freezeJson_frozen _ _ _ (freezeObject_eq_some.mp h)).2
  rw [canonicalJsonBytes, freezePortableJson, freezeJson, if_pos hw, Option.map_some]

theorem strict_frameKeys : StrictNames FRAME_KEYS := by decide

theorem strict_coreKeys : StrictNames ["kind", "ordinal", "payload"] := by decide

theorem frameCore_eq_some {kind : SectionKind} {payload core : PortableJsonObject}
    (h : n < 2 ^ 63) : frameCore kind n payload = some core ↔
      payload.value.within (MAX_JSON_DEPTH - 1) = true ∧
        .obj [("kind", .str kind.name), ("ordinal", natJson n h), ("payload", payload.value)]
          = core.value := by
  rw [frameCore, StrictNames.fromMapping_eq_some (by exact strict_coreKeys)]
  simp only [List.map_cons, List.map_nil, freezeEntries, requireScalarText_pyStr, freezeJson_str,
    freezeJson_nat h, freezeJson_portable]
  by_cases hw : payload.value.within (MAX_JSON_DEPTH - 1) = true
  · simp only [hw, if_true, true_and, Option.map_some, Option.some.injEq]
  · simp [hw]

/-- The object that is written for a kind, an ordinal and a payload. -/
theorem frameMapping_eq_some {kind : SectionKind} {payload frame : PortableJsonObject}
    {digest : String} (h : n < 2 ^ 63) :
    fromMapping [("kind", .str (pyStr kind.name)), ("ordinal", .int n),
      ("payload", .portable payload), ("sha256", .str (pyStr digest))] = some frame ↔
      payload.value.within (MAX_JSON_DEPTH - 1) = true ∧
        .obj [("kind", .str kind.name), ("ordinal", natJson n h), ("payload", payload.value),
          ("sha256", .str digest)] = frame.value := by
  rw [StrictNames.fromMapping_eq_some (by exact strict_frameKeys)]
  simp only [List.map_cons, List.map_nil, freezeEntries, requireScalarText_pyStr, freezeJson_str,
    freezeJson_nat h, freezeJson_portable]
  by_cases hw : payload.value.within (MAX_JSON_DEPTH - 1) = true
  · simp only [hw, if_true, true_and, Option.map_some, Option.some.injEq]
  · simp [hw]

theorem isSha256_hexdigest (bytes : List UInt8) : isSha256 (hexdigest bytes).toList = true := by
  rw [hexdigest, String.toList_ofList]
  exact isSha256_sha256Hex bytes

end Agreement

/-- Objects of strict names with ordered values. -/
theorem ordered_obj {entries : List (String × PortableJson)}
    (hnames : StrictNames (entries.map Prod.fst)) (hvalues : ∀ e ∈ entries, e.2.Ordered) :
    (PortableJson.obj entries).Ordered :=
  ⟨hnames.nodup, pairwise_names.mpr (hnames.imp fun hab => hab.1), orderedEntries_iff.mpr hvalues⟩

namespace PortableFrame

variable {f : PortableFrame}

theorem ordered_core : f.core.Ordered := by
  refine ordered_obj strict_coreKeys ?_
  simp only [List.forall_mem_cons, List.not_mem_nil, false_implies, implies_true, and_true]
  exact ⟨trivial, trivial, f.payload.ordered⟩

theorem ordered_value : f.value.Ordered := by
  refine ordered_obj strict_frameKeys ?_
  simp only [List.forall_mem_cons, List.not_mem_nil, false_implies, implies_true, and_true]
  exact ⟨trivial, trivial, f.payload.ordered, trivial⟩

/-- A sound frame's core is the object its digest covers. -/
theorem Sound.frameCore (hf : f.Sound) :
    Portable.frameCore f.kind f.ordinal f.payload = some ⟨_, f.ordered_core⟩ :=
  (frameCore_eq_some (lt_signed_of_frames f.ordinal_lt)).mpr ⟨hf.room, rfl⟩

end PortableFrame

/-- **What encoding writes**: the line of a sound frame of the kind, the
ordinal and the frozen payload, if it is not too long. -/
theorem encodeNonTrailerFrame_eq_some {kind : SectionKind} {ordinal : ℕ} {payload : PyVal}
    {line : List UInt8} :
    encodeNonTrailerFrame kind ordinal payload = some line ↔
      ∃ f : PortableFrame, f.kind = kind ∧ f.ordinal = ordinal ∧
        freezeObject payload = some f.payload ∧ f.Sound ∧ line = f.line ∧
          line.length ≤ MAX_FRAME_BYTES := by
  unfold encodeNonTrailerFrame
  simp only [Option.bind_eq_bind, Option.bind_eq_some_iff]
  constructor
  · rintro ⟨detached, hdetached, h⟩
    split_ifs at h with hlt
    rw [not_le] at hlt
    simp only [Option.bind_eq_some_iff] at h
    obtain ⟨core, hcore, coreBytes, hcoreBytes, frame, hframe, bytes, hbytes, h⟩ := h
    split_ifs at h with hlen
    have hn := lt_signed_of_frames hlt
    obtain ⟨hroom, hcoreValue⟩ := (frameCore_eq_some hn).mp hcore
    obtain ⟨-, hframeValue⟩ := (frameMapping_eq_some hn).mp hframe
    rw [canonicalJsonBytes_of_frozen hcore, Option.some.injEq] at hcoreBytes
    rw [canonicalJsonBytes_of_frozen hframe, Option.some.injEq] at hbytes
    refine ⟨⟨kind, ordinal, detached, hexdigest coreBytes, hlt, isSha256_hexdigest _⟩, rfl, rfl,
      hdetached, ⟨?_, hroom⟩, ?_, by rw [← Option.some.inj h]; omega⟩
    · rw [PortableFrame.core, hcoreValue, hcoreBytes]
    · rw [PortableFrame.line, PortableFrame.value, hframeValue, hbytes, Option.some.inj h]
  · rintro ⟨f, rfl, rfl, hpayload, hf, rfl, hlen⟩
    have hn := lt_signed_of_frames f.ordinal_lt
    have hcoreBytes := canonicalJsonBytes_of_frozen hf.frameCore
    have hframe := (@frameMapping_eq_some _ _ _ _ f.sha256 hn).mpr ⟨hf.room,
      (show _ = (⟨_, f.ordered_value⟩ : PortableJsonObject).value from rfl)⟩
    have hbytes := canonicalJsonBytes_of_frozen hframe
    refine ⟨f.payload, hpayload, ?_⟩
    rw [if_neg (not_le.mpr f.ordinal_lt)]
    simp only [Option.bind_eq_some_iff]
    refine ⟨_, hf.frameCore, _, hcoreBytes, _, ?_, _, hbytes, if_neg (not_lt.mpr hlen)⟩
    rw [← hframe, hf.digest]
    rfl

/-- **What decoding accepts**: the object of a sound frame, whose payload
is a header's where the frame is the header. -/
theorem decodeNonTrailerFrame_eq_some {o : PortableJsonObject} {f : PortableFrame} :
    decodeNonTrailerFrame o = some f ↔
      o.value = f.value ∧ f.Sound ∧
        (f.kind = .header → PortableHeader.fromPayload f.payload ≠ none) := by
  rw [PortableFrame.value, value_eq_iff (by exact strict_frameKeys)]
  constructor
  · intro h
    unfold decodeNonTrailerFrame at h
    by_cases hsame : sameNames o FRAME_KEYS
    swap
    · rw [if_neg hsame] at h; exact absurd h (by simp)
    rw [if_pos hsame] at h
    split at h
    swap
    · exact absurd h (by simp)
    next kind ordinal payload digest hk ho hp hd =>
    split at h
    swap
    · exact absurd h (by simp)
    next k hkind =>
    by_cases hok : 0 ≤ ordinal.1 ∧ ordinal.1.toNat < MAX_BUNDLE_FRAMES ∧
      isSha256 digest.toList = true
    swap
    · rw [dif_neg hok] at h; exact absurd h (by simp)
    rw [dif_pos hok] at h
    split at h
    swap
    · exact absurd h (by simp)
    next bytes hbytes =>
    split_ifs at h with hdigest hheader
    obtain rfl := Option.some.inj h
    obtain ⟨core, hcore, hcoreBytes⟩ := Option.bind_eq_some_iff.mp hbytes
    have hn := lt_signed_of_frames hok.2.1
    obtain ⟨hroom, hvalue⟩ := (frameCore_eq_some hn).mp hcore
    rw [canonicalJsonBytes_of_frozen hcore, Option.some.injEq] at hcoreBytes
    have hint : natJson ordinal.1.toNat hn = .int ordinal := by
      unfold natJson
      congr 1
      exact Subtype.ext (Int.toNat_of_nonneg hok.1)
    refine ⟨⟨hsame, ?_⟩, ⟨?_, hroom⟩, fun hkh hnone => hheader ⟨hkh, hnone⟩⟩
    · simp only [List.forall_mem_cons, List.not_mem_nil, false_implies, implies_true, and_true]
      exact ⟨by rw [hk, SectionKind.name_of_ofName hkind], by rw [ho, hint],
        PortableJsonObject.getObject?_eq_some.mp hp, hd⟩
    · rw [PortableFrame.core, hvalue, hcoreBytes]
      exact (not_not.mp hdigest).symm
  · rintro ⟨⟨hsame, hget⟩, hf, hheader⟩
    simp only [List.forall_mem_cons, List.not_mem_nil, false_implies, implies_true, and_true]
      at hget
    obtain ⟨hk, ho, hp, hd⟩ := hget
    have hcoreBytes := canonicalJsonBytes_of_frozen hf.frameCore
    unfold decodeNonTrailerFrame
    rw [if_pos (show sameNames o FRAME_KEYS from hsame)]
    simp only [hk, ho, PortableJsonObject.getObject?_eq_some.mpr hp, hd, natJson,
      SectionKind.ofName_name, Int.toNat_natCast]
    rw [dif_pos ⟨by omega, f.ordinal_lt, f.sha256_ok⟩]
    simp only [hf.frameCore, Option.bind_some, hcoreBytes]
    have hdigest : hexdigest (utf8Encode (encodeJson (⟨_, f.ordered_core⟩ : PortableJsonObject).value))
        = f.sha256 := hf.digest.symm
    rw [if_neg (not_not.mpr hdigest), if_neg fun h => hheader h.1 h.2]

end Portable

end Aipcs

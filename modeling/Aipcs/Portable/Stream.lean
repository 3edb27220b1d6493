import Aipcs.Portable.Digests

/-!
# Portable — the bundle stream, written and validated

`PortableBundleEncoder` emits one line a call and then the trailer;
`validateAndSpoolBundle` reads a byte stream line by line and accepts it
at the trailer. Both hold the digest authority, so one simulation joins
them: after the same lines the two hold the same digests
(`validateFrom_emitted`). The other way round, what the reader accepts
is the lines of a well-ordered run of frames and their trailer
(`validateFrom_grammar`), and nothing more.

The spool's files and the private directory around them are left out:
the bytes spooled are part of the result, and an input or output error
is a refusal.
-/

namespace Aipcs

namespace Portable

/-! ## Limits and summaries -/

/-- `PortableBundleLimits`. -/
structure PortableBundleLimits where
  maximumTotalBytes : ℕ
  pos : 1 ≤ maximumTotalBytes
  le : maximumTotalBytes ≤ ABSOLUTE_MAX_BUNDLE_BYTES

/-- The limits a caller gets who names none. -/
def PortableBundleLimits.default : PortableBundleLimits :=
  ⟨DEFAULT_MAX_BUNDLE_BYTES, by decide, by decide⟩

/-- The checks of `PortableBundleSummary`. -/
def SummaryChecks (sections : List PortableSection) (rootSha256 : String)
    (preTrailerByteCount totalByteCount frameCount : ℕ) : Prop :=
  sections.map PortableSection.kind = SECTION_KINDS ∧ isSha256 rootSha256.toList = true ∧
    preTrailerByteCount < totalByteCount ∧ totalByteCount ≤ ABSOLUTE_MAX_BUNDLE_BYTES ∧
    3 ≤ frameCount ∧ frameCount ≤ MAX_BUNDLE_FRAMES ∧
    (sections.map PortableSection.count).sum + 1 = frameCount

instance (sections : List PortableSection) (rootSha256 : String) (pre total count : ℕ) :
    Decidable (SummaryChecks sections rootSha256 pre total count) := by
  unfold SummaryChecks
  exact inferInstance

/-- `PortableBundleSummary`. -/
structure PortableBundleSummary where
  header : PortableHeader
  sections : List PortableSection
  rootSha256 : String
  preTrailerByteCount : ℕ
  totalByteCount : ℕ
  frameCount : ℕ
  checks : SummaryChecks sections rootSha256 preTrailerByteCount totalByteCount frameCount

/-- The summary of a header, a trailer and the bytes of both and between. -/
def PortableBundleSummary.make (header : PortableHeader) (trailer : PortableTrailer)
    (totalByteCount : ℕ) : Option PortableBundleSummary :=
  if h : SummaryChecks trailer.sections trailer.rootSha256 trailer.preTrailerByteCount
      totalByteCount (trailer.ordinal + 1) then
    some ⟨header, trailer.sections, trailer.rootSha256, trailer.preTrailerByteCount,
      totalByteCount, trailer.ordinal + 1, h⟩
  else none

/-- The header known after a frame. -/
def headerAfter (header : Option PortableHeader) (frame : PortableFrame) : Option PortableHeader :=
  if frame.kind = .header then PortableHeader.fromPayload frame.payload else header

/-! ## The writer -/

/-- `PortableBundleEncoder`. -/
structure PortableBundleEncoder where
  limits : PortableBundleLimits
  digests : OrderedBundleDigests := {}
  header : Option PortableHeader := none
  finished : Bool := false

namespace PortableBundleEncoder

/-- `add`: the line, and the encoder after it. -/
def add (e : PortableBundleEncoder) (kind : SectionKind) (payload : PyVal) :
    Option (PortableBundleEncoder × List UInt8) :=
  if e.finished then none
  else do
    let line ← encodeNonTrailerFrame kind e.digests.nextOrdinal payload
    let value ← decodeCanonicalJsonObject line.dropLast
    let decoded ← decodeNonTrailerFrame value
    if e.limits.maximumTotalBytes < e.digests.preTrailerByteCount + line.length then none
    else
      let digests ← e.digests.add decoded line
      some ({ e with digests := digests, header := headerAfter e.header decoded }, line)

/-- `finish`: the trailer's line and the summary. -/
def finish (e : PortableBundleEncoder) :
    Option (PortableBundleEncoder × List UInt8 × PortableBundleSummary) :=
  if e.finished then none
  else do
    let header ← e.header
    let trailer ← e.digests.trailer
    let line ← encodeTrailer trailer
    let total := trailer.preTrailerByteCount + line.length
    if e.limits.maximumTotalBytes < total then none
    else
      let summary ← PortableBundleSummary.make header trailer total
      some ({ e with finished := true }, line, summary)

/-- A run of calls: those that are refused leave the encoder as it is. -/
def run : PortableBundleEncoder → List (SectionKind × PyVal) → PortableBundleEncoder × List UInt8
  | e, [] => (e, [])
  | e, (kind, payload) :: calls =>
    match e.add kind payload with
    | some (e', line) =>
      let (e'', rest) := e'.run calls
      (e'', line ++ rest)
    | none => e.run calls

end PortableBundleEncoder

/-! ## The reader -/

/-- `readline(size)` of a binary stream: up to a newline, the size, or
the end. -/
def readline : ℕ → List UInt8 → List UInt8 × List UInt8
  | 0, source => ([], source)
  | _ + 1, [] => ([], [])
  | size + 1, b :: source =>
    if b = 10 then ([b], source)
    else
      let (line, rest) := readline size source
      (b :: line, rest)

/-- `_read_frame`. -/
def readFrame (source : List UInt8) : Option (List UInt8 × List UInt8) :=
  let (line, rest) := readline (MAX_FRAME_BYTES + 1) source
  if line = [] ∨ MAX_FRAME_BYTES < line.length ∨ ¬ [10] <:+ line ∨ line = [10] ∨ [13, 10] <:+ line
  then none
  else some (line, rest)

/-- The reader's state: what its loop carries. -/
structure Reader where
  digests : OrderedBundleDigests := {}
  header : Option PortableHeader := none
  totalBytes : ℕ := 0
  spool : List UInt8 := []

/-- `ValidatedPortableBundle`: the summary and the bytes spooled. -/
structure ValidatedPortableBundle where
  summary : PortableBundleSummary
  spool : List UInt8

/-- `decoded.get("kind") == "trailer"`. -/
def isTrailer (decoded : PortableJsonObject) : Bool :=
  match decoded.get? "kind" with
  | some (.str kind) => kind = "trailer"
  | _ => false

/-- What one turn of the reader's loop comes to. -/
inductive Turn where
  | next (reader : Reader) (source : List UInt8)
  | done (bundle : ValidatedPortableBundle)

/-- The end of the loop: the trailer, and nothing after it. -/
def readTrailer (r : Reader) (decoded : PortableJsonObject) (line rest : List UInt8)
    (total : ℕ) : Option Turn := do
  let trailer ← decodeTrailer decoded
  if r.digests.trailer ≠ some trailer then none
  else
    let header ← r.header
    if rest ≠ [] then none
    else
      let summary ← PortableBundleSummary.make header trailer total
      some (.done ⟨summary, r.spool ++ line⟩)

/-- The body of the loop of `validate_and_spool_bundle`. -/
def readTurn (limits : PortableBundleLimits) (r : Reader) (source : List UInt8) : Option Turn := do
  let (line, rest) ← readFrame source
  let total := r.totalBytes + line.length
  if limits.maximumTotalBytes < total then none
  else if MAX_BUNDLE_FRAMES < r.digests.nextOrdinal + 1 then none
  else
    let decoded ← decodeCanonicalJsonObject line.dropLast
    if isTrailer decoded then readTrailer r decoded line rest total
    else
      let frame ← decodeNonTrailerFrame decoded
      let digests ← r.digests.add frame line
      some (.next ⟨digests, headerAfter r.header frame, total, r.spool ++ line⟩ rest)

/-- The loop, with fuel for one turn a byte. -/
def validateFrom (limits : PortableBundleLimits) : ℕ → Reader → List UInt8 →
    Option ValidatedPortableBundle
  | 0, _, _ => none
  | fuel + 1, r, source =>
    match readTurn limits r source with
    | some (.next r rest) => validateFrom limits fuel r rest
    | some (.done bundle) => some bundle
    | none => none

/-- `validate_and_spool_bundle`. -/
def validateAndSpoolBundle (limits : PortableBundleLimits) (source : List UInt8) :
    Option ValidatedPortableBundle :=
  validateFrom limits (source.length + 1) {} source

/-! ## Reading a line -/

theorem readline_line {body rest : List UInt8} (hbody : (10 : UInt8) ∉ body) :
    ∀ {size : ℕ}, body.length < size → readline size (body ++ [10] ++ rest) = (body ++ [10], rest) := by
  induction body with
  | nil =>
    intro size hsize
    obtain ⟨size, rfl⟩ : ∃ k, size = k + 1 := ⟨size - 1, by simp at hsize; omega⟩
    rfl
  | cons b body ih =>
    intro size hsize
    obtain ⟨size, rfl⟩ : ∃ k, size = k + 1 := ⟨size - 1, by simp at hsize; omega⟩
    have hb : b ≠ 10 := fun h => hbody (h ▸ List.mem_cons_self)
    rw [List.cons_append, List.cons_append, readline, if_neg hb,
      ih (fun h => hbody (List.mem_cons_of_mem _ h)) (by simpa using hsize)]

theorem readline_append (size : ℕ) (source : List UInt8) :
    (readline size source).1 ++ (readline size source).2 = source := by
  induction source generalizing size with
  | nil => cases size <;> rfl
  | cons b source ih =>
    cases size with
    | zero => rfl
    | succ size =>
      rw [readline]
      split_ifs
      · rfl
      · exact congrArg (b :: ·) (ih size)

/-- An object's bytes end with its bracket. -/
theorem object_bytes (entries : List (String × PortableJson)) :
    ∃ init, utf8Encode (encodeJson (.obj entries)) = init ++ [125] := by
  refine ⟨utf8Encode ('{' :: joinComma (encodeEntries entries)), ?_⟩
  rw [encodeJson, ← List.cons_append, utf8Encode_append]
  rfl

/-- An object's line is read whole. -/
theorem readFrame_line {entries : List (String × PortableJson)} {rest : List UInt8}
    (hlen : (utf8Encode (encodeJson (.obj entries)) ++ [10]).length ≤ MAX_FRAME_BYTES) :
    readFrame (utf8Encode (encodeJson (.obj entries)) ++ [10] ++ rest) =
      some (utf8Encode (encodeJson (.obj entries)) ++ [10], rest) := by
  have hread := @readline_line _ rest (newline_notMem_bytes (.obj entries)) (MAX_FRAME_BYTES + 1)
    (by rw [List.length_append] at hlen; omega)
  obtain ⟨init, hinit⟩ := object_bytes entries
  rw [readFrame, hread]
  dsimp only
  refine if_neg ?_
  rw [hinit] at hlen ⊢
  rintro (h | h | h | h | h)
  · exact absurd h (by simp)
  · exact absurd hlen (not_le.mpr h)
  · exact h (List.suffix_append _ _)
  · exact absurd (congrArg List.length h) (by simp)
  · obtain ⟨init', h⟩ := h
    rw [List.append_assoc, show [13, 10] = [(13 : UInt8)] ++ [10] from rfl, ← List.append_assoc,
      ← List.append_assoc, List.append_cancel_right_eq] at h
    exact absurd (List.append_inj_right' h rfl) (by decide)

theorem readFrame_eq_some {source line rest : List UInt8} (h : readFrame source = some (line, rest)) :
    source = line ++ rest ∧ line = line.dropLast ++ [10] := by
  unfold readFrame at h
  have happend := readline_append (MAX_FRAME_BYTES + 1) source
  revert h happend
  generalize readline (MAX_FRAME_BYTES + 1) source = p
  obtain ⟨l, r⟩ := p
  intro h happend
  dsimp only at h happend
  split_ifs at h with hbad
  obtain ⟨rfl, rfl⟩ := Prod.mk.inj (Option.some.inj h)
  refine ⟨happend.symm, ?_⟩
  simp only [not_or, not_not] at hbad
  obtain ⟨init, rfl⟩ := hbad.2.2.1
  rw [List.dropLast_concat]

/-! ## What is written is accepted -/

/-- The reader that has read what an encoder has emitted. -/
def readerOf (e : PortableBundleEncoder) (spool : List UInt8) : Reader :=
  ⟨e.digests, e.header, e.digests.preTrailerByteCount, spool⟩

theorem not_trailer_of_frame {o : PortableJsonObject} {f : PortableFrame}
    (h : decodeNonTrailerFrame o = some f) : isTrailer o = false := by
  have hvalue := (decodeNonTrailerFrame_eq_some.mp h).1
  obtain ⟨-, hget⟩ := (value_eq_iff (by exact strict_frameKeys)).mp hvalue
  have hkind := hget _ List.mem_cons_self
  dsimp only at hkind
  rw [isTrailer, hkind]
  cases f.kind <;> decide

theorem isTrailer_of_value {o : PortableJsonObject} {t : PortableTrailer} (h : o.value = t.value) :
    isTrailer o = true := by
  obtain ⟨-, hget⟩ := (value_eq_iff (by exact strict_trailerKeys)).mp h
  have hkind := hget _ List.mem_cons_self
  dsimp only at hkind
  rw [isTrailer, hkind]
  decide

theorem dropLast_line (bytes : List UInt8) : (bytes ++ [10]).dropLast = bytes :=
  List.dropLast_concat

/-- **The reader's turn on a line the encoder emitted.** -/
theorem readTurn_emitted {e e' : PortableBundleEncoder} {kind : SectionKind} {payload : PyVal}
    {line spool rest : List UInt8} (h : e.add kind payload = some (e', line)) :
    e'.limits = e.limits ∧ line ≠ [] ∧ readTurn e.limits (readerOf e spool) (line ++ rest) =
      some (.next (readerOf e' (spool ++ line)) rest) := by
  unfold PortableBundleEncoder.add at h
  split_ifs at h with hfinished
  simp only [Option.bind_eq_bind, Option.bind_eq_some_iff] at h
  obtain ⟨l, hline, value, hvalue, decoded, hdecoded, h⟩ := h
  split_ifs at h with hlimit
  simp only [Option.bind_eq_some_iff] at h
  obtain ⟨digests, hdigests, h⟩ := h
  obtain ⟨rfl, rfl⟩ := Prod.mk.inj (Option.some.inj h)
  obtain ⟨f, -, -, -, -, rfl, hlen⟩ := encodeNonTrailerFrame_eq_some.mp hline
  have hcount : digests.preTrailerByteCount = e.digests.preTrailerByteCount + f.line.length ∧
      e.digests.nextOrdinal < MAX_BUNDLE_FRAMES - 1 := by
    unfold OrderedBundleDigests.add at hdigests
    split_ifs at hdigests with hadmits
    rw [← Option.some.inj hdigests]
    exact ⟨rfl, hadmits.2.2.2.2.2.2.2.2⟩
  refine ⟨rfl, by simp [PortableFrame.line], ?_⟩
  have hread : readFrame (f.line ++ rest) = some (f.line, rest) := readFrame_line hlen
  unfold readTurn
  rw [hread]
  simp only [Option.bind_eq_bind, Option.bind_some, readerOf]
  rw [if_neg hlimit, if_neg (by omega), hvalue, Option.bind_some,
    if_neg (by rw [not_trailer_of_frame hdecoded]; simp), hdecoded, Option.bind_some, hdigests,
    Option.bind_some, hcount.1]

/-- Reading what a run of calls emitted. -/
theorem validateFrom_emitted (calls : List (SectionKind × PyVal)) :
    ∀ (e : PortableBundleEncoder) (spool rest : List UInt8) (fuel : ℕ),
      (e.run calls).2.length + rest.length < fuel → ∃ fuel', rest.length < fuel' ∧
        validateFrom e.limits fuel (readerOf e spool) ((e.run calls).2 ++ rest) =
          validateFrom (e.run calls).1.limits fuel'
            (readerOf (e.run calls).1 (spool ++ (e.run calls).2)) rest := by
  induction calls with
  | nil =>
    intro e spool rest fuel hfuel
    simp only [PortableBundleEncoder.run, List.length_nil, Nat.zero_add, List.nil_append,
      List.append_nil] at hfuel ⊢
    exact ⟨fuel, hfuel, rfl⟩
  | cons call calls ih =>
    obtain ⟨kind, payload⟩ := call
    intro e spool rest fuel hfuel
    cases hadd : e.add kind payload with
    | none =>
      simp only [PortableBundleEncoder.run, hadd] at hfuel ⊢
      exact ih e spool rest fuel hfuel
    | some p =>
      obtain ⟨e', line⟩ := p
      simp only [PortableBundleEncoder.run, hadd] at hfuel ⊢
      obtain ⟨hlimits, hne, hturn⟩ := @readTurn_emitted e e' kind payload line spool
        ((e'.run calls).2 ++ rest) hadd
      have hpos : 0 < line.length := List.length_pos_iff.mpr hne
      obtain ⟨fuel, rfl⟩ : ∃ k, fuel = k + 1 := ⟨fuel - 1, by omega⟩
      obtain ⟨fuel', hfuel', heq⟩ := ih e' (spool ++ line) rest fuel (by
        rw [List.length_append] at hfuel; omega)
      refine ⟨fuel', hfuel', ?_⟩
      rw [List.append_assoc, validateFrom, hturn, ← List.append_assoc spool, ← heq, hlimits]

theorem run_limits (calls : List (SectionKind × PyVal)) (e : PortableBundleEncoder) :
    (e.run calls).1.limits = e.limits := by
  induction calls generalizing e with
  | nil => rfl
  | cons call calls ih =>
    obtain ⟨kind, payload⟩ := call
    cases hadd : e.add kind payload with
    | none => simp only [PortableBundleEncoder.run, hadd, ih]
    | some p =>
      obtain ⟨e', line⟩ := p
      simp only [PortableBundleEncoder.run, hadd, ih]
      exact (@readTurn_emitted e e' kind payload line [] [] hadd).1

/-- The reader's turn on a trailer's line, after the lines before it. -/
theorem readTurn_trailer {e e' : PortableBundleEncoder} {line spool : List UInt8}
    {summary : PortableBundleSummary} (h : e.finish = some (e', line, summary)) :
    readTurn e.limits (readerOf e spool) line = some (.done ⟨summary, spool ++ line⟩) := by
  unfold PortableBundleEncoder.finish at h
  split_ifs at h with hfinished
  simp only [Option.bind_eq_bind, Option.bind_eq_some_iff] at h
  obtain ⟨header, hheader, t, ht, l, hl, h⟩ := h
  split_ifs at h with hlimit
  simp only [Option.bind_eq_some_iff] at h
  obtain ⟨s, hs, h⟩ := h
  obtain ⟨rfl, htail⟩ := Prod.mk.inj (Option.some.inj h)
  obtain ⟨rfl, rfl⟩ := Prod.mk.inj htail
  obtain ⟨rfl, hlen⟩ := encodeTrailer_eq_some.mp hl
  obtain ⟨hordinal, hcount, -⟩ := OrderedBundleDigests.trailer_eq_some ht
  have hread : readFrame t.line = some (t.line, []) := by
    have := @readFrame_line _ [] hlen
    rwa [List.append_nil] at this
  have hlt := t.checks.ordinal_lt
  unfold readTurn
  rw [hread]
  simp only [Option.bind_eq_bind, Option.bind_some, readerOf]
  rw [if_neg (by rwa [← hcount]), if_neg (by omega), PortableTrailer.line, dropLast_line,
    decode_trailerLine, Option.bind_some, if_pos (isTrailer_of_value rfl), readTrailer,
    decodeTrailer_eq_some.mpr rfl]
  simp only [Option.bind_eq_bind, Option.bind_some]
  rw [if_neg (not_not.mpr ht), hheader, Option.bind_some, if_neg (by simp), ← PortableTrailer.line,
    ← hcount, hs, Option.bind_some]

/-- **What the encoder emits is accepted**, with the summary `finish`
gave. -/
theorem validate_emitted {limits : PortableBundleLimits} {calls : List (SectionKind × PyVal)}
    {e' : PortableBundleEncoder} {line : List UInt8} {summary : PortableBundleSummary}
    (h : (PortableBundleEncoder.run { limits := limits } calls).1.finish
      = some (e', line, summary)) :
    validateAndSpoolBundle limits ((PortableBundleEncoder.run { limits := limits } calls).2 ++ line) =
      some ⟨summary, (PortableBundleEncoder.run { limits := limits } calls).2 ++ line⟩ := by
  obtain ⟨fuel, hfuel, heq⟩ := validateFrom_emitted calls { limits := limits } [] line _
    (by rw [← List.length_append]; exact Nat.lt_succ_self _)
  obtain ⟨fuel, rfl⟩ : ∃ k, fuel = k + 1 := ⟨fuel - 1, by omega⟩
  rw [validateAndSpoolBundle]
  refine heq.trans ?_
  rw [validateFrom, readTurn_trailer h, List.nil_append]

/-! ## What is accepted is a bundle -/

/-- What the reader holds after a run of frames. -/
structure Reads (r : Reader) (frames : List PortableFrame) : Prop where
  digests : r.digests = OrderedBundleDigests.ofFrames frames
  ordered : WellOrdered frames
  readable : ∀ f ∈ frames, Readable f
  total : r.totalBytes = (lines frames).length
  spool : r.spool = lines frames
  header : r.header = frames.head?.bind fun f => PortableHeader.fromPayload f.payload

/-- The reader's start. -/
theorem reads_nil : Reads {} [] where
  digests := rfl
  ordered := ⟨trivial, rfl, by simp⟩
  readable := by simp
  total := rfl
  spool := rfl
  header := rfl

/-- Only the first frame is a header. -/
theorem headerAfter_append {frames : List PortableFrame} {f : PortableFrame}
    (h : WellOrdered (frames ++ [f])) :
    headerAfter (frames.head?.bind fun f => PortableHeader.fromPayload f.payload) f =
      (frames ++ [f]).head?.bind fun f => PortableHeader.fromPayload f.payload := by
  match frames, h.grammar with
  | [], hg => exact if_pos hg
  | [g], ⟨_, hs, _⟩ => exact if_neg (by rw [hs]; decide)
  | g :: s :: rest, ⟨_, _, hrest, _⟩ =>
    refine if_neg fun hf => ?_
    have := hrest f (by simp)
    rw [hf] at this
    exact absurd this (by decide)

/-- What the reader's last turn has checked. -/
theorem readTrailer_eq_some {r : Reader} {decoded : PortableJsonObject} {line rest : List UInt8}
    {total : ℕ} {turn : Turn} (h : readTrailer r decoded line rest total = some turn) :
    ∃ t header s, decodeTrailer decoded = some t ∧ r.digests.trailer = some t ∧
      r.header = some header ∧ rest = [] ∧ PortableBundleSummary.make header t total = some s ∧
        turn = .done ⟨s, r.spool ++ line⟩ := by
  unfold readTrailer at h
  simp only [Option.bind_eq_bind, Option.bind_eq_some_iff] at h
  obtain ⟨t, ht, h⟩ := h
  by_cases hverify : r.digests.trailer = some t
  swap
  · rw [if_pos hverify] at h; exact absurd h (by simp)
  rw [if_neg (not_not.mpr hverify)] at h
  obtain ⟨header, hheader, h⟩ := Option.bind_eq_some_iff.mp h
  by_cases hend : rest = []
  swap
  · rw [if_pos hend] at h; exact absurd h (by simp)
  rw [if_neg (not_not.mpr hend)] at h
  obtain ⟨s, hs, h⟩ := Option.bind_eq_some_iff.mp h
  exact ⟨t, header, s, ht, hverify, hheader, hend, hs, (Option.some.inj h).symm⟩

/-- What a turn of the reader has checked: a line that is a trailer's
or a frame's. -/
theorem readTurn_cases {limits : PortableBundleLimits} {r : Reader} {source : List UInt8}
    {turn : Turn} (h : readTurn limits r source = some turn) :
    ∃ line rest decoded, readFrame source = some (line, rest) ∧
      decodeCanonicalJsonObject line.dropLast = some decoded ∧
      (readTrailer r decoded line rest (r.totalBytes + line.length) = some turn ∨
        ∃ f digests, decodeNonTrailerFrame decoded = some f ∧ r.digests.add f line = some digests ∧
          turn = .next ⟨digests, headerAfter r.header f, r.totalBytes + line.length,
            r.spool ++ line⟩ rest) := by
  unfold readTurn at h
  simp only [Option.bind_eq_bind, Option.bind_eq_some_iff] at h
  obtain ⟨⟨line, rest⟩, hread, h⟩ := h
  dsimp only at h
  split_ifs at h with h1 h2
  obtain ⟨decoded, hdecoded, h⟩ := Option.bind_eq_some_iff.mp h
  refine ⟨line, rest, decoded, hread, hdecoded, ?_⟩
  by_cases htrailer : isTrailer decoded = true
  · rw [if_pos htrailer] at h
    exact Or.inl h
  · rw [if_neg htrailer] at h
    obtain ⟨f, hf, h⟩ := Option.bind_eq_some_iff.mp h
    obtain ⟨digests, hdigests, h⟩ := Option.bind_eq_some_iff.mp h
    exact Or.inr ⟨f, digests, hf, hdigests, (Option.some.inj h).symm⟩

/-- **One turn reads one more frame.** -/
theorem reads_step {limits : PortableBundleLimits} {r r' : Reader} {source rest : List UInt8}
    {frames : List PortableFrame} (hr : Reads r frames)
    (h : readTurn limits r source = some (.next r' rest)) :
    ∃ f, Reads r' (frames ++ [f]) ∧ source = f.line ++ rest := by
  obtain ⟨line, rest', decoded, hread, hdecoded, h | ⟨f, digests, hf, hdigests, h⟩⟩ :=
    readTurn_cases h
  · obtain ⟨_, _, _, -, -, -, -, -, h⟩ := readTrailer_eq_some h
    exact absurd h (by simp)
  obtain ⟨rfl, rfl⟩ := Turn.next.inj h
  rw [hr.digests] at hdigests
  obtain ⟨rfl, hordered, rfl⟩ := OrderedBundleDigests.add_ofFrames
    (decodeNonTrailerFrame_eq_some.mp hf).2.1 hr.ordered hdigests
  refine ⟨f, ⟨rfl, hordered, ?_, ?_, ?_, ?_⟩, (readFrame_eq_some hread).1⟩
  · intro g hg
    rcases List.mem_append.mp hg with hg | hg
    · exact hr.readable g hg
    · rw [List.mem_singleton.mp hg, Readable, hdecoded]
      exact hf
  · rw [hr.total, lines_append, lines_singleton, List.length_append]
  · rw [hr.spool, lines_append, lines_singleton]
  · dsimp only
    rw [hr.header, headerAfter_append hordered]

/-- An accepted stream taken apart: a well-ordered run of frames, and
the trailer that the digests of that run give, with nothing after it. -/
structure Bundle (source : List UInt8) (bundle : ValidatedPortableBundle) where
  frames : List PortableFrame
  trailer : PortableTrailer
  ordered : WellOrdered frames
  readable : ∀ f ∈ frames, Readable f
  trailer_eq : (OrderedBundleDigests.ofFrames frames).trailer = some trailer
  source_eq : source = lines frames ++ trailer.line
  spool_eq : bundle.spool = source
  root_eq : bundle.summary.rootSha256 = trailer.rootSha256
  sections_eq : bundle.summary.sections = trailer.sections
  pre_eq : bundle.summary.preTrailerByteCount = trailer.preTrailerByteCount
  total_eq : bundle.summary.totalByteCount = source.length
  count_eq : bundle.summary.frameCount = frames.length + 1
  header_eq : some bundle.summary.header =
    frames.head?.bind fun f => PortableHeader.fromPayload f.payload

/-- The last turn reads the trailer. -/
theorem bundle_of_done {limits : PortableBundleLimits} {r : Reader} {source : List UInt8}
    {frames : List PortableFrame} {b : ValidatedPortableBundle} (hr : Reads r frames)
    (h : readTurn limits r source = some (.done b)) :
    Nonempty (Bundle (lines frames ++ source) b) := by
  obtain ⟨line, rest, decoded, hread, hdecoded, h | ⟨f, digests, -, -, h⟩⟩ := readTurn_cases h
  swap
  · exact absurd h (by simp)
  obtain ⟨t, header, s, ht, hverify, hheader, rfl, hs, h⟩ := readTrailer_eq_some h
  obtain rfl := Turn.done.inj h
  obtain ⟨hsource, hend⟩ := readFrame_eq_some hread
  rw [List.append_nil] at hsource
  subst hsource
  -- the line is the canonical line of the trailer it decodes to
  have hline : source = t.line := by
    rw [hend, (accepted_bytes hdecoded).1, decodeTrailer_eq_some.mp ht, PortableTrailer.line]
  unfold PortableBundleSummary.make at hs
  split_ifs at hs with hchecks
  obtain rfl := Option.some.inj hs
  rw [hr.digests] at hverify
  obtain ⟨hordinal, -⟩ := OrderedBundleDigests.trailer_eq_some hverify
  exact ⟨frames, t, hr.ordered, hr.readable, hverify, by rw [hline], by rw [hr.spool], rfl, rfl,
    rfl, (by change r.totalBytes + source.length = _; rw [hr.total, List.length_append]),
    (by change t.ordinal + 1 = _; rw [hordinal]; rfl), by rw [← hr.header, hheader]⟩

/-- **An accepted stream is a bundle.** -/
theorem bundle_of_validateFrom {limits : PortableBundleLimits} {b : ValidatedPortableBundle} :
    ∀ (fuel : ℕ) (r : Reader) (source : List UInt8) (frames : List PortableFrame), Reads r frames →
      validateFrom limits fuel r source = some b → Nonempty (Bundle (lines frames ++ source) b) := by
  intro fuel
  induction fuel with
  | zero => intro r source frames _ h; exact absurd h (by simp [validateFrom])
  | succ fuel ih =>
    intro r source frames hr h
    rw [validateFrom] at h
    split at h
    · next r' rest hturn =>
      obtain ⟨f, hr', rfl⟩ := reads_step hr hturn
      have := ih r' rest _ hr' h
      rwa [lines_append, lines_singleton, List.append_assoc] at this
    · next bundle hturn =>
      obtain rfl := Option.some.inj h
      exact bundle_of_done hr hturn
    · exact absurd h (by simp)

theorem bundle_of_validate {limits : PortableBundleLimits} {source : List UInt8}
    {b : ValidatedPortableBundle} (h : validateAndSpoolBundle limits source = some b) :
    Nonempty (Bundle source b) :=
  bundle_of_validateFrom _ _ _ [] reads_nil h

/-- A bundle's frames start with its header and its service. -/
theorem grammar_of_trailer {frames : List PortableFrame} {t : PortableTrailer}
    (hw : WellOrdered frames) (h : (OrderedBundleDigests.ofFrames frames).trailer = some t) :
    ∃ hd s rest, frames = hd :: s :: rest ∧ hd.kind = .header ∧ s.kind = .service ∧
      (∀ f ∈ rest, f.kind = .record ∨ f.kind = .history ∨ f.kind = .branch ∨
        f.kind = .branchMembership) ∧ rest.Pairwise fun f g => f.kind.index ≤ g.kind.index := by
  unfold OrderedBundleDigests.trailer at h
  split_ifs at h with hcounts
  rw [not_or, not_not, not_not] at hcounts
  match frames, hw.grammar with
  | [], _ => exact absurd hcounts.1 (by simp [OrderedBundleDigests.ofFrames])
  | [g], hg =>
    refine absurd hcounts.2 ?_
    simp [OrderedBundleDigests.ofFrames, show g.kind = _ from hg]
  | g :: s :: rest, ⟨hg, hs, hrest, hsorted⟩ => exact ⟨g, s, rest, rfl, hg, hs, hrest, hsorted⟩

/-- What stands before the trailer. -/
theorem Bundle.take_pre {source : List UInt8} {b : ValidatedPortableBundle} (c : Bundle source b) :
    source.take b.summary.preTrailerByteCount = lines c.frames := by
  obtain ⟨-, hpre, -⟩ := OrderedBundleDigests.trailer_eq_some c.trailer_eq
  rw [c.pre_eq, hpre]
  exact (congrArg (List.take _) c.source_eq).trans (List.take_left' rfl)

/-- **Equal roots, equal streams**, unless the two frame sections are a
collision of the hash. -/
theorem stream_eq_of_root {limits limits' : PortableBundleLimits} {source source' : List UInt8}
    {b b' : ValidatedPortableBundle} (h : validateAndSpoolBundle limits source = some b)
    (h' : validateAndSpoolBundle limits' source' = some b')
    (hroot : b.summary.rootSha256 = b'.summary.rootSha256)
    (hcollision : hexdigest (source.take b.summary.preTrailerByteCount) =
        hexdigest (source'.take b'.summary.preTrailerByteCount) →
      source.take b.summary.preTrailerByteCount = source'.take b'.summary.preTrailerByteCount) :
    source = source' := by
  obtain ⟨c⟩ := bundle_of_validate h
  obtain ⟨c'⟩ := bundle_of_validate h'
  obtain ⟨-, -, hr, -⟩ := OrderedBundleDigests.trailer_eq_some c.trailer_eq
  obtain ⟨-, -, hr', -⟩ := OrderedBundleDigests.trailer_eq_some c'.trailer_eq
  rw [c.take_pre, c'.take_pre] at hcollision
  rw [c.root_eq, c'.root_eq, hr, hr'] at hroot
  have hframes : c.frames = c'.frames := lines_injective c.readable c'.readable (hcollision hroot)
  have ht : c.trailer = c'.trailer :=
    Option.some.inj (c.trailer_eq.symm.trans (hframes ▸ c'.trailer_eq))
  calc source = lines c.frames ++ c.trailer.line := c.source_eq
    _ = lines c'.frames ++ c'.trailer.line := by rw [hframes, ht]
    _ = source' := c'.source_eq.symm

/-- **The stream's laws.** Whatever calls an encoder is given, the lines
it emitted and the trailer it finished with are accepted under its
limits, with the summary it returned. Whatever stream is accepted is one
header, one service frame, the other frames in section order, numbered
from zero, each with the digest of its core, and the one trailer that
counts and hashes exactly these, with nothing after it. And two accepted
streams with one root digest are the same stream, unless their lines
before the trailer are a collision of the hash. -/
theorem bundle_stream_laws :
    (∀ limits calls e line summary,
      (PortableBundleEncoder.run { limits := limits } calls).1.finish = some (e, line, summary) →
        validateAndSpoolBundle limits
            ((PortableBundleEncoder.run { limits := limits } calls).2 ++ line) =
          some ⟨summary, (PortableBundleEncoder.run { limits := limits } calls).2 ++ line⟩) ∧
    (∀ limits source b, validateAndSpoolBundle limits source = some b →
      ∃ frames header service rest trailer,
        source = lines frames ++ PortableTrailer.line trailer ∧ b.spool = source ∧
        frames = header :: service :: rest ∧ header.kind = .header ∧ service.kind = .service ∧
        (∀ f ∈ rest, f.kind = .record ∨ f.kind = .history ∨ f.kind = .branch ∨
          f.kind = .branchMembership) ∧
        (rest.Pairwise fun f g => f.kind.index ≤ g.kind.index) ∧
        frames.map PortableFrame.ordinal = List.range frames.length ∧
        (∀ f ∈ frames, f.Sound) ∧
        trailer.ordinal = frames.length ∧
        trailer.preTrailerByteCount = (lines frames).length ∧
        trailer.rootSha256 = hexdigest (lines frames) ∧
        trailer.sections.map (fun s => (s.kind, s.count, s.sha256)) =
          (SECTION_KINDS.map fun kind => (kind, frames.countP fun f => f.kind = kind,
            hexdigest (lines (frames.filter fun f => f.kind = kind)))) ∧
        b.summary.sections = trailer.sections ∧ b.summary.rootSha256 = trailer.rootSha256 ∧
        b.summary.totalByteCount = source.length ∧ b.summary.frameCount = frames.length + 1) ∧
    (∀ limits limits' source source' b b', validateAndSpoolBundle limits source = some b →
      validateAndSpoolBundle limits' source' = some b' →
      b.summary.rootSha256 = b'.summary.rootSha256 →
      (hexdigest (source.take b.summary.preTrailerByteCount) =
          hexdigest (source'.take b'.summary.preTrailerByteCount) →
        source.take b.summary.preTrailerByteCount =
          source'.take b'.summary.preTrailerByteCount) → source = source') := by
  refine ⟨fun _ _ _ _ _ => validate_emitted, ?_, fun _ _ _ _ _ _ => stream_eq_of_root⟩
  intro limits source b h
  obtain ⟨c⟩ := bundle_of_validate h
  obtain ⟨header, service, rest, hframes, hh, hs, hrest, hsorted⟩ :=
    grammar_of_trailer c.ordered c.trailer_eq
  obtain ⟨hordinal, hpre, hroot, hsections⟩ := OrderedBundleDigests.trailer_eq_some c.trailer_eq
  exact ⟨c.frames, header, service, rest, c.trailer, c.source_eq, c.spool_eq, hframes, hh, hs,
    hrest, hsorted, c.ordered.ordinals, c.ordered.sound, hordinal, hpre, hroot, hsections,
    c.sections_eq, c.root_eq, c.total_eq, c.count_eq⟩

end Portable

end Aipcs

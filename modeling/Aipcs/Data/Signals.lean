import Aipcs.Data.Cells
import Aipcs.Data.Maintenance
import Aipcs.Data.Times

/-!
# Data — what the superseded and the expired scan report

Both scans select their records in SQL, by the text of a column, and a
column's text means what Python makes of it. `trim` takes away spaces and
`strip` all white space; `julianday` has milliseconds and reads some
spellings of an instant, `fromisoformat` has microseconds and reads many.
The scans are exact where this makes no difference, and only there.
-/

namespace Aipcs

namespace Data

open Manifest Portable Relational Records Registry Store.Mutating

/-! ## Time strings -/

/-- What may stand between a date and a time. -/
def timeSeparator (c : Char) : Bool := c = 'T' || c = ' ' || (9 ≤ c.toNat && c.toNat ≤ 13)

/-- An offset, or none. -/
def timeZone : List Char → Bool
  | [] => true
  | ['Z'] => true
  | c :: rest => (c = '+' || c = '-') && matchesPattern rest "dd:dd".toList

/-- Seconds, with a fraction or without one, and the offset; the seconds may be left out. -/
def secondsAndZone : List Char → Bool
  | ':' :: a :: b :: '.' :: rest =>
    isDigit a && isDigit b && !(rest.takeWhile isDigit).isEmpty && timeZone (rest.dropWhile isDigit)
  | ':' :: a :: b :: rest => isDigit a && isDigit b && timeZone rest
  | rest => timeZone rest

/-- SQLite's formats of a date with a time of day: `YYYY-MM-DD HH:MM`,
`YYYY-MM-DD HH:MM:SS` and `YYYY-MM-DD HH:MM:SS.SSS`, with an offset or without one. -/
def timeString (s : String) : Bool :=
  let cs := s.toList
  matchesPattern (cs.take 10) "dddd-dd-dd".toList && cs[10]?.any timeSeparator &&
    matchesPattern ((cs.drop 11).take 5) "dd:dd".toList && secondsAndZone (cs.drop 16)

example : timeString "2024-02-29T12:00:00.5Z" = true ∧ timeString "2024-02-29 12:00+00:00" = true ∧
    timeString "20240229T120000Z" = false ∧ timeString "2024-W09-4T12:00Z" = false := by decide

theorem takeWhile_isDigit_padded {n k : ℕ} {c : Char} {rest : List Char} (hc : isDigit c = false) :
    (padded n k ++ c :: rest).takeWhile isDigit = padded n k ∧
      (padded n k ++ c :: rest).dropWhile isDigit = c :: rest := by
  have hall : ∀ d ∈ padded n k, isDigit d = true := fun d hd => isDigit_of_mem_padded hd
  rw [List.takeWhile_append_of_pos hall, List.dropWhile_append_of_pos hall, List.takeWhile_cons_of_neg (by simp [hc]),
    List.dropWhile_cons_of_neg (by simp [hc]), List.append_nil]
  exact ⟨rfl, rfl⟩

/-- **An encoded time is a time string.** -/
theorem timeString_text (t : Instant) : timeString t.text = true := by
  have hp : ∀ (n k : ℕ) {s q : List Char}, matchesPattern s q = true →
      matchesPattern (padded n k ++ s) (List.replicate k 'd' ++ q) = true :=
    fun n k _ _ h => matchesPattern_append (matchesPattern_padded n k) h
  have hc : ∀ (c : Char) {s q : List Char}, c ≠ 'd' → matchesPattern s q = true →
      matchesPattern (c :: s) (c :: q) = true := by
    intro c s q hne h
    simp [matchesPattern, hne, h]
  have hdate : matchesPattern (dateChars t) "dddd-dd-dd".toList = true :=
    hp _ 4 (hc _ (by decide) (hp _ 2 (hc _ (by decide) (matchesPattern_padded _ 2))))
  obtain ⟨clock, hclock⟩ : ∃ clock, clock = padded (t.micros % 86400000000 / 3600000000) 2 ++
      (':' :: padded (t.micros % 86400000000 / 60000000 % 60) 2) := ⟨_, rfl⟩
  obtain ⟨seconds, hseconds⟩ : ∃ seconds, seconds = ':' :: (padded (t.micros % 86400000000 / 1000000 % 60) 2 ++
      ('.' :: (padded (t.micros % 86400000000 % 1000000) 6 ++ ['Z']))) := ⟨_, rfl⟩
  have hcs : t.text.toList = dateChars t ++ ('T' :: (clock ++ seconds)) := by
    rw [toList_text, fullTimeChars, hclock, hseconds]
    simp
  have hminutes : matchesPattern clock "dd:dd".toList = true := by
    rw [hclock]
    exact hp _ 2 (hc _ (by decide) (matchesPattern_padded _ 2))
  have hzone : secondsAndZone seconds = true := by
    have hlength : (padded (t.micros % 86400000000 % 1000000) 6).isEmpty = false := by
      rw [List.isEmpty_eq_false_iff, ← List.length_pos_iff, length_padded]
      omega
    obtain ⟨hdigits, hrest⟩ := @takeWhile_isDigit_padded (t.micros % 86400000000 % 1000000) 6 'Z' [] (by decide)
    rw [hseconds, padded_two, List.cons_append, List.singleton_append, secondsAndZone, hdigits, hrest, hlength,
      isDigit_digitChar (Nat.mod_lt _ (by omega)), isDigit_digitChar (Nat.mod_lt _ (by omega))]
    rfl
  have hdate' : (dateChars t).length = 10 := by simp [dateChars]
  have hclock' : clock.length = 5 := by simp [hclock]
  have htake : t.text.toList.take 10 = dateChars t := by rw [hcs, List.take_left' hdate']
  have hget : t.text.toList[10]? = some 'T' := by
    rw [hcs, List.getElem?_append_right (by omega), hdate']
    rfl
  have hdrop : t.text.toList.drop 11 = clock ++ seconds := by
    rw [hcs, List.drop_append, List.drop_of_length_le (by omega), hdate']
    rfl
  have hdrop' : t.text.toList.drop 16 = seconds := by
    rw [← List.drop_drop (i := 5) (j := 11), hdrop, List.drop_left' hclock']
  simp only [timeString, htake, hget, hdrop, hdrop', List.take_left' hclock', hdate, hminutes, hzone, Option.any_some]
  rfl

/-! ## `julianday` -/

/-- SQLite's `julianday`, in milliseconds: it has no smaller unit, and reads
no spelling of an instant but its own. -/
structure JulianDay where
  julianday : String → Option ℕ
  rounding : ℕ
  rounding_lt : rounding < 1000
  reads : ∀ s t, timeString s = true → parseDatetime s = some t → julianday s = some ((t.micros + rounding) / 1000)
  null : ∀ s t, timeString s = false → parseDatetime s = some t → julianday s = none

namespace JulianDay

variable (j : JulianDay)

/-- The millisecond an instant is rounded to. -/
def millisecond (t : Instant) : ℕ := (t.micros + j.rounding) / 1000

/-- `julianday(e."valid_until") < julianday(?)`. -/
def expired (c : SqlValue) (now : Instant) : Bool :=
  match c with
  | .text s => (j.julianday s).any fun n => (j.julianday now.text).any fun m => n < m
  | _ => false

/-- An engine that compares datetimes so. -/
def engine (engine : Engine) : Engine := { engine with expired := j.expired }

/-- **A text is expired where it is a time string of an earlier millisecond.** -/
theorem expired_text {s : String} {t now : Instant} (h : parseDatetime s = some t) :
    j.expired (.text s) now = true ↔ timeString s = true ∧ j.millisecond t < j.millisecond now := by
  have hnow := j.reads now.text now (timeString_text now) (parseDatetime_text now)
  cases hs : timeString s with
  | false => simp [expired, j.null s t hs h]
  | true => simp [expired, j.reads s t hs h, hnow, millisecond]

/-- An earlier millisecond is earlier. -/
theorem before_of_millisecond_lt {t now : Instant} (h : j.millisecond t < j.millisecond now) : t.before now := by
  unfold millisecond at h
  unfold Instant.before
  omega

end JulianDay

/-! ## Blank texts -/

/-- White space that SQL's `trim` leaves, since it is not all spaces. -/
def whiteSpace (s : String) : Bool := s.toList.any (· ≠ ' ') && s.toList.all Registry.isSpace

/-- A date that is read begins with a digit. -/
theorem head_of_parseIsoformatDate {s : List Char} {day : ℕ} (h : parseIsoformatDate s = some day) :
    ∃ c rest, s = c :: rest ∧ isDigit c = true := by
  have hmatches : ∀ p : List Char, matchesPattern s ('d' :: p) = true → ∃ c rest, s = c :: rest ∧ isDigit c = true := by
    intro p hp
    cases s with
    | nil => exact absurd hp (by simp [matchesPattern])
    | cons c rest =>
      rw [matchesPattern, Bool.and_eq_true] at hp
      exact ⟨c, rest, rfl, by simpa using hp.1⟩
  unfold parseIsoformatDate at h
  dsimp only at h
  split_ifs at h with h₁ h₂ h₃ h₄ h₅ h₆
  · exact hmatches _ h₁
  · exact hmatches _ h₂
  · exact hmatches _ h₃
  · exact hmatches _ h₄
  · exact hmatches _ h₅
  · exact hmatches _ h₆

/-- A text that is read as an instant has more than spaces. -/
theorem any_of_parseDatetime {s : String} {t : Instant} (h : parseDatetime s = some t) :
    s.toList.any (· ≠ ' ') = true := by
  obtain ⟨day, hday, -⟩ := Option.bind_eq_some_iff.1 h
  obtain ⟨c, rest, hhead, hdigit⟩ := head_of_parseIsoformatDate hday
  have hmem : c ∈ replaceZulu s.toList := List.mem_of_mem_take (hhead ▸ List.mem_cons_self)
  rw [List.any_eq_true]
  obtain ⟨d, hd, hc⟩ := List.mem_flatMap.1 hmem
  refine ⟨d, hd, ?_⟩
  split_ifs at hc with hz
  · rw [hz]
    decide
  · obtain rfl := List.mem_singleton.1 hc
    have hne : c ≠ ' ' := fun h => absurd (h ▸ hdigit) (by decide)
    simpa using hne

theorem any_of_canonicalUuid {s : String} (h : canonicalUuid s = true) : s.toList.any (· ≠ ' ') = true := by
  obtain ⟨u, hu⟩ := Option.isSome_iff_exists.1 h
  have hdash : '-' ∈ s.toList := by
    rw [← Uuid.text_of_ofText hu]
    simp [Uuid.text]
  exact List.any_eq_true.2 ⟨'-', hdash, by decide⟩

/-- **SQL finds present what Python does, and white space.** -/
theorem present_iff {f : RecordField} {c : SqlValue} (h : Holds .sqlite f c) :
    present c = true ↔ presentValue f c = true ∨ f.type = .string ∧ ∃ s, c = .text s ∧ whiteSpace s = true := by
  rcases h with rfl | ⟨v, c', htype, hencode, rfl⟩
  · simp [present, presentValue]
  · cases v with
    | null => exact absurd htype (by simp [matchesType])
    | bool x =>
      cases hf : f.type <;> simp only [hf, encodeField, reduceCtorEq] at hencode
      obtain rfl := Option.some.inj hencode
      simp [columnValue, present, presentValue]
    | int i =>
      cases hf : f.type <;> simp only [hf, encodeField, reduceCtorEq] at hencode
      · obtain rfl := Option.some.inj hencode
        simp [columnValue, present, presentValue]
      · split_ifs at hencode
        obtain ⟨y, -, rfl⟩ := Option.map_eq_some_iff.1 hencode
        simp [columnValue, present, presentValue]
    | float y =>
      cases hf : f.type <;> simp only [hf, encodeField, reduceCtorEq] at hencode
      obtain rfl := Option.some.inj hencode
      simp [columnValue, present, presentValue]
    | str s =>
      cases hf : f.type <;> simp only [hf, encodeField, if_true, reduceCtorEq] at hencode <;>
        obtain rfl := Option.some.inj hencode <;> rw [hf] at htype
      · -- a character that is not white space is not a space either
        have hspace : ∀ c : Char, Registry.isSpace c = false → c ≠ ' ' := fun c hc h => by
          rw [h] at hc
          exact absurd hc (by decide)
        cases hall : s.toList.all Registry.isSpace with
        | true =>
          have hnone : (s.toList.any fun c => !Registry.isSpace c) = false := by
            rw [← Bool.not_eq_true', List.not_any_eq_all_not]
            simpa using hall
          simp only [columnValue, present, presentValue, whiteSpace, hf, hnone]
          simpa using fun _ _ _ => List.all_eq_true.1 hall
        | false =>
          obtain ⟨c, hc, hfalse⟩ := List.all_eq_false.1 hall
          have hfalse : Registry.isSpace c = false := by simpa using hfalse
          have hsome : (s.toList.any fun c => !Registry.isSpace c) = true := List.any_eq_true.2 ⟨c, hc, by simp [hfalse]⟩
          have hnotspace : s.toList.any (· ≠ ' ') = true := List.any_eq_true.2 ⟨c, hc, by simpa using hspace c hfalse⟩
          exact iff_of_true hnotspace (.inl (by simp only [columnValue, presentValue, hsome, Bool.or_true]))
      · obtain ⟨t, ht⟩ := Option.isSome_iff_exists.1 htype
        exact iff_of_true (any_of_parseDatetime ht) (.inl (by simp [columnValue, presentValue, hf]))
      · exact iff_of_true (any_of_canonicalUuid htype) (.inl (by simp [columnValue, presentValue, hf]))
    | arr items =>
      cases hf : f.type <;> simp only [hf, encodeField, reduceCtorEq] at hencode
      obtain rfl := Option.some.inj hencode
      simp [columnValue, present, presentValue, hf]
    | obj entries => exact absurd htype (by cases f.type <;> simp [matchesType])

/-! ## What the scans are to report -/

/-- The field that says what has taken a record's place. -/
def supersededBy (e : RecordEntity) : Option RecordField := e.domainFields.find? fun f => f.name = "superseded_by"

/-- `e."status"='superseded'`, where the status is a text. -/
def statusSuperseded (e : RecordEntity) (r : RecordRow) : Bool :=
  (domainField e "status" [.string]).isSome && isSuperseded (cellOf r.cells "status")

/-- The signals that a record is superseded by. -/
def supersededSignals (e : RecordEntity) (r : RecordRow) : List PortableJson :=
  signals (domainField e "status" [.string]) (supersededBy e) r

/-- The `superseded_by` of a record, where it is a text. -/
def supersededByText (e : RecordEntity) (r : RecordRow) : Option String :=
  (supersededBy e).bind fun f =>
    match f.type, cellOf r.cells f.name with
    | .string, .text s => some s
    | _, _ => none

/-- The `valid_until` of a record. -/
def validUntil (r : RecordRow) : Option String :=
  match cellOf r.cells "valid_until" with
  | .text s => some s
  | _ => none

section exact

variable (x : Content) (principalId : String) (s : RecordSpecification) (q : MaintenanceQuery)

/-- The rows that a scan of a query looks at, each with its entity. -/
def Content.scanned (t : ScanType) (e : RecordEntity) (r : RecordRow) : Prop :=
  (t, e) ∈ q.scans s ∧ r ∈ x.scope principalId e.name q.branchId

/-- **The superseded scan is exact**: its candidates are the records with a
signal, each with its signals. -/
def SupersededExact (v : MaintenanceResult) : Prop :=
  ∀ c, c ∈ v.candidates ∧ c.scanType = .superseded ↔ ∃ e r, x.scanned principalId s q .superseded e r ∧
    supersededSignals e r ≠ [] ∧ candidate .superseded e r.id (some [("signals", .arr (supersededSignals e r))]) = .ok c

/-- **The expired scan is exact**: its candidates are the records whose
`valid_until` is an instant before now. -/
def ExpiredExact (now : Instant) (v : MaintenanceResult) : Prop :=
  ∀ c, c ∈ v.candidates ∧ c.scanType = .expired ↔ ∃ e r, x.scanned principalId s q .expired e r ∧
    (∃ text ∈ validUntil r, ∃ t ∈ parseDatetime text, t.before now) ∧
      candidate .expired e r.id (some [("field_name", .str "valid_until")]) = .ok c

end exact

section pointwise

variable {engine : Engine} {x : Content} {principalId : String} {e : RecordEntity} {r : RecordRow} {now : Instant}

theorem supersededSignals_ne_nil : supersededSignals e r ≠ [] ↔ statusSuperseded e r = true ∨
    ∃ f ∈ supersededBy e, presentValue f (cellOf r.cells f.name) = true := by
  unfold supersededSignals signals
  change (if statusSuperseded e r then _ else _) ++ _ ≠ _ ↔ _
  cases statusSuperseded e r <;> cases supersededBy e with
  | none => simp
  | some f => cases hf : presentValue f (cellOf r.cells f.name) <;> simp [hf]

theorem supersededByText_eq_some {text : String} : supersededByText e r = some text ↔
    ∃ f ∈ supersededBy e, f.type = .string ∧ cellOf r.cells f.name = .text text := by
  unfold supersededByText
  rw [Option.bind_eq_some_iff]
  refine exists_congr fun f => and_congr_right fun _ => ?_
  split
  · next htype htext => simp [htype, htext]
  · next hother => exact iff_of_false (by simp) fun h => hother _ h.1 h.2

variable (hwritten : Written .sqlite e r.cells)

include hwritten

/-- **SQL selects the records with a signal**, and those whose
`superseded_by` is white space. -/
theorem meets_superseded : x.meets principalId e.name engine r
      (.superseded (domainField e "status" [.string]).isSome (supersededBy e)) = true ↔
    supersededSignals e r ≠ [] ∨ ∃ text ∈ supersededByText e r, whiteSpace text = true := by
  have hpresent : (∃ f ∈ supersededBy e, present (cellOf r.cells f.name) = true) ↔
      (∃ f ∈ supersededBy e, presentValue f (cellOf r.cells f.name) = true) ∨
        ∃ text ∈ supersededByText e r, whiteSpace text = true := by
    cases hby : supersededBy e with
    | none => simp [supersededByText, hby]
    | some f =>
      have hholds := hwritten.columns f (List.mem_of_find?_eq_some hby)
      simp only [Option.mem_def, supersededByText_eq_some, hby, Option.some.injEq, exists_eq_left']
      rw [present_iff hholds]
      refine or_congr_right ⟨?_, ?_⟩
      · rintro ⟨htype, text, htext, hspace⟩
        exact ⟨text, ⟨htype, htext⟩, hspace⟩
      · rintro ⟨text, ⟨htype, htext⟩, hspace⟩
        exact ⟨htype, text, htext, hspace⟩
  rw [supersededSignals_ne_nil, or_assoc, ← hpresent, Content.meets, Bool.or_eq_true]
  refine or_congr Iff.rfl ?_
  rw [Option.any_eq_true]
  exact Iff.rfl

/-- The `valid_until` of a record is read as an instant, where it has one. -/
theorem parseDatetime_validUntil (hfield : domainField e "valid_until" [.datetime] ≠ none) {text : String}
    (h : validUntil r = some text) : ∃ t, parseDatetime text = some t := by
  obtain ⟨f, hf⟩ := Option.ne_none_iff_exists'.1 hfield
  obtain ⟨hfind, htype⟩ := Option.filter_eq_some_iff.1 hf
  have hname : f.name = "valid_until" := by simpa using List.find?_some hfind
  have htype : f.type = .datetime := by simpa using htype
  have hholds := hwritten.columns f (List.mem_of_find?_eq_some hfind)
  rw [hname] at hholds
  unfold validUntil at h
  split at h
  · next s hs =>
    obtain rfl := Option.some.inj h
    rw [hs] at hholds
    rcases hholds with hnull | ⟨v, c', hmatches, hencode, hcell⟩
    · exact absurd hnull (by simp)
    · rw [htype] at hmatches
      cases v with
      | str s' =>
        simp only [htype, encodeField, if_true] at hencode
        obtain rfl := Option.some.inj hencode
        obtain rfl := SqlValue.text.inj hcell
        exact Option.isSome_iff_exists.1 hmatches
      | _ => exact absurd hmatches (by simp [matchesType])
  · exact absurd h (by simp)

end pointwise

/-! ## The whole scan -/

section whole

variable {engine : Engine} {x : Content} {principalId : String} {q : MaintenanceQuery} {now : Instant} {m : ManifestV2}
  {b : StorageBackend}

/-- The candidates of an answer that its bound has not cut are what the findings become. -/
theorem mem_candidates {s : RecordSpecification} {v : MaintenanceResult}
    (hv : readAt b engine s principalId x (.maintenanceScan q now) = .ok (.maintenance v))
    (hbound : (x.inventory principalId engine s q now).length ≤ q.maxCandidates) {c : MaintenanceCandidate} :
    c ∈ v.candidates ↔ ∃ f ∈ x.inventory principalId engine s q now, f.candidate = .ok c := by
  obtain ⟨-, cs, hcs, hfound⟩ := (readAt_scan ⟨q.bounds.1, q.bounds.2.1⟩).1 hv
  obtain rfl := Found.maintenance.inj hfound
  have hbuilt := listing_cuts.built hcs
  rw [List.take_of_length_le hbound] at hbuilt
  have hmem : c ∈ cs ↔ Except.ok c ∈ cs.map (Except.ok (ε := DataFailureCode)) := by simp
  rw [hmem, ← hbuilt, List.mem_map]

/-- A finding of a scan type is one of that scan's. -/
theorem mem_inventory {s : RecordSpecification} {f : Finding} {t : ScanType} :
    f ∈ x.inventory principalId engine s q now ∧ f.scanType = t ↔
      ∃ e, (t, e) ∈ q.scans s ∧ f ∈ x.findings principalId engine q now (t, e) := by
  unfold Content.inventory
  rw [List.mem_flatMap]
  constructor
  · rintro ⟨⟨⟨t', e⟩, hscan, hf⟩, htype⟩
    obtain rfl := (listed_findings.place f hf).1.symm.trans htype
    exact ⟨e, hscan, hf⟩
  · rintro ⟨e, hscan, hf⟩
    exact ⟨⟨(t, e), hscan, hf⟩, (listed_findings.place f hf).1⟩

theorem candidate_scanType {f : Finding} {c : MaintenanceCandidate} (h : f.candidate = .ok c) :
    c.scanType = f.scanType := by
  obtain ⟨detail, -, hdetail⟩ := bind_eq_ok.1 h
  rw [← Except.ok.inj hdetail]

/-- The candidates of one scan type are what the rows that it selects become. -/
theorem mem_candidates_reported {s : RecordSpecification} {v : MaintenanceResult} {t : ScanType}
    (condition : RecordEntity → Condition) (details : RecordEntity → RecordRow → Option (List (String × PortableJson)))
    (hv : readAt b engine s principalId x (.maintenanceScan q now) = .ok (.maintenance v))
    (hbound : (x.inventory principalId engine s q now).length ≤ q.maxCandidates)
    (hfindings : ∀ e, x.findings principalId engine q now (t, e) =
      x.reported principalId engine q t e (condition e) (details e)) {c : MaintenanceCandidate} :
    c ∈ v.candidates ∧ c.scanType = t ↔ ∃ e r, x.scanned principalId s q t e r ∧
      x.meets principalId e.name engine r (condition e) = true ∧ candidate t e r.id (details e r) = .ok c := by
  rw [mem_candidates hv hbound]
  constructor
  · rintro ⟨⟨f, hf, hc⟩, htype⟩
    rw [candidate_scanType hc] at htype
    obtain ⟨e, hscan, hf⟩ := mem_inventory.1 ⟨hf, htype⟩
    rw [hfindings, Content.reported, List.mem_map] at hf
    obtain ⟨r, hr, rfl⟩ := hf
    exact ⟨e, r, ⟨hscan, (List.mem_filter.1 hr).1⟩, (List.mem_filter.1 hr).2, hc⟩
  · rintro ⟨e, r, ⟨hscan, hr⟩, hmeets, hc⟩
    have hf : (⟨t, e.name, r.id, details e r⟩ : Finding) ∈ x.findings principalId engine q now (t, e) := by
      rw [hfindings]
      exact List.mem_map_of_mem (List.mem_filter.2 ⟨hr, hmeets⟩)
    obtain ⟨hmem, htype⟩ := mem_inventory.2 ⟨e, hscan, hf⟩
    have hcandidate : (⟨t, e.name, r.id, details e r⟩ : Finding).candidate = .ok c := hc
    exact ⟨⟨_, hmem, hcandidate⟩, (candidate_scanType hcandidate).trans htype⟩

/-- A scan is of an entity that it is available for. -/
theorem mem_scans {t : ScanType} {e : RecordEntity} (h : (t, e) ∈ q.scans (compileRecordSpecification m)) :
    e ∈ recordEntities m ∧ scanAvailable t e = true := by
  obtain ⟨t', -, he⟩ := List.mem_flatMap.1 h
  obtain ⟨e', he', hpair⟩ := List.mem_map.1 he
  obtain ⟨rfl, rfl⟩ := Prod.mk.inj hpair
  obtain ⟨hselected, havailable⟩ := List.mem_filter.1 he'
  exact ⟨(List.mem_filter.1 hselected).1, havailable⟩

/-- A row that is scanned is one of its entity's. -/
theorem written_of_scanned {t : ScanType} {e : RecordEntity} {r : RecordRow}
    (hx : x.Written .sqlite (compileRecordSpecification m))
    (h : x.scanned principalId (compileRecordSpecification m) q t e r) : Written .sqlite e r.cells := by
  have hfind : (compileRecordSpecification m).entity e.name = some e :=
    (find?_name_eq_some_iff nodup_recordEntities).2 ⟨(mem_scans h.1).1, rfl⟩
  obtain ⟨hrow, howner⟩ := List.mem_filter.1 ((List.mem_insertionSort _).1 (List.mem_filter.1 h.2).1)
  rw [Bool.and_eq_true, decide_eq_true_eq] at howner
  obtain ⟨e', he', hwritten⟩ := hx r.entityName r.id r (Table.find?_of_mem hrow)
  rw [howner.1, hfind] at he'
  obtain rfl := Option.some.inj he'
  exact hwritten

/-- The scanned rows are told apart by their places. -/
theorem scanned_inj {t : ScanType} {e e' : RecordEntity} {r r' : RecordRow}
    (h : x.scanned principalId (compileRecordSpecification m) q t e r)
    (h' : x.scanned principalId (compileRecordSpecification m) q t e' r') (hname : e'.name = e.name)
    (hid : r'.id = r.id) : e' = e ∧ r' = r := by
  obtain rfl := List.inj_on_of_nodup_map nodup_recordEntities (mem_scans h'.1).1 (mem_scans h.1).1 hname
  exact ⟨rfl, ascending_scope.eq_of_key h'.2 h.2 (congrArg Uuid.int hid)⟩

theorem candidate_eq_ok {t : ScanType} {e : RecordEntity} {id : Uuid} {entries : List (String × PortableJson)}
    {c : MaintenanceCandidate} : candidate t e id (some entries) = .ok c ↔
      ∃ detail, FrozenJsonObject.fromMapping entries = some detail ∧ c = ⟨t, e.name, id, detail⟩ := by
  simp only [candidate, bind_eq_ok, require_eq_ok, Option.bind_some, pure, Except.pure, Except.ok.injEq,
    eq_comm (a := c)]

/-- The signals of a record can be told. -/
theorem exists_candidate_superseded (e : RecordEntity) (r : RecordRow) :
    ∃ c, candidate .superseded e r.id (some [("signals", .arr (supersededSignals e r))]) = .ok c := by
  have hsignals : (FrozenJsonObject.fromMapping [("signals", .arr (supersededSignals e r))]).isSome = true := by
    unfold supersededSignals signals
    split_ifs <;> decide +kernel
  obtain ⟨detail, hdetail⟩ := Option.isSome_iff_exists.1 hsignals
  exact ⟨_, candidate_eq_ok.2 ⟨detail, hdetail, rfl⟩⟩

theorem exists_candidate_expired (e : RecordEntity) (r : RecordRow) :
    ∃ c, candidate .expired e r.id (some [("field_name", .str "valid_until")]) = .ok c := by
  have hfield : (FrozenJsonObject.fromMapping [("field_name", .str "valid_until")]).isSome = true := by decide +kernel
  obtain ⟨detail, hdetail⟩ := Option.isSome_iff_exists.1 hfield
  exact ⟨_, candidate_eq_ok.2 ⟨detail, hdetail, rfl⟩⟩

/-- A candidate tells its signals. -/
theorem signals_of_candidate {e e' : RecordEntity} {r r' : RecordRow} {c : MaintenanceCandidate}
    (h : candidate .superseded e r.id (some [("signals", .arr (supersededSignals e r))]) = .ok c)
    (h' : candidate .superseded e' r'.id (some [("signals", .arr (supersededSignals e' r'))]) = .ok c) :
    supersededSignals e' r' = supersededSignals e r := by
  obtain ⟨detail, hdetail, rfl⟩ := candidate_eq_ok.1 h
  obtain ⟨detail', hdetail', heq⟩ := candidate_eq_ok.1 h'
  obtain rfl := congrArg MaintenanceCandidate.detail heq
  have hget := (fromMapping_eq_some hdetail).2 "signals"
  rw [(fromMapping_eq_some hdetail').2 "signals"] at hget
  simpa using hget

variable {v : MaintenanceResult}

/-- **When the superseded scan is exact.** -/
theorem supersededExact_iff (hx : x.Written .sqlite (compileRecordSpecification m))
    (hv : readAt b engine (compileRecordSpecification m) principalId x (.maintenanceScan q now) = .ok (.maintenance v))
    (hbound : (x.inventory principalId engine (compileRecordSpecification m) q now).length ≤ q.maxCandidates) :
    SupersededExact x principalId (compileRecordSpecification m) q v ↔
      ∀ e r, x.scanned principalId (compileRecordSpecification m) q .superseded e r →
        ∀ text ∈ supersededByText e r, whiteSpace text = true → statusSuperseded e r = true := by
  have hmem := fun c => mem_candidates_reported (t := .superseded) (c := c)
    (fun e => .superseded (domainField e "status" [.string]).isSome (supersededBy e))
    (fun e r => some [("signals", .arr (supersededSignals e r))]) hv hbound fun _ => rfl
  simp only [SupersededExact, hmem]
  constructor
  · intro hexact e r hscanned text htext hspace
    by_contra hstatus
    -- it is selected without a signal
    have hnone : supersededSignals e r = [] := by
      by_contra hne
      rcases supersededSignals_ne_nil.1 hne with h | ⟨f, hf, hpresent⟩
      · exact hstatus h
      · obtain ⟨f', hf', htype, hcell⟩ := supersededByText_eq_some.1 htext
        obtain rfl := Option.some.inj (hf.symm.trans hf')
        rw [whiteSpace, Bool.and_eq_true] at hspace
        rw [hcell, presentValue, htype] at hpresent
        simp only [ne_eq, not_true_eq_false, decide_false, Bool.false_or, List.any_eq_true,
          Bool.not_eq_true'] at hpresent
        obtain ⟨d, hd, hnot⟩ := hpresent
        exact absurd (List.all_eq_true.1 hspace.2 d hd) (by simp [hnot])
    obtain ⟨c, hc⟩ := exists_candidate_superseded e r
    have hmeets : x.meets principalId e.name engine r
        (.superseded (domainField e "status" [.string]).isSome (supersededBy e)) = true :=
      (meets_superseded (written_of_scanned hx hscanned)).2 (.inr ⟨text, htext, hspace⟩)
    obtain ⟨e', r', -, hne, hc'⟩ := (hexact c).1 ⟨e, r, hscanned, hmeets, hc⟩
    exact hne ((signals_of_candidate hc hc').trans hnone)
  · intro hstatus c
    refine exists_congr fun e => exists_congr fun r => and_congr_right fun hscanned => and_congr_left fun _ => ?_
    rw [meets_superseded (written_of_scanned hx hscanned)]
    refine or_iff_left_of_imp ?_
    rintro ⟨text, htext, hspace⟩
    exact supersededSignals_ne_nil.2 (.inl (hstatus e r hscanned text htext hspace))

/-- The rows that SQL selects as expired. -/
theorem meets_expired (j : JulianDay) {e : RecordEntity} {r : RecordRow}
    (hx : x.Written .sqlite (compileRecordSpecification m))
    (hscanned : x.scanned principalId (compileRecordSpecification m) q .expired e r) :
    x.meets principalId e.name (j.engine engine) r (.expired now) = true ↔
      ∃ text ∈ validUntil r, ∃ t ∈ parseDatetime text, timeString text = true ∧ j.millisecond t < j.millisecond now := by
  have hparse : ∀ text, validUntil r = some text → ∃ t, parseDatetime text = some t := fun text =>
    parseDatetime_validUntil (written_of_scanned hx hscanned) (Option.isSome_iff_ne_none.1 (mem_scans hscanned.1).2)
  change j.expired (cellOf r.cells "valid_until") now = true ↔ _
  constructor
  · intro hexpired
    have hvalid : ∃ text, cellOf r.cells "valid_until" = .text text ∧ validUntil r = some text := by
      unfold validUntil
      cases hcell : cellOf r.cells "valid_until" with
      | text text => exact ⟨text, rfl, rfl⟩
      | _ => exact absurd hexpired (by simp [hcell, JulianDay.expired])
    obtain ⟨text, hcell, htext⟩ := hvalid
    obtain ⟨t, ht⟩ := hparse text htext
    rw [hcell] at hexpired
    exact ⟨text, htext, t, ht, (j.expired_text ht).1 hexpired⟩
  · rintro ⟨text, htext, t, ht, hearlier⟩
    unfold validUntil at htext
    split at htext
    · next s hcell =>
      obtain rfl := Option.some.inj htext
      rw [hcell]
      exact (j.expired_text ht).2 hearlier
    · exact absurd htext (by simp)

/-- **When the expired scan is exact.** -/
theorem expiredExact_iff (j : JulianDay) (hx : x.Written .sqlite (compileRecordSpecification m))
    (hv : readAt b (j.engine engine) (compileRecordSpecification m) principalId x (.maintenanceScan q now) =
      .ok (.maintenance v))
    (hbound : (x.inventory principalId (j.engine engine) (compileRecordSpecification m) q now).length ≤
      q.maxCandidates) :
    ExpiredExact x principalId (compileRecordSpecification m) q now v ↔
      ∀ e r, x.scanned principalId (compileRecordSpecification m) q .expired e r →
        ∀ text ∈ validUntil r, ∀ t ∈ parseDatetime text, t.before now →
          timeString text = true ∧ j.millisecond t < j.millisecond now := by
  have hmem := fun c => mem_candidates_reported (t := .expired) (c := c) (fun _ => .expired now)
    (fun _ _ => some [("field_name", .str "valid_until")]) hv hbound fun _ => rfl
  simp only [ExpiredExact, hmem]
  constructor
  · intro hexact e r hscanned text htext t ht hbefore
    obtain ⟨c, hc⟩ := exists_candidate_expired e r
    obtain ⟨e', r', hscanned', hmeets, hc'⟩ := (hexact c).2 ⟨e, r, hscanned, ⟨text, htext, t, ht, hbefore⟩, hc⟩
    obtain ⟨detail, -, rfl⟩ := candidate_eq_ok.1 hc
    obtain ⟨detail', -, heq⟩ := candidate_eq_ok.1 hc'
    obtain ⟨rfl, rfl⟩ := scanned_inj hscanned hscanned' (congrArg MaintenanceCandidate.entityName heq).symm
      (congrArg MaintenanceCandidate.recordId heq).symm
    obtain ⟨text', htext', t', ht', hearlier⟩ := (meets_expired j hx hscanned).1 hmeets
    obtain rfl := Option.some.inj (htext.symm.trans htext')
    obtain rfl := Option.some.inj (ht.symm.trans ht')
    exact hearlier
  · intro hearlier c
    refine exists_congr fun e => exists_congr fun r => and_congr_right fun hscanned => and_congr_left fun _ => ?_
    rw [meets_expired j hx hscanned]
    refine exists_congr fun text => and_congr_right fun htext => exists_congr fun t => and_congr_right fun ht => ?_
    exact ⟨fun h => j.before_of_millisecond_lt h.2, fun h => hearlier e r hscanned text htext t ht h⟩

/-- Findings that can all be told become candidates. -/
theorem mapM_candidate {fs : List Finding} (h : ∀ f ∈ fs, ∃ c, f.candidate = .ok c) :
    ∃ cs, fs.mapM Finding.candidate = .ok cs := by
  induction fs with
  | nil => exact ⟨[], rfl⟩
  | cons f fs ih =>
    obtain ⟨c, hc⟩ := h f List.mem_cons_self
    obtain ⟨cs, hcs⟩ := ih fun f' hf' => h f' (List.mem_cons_of_mem _ hf')
    exact ⟨c :: cs, by rw [List.mapM_cons, hc, hcs]; rfl⟩

/-- Scans that all succeed give a listing. -/
theorem exists_listing {scans : List (ScanType × RecordEntity)} {n : ℕ}
    (h : ∀ p ∈ scans, ∀ n, ∃ cs, (scanEntity p.2 p.1 q now n).at_ engine principalId x = .ok cs) :
    ∃ cs, listing engine principalId x q now scans n = .ok cs := by
  induction scans generalizing n with
  | nil => exact ⟨[], rfl⟩
  | cons p rest ih =>
    by_cases hn : n = 0
    · exact ⟨[], Aipcs.sequel_eq_ok.2 (.inl ⟨hn, rfl⟩)⟩
    · obtain ⟨cs, hcs⟩ := h p List.mem_cons_self n
      obtain ⟨cs', hcs'⟩ := ih (n := n - cs.length) fun p' hp' => h p' (List.mem_cons_of_mem _ hp')
      exact ⟨cs ++ cs', Aipcs.sequel_eq_ok.2 (.inr ⟨hn, cs, cs', hcs, hcs', rfl⟩)⟩

/-- **The superseded and the expired scan answer**, where the store is ready
and the query admitted. -/
theorem exists_answer (hready : engine.foundation = .ready) (hdomain : engine.domain = true)
    (hadmitted : admitted (compileRecordSpecification m) (.maintenanceScan q now) = true)
    (htypes : ∀ t ∈ q.scanTypes, t = .superseded ∨ t = .expired) :
    ∃ v, readAt b engine (compileRecordSpecification m) principalId x (.maintenanceScan q now) = .ok (.maintenance v) := by
  have hselected : (q.selected (compileRecordSpecification m)).isEmpty = false := by
    rw [List.isEmpty_eq_false_iff_exists_mem]
    cases hname : q.entityName with
    | none =>
      obtain ⟨d, hd⟩ := List.exists_mem_of_length_pos (Nat.lt_of_lt_of_le Nat.zero_lt_one m.valid.entityCount.1)
      exact ⟨recordEntity d, List.mem_filter.2 ⟨List.mem_map_of_mem (mem_sortedBy.2 hd), by simp [hname]⟩⟩
    | some n =>
      rw [admitted, hname, Option.all_some] at hadmitted
      obtain ⟨e, he⟩ := Option.isSome_iff_exists.1 hadmitted
      obtain ⟨hmem, hn⟩ := RecordSpecification.entity_eq_some he
      exact ⟨e, List.mem_filter.2 ⟨hmem, by simp [hname, hn]⟩⟩
  have hscan : ∀ p ∈ q.scans (compileRecordSpecification m), ∀ n,
      ∃ cs, (scanEntity p.2 p.1 q now n).at_ engine principalId x = .ok cs := by
    rintro ⟨t, e⟩ hp n
    obtain ⟨t', ht', he⟩ := List.mem_flatMap.1 hp
    obtain ⟨e', -, hpair⟩ := List.mem_map.1 he
    obtain ⟨rfl, rfl⟩ := Prod.mk.inj hpair
    rcases htypes t' (mem_sortedBy.1 ht') with rfl | rfl
    · change ∃ cs, (simpleCandidates _ _ _ _ _ _).at_ engine principalId x = .ok cs
      rw [at_simpleCandidates]
      refine mapM_candidate fun f hf => ?_
      obtain ⟨r, -, rfl⟩ := List.mem_map.1 (List.mem_of_mem_take hf)
      exact exists_candidate_superseded e' r
    · change ∃ cs, (simpleCandidates _ _ _ _ _ _).at_ engine principalId x = .ok cs
      rw [at_simpleCandidates]
      refine mapM_candidate fun f hf => ?_
      obtain ⟨r, -, rfl⟩ := List.mem_map.1 (List.mem_of_mem_take hf)
      exact exists_candidate_expired e' r
  obtain ⟨cs, hcs⟩ := exists_listing (n := q.maxCandidates) hscan
  exact ⟨_, (readAt_scan ⟨q.bounds.1, q.bounds.2.1⟩).2 ⟨⟨hadmitted, hready, hdomain, hselected⟩, cs, hcs, rfl⟩⟩

end whole

/-- **When the maintenance signals are exact.** In every store that a run of
mutations comes to, and at every time: a query for superseded and expired
records is answered; and an answer that its bound has not cut has as its
superseded candidates exactly the records with a signal, with their
signals, just where no record that has another status has a
`superseded_by` of white space that is not all spaces; and as its expired
candidates exactly the records whose `valid_until` is before now, just
where each of these is spelled as a time string, of a millisecond before
the clock's. -/
theorem maintenance_signals {hash : String → ℤ} {namespace_ : String} {m : ManifestV2}
    {g : Sessions (World Holdings) (E := Call Holdings) Call.Reply Mutation Outcome}
    (hg : (storeMutations hash namespace_ m).Reachable g) (j : JulianDay) (engine : Engine) (principalId : String)
    (q : MaintenanceQuery) (now : Instant) :
    let s := g.world.content.specification
    let x := g.world.content.content
    let returns := fun v => readAt .sqlite (j.engine engine) s principalId x (.maintenanceScan q now) = .ok (.maintenance v)
    (engine.foundation = .ready → engine.domain = true → admitted s (.maintenanceScan q now) = true →
      (∀ t ∈ q.scanTypes, t = .superseded ∨ t = .expired) → ∃ v, returns v) ∧
    ∀ v, returns v → (x.inventory principalId (j.engine engine) s q now).length ≤ q.maxCandidates →
      (SupersededExact x principalId s q v ↔ ∀ e r, x.scanned principalId s q .superseded e r →
        ∀ text ∈ supersededByText e r, whiteSpace text = true → statusSuperseded e r = true) ∧
      (ExpiredExact x principalId s q now v ↔ ∀ e r, x.scanned principalId s q .expired e r →
        ∀ text ∈ validUntil r, ∀ t ∈ parseDatetime text, t.before now →
          timeString text = true ∧ j.millisecond t < j.millisecond now) := by
  have hx := written_of_reachable hg
  exact ⟨fun hready hdomain hadmitted htypes => exists_answer hready hdomain hadmitted htypes,
    fun v hv hbound => ⟨supersededExact_iff hx hv hbound, expiredExact_iff j hx hv hbound⟩⟩

/-! ## Notes with dates -/

namespace Dated

/-- `julianday`, to the nearest millisecond. -/
def nearest : JulianDay where
  julianday s := if timeString s then (parseDatetime s).map fun t => (t.micros + 500) / 1000 else none
  rounding := 500
  rounding_lt := by decide
  reads s t hs ht := by rw [if_pos hs, ht, Option.map_some]
  null s t hs _ := by rw [if_neg (by simp [hs])]

def manifest : ManifestV2 where
  schemaVersion := 1
  entities := [{ name := "note", attributes := SERVER_MANAGED_FIELDS ++ [{ name := "status", type := .string },
    { name := "superseded_by", type := .string }, { name := "valid_until", type := .datetime }] }]
  valid := by decide

abbrev notes : RecordSpecification := compileRecordSpecification manifest

/-- What has superseded the note, and until when it is valid. -/
def fresh : FrozenJsonObject :=
  ⟨[("superseded_by", .str "second"), ("valid_until", .str "2024-02-29T12:00:00Z")], by decide +kernel⟩

/-- A tab, and the same instant in ISO's basic format. -/
def tabbed : FrozenJsonObject :=
  ⟨[("superseded_by", .str "\t"), ("valid_until", .str "20240229T120000Z")], by decide +kernel⟩

def created (o : FrozenJsonObject) : Except DataFailureCode (Content × Result) :=
  operate .sqlite notes Noted.alice Noted.readings .empty (.createRecord ⟨Noted.note, o⟩)

/-- The tables that the create leaves. -/
def kept (o : FrozenJsonObject) : Content := Counted.left (created o)

theorem reachable_kept {o : FrozenJsonObject} (h : (created o).toOption.isSome = true) :
    ∃ g, (storeMutations (fun _ => 0) "notes" manifest).Reachable g ∧ g.world.content = ⟨manifest, kept o⟩ := by
  cases hr : created o with
  | error code =>
    rw [hr] at h
    exact absurd h (by simp [Except.toOption])
  | ok p =>
    have hkept : kept o = p.1 := by rw [kept, hr]; rfl
    rw [hkept]
    exact reachable_operated hr

/-- The end of 2025. -/
def now : Instant := ⟨63902000000000000, by decide⟩

/-- Which notes are superseded, and which have expired? -/
def query : MaintenanceQuery where
  scanTypes := [.superseded, .expired]
  entityName := none
  branchId := none
  maxCandidates := 10
  staleAfterDays := 1
  lowConfidenceBelow := positiveZero
  bounds := by decide
  distinct := by simp

end Dated

open Dated in
/-- The fresh note is superseded and has expired, and both scans report it. -/
theorem maintenance_signals_note : ∃ g v, (storeMutations (fun _ => 0) "notes" manifest).Reachable g ∧
    g.world.content = ⟨manifest, kept fresh⟩ ∧ v.candidates.length = 2 ∧
      SupersededExact (kept fresh) "alice" notes query v ∧ ExpiredExact (kept fresh) "alice" notes query now v := by
  obtain ⟨g, hg, hcontent⟩ := reachable_kept (o := fresh) (by decide +kernel)
  have hsignals := maintenance_signals hg nearest Counted.engine "alice" query now
  rw [hcontent] at hsignals
  obtain ⟨v, hv⟩ := hsignals.1 rfl rfl (by decide) (by decide)
  have hlength : (Counted.candidates (readAt .sqlite (nearest.engine Counted.engine) notes "alice" (kept fresh)
      (.maintenanceScan query now))).map List.length = some 2 := by decide +kernel
  obtain ⟨hsuperseded, hexpired⟩ := hsignals.2 v hv (by decide +kernel)
  refine ⟨g, v, hg, hcontent, ?_, hsuperseded.2 ?_, hexpired.2 ?_⟩
  · change readAt .sqlite (nearest.engine Counted.engine) notes "alice" (kept fresh) (.maintenanceScan query now) = _ at hv
    rw [hv] at hlength
    exact Option.some.inj hlength
  · have hnone : ∀ p ∈ query.scans notes, ∀ r ∈ (kept fresh).scope "alice" p.2.name query.branchId,
        (supersededByText p.2 r).all (fun text => !whiteSpace text) = true := by decide +kernel
    intro e r hscanned text htext hspace
    have htext' := (Option.all_eq_true _ _).1 (hnone _ hscanned.1 r hscanned.2) text htext
    exact absurd hspace (by simpa using htext')
  · have hearlier : ∀ p ∈ query.scans notes, ∀ r ∈ (kept fresh).scope "alice" p.2.name query.branchId,
        (validUntil r).all (fun text => (parseDatetime text).all fun t =>
          timeString text && decide (nearest.millisecond t < nearest.millisecond now)) = true := by decide +kernel
    intro e r hscanned text htext t ht _
    have ht' := (Option.all_eq_true _ _).1 ((Option.all_eq_true _ _).1 (hearlier _ hscanned.1 r hscanned.2) text htext) t ht
    simpa using ht'

open Dated in
/-- The tabbed note is reported as superseded, with no signal, and is not
reported as expired. -/
theorem maintenance_signals_fail : ∃ g v, (storeMutations (fun _ => 0) "notes" manifest).Reachable g ∧
    g.world.content = ⟨manifest, kept tabbed⟩ ∧
    readAt .sqlite (nearest.engine Counted.engine) notes "alice" (kept tabbed) (.maintenanceScan query now) =
      .ok (.maintenance v) ∧
    ((kept tabbed).inventory "alice" (nearest.engine Counted.engine) notes query now).length ≤ query.maxCandidates ∧
    ¬ SupersededExact (kept tabbed) "alice" notes query v ∧ ¬ ExpiredExact (kept tabbed) "alice" notes query now v := by
  obtain ⟨g, hg, hcontent⟩ := reachable_kept (o := tabbed) (by decide +kernel)
  have hx := written_of_reachable hg
  rw [hcontent] at hx
  obtain ⟨v, hv⟩ : ∃ v, readAt .sqlite (nearest.engine Counted.engine) notes "alice" (kept tabbed)
      (.maintenanceScan query now) = .ok (.maintenance v) := exists_answer rfl rfl (by decide) (by decide)
  have hbound : ((kept tabbed).inventory "alice" (nearest.engine Counted.engine) notes query now).length ≤
      query.maxCandidates := by decide +kernel
  refine ⟨g, v, hg, hcontent, hv, hbound, fun hexact => ?_, fun hexact => ?_⟩
  · have htab : ∃ p ∈ query.scans notes, p.1 = .superseded ∧ ∃ r ∈ (kept tabbed).scope "alice" p.2.name query.branchId,
        supersededByText p.2 r = some "\t" ∧ statusSuperseded p.2 r = false := by decide +kernel
    obtain ⟨⟨t, e⟩, hscan, rfl, r, hr, htext, hstatus⟩ := htab
    have := (supersededExact_iff hx hv hbound).1 hexact e r ⟨hscan, hr⟩ "\t" htext (by decide)
    exact absurd this (by simp [hstatus])
  · have hbasic : ∃ p ∈ query.scans notes, p.1 = .expired ∧ ∃ r ∈ (kept tabbed).scope "alice" p.2.name query.branchId,
        validUntil r = some "20240229T120000Z" := by decide +kernel
    obtain ⟨⟨t, e⟩, hscan, rfl, r, hr, htext⟩ := hbasic
    have hparse : ((parseDatetime "20240229T120000Z").any fun t => decide (t.before now)) = true := by decide +kernel
    obtain ⟨t, ht, hbefore⟩ := (Option.any_eq_true _ _).1 hparse
    have := ((expiredExact_iff nearest hx hv hbound).1 hexact e r ⟨hscan, hr⟩ _ htext t ht (by simpa using hbefore)).1
    exact absurd this (by decide)

end Data

end Aipcs

import Aipcs.Common.Merging
import Aipcs.Data.Reads

/-!
# Data — the maintenance scan and its bound

What the scans have to report of a store is one list, by scan type, entity
and record. The scan asks each statement for no more than it still has room
for, and each field of a scan with several fields by a statement of its
own; `maintenance_bounded` says that it gives the first of the list all the
same.
-/

namespace Aipcs

namespace Data

open Manifest Portable Relational Records Registry Store.Mutating Program

/-! ## What there is to report -/

/-- A record that a scan reports, and its detail where that can be written. -/
structure Finding where
  scanType : ScanType
  entityName : String
  recordId : Uuid
  detail : Option (List (String × PortableJson))

/-- The candidate that a finding becomes. -/
def Finding.candidate (f : Finding) : Except DataFailureCode MaintenanceCandidate := do
  let detail ← require .internalError (f.detail.bind FrozenJsonObject.fromMapping)
  return ⟨f.scanType, f.entityName, f.recordId, detail⟩

def Finding.place (f : Finding) : ScanType × String × Uuid := (f.scanType, f.entityName, f.recordId)

def MaintenanceCandidate.place (c : MaintenanceCandidate) : ScanType × String × Uuid :=
  (c.scanType, c.entityName, c.recordId)

/-- By scan type, entity and id. -/
def Earlier (a b : ScanType × String × Uuid) : Prop :=
  a.1.value < b.1.value ∨ a.1 = b.1 ∧ (a.2.1 < b.2.1 ∨ a.2.1 = b.2.1 ∧ a.2.2.int < b.2.2.int)

namespace Content

variable (x : Content) (principalId : String) (engine : Engine) (q : MaintenanceQuery) (now : Instant)

/-- The rows that meet a condition. -/
def reported (t : ScanType) (e : RecordEntity) (condition : Condition)
    (details : RecordRow → Option (List (String × PortableJson))) : List Finding :=
  ((x.scope principalId e.name q.branchId).filter fun r => x.meets principalId e.name engine r condition).map
    fun r => ⟨t, e.name, r.id, details r⟩

/-- The rows that one of the fields names, each by the first that does. -/
def reportedBy (t : ScanType) (e : RecordEntity) (fields : List RecordField) (rows : RecordField → List (Uuid × ℕ))
    (details : RecordField → PortableJson → List (String × PortableJson)) : List Finding :=
  (x.scope principalId e.name q.branchId).filterMap fun r => fields.findSome? fun f =>
    ((rows f).find? fun p => p.1 = r.id).map fun p => ⟨t, e.name, r.id, (detailNumber p.2).map (details f)⟩

/-- What a scan of an entity has to report. -/
def findings : ScanType × RecordEntity → List Finding
  | (.expired, e) => x.reported principalId engine q .expired e (.expired now) fun _ =>
      some [("field_name", .str "valid_until")]
  | (.stale, e) => (daysBefore now q.staleAfterDays).elim [] fun cutoff =>
      x.reported principalId engine q .stale e (.stale cutoff) fun r => do
        let age ← detailNumber ((now.micros - r.updatedAt.micros) / 86400000000)
        let threshold ← detailNumber q.staleAfterDays
        return [("age_days", age), ("threshold_days", threshold)]
  | (.lowConfidence, e) => x.reported principalId engine q .lowConfidence e (.below q.lowConfidenceBelow) fun _ =>
      some [("threshold", .float q.lowConfidenceBelow)]
  | (.superseded, e) =>
    let status := domainField e "status" [.string]
    let supersededBy := e.domainFields.find? fun f => f.name = "superseded_by"
    x.reported principalId engine q .superseded e (.superseded status.isSome supersededBy) fun r =>
      some [("signals", .arr (signals status supersededBy r))]
  | (.missingAuthority, e) => x.reported principalId engine q .missingAuthority e (.missing (authorityFields e)) fun _ =>
      (detailNumber (authorityFields e).length).map fun n => [("declared_field_count", n)]
  | (.unbranched, e) => x.reported principalId engine q .unbranched e .unbranched fun _ =>
      some [("missing_role", .str "primary")]
  | (.duplicateAuthority, e) => x.reportedBy principalId q .duplicateAuthority e (duplicateFields e)
      (x.duplicateRows principalId e.name q.branchId) fun f n => [("duplicate_count", n), ("field_name", .str f.name)]
  | (.blobCandidate, e) => x.reportedBy principalId q .blobCandidate e (annotations e)
      (x.blobRows principalId e.name q.branchId) fun f n => [("byte_length", n), ("field_name", .str f.name),
        ("threshold_bytes", .int ⟨BLOB_THRESHOLD_BYTES, threshold_bounds⟩)]

end Content

/-- The scans of a query, in their order. -/
def MaintenanceQuery.scans (q : MaintenanceQuery) (s : RecordSpecification) : List (ScanType × RecordEntity) :=
  let selected := s.entities.filter fun e => q.entityName.all fun n => e.name = n.1
  (sortedBy ScanType.value q.scanTypes).flatMap fun t => (selected.filter (scanAvailable t)).map fun e => (t, e)

/-- All that the scans of a query have to report. -/
def Content.inventory (x : Content) (principalId : String) (engine : Engine) (s : RecordSpecification)
    (q : MaintenanceQuery) (now : Instant) : List Finding :=
  (q.scans s).flatMap (x.findings principalId engine q now)

/-- The same query with another bound. -/
def MaintenanceQuery.bounded (q : MaintenanceQuery) (k : ℕ) (hk : 1 ≤ k ∧ k ≤ MAX_MAINTENANCE_CANDIDATES) :
    MaintenanceQuery :=
  { q with maxCandidates := k, bounds := ⟨hk.1, hk.2, q.bounds.2.2⟩ }

/-! ## Reads of a content that stays as it is -/

section given

variable {engine : Engine} {principalId : String} {x : Content} {α β : Type}

/-- What a read makes of the answers of one content. -/
def Read.at_ (engine : Engine) (principalId : String) (x : Content) (p : Read α) : Except DataFailureCode α :=
  evalAt (engine.answer principalId) x p.run

theorem at_bind {p : Read α} {f : α → Read β} : (p >>= f).at_ engine principalId x =
    p.at_ engine principalId x >>= fun a => (f a).at_ engine principalId x := by
  change evalAt (engine.answer principalId) x (p.run >>= ExceptT.bindCont f) = _
  rw [evalAt_bind]
  unfold Read.at_
  cases evalAt (engine.answer principalId) x p.run <;> rfl

theorem at_ask {e : Statement} : (Read.ask e).at_ engine principalId x = .ok (engine.answer principalId x e) := rfl

theorem at_given {r : Except DataFailureCode α} : (Read.given r).at_ engine principalId x = r := rfl

theorem at_pure {a : α} : (pure a : Read α).at_ engine principalId x = .ok a := rfl

/-- What follows a check. -/
theorem at_check {code : DataFailureCode} {holds : Bool} {p : Read α} {a : α} :
    (Read.given (check code holds) >>= fun _ => p).at_ engine principalId x = .ok a ↔
      holds = true ∧ p.at_ engine principalId x = .ok a := by
  rw [at_bind, bind_eq_ok]
  simp [at_given]

theorem at_map {p : Read α} {f : α → β} :
    (f <$> p).at_ engine principalId x = f <$> p.at_ engine principalId x := by
  rw [← bind_pure_comp, at_bind]
  cases p.at_ engine principalId x <;> rfl

theorem at_mapM {f : α → Read β} {l : List α} :
    (l.mapM f).at_ engine principalId x = l.mapM fun a => (f a).at_ engine principalId x := by
  induction l with
  | nil => rfl
  | cons a l ih =>
    rw [List.mapM_cons, List.mapM_cons, at_bind]
    congr 1
    funext b
    rw [at_bind, ih]
    rfl

end given

/-! ## A scan of an entity -/

section entity

variable {engine : Engine} {principalId : String} {x : Content} {q : MaintenanceQuery} {now : Instant} {e : RecordEntity}

/-- The rows of an owner ascend. -/
theorem ascending_ownedRows {entityName : String} :
    Ascending (fun r : RecordRow => r.id.int) (x.ownedRows principalId entityName) := by
  refine Ascending.insertionSort ?_
  have hrows := x.records.keyed.sublist ((List.filter_sublist (l := x.records.rows) (p := fun r : RecordRow =>
    decide (r.entityName = entityName) && decide (r.ownerId = principalId))).map RecordRow.key)
  -- the entity is the same throughout, so that the ids tell the rows apart
  rw [List.nodup_iff_pairwise_ne, List.pairwise_map] at hrows ⊢
  refine hrows.imp_of_mem fun {r r'} hr hr' hne hid => hne ?_
  have hr := (List.mem_filter.1 hr).2
  have hr' := (List.mem_filter.1 hr').2
  simp only [Bool.and_eq_true, decide_eq_true_eq] at hr hr'
  exact Prod.ext (hr.1.trans hr'.1.symm) (Uuid.int_injective hid)

theorem ascending_scope {entityName : String} {branch : Option Uuid} :
    Ascending (fun r : RecordRow => r.id.int) (x.scope principalId entityName branch) :=
  List.Pairwise.sublist List.filter_sublist ascending_ownedRows

theorem candidate_eq {t : ScanType} {id : Uuid} {detail : Option (List (String × PortableJson))} :
    candidate t e id detail = (Finding.mk t e.name id detail).candidate := rfl

theorem at_simpleCandidates {t : ScanType} {condition : Condition} {n : ℕ}
    {details : RecordRow → Option (List (String × PortableJson))} :
    (simpleCandidates t e q.branchId condition n details).at_ engine principalId x =
      ((x.reported principalId engine q t e condition details).take n).mapM Finding.candidate := by
  rw [Content.reported, ← List.map_take, List.mapM_map]
  rfl

/-- `_simple_candidates`, at any limit. -/
theorem simpleCandidates_cuts {t : ScanType} {condition : Condition}
    {details : RecordRow → Option (List (String × PortableJson))} :
    Cuts Finding.candidate (x.reported principalId engine q t e condition details) fun n =>
      (simpleCandidates t e q.branchId condition n details).at_ engine principalId x := by
  have hcuts : Cuts Finding.candidate (x.reported principalId engine q t e condition details) fun n =>
      ((x.reported principalId engine q t e condition details).take n).mapM Finding.candidate := .of_mapM
  simpa only [at_simpleCandidates] using hcuts

/-- Of every record the first candidate, in the order of the ids. -/
theorem firstOfEach_eq {limit : ℕ} {found : List (List MaintenanceCandidate)} :
    firstOfEach limit found.flatten = (gathered (fun c : MaintenanceCandidate => c.recordId.int) found).take limit := by
  have hkept : ∀ l kept : List MaintenanceCandidate,
      l.foldl (fun kept c => if kept.any fun k => k.recordId = c.recordId then kept else kept ++ [c]) kept =
        kept ++ (firsts (fun c => c.recordId.int) l).filter fun c => !kept.any fun k => k.recordId = c.recordId := by
    intro l
    induction l with
    | nil => intro kept; simp [firsts]
    | cons c l ih =>
      intro kept
      rw [List.foldl_cons, ih, firsts, List.filter_cons, List.filter_filter]
      cases hc : kept.any fun k => decide (k.recordId = c.recordId) with
      | true =>
        rw [if_pos rfl, if_neg (by simp)]
        congr 1
        refine List.filter_congr fun d _ => ?_
        by_cases hd : d.recordId = c.recordId
        · rw [hd, hc]
          rfl
        · have hint : d.recordId.int ≠ c.recordId.int := fun h => hd (Uuid.int_injective h)
          rw [decide_eq_true hint, Bool.and_true]
      | false =>
        rw [if_neg (by simp), if_pos (by simp), List.append_assoc, List.singleton_append]
        congr 2
        refine List.filter_congr fun d _ => ?_
        rw [List.any_append, List.any_cons, List.any_nil, Bool.or_false, Bool.not_or]
        by_cases hd : d.recordId = c.recordId
        · simp [hd]
        · have hint : d.recordId.int ≠ c.recordId.int := fun h => hd (Uuid.int_injective h)
          rw [decide_eq_true hint, decide_eq_false (Ne.symm hd)]
          rfl
  have hall : ∀ l : List MaintenanceCandidate, (l.filter fun c => !([] : List MaintenanceCandidate).any
      fun k => decide (k.recordId = c.recordId)) = l := fun l => List.filter_eq_self.2 fun _ _ => rfl
  rw [firstOfEach, hkept, hall, List.nil_append]
  rfl

/-- A field's findings. -/
def fieldFindings (t : ScanType) (e : RecordEntity) (details : RecordField → PortableJson → List (String × PortableJson))
    (rows : RecordField → List (Uuid × ℕ)) (f : RecordField) : List Finding :=
  (rows f).map fun p => ⟨t, e.name, p.1, (detailNumber p.2).map (details f)⟩

/-- The rows' own findings are what is gathered of the fields'. -/
theorem reportedBy_eq_gathered {t : ScanType} {fields : List RecordField} {rows : RecordField → List (Uuid × ℕ)}
    {details : RecordField → PortableJson → List (String × PortableJson)}
    (hscope : ∀ f, ∀ p ∈ rows f, p.1 ∈ (x.scope principalId e.name q.branchId).map (·.id)) :
    x.reportedBy principalId q t e fields rows details =
      gathered (fun f : Finding => f.recordId.int) (fields.map (fieldFindings t e details rows)) := by
  have hkeys : ((x.scope principalId e.name q.branchId).map (·.id.int)).Pairwise (· < ·) :=
    List.pairwise_map.2 ascending_scope
  rw [gathered_eq_filterMap hkeys, List.filterMap_map, Content.reportedBy]
  · refine List.filterMap_congr fun r _ => ?_
    rw [Function.comp_apply, List.findSome?_map]
    congr 1
    funext f
    rw [Function.comp_apply, fieldFindings, List.find?_map]
    have hsame : ∀ p : Uuid × ℕ, decide (p.1.int = r.id.int) = decide (p.1 = r.id) :=
      fun p => decide_eq_decide.2 Uuid.int_injective.eq_iff
    simp only [Function.comp_def, hsame]
    cases hp : (rows f).find? fun p => decide (p.1 = r.id) with
    | none => rfl
    | some p =>
      have hid : p.1 = r.id := by simpa using List.find?_some hp
      rw [Option.map_some, Option.map_some, hid]
  · intro l hl g hg
    obtain ⟨f, -, rfl⟩ := List.mem_map.1 hl
    obtain ⟨p, hp, rfl⟩ := List.mem_map.1 hg
    obtain ⟨r, hr, hid⟩ := List.mem_map.1 (hscope f p hp)
    exact List.mem_map.2 ⟨r, hr, congrArg Uuid.int hid⟩

/-- `_duplicate_candidates` and `_blob_candidates`, at any limit. -/
theorem fieldCandidates_cuts {t : ScanType} {fields : List RecordField} {rows : RecordField → List (Uuid × ℕ)}
    {details : RecordField → PortableJson → List (String × PortableJson)} (statement : ℕ → RecordField → Statement)
    (answers : ∀ n f, (statement n f).Answer → List (Uuid × ℕ))
    (hanswers : ∀ n f, answers n f (engine.answer principalId x (statement n f)) = (rows f).take n)
    (hscope : ∀ f, ((rows f).map Prod.fst).Sublist ((x.scope principalId e.name q.branchId).map (·.id))) :
    Cuts Finding.candidate (x.reportedBy principalId q t e fields rows details) fun n =>
      (fieldCandidates t e fields (statement n) (answers n) details n).at_ engine principalId x := by
  have hcuts : Cuts Finding.candidate (x.reportedBy principalId q t e fields rows details)
      (gather Finding.candidate (fun c : MaintenanceCandidate => c.recordId.int)
        (fields.map (fieldFindings t e details rows))) := by
    rw [reportedBy_eq_gathered fun f p hp => (hscope f).subset (List.mem_map_of_mem hp)]
    refine .gather (fun l hl => ?_) fun {f c} hc => ?_
    · obtain ⟨f, -, rfl⟩ := List.mem_map.1 hl
      have hids : ((x.scope principalId e.name q.branchId).map (·.id)).Pairwise fun u v => u.int < v.int := by
        rw [List.pairwise_map]
        exact ascending_scope
      have hrows := hids.sublist (hscope f)
      rw [List.pairwise_map] at hrows
      rw [fieldFindings, Ascending, List.pairwise_map]
      exact hrows
    · obtain ⟨detail, -, hdetail⟩ := bind_eq_ok.1 hc
      rw [← Except.ok.inj hdetail]
  have heq : ∀ n, (fieldCandidates t e fields (statement n) (answers n) details n).at_ engine principalId x =
      gather Finding.candidate (fun c : MaintenanceCandidate => c.recordId.int)
        (fields.map (fieldFindings t e details rows)) n := by
    intro n
    have hfield : ∀ f, (Read.ask (statement n f) >>= fun answer => Read.given ((answers n f answer).mapM fun p =>
        candidate t e p.1 ((detailNumber p.2).map (details f)))).at_ engine principalId x =
        ((fieldFindings t e details rows f).take n).mapM Finding.candidate := by
      intro f
      rw [fieldFindings, ← List.map_take, ← hanswers n f, List.mapM_map]
      rfl
    rw [fieldCandidates, at_bind, at_mapM, gather, List.mapM_map]
    simp only [hfield]
    congr 1
    funext found
    exact congrArg Except.ok firstOfEach_eq
  simpa only [heq] using hcuts

theorem duplicateRows_scope {field : RecordField} {entityName : String} {branch : Option Uuid} :
    ((x.duplicateRows principalId entityName branch field).map Prod.fst).Sublist
      ((x.scope principalId entityName branch).map (·.id)) := by
  rw [Content.duplicateRows]
  refine (List.filter_sublist.map Prod.fst).trans ?_
  rw [List.map_map]
  exact .refl _

theorem blobRows_scope {field : RecordField} {entityName : String} {branch : Option Uuid} :
    ((x.blobRows principalId entityName branch field).map Prod.fst).Sublist
      ((x.scope principalId entityName branch).map (·.id)) := by
  refine (List.filter_sublist.map Prod.fst).trans ?_
  induction x.scope principalId entityName branch with
  | nil => exact .slnil
  | cons r rows ih =>
    rw [List.filterMap_cons]
    cases byteLength (cellOf r.cells field.name) with
    | none => exact ih.cons _
    | some n => exact ih.cons_cons _

/-- **`_scan_entity`**, at any limit. -/
theorem scanEntity_cuts {t : ScanType} : Cuts Finding.candidate (x.findings principalId engine q now (t, e)) fun n =>
    (scanEntity e t q now n).at_ engine principalId x := by
  cases t with
  | expired => exact simpleCandidates_cuts
  | stale =>
    simp only [Content.findings, scanEntity, at_bind]
    cases daysBefore now q.staleAfterDays with
    | none => exact .of_error
    | some cutoff => exact simpleCandidates_cuts
  | lowConfidence => exact simpleCandidates_cuts
  | superseded => exact simpleCandidates_cuts
  | missingAuthority => exact simpleCandidates_cuts
  | unbranched => exact simpleCandidates_cuts
  | duplicateAuthority =>
    exact fieldCandidates_cuts (fun n f => .duplicates e.name q.branchId f n) (fun _ _ rows => rows) (fun _ _ => rfl)
      fun _ => duplicateRows_scope
  | blobCandidate =>
    exact fieldCandidates_cuts (fun n f => .blobs e.name q.branchId f n) (fun _ _ rows => rows) (fun _ _ => rfl)
      fun _ => blobRows_scope

end entity

/-! ## The whole scan -/

section whole

variable {engine : Engine} {principalId : String} {x : Content} {q : MaintenanceQuery} {now : Instant}
  {s : RecordSpecification} {m : ManifestV2} {b : StorageBackend}

/-- The scans of entities, one asked for what those before leave. -/
def listing (engine : Engine) (principalId : String) (x : Content) (q : MaintenanceQuery) (now : Instant) :
    List (ScanType × RecordEntity) → ℕ → Except DataFailureCode (List MaintenanceCandidate)
  | [] => fun _ => .ok []
  | (t, e) :: rest =>
    sequel (fun n => (scanEntity e t q now n).at_ engine principalId x) (listing engine principalId x q now rest)

theorem listing_cuts : Cuts Finding.candidate (x.inventory principalId engine s q now)
    (listing engine principalId x q now (q.scans s)) := by
  unfold Content.inventory
  induction q.scans s with
  | nil => exact .nil
  | cons p rest ih => exact scanEntity_cuts.sequel ih

theorem scanAll_eq {scans : List (ScanType × RecordEntity)} {found : List MaintenanceCandidate} :
    (scanAll q now scans found).at_ engine principalId x =
      (found ++ ·) <$> listing engine principalId x q now scans (q.maxCandidates - found.length) := by
  induction scans generalizing found with
  | nil => exact congrArg Except.ok (List.append_nil found).symm
  | cons p rest ih =>
    obtain ⟨t, e⟩ := p
    rw [scanAll, listing, sequel]
    by_cases hroom : q.maxCandidates - found.length = 0
    · rw [if_pos hroom, if_pos hroom]
      exact congrArg Except.ok (List.append_nil found).symm
    · rw [if_neg hroom, if_neg hroom, at_bind]
      cases (scanEntity e t q now (q.maxCandidates - found.length)).at_ engine principalId x with
      | error code => rfl
      | ok more =>
        change (scanAll q now rest (found ++ more)).at_ engine principalId x = _
        rw [ih, List.length_append, ← Nat.sub_sub]
        change _ = (found ++ ·) <$> ((more ++ ·) <$>
          listing engine principalId x q now rest (q.maxCandidates - found.length - more.length))
        cases listing engine principalId x q now rest (q.maxCandidates - found.length - more.length) with
        | error code => rfl
        | ok last => exact congrArg Except.ok (List.append_assoc found more last)

theorem listing_bounded {k : ℕ} (hk : 1 ≤ k ∧ k ≤ MAX_MAINTENANCE_CANDIDATES) {scans : List (ScanType × RecordEntity)} :
    listing engine principalId x (q.bounded k hk) now scans = listing engine principalId x q now scans := by
  induction scans with
  | nil => rfl
  | cons p rest ih =>
    rw [listing, listing, ih]
    rfl

/-- The entities of a query. -/
def MaintenanceQuery.selected (q : MaintenanceQuery) (s : RecordSpecification) : List RecordEntity :=
  s.entities.filter fun e => q.entityName.all fun n => e.name = n.1

theorem scan_eq_ok {v : MaintenanceResult} : (scan s q now).at_ engine principalId x = .ok v ↔
    (q.selected s).isEmpty = false ∧ ∃ cs, listing engine principalId x q now (q.scans s) q.maxCandidates = .ok cs ∧
      v = ⟨cs, (sortedBy ScanType.value q.scanTypes).filter fun t => !(q.selected s).any (scanAvailable t)⟩ := by
  have hall : (scanAll q now (q.scans s) []).at_ engine principalId x =
      listing engine principalId x q now (q.scans s) q.maxCandidates := by
    rw [scanAll_eq, List.length_nil, Nat.sub_zero]
    cases listing engine principalId x q now (q.scans s) q.maxCandidates <;> rfl
  rw [← hall, scan, at_bind, bind_eq_ok]
  simp only [at_bind, bind_eq_ok, at_given, at_pure, check_eq_ok, Except.ok.injEq, exists_const,
    Bool.not_eq_true', eq_comm (b := v)]
  exact Iff.rfl

/-- What a scan returns, at any bound: the same is admitted, the same scan
types are unavailable, and the candidates are the listing's. -/
theorem readAt_scan {k : ℕ} (hk : 1 ≤ k ∧ k ≤ MAX_MAINTENANCE_CANDIDATES) {found : Found} :
    readAt b engine s principalId x (.maintenanceScan (q.bounded k hk) now) = .ok found ↔
      (admitted s (.maintenanceScan q now) = true ∧ engine.foundation = .ready ∧ engine.domain = true ∧
        (q.selected s).isEmpty = false) ∧
        ∃ cs, listing engine principalId x q now (q.scans s) k = .ok cs ∧ found = .maintenance ⟨cs,
          (sortedBy ScanType.value q.scanTypes).filter fun t => !(q.selected s).any (scanAvailable t)⟩ := by
  let result : Read Found := .maintenance <$> scan s (q.bounded k hk) now
  let domain : Read Found := Read.ask .domain >>= fun domain : Bool =>
    Read.given (check .storageMigrationRequired domain) >>= fun _ => result
  have hresult : ∀ r, result.at_ engine principalId x = .ok r ↔ ∃ v, (scan s (q.bounded k hk) now).at_ engine principalId x =
      .ok v ∧ r = .maintenance v := by
    intro r
    simp only [result, at_map]
    cases (scan s (q.bounded k hk) now).at_ engine principalId x with
    | error code => exact iff_of_false (fun h => nomatch h) fun ⟨v, h, _⟩ => nomatch h
    | ok v =>
      refine ⟨fun h => ⟨v, rfl, (Except.ok.inj h).symm⟩, fun ⟨v', hv', hr⟩ => ?_⟩
      rw [hr, ← Except.ok.inj hv']
      rfl
  change (Read.given (check .validationFailed (admitted s (.maintenanceScan q now))) >>= fun _ =>
    Read.ask .foundation >>= fun state : Foundation =>
    Read.given (check .storageMigrationRequired (false || decide (state = .ready))) >>= fun _ => domain).at_
      engine principalId x = _ ↔ _
  rw [at_check]
  change _ ∧ (Read.given (check .storageMigrationRequired (false || decide (engine.foundation = .ready))) >>= fun _ =>
    domain).at_ engine principalId x = _ ↔ _
  rw [at_check]
  change _ ∧ _ ∧ (Read.given (check .storageMigrationRequired engine.domain) >>= fun _ => result).at_
    engine principalId x = _ ↔ _
  rw [at_check, hresult, Bool.false_or, decide_eq_true_eq]
  constructor
  · rintro ⟨hadmitted, hready, hdomain, v, hv, rfl⟩
    obtain ⟨hselected, cs, hcs, rfl⟩ := scan_eq_ok.1 hv
    rw [listing_bounded] at hcs
    exact ⟨⟨hadmitted, hready, hdomain, hselected⟩, cs, hcs, rfl⟩
  · rintro ⟨⟨hadmitted, hready, hdomain, hselected⟩, cs, hcs, rfl⟩
    rw [← listing_bounded hk] at hcs
    exact ⟨hadmitted, hready, hdomain, _, scan_eq_ok.2 ⟨hselected, cs, hcs, rfl⟩, rfl⟩

/-! ## The order of the findings -/

theorem ascending_scanTypes : Ascending ScanType.value (sortedBy ScanType.value q.scanTypes) := by
  have hinjective : Function.Injective ScanType.value := by
    intro a b h
    cases a <;> cases b <;> first | rfl | exact absurd h (by decide)
  exact .insertionSort (q.distinct.2.map hinjective)

theorem ascending_recordEntities : Ascending RecordEntity.name (recordEntities m) :=
  List.pairwise_map.2 (Ascending.insertionSort m.valid.entityNames)

/-- Findings of one scan of one entity, by the ids. -/
structure Listed (t : ScanType) (e : RecordEntity) (l : List Finding) : Prop where
  place : ∀ f ∈ l, f.scanType = t ∧ f.entityName = e.name
  ascending : Ascending (fun f : Finding => f.recordId.int) l

theorem listed_reported {t : ScanType} {e : RecordEntity} {condition : Condition}
    {details : RecordRow → Option (List (String × PortableJson))} :
    Listed t e (x.reported principalId engine q t e condition details) where
  place f hf := by
    obtain ⟨r, -, rfl⟩ := List.mem_map.1 hf
    exact ⟨rfl, rfl⟩
  ascending := List.pairwise_map.2 (List.Pairwise.sublist List.filter_sublist ascending_scope)

theorem listed_reportedBy {t : ScanType} {e : RecordEntity} {fields : List RecordField}
    {rows : RecordField → List (Uuid × ℕ)} {details : RecordField → PortableJson → List (String × PortableJson)} :
    Listed t e (x.reportedBy principalId q t e fields rows details) := by
  have hfinding : ∀ {r : RecordRow} {g : Finding}, (fields.findSome? fun f => ((rows f).find? fun p => p.1 = r.id).map
      fun p => (⟨t, e.name, r.id, (detailNumber p.2).map (details f)⟩ : Finding)) = some g →
      (g.scanType = t ∧ g.entityName = e.name) ∧ g.recordId = r.id := by
    intro r g hg
    obtain ⟨f, -, hf⟩ := List.exists_of_findSome?_eq_some hg
    obtain ⟨p, -, rfl⟩ := Option.map_eq_some_iff.1 hf
    exact ⟨⟨rfl, rfl⟩, rfl⟩
  refine ⟨fun f hf => ?_, List.pairwise_filterMap.2 (ascending_scope.imp fun hlt g hg g' hg' => ?_)⟩
  · obtain ⟨r, -, hr⟩ := List.mem_filterMap.1 hf
    exact (hfinding hr).1
  · have hid := (hfinding hg).2
    have hid' := (hfinding hg').2
    change g.recordId.int < g'.recordId.int
    rw [hid, hid']
    exact hlt

theorem listed_findings {t : ScanType} {e : RecordEntity} : Listed t e (x.findings principalId engine q now (t, e)) := by
  cases t with
  | expired => exact listed_reported
  | stale =>
    rw [Content.findings]
    cases daysBefore now q.staleAfterDays with
    | none => exact ⟨fun f hf => absurd hf List.not_mem_nil, .nil⟩
    | some cutoff => exact listed_reported
  | lowConfidence => exact listed_reported
  | superseded => exact listed_reported
  | missingAuthority => exact listed_reported
  | unbranched => exact listed_reported
  | duplicateAuthority => exact listed_reportedBy
  | blobCandidate => exact listed_reportedBy

/-- **What there is to report stands in order.** -/
theorem pairwise_inventory : (x.inventory principalId engine (compileRecordSpecification m) q now).Pairwise
    fun f g => Earlier f.place g.place := by
  have hscans : (q.scans (compileRecordSpecification m)).Pairwise fun p p' =>
      p.1.value < p'.1.value ∨ p.1 = p'.1 ∧ p.2.name < p'.2.name := by
    refine List.pairwise_flatMap.2 ⟨fun t _ => List.pairwise_map.2 ?_, ascending_scanTypes.imp fun hlt p hp p' hp' => ?_⟩
    · have hselected : Ascending RecordEntity.name
          ((q.selected (compileRecordSpecification m)).filter (scanAvailable t)) :=
        List.Pairwise.sublist (List.filter_sublist.trans List.filter_sublist) ascending_recordEntities
      exact hselected.imp fun hlt => .inr ⟨rfl, hlt⟩
    · obtain ⟨e, -, rfl⟩ := List.mem_map.1 hp
      obtain ⟨e', -, rfl⟩ := List.mem_map.1 hp'
      exact .inl hlt
  refine List.pairwise_flatMap.2 ⟨fun p _ => ?_, hscans.imp fun hlt f hf g hg => ?_⟩
  · have hlisted := @listed_findings engine principalId x q now p.1 p.2
    refine hlisted.ascending.imp_of_mem fun {f g} hf hg hlt => .inr ⟨?_, .inr ⟨?_, hlt⟩⟩
    · exact (hlisted.place f hf).1.trans (hlisted.place g hg).1.symm
    · exact (hlisted.place f hf).2.trans (hlisted.place g hg).2.symm
  · obtain ⟨hf₁, hf₂⟩ := listed_findings.place f hf
    obtain ⟨hg₁, hg₂⟩ := listed_findings.place g hg
    unfold Earlier Finding.place
    rw [hf₁, hf₂, hg₁, hg₂]
    exact hlt.imp_right fun h => ⟨h.1, .inl h.2⟩

/-- A candidate stands where its finding does. -/
theorem places_of_built {fs : List Finding} {cs : List MaintenanceCandidate}
    (h : cs.map .ok = fs.map Finding.candidate) : cs.map MaintenanceCandidate.place = fs.map Finding.place := by
  obtain ⟨zs, rfl, rfl⟩ := exists_zip h.symm
  rw [List.map_map, List.map_map]
  refine List.map_congr_left fun z _ => ?_
  obtain ⟨detail, -, hdetail⟩ := bind_eq_ok.1 z.2
  exact congrArg MaintenanceCandidate.place (Except.ok.inj hdetail).symm

/-- **A bounded scan gives the first candidates of one list.** Of any content
and at any time, what a scan returns at a bound are the first candidates
that there are, in the order of scan types, entities and ids, no record
twice for one scan and entity; what it returns at a lower bound are the
first of what it returns at a higher one; and where it returns fewer than
its bound, it returns the same at every higher bound. -/
theorem maintenance_bounded (engine : Engine) (principalId : String) (m : ManifestV2) (b : StorageBackend) (x : Content)
    (q : MaintenanceQuery) (now : Instant) :
    let returns := fun k hk v => readAt b engine (compileRecordSpecification m) principalId x
      (.maintenanceScan (q.bounded k hk) now) = .ok (.maintenance v)
    (∀ k hk v, returns k hk v → v.candidates.map .ok =
      ((x.inventory principalId engine (compileRecordSpecification m) q now).take k).map Finding.candidate) ∧
    (∀ k hk v, returns k hk v → v.candidates.Pairwise fun c d => Earlier c.place d.place) ∧
    (∀ k hk k' hk' v, k ≤ k' → returns k' hk' v → returns k hk { v with candidates := v.candidates.take k }) ∧
    ∀ k hk k' hk' v, k ≤ k' → returns k hk v → v.candidates.length < k → returns k' hk' v := by
  intro returns
  obtain ⟨allowed, unavailable, hreturns⟩ : ∃ (allowed : Prop) (unavailable : List ScanType), ∀ k hk found,
      readAt b engine (compileRecordSpecification m) principalId x (.maintenanceScan (q.bounded k hk) now) = .ok found ↔
        allowed ∧ ∃ cs, listing engine principalId x q now (q.scans (compileRecordSpecification m)) k = .ok cs ∧
          found = .maintenance ⟨cs, unavailable⟩ := ⟨_, _, fun _ hk _ => readAt_scan hk⟩
  have hcuts := @listing_cuts engine principalId x q now (compileRecordSpecification m)
  have hiff : ∀ k hk v, returns k hk v ↔ allowed ∧ listing engine principalId x q now
      (q.scans (compileRecordSpecification m)) k = .ok v.candidates ∧ v.unavailableScanTypes = unavailable := by
    intro k hk v
    refine (hreturns k hk _).trans (and_congr_right fun _ => ?_)
    constructor
    · rintro ⟨cs, hcs, hv⟩
      obtain rfl := Found.maintenance.inj hv
      exact ⟨hcs, rfl⟩
    · rintro ⟨hcs, rfl⟩
      exact ⟨v.candidates, hcs, rfl⟩
  have hbuilt : ∀ k hk v, returns k hk v → v.candidates.map .ok =
      ((x.inventory principalId engine (compileRecordSpecification m) q now).take k).map Finding.candidate :=
    fun k hk v h => (hcuts.built ((hiff k hk v).1 h).2.1).symm
  refine ⟨hbuilt, fun k hk v h => ?_, fun k hk k' hk' v hle h => ?_, fun k hk k' hk' v hle h hlt => ?_⟩
  · have horder := List.Pairwise.sublist (List.take_sublist k _) (@pairwise_inventory engine principalId x q now m)
    rw [← List.pairwise_map (R := Earlier), ← places_of_built (hbuilt k hk v h), List.pairwise_map] at horder
    exact horder
  · obtain ⟨hallowed, hcs, hunavailable⟩ := (hiff k' hk' v).1 h
    exact (hiff k hk _).2 ⟨hallowed, hcuts.take hle hcs, hunavailable⟩
  · obtain ⟨hallowed, hcs, hunavailable⟩ := (hiff k hk v).1 h
    exact (hiff k' hk' v).2 ⟨hallowed, hcuts.all hle hcs hlt, hunavailable⟩

end whole

namespace Counted

/-- Which notes stand on no branch? -/
def unbranchedNotes : MaintenanceQuery where
  scanTypes := [.unbranched]
  entityName := none
  branchId := none
  maxCandidates := 2
  staleAfterDays := 1
  lowConfidenceBelow := positiveZero
  bounds := by decide
  distinct := by simp

/-- The candidates of an answer. -/
def candidates : Except DataFailureCode Found → Option (List MaintenanceCandidate)
  | .ok (.maintenance v) => some v.candidates
  | _ => none

end Counted

open Counted in
/-- The note is the first that there is. -/
theorem maintenance_bounded_note : ∃ v : MaintenanceResult, v.candidates.length = 1 ∧ v.candidates.map .ok =
    (((kept .sqlite).inventory "alice" engine notes unbranchedNotes Noted.readings.now).take 2).map Finding.candidate := by
  have hlength : (candidates (readAt .sqlite engine notes "alice" (kept .sqlite)
      (.maintenanceScan (unbranchedNotes.bounded 2 (by decide)) Noted.readings.now))).map List.length = some 1 := by
    decide +kernel
  obtain ⟨cs, hcs, hone⟩ := Option.map_eq_some_iff.1 hlength
  unfold candidates at hcs
  split at hcs
  · next v hv =>
    obtain rfl := Option.some.inj hcs
    exact ⟨v, hone, (maintenance_bounded engine "alice" Noted.noteManifest .sqlite (kept .sqlite) unbranchedNotes
      Noted.readings.now).1 2 (by decide) v hv⟩
  · exact absurd hcs (by simp)

end Data

end Aipcs

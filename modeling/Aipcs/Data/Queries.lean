import Aipcs.Common.Snapshots
import Aipcs.Data.Statements

/-!
# Data — the reads of the data plane

The reads as programs over their statements: what each asks, in the order
of the source, what it makes of the answers, and the failures that it
answers with. Of a cursor only the position that it decodes to is kept.
-/

namespace Aipcs

namespace Data

open Manifest Portable Relational Records Registry Store.Mutating

def MAX_SEARCH_FILTERS : ℕ := 16
def MAX_PAGE_LIMIT : ℕ := 100
def MAX_SAMPLES_PER_ENTITY : ℕ := 3
def MAX_MAINTENANCE_CANDIDATES : ℕ := 100

/-- A program of statements, or the failure it answers with. -/
abbrev Read (α : Type) : Type := ExceptT DataFailureCode (Program Statement.Answer) α

namespace Read

/-- One statement. -/
def ask (e : Statement) : Read e.Answer := ExceptT.lift (Program.perform e)

/-- What is computed without one. -/
def given {α : Type} (r : Except DataFailureCode α) : Read α := ExceptT.mk (.ret r)

end Read

open Read

/-! ## Queries and answers -/

structure PageRequest (κ : Type) where
  limit : ℕ
  position : Option κ
  bounds : 1 ≤ limit ∧ limit ≤ MAX_PAGE_LIMIT

structure SearchRecordsQuery where
  entityName : EntityName
  filters : List RecordFilter
  branch : Option (Uuid × BranchRole)
  page : PageRequest Uuid
  bounds : filters ≠ [] ∧ filters.length ≤ MAX_SEARCH_FILTERS
  entity : ∀ f ∈ filters, f.entityName = entityName.1
  distinct : (filters.map (·.fieldName)).Nodup

structure ListBranchesQuery where
  status : Option BranchStatus
  branchType : Option { s : String // requireBranchType s = true }
  parentBranchId : Option Uuid
  page : PageRequest Uuid

structure SummaryQuery where
  sampleSizes : List (EntityName × ℕ)
  bounds : ∀ p ∈ sampleSizes, p.2 ≤ MAX_SAMPLES_PER_ENTITY
  ordered : (sampleSizes.map fun p => p.1.1).Pairwise (· < ·)

inductive ScanType where
  | expired
  | stale
  | lowConfidence
  | superseded
  | missingAuthority
  | unbranched
  | duplicateAuthority
  | blobCandidate
deriving DecidableEq

def ScanType.value : ScanType → String
  | .expired => "expired"
  | .stale => "stale"
  | .lowConfidence => "low_confidence"
  | .superseded => "superseded"
  | .missingAuthority => "missing_authority"
  | .unbranched => "unbranched"
  | .duplicateAuthority => "duplicate_authority"
  | .blobCandidate => "blob_candidate"

structure MaintenanceQuery where
  scanTypes : List ScanType
  entityName : Option EntityName
  branchId : Option Uuid
  maxCandidates : ℕ
  staleAfterDays : ℕ
  lowConfidenceBelow : FiniteFloat
  bounds : 1 ≤ maxCandidates ∧ maxCandidates ≤ MAX_MAINTENANCE_CANDIDATES ∧ 1 ≤ staleAfterDays ∧ staleAfterDays ≤ 3650
  distinct : scanTypes ≠ [] ∧ scanTypes.Nodup

/-- A read; a maintenance scan is given the time of the clock. -/
inductive Query where
  | getRecord (entityName : EntityName) (recordId : Uuid)
  | listRecords (entityName : EntityName) (branch : Option (Uuid × BranchRole)) (page : PageRequest Uuid)
  | searchRecords (q : SearchRecordsQuery)
  | recordHistory (entityName : EntityName) (recordId : Option Uuid) (page : PageRequest ℕ)
  | listBranches (q : ListBranchesQuery)
  | serviceSummary (q : SummaryQuery)
  | maintenanceScan (q : MaintenanceQuery) (now : Instant)

/-- A page, and the position that the next one is asked from. -/
structure Page (ρ κ : Type) where
  rows : List ρ
  next : Option κ

structure FacetObservation where
  entityName : String
  fieldName : String
  values : List (PortableJson × ℕ)

structure BranchCard where
  branch : BranchValue
  primaryRecordCount : ℕ
  relatedRecordCount : ℕ

inductive DataStatus where
  | ready
  | migrationRequired
deriving DecidableEq

structure ServiceSummary where
  dataStatus : DataStatus
  recordCounts : List (String × ℕ)
  unbranchedRecordCount : ℕ
  facets : List FacetObservation
  branches : List BranchCard
  samples : List (String × List RecordValue)

structure MaintenanceCandidate where
  scanType : ScanType
  entityName : String
  recordId : Uuid
  detail : FrozenJsonObject

structure MaintenanceResult where
  candidates : List MaintenanceCandidate
  unavailableScanTypes : List ScanType

/-- What a read gives its caller. -/
inductive Found where
  | record (value : RecordValue)
  | records (page : Page RecordValue Uuid)
  | history (page : Page RecordHistoryEvent ℕ)
  | branches (page : Page BranchValue Uuid)
  | summary (value : ServiceSummary)
  | maintenance (value : MaintenanceResult)

/-! ## Records -/

/-- `validate_filter`: the field of a filter that passes unchanged. -/
def validateFilter (s : RecordSpecification) (f : RecordFilter) : Option RecordField := do
  let field ← recordField s.entities f.entityName f.fieldName
  let valid := match f.value with
    | .str text => if filterMode field = .membership then text ≠ "" && text.length ≤ MAX_STRING_LIST_ITEM_CHARS
        else matchesType f.value field.type
    | v => filterMode field ≠ .membership && matchesType v field.type
  if !serverManaged field.name && filterMode field ≠ .none && filterMode field = f.mode && valid then some field
  else none

/-- A page's rows, and where the next page begins when there are more. -/
def pageOf {ρ σ κ : Type} (limit : ℕ) (decode : ρ → Option σ) (position : ρ → κ) (rows : List ρ) :
    Except DataFailureCode (Page σ κ) := do
  let values ← require .storageUnavailable ((rows.take limit).mapM decode)
  return ⟨values, if limit < rows.length then (rows[limit - 1]?).map position else none⟩

/-- `get_record`. -/
def getRecord (b : StorageBackend) (s : RecordSpecification) (entityName : String) (id : Uuid) : Read RecordValue := do
  let row ← ask (.record entityName id)
  given (do
    let row ← require .notFound row
    require .storageUnavailable (decodeRecord b s row))

/-- `_record_page` and `_page`. -/
def recordPage (b : StorageBackend) (s : RecordSpecification) (entityName : String)
    (filters : List (RecordField × RecordFilter)) (branch : Option (Uuid × BranchRole)) (page : PageRequest Uuid) :
    Read (Page RecordValue Uuid) := do
  let rows ← ask (.page entityName filters branch page.position (page.limit + 1))
  given (pageOf page.limit (decodeRecord b s) (·.id) rows)

/-- `_decode_snapshot` and `_snapshot`: SQLite's document is one that is printed as it stands. -/
def decodeSnapshot (b : StorageBackend) (s : RecordSpecification) (entityName : String) (text : Option (List Char)) :
    Option (Option FrozenJsonObject) :=
  if b = .sqlite ∧ text.any (fun text => (loadJson .sqlite text).isNone) = true then none
  else readSnapshotFields s entityName text

/-- `_decode_history` and `_history_event`. -/
def decodeHistory (b : StorageBackend) (s : RecordSpecification) (h : HistoryRow) : Option RecordHistoryEvent := do
  let before ← decodeSnapshot b s h.entityName h.beforeJson
  let after ← decodeSnapshot b s h.entityName h.afterJson
  if b = .sqlite ∧ ((s.entity h.entityName).isNone = true ∨
      h.eventKind = .update ∧ (before.isNone = true ∨ after.isNone = true)) then none
  else historyEvent s h

/-- `record_history`. -/
def recordHistory (b : StorageBackend) (s : RecordSpecification) (entityName : String) (recordId : Option Uuid)
    (page : PageRequest ℕ) : Read (Page RecordHistoryEvent ℕ) := do
  let rows ← ask (.history entityName recordId page.position (page.limit + 1))
  given (pageOf page.limit (fun p => decodeHistory b s p.2) (·.1) rows)

/-- `list_branches`. -/
def listBranches (q : ListBranchesQuery) : Read (Page BranchValue Uuid) := do
  let rows ← ask (.branches q.status (q.branchType.map (·.1)) q.parentBranchId q.page.position (q.page.limit + 1))
  given (pageOf q.page.limit (fun r => some r.value) (·.value.branchId) rows)

/-! ## The summary -/

/-- `_decode_field` of the discovery queries: PostgreSQL's prints a timestamp
with its microseconds, and looks at the items of a list. -/
def discoveryField (b : StorageBackend) (f : RecordField) : SqlValue → Option PortableJson
  | .timestamp t => if b = .postgresql ∧ f.type = .datetime then some (.str t.text) else none
  | c => (decodeField b f c).filter fun v =>
      match v with
      | .arr items => decide (b = .sqlite) || (texts items).length = items.length
      | _ => true

/-- `_decode_record` of the discovery queries. -/
def discoveryRecord (b : StorageBackend) (s : RecordSpecification) (r : RecordRow) : Except DataFailureCode RecordValue := do
  let e ← require .storageUnavailable (s.entity r.entityName)
  let values ← require .storageUnavailable
    (collect (fun f => discoveryField b f (cellOf r.cells f.name)) e.domainFields)
  check .storageUnavailable (1 ≤ r.recordVersion && r.recordVersion ≤ MAX_REVISION)
  let fields ← require .internalError (FrozenJsonObject.fromMapping values)
  check .internalError (validateCreate s r.entityName fields)
  require .internalError
    (buildRecord r.entityName r.id r.recordVersion r.createdAt r.updatedAt r.createdVia fields)

/-- A facet's value: `FacetValue` takes scalars. -/
def facetValue (b : StorageBackend) (f : RecordField) (c : SqlValue) : Except DataFailureCode PortableJson :=
  if filterMode f = .membership then
    match c with
    | .text s => .ok (.str s)
    | _ => .error .storageUnavailable
  else do
    let v ← require .storageUnavailable (discoveryField b f c)
    match v with
    | .arr _ | .obj _ => .error .internalError
    | v => .ok v

/-- `_facet_observation`. -/
def facetObservation (b : StorageBackend) (s : RecordSpecification) (facet : RecordFacet) : Read FacetObservation := do
  let field ← given (require .storageUnavailable (recordField s.entities facet.entityName facet.fieldName))
  let rows ← ask (.facet facet.entityName field)
  given (do
    let values ← rows.mapM fun p => do return (← facetValue b field p.1, p.2)
    return ⟨facet.entityName, facet.fieldName, values⟩)

/-- `_sample_records`. -/
def sampleRecords (b : StorageBackend) (s : RecordSpecification) (entityName : String) (size : ℕ) :
    Read (List RecordValue) :=
  if size = 0 then pure []
  else do
    let rows ← ask (.sample entityName size)
    given (rows.mapM (discoveryRecord b s))

/-- `service_summary` of the discovery queries. -/
def summary (b : StorageBackend) (s : RecordSpecification) (q : SummaryQuery) : Read ServiceSummary := do
  let counts ← s.entities.mapM fun e => do
    let n ← ask (.count e.name)
    return (e.name, n)
  let facets ← (s.discoveryFacets.filter fun f =>
    (s.entity f.entityName).any fun e => e.domainFields.any fun a => a.name = f.fieldName).mapM (facetObservation b s)
  let cards ← ask .cards
  let unbranched ← s.entities.mapM fun e => ask (.unbranched e.name)
  let samples ← q.sampleSizes.mapM fun p => do
    let records ← sampleRecords b s p.1.1 p.2
    return (p.1.1, records)
  given (check .internalError (decide ((counts.map Prod.fst).Pairwise (· < ·))))
  return ⟨.ready, counts, unbranched.sum, facets, cards.map fun c => ⟨c.1.value, c.2.1, c.2.2⟩, samples⟩

/-! ## The maintenance scan -/

def _AUTHORITY_FIELDS : List String :=
  ["provenance_type", "provenance_note", "provenance_source", "source_ref", "source_kind", "scope", "scope_ref",
    "confidence", "status", "valid_from", "valid_until", "supersedes", "superseded_by"]

/-- `_authority_fields`. -/
def authorityFields (e : RecordEntity) : List RecordField :=
  e.domainFields.filter fun f => _AUTHORITY_FIELDS.contains f.name

/-- A domain field of one of the types. -/
def domainField (e : RecordEntity) (name : String) (types : List LogicalType) : Option RecordField :=
  (e.domainFields.find? fun f => f.name = name).filter fun f => types.contains f.type

/-- `_duplicate_fields`. -/
def duplicateFields (e : RecordEntity) : List RecordField :=
  ["provenance_source", "source_ref"].filterMap fun n => domainField e n [.string, .uuid]

/-- The annotations of an entity. -/
def annotations (e : RecordEntity) : List RecordField :=
  e.domainFields.filter fun f => f.type = .string && f.retrievalMode = some RetrievalMode.annotation

/-- `_scan_available`. -/
def scanAvailable (t : ScanType) (e : RecordEntity) : Bool :=
  match t with
  | .stale | .unbranched => true
  | .expired => (domainField e "valid_until" [.datetime]).isSome
  | .lowConfidence => (domainField e "confidence" [.integer, .number]).isSome
  | .superseded => (domainField e "status" [.string]).isSome ||
      (domainField e "superseded_by" [.string, .uuid, .stringList]).isSome
  | .missingAuthority => !(authorityFields e).isEmpty
  | .duplicateAuthority => !(duplicateFields e).isEmpty
  | .blobCandidate => !(annotations e).isEmpty

/-- A number of a detail. -/
def detailNumber (n : ℕ) : Option PortableJson :=
  if h : n ≤ 2 ^ 63 - 1 then some (.int ⟨n, by omega⟩) else none

/-- `MaintenanceCandidate(...)`. -/
def candidate (t : ScanType) (e : RecordEntity) (id : Uuid) (detail : Option (List (String × PortableJson))) :
    Except DataFailureCode MaintenanceCandidate := do
  let detail ← require .internalError (detail.bind FrozenJsonObject.fromMapping)
  return ⟨t, e.name, id, detail⟩

/-- `_simple_candidates`. -/
def simpleCandidates (t : ScanType) (e : RecordEntity) (branch : Option Uuid) (condition : Condition) (limit : ℕ)
    (details : RecordRow → Option (List (String × PortableJson))) : Read (List MaintenanceCandidate) := do
  let rows ← ask (.scan e.name branch condition limit)
  given (rows.mapM fun r => candidate t e r.id (details r))

/-- `_present_value`. -/
def presentValue (f : RecordField) : SqlValue → Bool
  | .null => false
  | .text s => f.type ≠ .string || s.toList.any fun c => !Registry.isSpace c
  | .json text => f.type ≠ .stringList || text ≠ ['[', ']']
  | _ => true

/-- The signals of a superseded record. -/
def signals (status supersededBy : Option RecordField) (r : RecordRow) : List PortableJson :=
  (if status.isSome && isSuperseded (cellOf r.cells "status") then [.str "status"] else []) ++
    if supersededBy.any fun f => presentValue f (cellOf r.cells f.name) then [.str "superseded_by"] else []

/-- The candidates found field by field: of each record the first, in the order of the ids. -/
def firstOfEach (limit : ℕ) (found : List MaintenanceCandidate) : List MaintenanceCandidate :=
  ((found.foldl (fun kept c => if kept.any fun k => k.recordId = c.recordId then kept else kept ++ [c]) []).insertionSort
    fun a b => a.recordId.int ≤ b.recordId.int).take limit

/-- `_duplicate_candidates` and `_blob_candidates`: a statement for every field. -/
def fieldCandidates (t : ScanType) (e : RecordEntity) (fields : List RecordField) (statement : RecordField → Statement)
    (rows : ∀ f, (statement f).Answer → List (Uuid × ℕ))
    (details : RecordField → PortableJson → List (String × PortableJson)) (limit : ℕ) :
    Read (List MaintenanceCandidate) := do
  let found ← fields.mapM fun f => do
    let answer ← ask (statement f)
    given ((rows f answer).mapM fun p => candidate t e p.1 ((detailNumber p.2).map (details f)))
  return firstOfEach limit found.flatten

/-- `now - timedelta(days=...)`. -/
def daysBefore (now : Instant) (days : ℕ) : Option Instant :=
  if days * 86400000000 ≤ now.micros then some ⟨now.micros - days * 86400000000, by have := now.lt; omega⟩ else none

/-- `_scan_entity`. -/
def scanEntity (e : RecordEntity) (t : ScanType) (q : MaintenanceQuery) (now : Instant) (limit : ℕ) :
    Read (List MaintenanceCandidate) :=
  match t with
  | .expired => simpleCandidates t e q.branchId (.expired now) limit fun _ => some [("field_name", .str "valid_until")]
  | .stale => do
    let cutoff ← given (require .storageUnavailable (daysBefore now q.staleAfterDays))
    simpleCandidates t e q.branchId (.stale cutoff) limit fun r => do
      let age ← detailNumber ((now.micros - r.updatedAt.micros) / 86400000000)
      let threshold ← detailNumber q.staleAfterDays
      return [("age_days", age), ("threshold_days", threshold)]
  | .lowConfidence => simpleCandidates t e q.branchId (.below q.lowConfidenceBelow) limit fun _ =>
      some [("threshold", .float q.lowConfidenceBelow)]
  | .superseded =>
    let status := domainField e "status" [.string]
    let supersededBy := e.domainFields.find? fun f => f.name = "superseded_by"
    simpleCandidates t e q.branchId (.superseded status.isSome supersededBy) limit fun r =>
      some [("signals", .arr (signals status supersededBy r))]
  | .missingAuthority => simpleCandidates t e q.branchId (.missing (authorityFields e)) limit fun _ =>
      (detailNumber (authorityFields e).length).map fun n => [("declared_field_count", n)]
  | .unbranched => simpleCandidates t e q.branchId .unbranched limit fun _ => some [("missing_role", .str "primary")]
  | .duplicateAuthority => fieldCandidates t e (duplicateFields e) (fun f => .duplicates e.name q.branchId f limit)
      (fun _ rows => rows) (fun f n => [("duplicate_count", n), ("field_name", .str f.name)]) limit
  | .blobCandidate => fieldCandidates t e (annotations e) (fun f => .blobs e.name q.branchId f limit)
      (fun _ rows => rows) (fun f n => [("byte_length", n), ("field_name", .str f.name),
        ("threshold_bytes", .int ⟨BLOB_THRESHOLD_BYTES, threshold_bounds⟩)]) limit

/-- The scans of the entities, one after the other, until there are enough candidates. -/
def scanAll (q : MaintenanceQuery) (now : Instant) : List (ScanType × RecordEntity) → List MaintenanceCandidate →
    Read (List MaintenanceCandidate)
  | [], found => pure found
  | (t, e) :: rest, found =>
    if q.maxCandidates - found.length = 0 then pure found
    else do
      let more ← scanEntity e t q now (q.maxCandidates - found.length)
      scanAll q now rest (found ++ more)

/-- `maintenance_scan` of the discovery queries. -/
def scan (s : RecordSpecification) (q : MaintenanceQuery) (now : Instant) : Read MaintenanceResult := do
  let selected := s.entities.filter fun e => q.entityName.all fun n => e.name = n.1
  given (check .internalError (!selected.isEmpty))
  let types := sortedBy ScanType.value q.scanTypes
  let candidates ← scanAll q now (types.flatMap fun t => (selected.filter (scanAvailable t)).map fun e => (t, e)) []
  return ⟨candidates, types.filter fun t => !selected.any (scanAvailable t)⟩

/-! ## Every read -/

/-- What is checked before a transaction begins. -/
def admitted (s : RecordSpecification) : Query → Bool
  | .getRecord entityName _ | .listRecords entityName .. | .recordHistory entityName .. =>
    (s.entity entityName.1).isSome
  | .searchRecords q => q.filters.all fun f => (validateFilter s f).isSome
  | .listBranches _ => true
  | .serviceSummary q => q.sampleSizes.all fun p => (s.entity p.1.1).isSome
  | .maintenanceScan q _ => q.entityName.all fun n => (s.entity n.1).isSome

/-- A read's own statements. -/
def operation (b : StorageBackend) (s : RecordSpecification) : Query → Read Found
  | .getRecord entityName id => .record <$> getRecord b s entityName.1 id
  | .listRecords entityName branch page => .records <$> recordPage b s entityName.1 [] branch page
  | .searchRecords q => do
    let filters ← given (require .internalError
      (q.filters.mapM fun f => (recordField s.entities f.entityName f.fieldName).map fun field => (field, f)))
    .records <$> recordPage b s q.entityName.1 filters q.branch q.page
  | .recordHistory entityName recordId page => .history <$> recordHistory b s entityName.1 recordId page
  | .listBranches q => .branches <$> listBranches q
  | .serviceSummary q => .summary <$> summary b s q
  | .maintenanceScan q now => .maintenance <$> scan s q now

/-- `_summary_read` of SQLite tells of a store that awaits its migration. -/
def awaits (b : StorageBackend) (state : Foundation) : Query → Bool
  | .serviceSummary _ => b = .sqlite && state = .predecessor
  | _ => false

/-- `_read` and `_summary_read`. -/
def read (b : StorageBackend) (s : RecordSpecification) (q : Query) : Read Found := do
  given (check .validationFailed (admitted s q))
  let state : Foundation ← ask .foundation
  given (check .storageMigrationRequired (awaits b state q || state = .ready))
  let domain : Bool ← ask .domain
  given (check .storageMigrationRequired domain)
  if awaits b state q then return .summary ⟨.migrationRequired, [], 0, [], [], []⟩
  else operation b s q

end Data

end Aipcs

import Aipcs.Data.Evidence

/-!
# Data — the statements of the reads

What the reads ask a store, and what its tables answer. Rows are found by
their owners, their branches and their ids, as the statements say; how an
engine compares the values of a column, and what its catalog says of the
tables, is left to the engine.
-/

namespace Aipcs

namespace Data

open Manifest Portable Relational Records Registry Store.Mutating

def MAX_SUMMARY_BRANCHES : ℕ := 100
def MAX_FACET_VALUES : ℕ := 20
def BLOB_THRESHOLD_BYTES : ℕ := 1024

theorem threshold_bounds : -2 ^ 63 ≤ (BLOB_THRESHOLD_BYTES : ℤ) ∧ (BLOB_THRESHOLD_BYTES : ℤ) ≤ 2 ^ 63 - 1 := by decide

/-- What the inspection of a store's own tables says. -/
inductive Foundation where
  | ready
  | predecessor
  | other
deriving DecidableEq

structure RecordFilter where
  entityName : String
  fieldName : String
  mode : FilterMode
  value : PortableJson

/-- The condition of a mechanical scan. -/
inductive Condition where
  | expired (now : Instant)
  | stale (cutoff : Instant)
  | below (threshold : FiniteFloat)
  | superseded (status : Bool) (supersededBy : Option RecordField)
  | missing (fields : List RecordField)
  | unbranched

/-- A statement of a read, in whose principal's name it is left out. -/
inductive Statement where
  | foundation
  | domain
  | record (entityName : String) (id : Uuid)
  | page (entityName : String) (filters : List (RecordField × RecordFilter)) (branch : Option (Uuid × BranchRole))
      (position : Option Uuid) (limit : ℕ)
  | history (entityName : String) (recordId : Option Uuid) (position : Option ℕ) (limit : ℕ)
  | branches (status : Option BranchStatus) (branchType : Option String) (parent : Option Uuid)
      (position : Option Uuid) (limit : ℕ)
  | count (entityName : String)
  | facet (entityName : String) (field : RecordField)
  | cards
  | unbranched (entityName : String)
  | sample (entityName : String) (size : ℕ)
  | scan (entityName : String) (branch : Option Uuid) (condition : Condition) (limit : ℕ)
  | duplicates (entityName : String) (branch : Option Uuid) (field : RecordField) (limit : ℕ)
  | blobs (entityName : String) (branch : Option Uuid) (field : RecordField) (limit : ℕ)

namespace Statement

/-- What a statement is answered in. -/
def Answer : Statement → Type
  | foundation => Foundation
  | domain => Bool
  | record .. => Option RecordRow
  | page .. | sample .. | scan .. => List RecordRow
  | history .. => List (ℕ × HistoryRow)
  | branches .. => List BranchRow
  | count _ | unbranched _ => ℕ
  | facet .. => List (SqlValue × ℕ)
  | cards => List (BranchRow × ℕ × ℕ)
  | duplicates .. | blobs .. => List (Uuid × ℕ)

/-- The tables that mutations write may answer otherwise afterwards. -/
def varies : Statement → Bool
  | foundation | domain => false
  | _ => true

end Statement

/-- A database engine: what its catalog says of the tables, which no
mutation of the data changes, and how it compares the values of columns. -/
structure Engine where
  foundation : Foundation
  domain : Bool
  admits : RecordField → FilterMode → PortableJson → SqlValue → Bool
  groups : RecordField → List SqlValue → List (SqlValue × ℕ)
  expired : SqlValue → Instant → Bool
  below : SqlValue → FiniteFloat → Bool

/-! ## What the tables answer -/

/-- `IS NOT NULL`, and neither blank nor empty. -/
def present : SqlValue → Bool
  | .null => false
  | .text s => s.toList.any (· ≠ ' ')
  | .json text => text ≠ ['[', ']']
  | _ => true

/-- `"status"='superseded'`. -/
def isSuperseded : SqlValue → Bool
  | .text s => s = "superseded"
  | _ => false

/-- The texts and the ids of a column are grouped by what they are. -/
def sameAuthority : SqlValue → SqlValue → Bool
  | .text s, .text t => s = t
  | .uuid u, .uuid v => u = v
  | _, _ => false

/-- `octet_length(convert_to(..., 'UTF8'))`. -/
def byteLength : SqlValue → Option ℕ
  | .text s => some s.utf8ByteSize
  | _ => none

namespace Content

variable (x : Content) (principalId entityName : String)

/-- The rows of an owner, `ORDER BY "id"`. -/
def ownedRows : List RecordRow :=
  (x.records.rows.filter fun r => decide (r.entityName = entityName) && decide (r.ownerId = principalId)).insertionSort
    fun a b => a.id.int ≤ b.id.int

/-- Has the record a membership of the kind? -/
def member (id : Uuid) (p : MembershipRow → Bool) : Bool :=
  (x.membershipsOf (principalId, entityName, id)).any p

/-- `_scope`. -/
def scope (branch : Option Uuid) : List RecordRow :=
  (x.ownedRows principalId entityName).filter fun r =>
    branch.all fun b => x.member principalId entityName r.id fun m => m.branchId = b

/-- `NOT EXISTS` a primary branch. -/
def unbranchedRow (r : RecordRow) : Bool := !x.member principalId entityName r.id fun m => m.role = .primary

/-- The rows of a page. -/
def pageRows (engine : Engine) (filters : List (RecordField × RecordFilter)) (branch : Option (Uuid × BranchRole))
    (position : Option Uuid) : List RecordRow :=
  (x.ownedRows principalId entityName).filter fun r =>
    (position.all fun p => p.int < r.id.int) &&
      (branch.all fun b => x.member principalId entityName r.id fun m => m.branchId = b.1 && m.role = b.2) &&
      filters.all fun f => engine.admits f.1 f.2.mode f.2.value (cellOf r.cells f.1.name)

/-- The events of a page, each with its `event_sequence`. -/
def historyRows (recordId : Option Uuid) (position : Option ℕ) : List (ℕ × HistoryRow) :=
  ((x.history.zipIdx 1).map fun p => (p.2, p.1)).filter fun p =>
    decide (p.2.principalId = principalId) && decide (p.2.entityName = entityName) &&
      (position.all fun n => n < p.1) && recordId.all fun id => p.2.recordId = id

/-- The branches of an owner, `ORDER BY "id"`. -/
def branchRows : List BranchRow :=
  (x.branches.rows.filter fun b => b.principalId = principalId).insertionSort
    fun a b => a.value.branchId.int ≤ b.value.branchId.int

/-- `_branch_cards`: the branches touched last, with the sizes of both roles. -/
def branchCards : List (BranchRow × ℕ × ℕ) :=
  let size := fun (b : BranchRow) (role : BranchRole) => (x.memberships.rows.filter fun m =>
    m.branchId = b.value.branchId && decide (m.principalId = principalId) && m.role = role).length
  ((x.branchRows principalId).insertionSort fun a b => b.value.updatedAt.micros ≤ a.value.updatedAt.micros).map
    fun b => (b, size b .primary, size b .related)

/-- Does a row meet the condition of a scan? -/
def meets (engine : Engine) (r : RecordRow) : Condition → Bool
  | .expired now => engine.expired (cellOf r.cells "valid_until") now
  | .stale cutoff => !cutoff.before r.updatedAt
  | .below threshold => engine.below (cellOf r.cells "confidence") threshold
  | .superseded status supersededBy => (status && isSuperseded (cellOf r.cells "status")) ||
      supersededBy.any fun f => present (cellOf r.cells f.name)
  | .missing fields => fields.all fun f => !present (cellOf r.cells f.name)
  | .unbranched => x.unbranchedRow principalId entityName r

/-- The rows whose authority others in the scope have too. -/
def duplicateRows (branch : Option Uuid) (field : RecordField) : List (Uuid × ℕ) :=
  let rows := x.scope principalId entityName branch
  let value := fun r : RecordRow => cellOf r.cells field.name
  (rows.map fun r => (r.id, (rows.filter fun r' => present (value r') && sameAuthority (value r') (value r)).length)).filter
    fun p => 1 < p.2

/-- The rows whose text is long. -/
def blobRows (branch : Option Uuid) (field : RecordField) : List (Uuid × ℕ) :=
  ((x.scope principalId entityName branch).filterMap fun r =>
    (byteLength (cellOf r.cells field.name)).map fun n => (r.id, n)).filter fun p => BLOB_THRESHOLD_BYTES < p.2

end Content

/-- What the tables answer a statement. -/
def Engine.answer (engine : Engine) (principalId : String) (x : Content) : (e : Statement) → e.Answer
  | .foundation => engine.foundation
  | .domain => engine.domain
  | .record entityName id => x.recordRow principalId entityName id
  | .page entityName filters branch position limit =>
    (x.pageRows principalId entityName engine filters branch position).take limit
  | .history entityName recordId position limit => (x.historyRows principalId entityName recordId position).take limit
  | .branches status branchType parent position limit =>
    ((x.branchRows principalId).filter fun b => (position.all fun p => p.int < b.value.branchId.int) &&
      (status.all fun s => b.value.status = s) && (branchType.all fun t => b.value.branchType.any fun t' => t'.1 = t) &&
      parent.all fun p => b.value.parentBranchId = some p).take limit
  | .count entityName => (x.ownedRows principalId entityName).length
  | .facet entityName field =>
    (engine.groups field ((x.ownedRows principalId entityName).map fun r => cellOf r.cells field.name)).take
      MAX_FACET_VALUES
  | .cards => (x.branchCards principalId).take MAX_SUMMARY_BRANCHES
  | .unbranched entityName => ((x.ownedRows principalId entityName).filter (x.unbranchedRow principalId entityName)).length
  | .sample entityName size => (x.ownedRows principalId entityName).take size
  | .scan entityName branch condition limit =>
    ((x.scope principalId entityName branch).filter fun r => x.meets principalId entityName engine r condition).take limit
  | .duplicates entityName branch field limit => (x.duplicateRows principalId entityName branch field).take limit
  | .blobs entityName branch field limit => (x.blobRows principalId entityName branch field).take limit

/-- **The catalog's answers stay** whatever is committed. -/
theorem Engine.answer_fixed (engine : Engine) (principalId : String) (x y : Content) {e : Statement}
    (h : e.varies = false) : engine.answer principalId y e = engine.answer principalId x e := by
  cases e <;> first | rfl | exact absurd h (by simp [Statement.varies])

end Data

end Aipcs

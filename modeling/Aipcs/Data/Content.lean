import Aipcs.Data.Rows
import Aipcs.Store.Mutation

/-!
# Data — the tables of a service store, and the statements over them

Records stand in the tables of their entities, which one id can enter but
once; the history numbers its events, and takes one version of a record
once. The statements are those of the two data stores: what they find,
what they change, and the constraint they may run against.
-/

namespace Aipcs

namespace Data

open Manifest Portable Relational Records Registry Store.Mutating

def MAX_REVISION : ℕ := 2 ^ 63 - 1

/-! ## Tables -/

/-- A row of an entity's table. -/
structure RecordRow where
  entityName : String
  id : Uuid
  ownerId : String
  createdAt : Instant
  updatedAt : Instant
  createdVia : String
  recordVersion : ℕ
  cells : List (String × SqlValue)

/-- A row's table and its primary key. -/
def RecordRow.key (r : RecordRow) : String × Uuid := (r.entityName, r.id)

/-- A row of `aipcs_record_history`. -/
structure HistoryRow where
  principalId : String
  entityName : String
  recordId : Uuid
  recordVersion : ℕ
  eventKind : HistoryKind
  beforeJson : Option (List Char)
  afterJson : Option (List Char)
  occurredAt : Instant

/-- Whose record it is, of which entity, and its id. -/
abbrev RecordIdentity : Type := String × String × Uuid

def HistoryRow.identity (h : HistoryRow) : RecordIdentity := (h.principalId, h.entityName, h.recordId)

/-- A row of `aipcs_memory_branch`. -/
structure BranchRow where
  principalId : String
  value : BranchValue

def BranchRow.key (r : BranchRow) : Uuid := r.value.branchId

/-- A row of `aipcs_record_branch`. -/
structure MembershipRow where
  principalId : String
  entityName : String
  recordId : Uuid
  branchId : Uuid
  role : BranchRole
  assignedAt : Instant

def MembershipRow.key (r : MembershipRow) : RecordIdentity × Uuid :=
  ((r.principalId, r.entityName, r.recordId), r.branchId)

/-- What a service store holds beside its replays and its fence. -/
structure Content where
  records : Table RecordRow.key
  history : List HistoryRow
  branches : Table BranchRow.key
  memberships : Table MembershipRow.key

namespace Content

/-- A store that has just been materialised. -/
def empty : Content := ⟨.empty, [], .empty, .empty⟩

variable (x : Content)

/-! ## Records -/

/-- `SELECT * … WHERE "id"=? AND "owner_id"=?`. -/
def recordRow (principalId entityName : String) (id : Uuid) : Option RecordRow :=
  (x.records.find? (entityName, id)).filter fun r => r.ownerId = principalId

/-- The row where its version is the one expected. -/
def versionedRow (principalId entityName : String) (id : Uuid) (expected : ℕ) : Option RecordRow :=
  (x.recordRow principalId entityName id).filter fun r => r.recordVersion = expected

/-- `INSERT`, refused where the id is taken. -/
def insertRow (r : RecordRow) : Option Content :=
  (x.records.insert r).map fun t => { x with records := t }

/-- `UPDATE … WHERE "id"=? AND "owner_id"=? AND "record_version"=?`: nothing
where it counts no row. -/
def updateRow (principalId entityName : String) (id : Uuid) (expected version : ℕ) (updatedAt : Instant)
    (cells : Option (List (String × SqlValue))) : Option Content :=
  (x.versionedRow principalId entityName id expected).map fun r =>
    { x with records := x.records.set { r with recordVersion := version, updatedAt, cells := cells.getD r.cells } }

/-- `DELETE … WHERE "id"=? AND "owner_id"=? AND "record_version"=?`. -/
def deleteRow (principalId entityName : String) (id : Uuid) (expected : ℕ) : Option Content :=
  (x.versionedRow principalId entityName id expected).map fun r =>
    { x with records := x.records.keep fun r' => decide (r'.key ≠ r.key) }

/-! ## History -/

/-- The events of a record, in sequence. -/
def events (k : RecordIdentity) : List HistoryRow := x.history.filter fun h => h.identity = k

/-- `_append_history`, refused where the version has its event. -/
def appendHistory (h : HistoryRow) : Option Content :=
  if (x.events h.identity).any fun h' => h'.recordVersion = h.recordVersion then none
  else some { x with history := x.history ++ [h] }

/-! ## Memberships -/

/-- `DELETE FROM "aipcs_record_branch"` of a record's memberships. -/
def clearMemberships (k : RecordIdentity) (p : MembershipRow → Bool) : Content :=
  { x with memberships := x.memberships.keep fun m => !(decide (m.key.1 = k) && p m) }

/-- The memberships of a record. -/
def membershipsOf (k : RecordIdentity) : List MembershipRow := x.memberships.rows.filter fun m => m.key.1 = k

/-- `INSERT INTO "aipcs_record_branch"`; a record has one primary branch. -/
def insertMembership (m : MembershipRow) : Option Content :=
  if m.role = .primary ∧ (x.membershipsOf m.key.1).any (fun m' => m'.role = .primary) then none
  else (x.memberships.insert m).map fun t => { x with memberships := t }

/-! ## What statements find and leave -/

variable {x : Content} {y : Content} {p e : String} {id : Uuid} {r : RecordRow} {k : RecordIdentity}

theorem recordRow_eq_some : x.recordRow p e id = some r ↔
    r ∈ x.records.rows ∧ r.key = (e, id) ∧ r.ownerId = p := by
  rw [recordRow, Option.filter_eq_some_iff, Table.find?_eq_some, decide_eq_true_eq, and_assoc]

theorem versionedRow_eq_some {v : ℕ} : x.versionedRow p e id v = some r ↔
    x.recordRow p e id = some r ∧ r.recordVersion = v := by
  rw [versionedRow, Option.filter_eq_some_iff, decide_eq_true_eq]

theorem recordRow_of_find? (h : x.records.find? (e, id) = y.records.find? (e, id)) :
    x.recordRow p e id = y.recordRow p e id := by
  rw [recordRow, recordRow, h]

/-- What an insert does: the row stands alone under its key. -/
theorem insertRow_eq_some (h : x.insertRow r = some y) :
    x.records.find? r.key = none ∧ y.history = x.history ∧ y.records.find? r.key = some r ∧
      ∀ key, key ≠ r.key → y.records.find? key = x.records.find? key := by
  obtain ⟨t, ht, rfl⟩ := Option.map_eq_some_iff.1 h
  exact ⟨(Table.insert_eq_some.1 ht).1, rfl, Table.find?_insert_self ht, fun key hkey => Table.find?_insert_of_ne ht hkey⟩

/-- What an update does: the row found is replaced. -/
theorem updateRow_eq_some {expected version : ℕ} {now : Instant} {cells : Option (List (String × SqlValue))}
    (h : x.updateRow p e id expected version now cells = some y) :
    ∃ r, x.recordRow p e id = some r ∧ r.recordVersion = expected ∧ y.history = x.history ∧
      y.records.find? (e, id) =
        some { r with recordVersion := version, updatedAt := now, cells := cells.getD r.cells } ∧
      ∀ key, key ≠ (e, id) → y.records.find? key = x.records.find? key := by
  obtain ⟨r, hr, rfl⟩ := Option.map_eq_some_iff.1 h
  obtain ⟨hrow, hversion⟩ := versionedRow_eq_some.1 hr
  obtain ⟨hmem, hkey, -⟩ := recordRow_eq_some.1 hrow
  have hfind := Table.find?_of_mem hmem
  refine ⟨r, hrow, hversion, rfl, ?_, fun key hne => Table.find?_set_of_ne (by rw [← hkey] at hne; exact hne)⟩
  rw [← hkey]
  exact Table.find?_set_self (r := { r with recordVersion := version, updatedAt := now, cells := cells.getD r.cells })
    hfind

/-- What a deletion does: the row found is gone. -/
theorem deleteRow_eq_some {expected : ℕ} (h : x.deleteRow p e id expected = some y) :
    ∃ r, x.recordRow p e id = some r ∧ r.recordVersion = expected ∧ y.history = x.history ∧
      y.records.find? (e, id) = none ∧ ∀ key, key ≠ (e, id) → y.records.find? key = x.records.find? key := by
  obtain ⟨r, hr, rfl⟩ := Option.map_eq_some_iff.1 h
  obtain ⟨hrow, hversion⟩ := versionedRow_eq_some.1 hr
  obtain ⟨hmem, hkey, -⟩ := recordRow_eq_some.1 hrow
  refine ⟨r, hrow, hversion, rfl, ?_, fun key hne => ?_⟩
  · rw [Table.find?_eq_none]
    intro r' hr'
    rw [Table.mem_keep, decide_eq_true_eq] at hr'
    rw [← hkey]
    exact hr'.2
  · rw [Table.find?_keep]
    cases hr' : x.records.find? key with
    | none => rfl
    | some r' =>
      have hne' : r'.key ≠ r.key := by rwa [Table.key_of_find? hr', hkey]
      rw [Option.filter_some, if_pos (by simpa using hne')]

/-- What an event does: the history is longer by it. -/
theorem appendHistory_eq_some {h : HistoryRow} (hy : x.appendHistory h = some y) :
    y.records = x.records ∧ y.history = x.history ++ [h] ∧
      ∀ h' ∈ x.events h.identity, h'.recordVersion ≠ h.recordVersion := by
  unfold appendHistory at hy
  split_ifs at hy with hany
  obtain rfl := Option.some.inj hy
  refine ⟨rfl, rfl, fun h' hh' heq => hany ?_⟩
  exact List.any_eq_true.2 ⟨h', hh', by simpa using heq⟩

theorem events_append {h : HistoryRow} (hy : y.history = x.history ++ [h]) :
    y.events k = x.events k ++ if h.identity = k then [h] else [] := by
  rw [events, hy, List.filter_append]
  by_cases hk : h.identity = k
  · rw [if_pos hk, List.filter_cons_of_pos (by simpa using hk), List.filter_nil]
    rfl
  · rw [if_neg hk, List.filter_cons_of_neg (by simpa using hk), List.filter_nil]
    rfl

theorem insertMembership_eq_some {m : MembershipRow} (h : x.insertMembership m = some y) :
    y.records = x.records ∧ y.history = x.history := by
  unfold insertMembership at h
  split_ifs at h
  obtain ⟨t, -, rfl⟩ := Option.map_eq_some_iff.1 h
  exact ⟨rfl, rfl⟩

end Content

end Data

end Aipcs

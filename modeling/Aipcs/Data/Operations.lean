import Aipcs.Data.Content

/-!
# Data — the operations of the data plane

The bodies of the six mutations, past their replays: what each checks,
in the order of the source, what it writes, and the result it leaves. An
operation that raises or refuses has written nothing, since its
transaction is rolled back.
-/

namespace Aipcs

namespace Data

open Manifest Portable Relational Records Registry Store.Mutating

/-! ## Refusals -/

/-- A value that is there, or the failure that its absence is answered as. -/
def require {α : Type} (code : DataFailureCode) : Option α → Except DataFailureCode α
  | some a => .ok a
  | none => .error code

@[simp] theorem require_eq_ok {α : Type} {code : DataFailureCode} {o : Option α} {a : α} :
    require code o = .ok a ↔ o = some a := by
  cases o <;> simp [require]

/-- A check that holds, or the failure. -/
def check (code : DataFailureCode) (p : Bool) : Except DataFailureCode Unit :=
  if p then .ok () else .error code

@[simp] theorem check_eq_ok {code : DataFailureCode} {p : Bool} {u : Unit} :
    check code p = .ok u ↔ p = true := by
  cases p <;> simp [check]

theorem bind_eq_ok {α β : Type} {a : Except DataFailureCode α} {f : α → Except DataFailureCode β} {r : β} :
    (a >>= f) = .ok r ↔ ∃ v, a = .ok v ∧ f v = .ok r := by
  cases a with
  | error code =>
    constructor
    · intro h
      exact absurd h (by simp [bind, Except.bind])
    · rintro ⟨v, hv, -⟩
      exact absurd hv (by simp)
  | ok v => exact ⟨fun h => ⟨v, rfl, h⟩, fun ⟨w, hw, h⟩ => by cases hw; exact h⟩

/-! ## Callers and commands -/

/-- In whose name an operation runs, and through which channel. -/
structure Caller where
  principalId : String
  createdVia : String

/-- What an attempt is given by the clock and by the source of ids. -/
structure Readings where
  now : Instant
  newId : Uuid

structure CreateRecordCommand where
  entityName : EntityName
  record : FrozenJsonObject

structure UpdateRecordCommand where
  entityName : EntityName
  recordId : Uuid
  updates : FrozenJsonObject
  expectedRecordVersion : Revision

structure DeleteRecordCommand where
  entityName : EntityName
  recordId : Uuid
  expectedRecordVersion : Revision

structure CreateBranchCommand where
  slug : { s : String // requireSlug s = true }
  title : { s : String // requireText s 160 = true }
  intent : { s : String // requireText s 1000 = true }
  branchType : Option { s : String // requireBranchType s = true }
  parentBranchId : Option Uuid
  retrievalSummary : Option { s : String // requireText s 1000 = true }

/-- The fields of a branch that an update names, some of them to be unset. -/
structure BranchUpdates where
  title : Option { s : String // requireText s 160 = true }
  intent : Option { s : String // requireText s 1000 = true }
  branchType : Option (Option { s : String // requireBranchType s = true })
  parentBranchId : Option (Option Uuid)
  status : Option BranchStatus
  retrievalSummary : Option (Option { s : String // requireText s 1000 = true })

structure UpdateBranchCommand where
  branchId : Uuid
  updates : BranchUpdates
  expectedBranchRevision : Revision

structure BranchAssignmentTarget where
  entityName : EntityName
  recordId : Uuid
  expectedRecordVersion : Revision

inductive AssignmentOperation where
  | assign
  | unassign
deriving DecidableEq

structure AssignBranchRecordsCommand where
  branchId : Uuid
  role : BranchRole
  operation : AssignmentOperation
  targets : List BranchAssignmentTarget
  distinct : (targets.map fun t => (t.entityName.1, t.recordId)).Nodup

inductive Command where
  | createRecord (c : CreateRecordCommand)
  | updateRecord (c : UpdateRecordCommand)
  | deleteRecord (c : DeleteRecordCommand)
  | createBranch (c : CreateBranchCommand)
  | updateBranch (c : UpdateBranchCommand)
  | assignBranchRecords (c : AssignBranchRecordsCommand)

/-- What an operation leaves for its caller. -/
inductive Result where
  | record (value : RecordValue)
  | deleted (entityName : String) (id : Uuid) (version : ℕ)
  | branch (value : BranchValue)
  | assignment (records : List (String × Uuid × ℕ))

/-! ## Records -/

/-- `RecordValue(...)`. -/
def buildRecord (entityName : String) (id : Uuid) (version : ℕ) (createdAt updatedAt : Instant)
    (createdVia : String) (fields : FrozenJsonObject) : Option RecordValue :=
  if h : isIdentifier entityName = true ∧ 1 ≤ version ∧ requireText createdVia 128 = true ∧
      ¬ updatedAt.before createdAt ∧ fields.names.all (fun n => !serverManaged n) = true then
    some ⟨⟨entityName, h.1⟩, id, ⟨version, h.2.1⟩, createdAt, updatedAt, ⟨createdVia, h.2.2.1⟩, fields,
      h.2.2.2.1, h.2.2.2.2⟩
  else none

/-- `_decode_record` and `_record`. -/
def decodeRecord (b : StorageBackend) (s : RecordSpecification) (r : RecordRow) : Option RecordValue := do
  let fields ← decodeFields b s r.entityName r.cells
  if r.recordVersion ≤ MAX_REVISION then
    buildRecord r.entityName r.id r.recordVersion r.createdAt r.updatedAt r.createdVia fields
  else none

/-- `_require_references`; a relationship leads to the id of its target. -/
def references (s : RecordSpecification) (principalId : String) (entityName : String)
    (fields : FrozenJsonObject) (x : Content) : Bool :=
  s.relationships.all fun rel =>
    rel.sourceEntity ≠ entityName ||
      match fields.get? rel.sourceField with
      | some (.str id) => x.records.rows.any fun r =>
          r.entityName = rel.targetEntity && r.ownerId = principalId && r.id.text = id
      | some .null => true
      | some _ => false
      | none => true

/-- `validate_create` and `_normalise_fields` of what a command gives. -/
def acceptFields (s : RecordSpecification) (entityName : String) (o : FrozenJsonObject) :
    Option FrozenJsonObject :=
  if validateCreate s entityName o then normaliseFields s entityName o else none

/-- `merged.update(updates)`. -/
def mergeFields (before updates : FrozenJsonObject) : Option FrozenJsonObject :=
  FrozenJsonObject.fromMapping
    (before.entries.map (fun p => (p.1, (updates.get? p.1).getD p.2)) ++
      updates.entries.filter fun p => !before.names.contains p.1)

/-- The document that a snapshot is stored as. -/
def snapshot (b : StorageBackend) (o : FrozenJsonObject) : List Char := storeJson b o.value

/-- `_append_history`. -/
def appendEvent (b : StorageBackend) (principalId : String) (v : RecordValue) (kind : HistoryKind)
    (before after : Option FrozenJsonObject) (now : Instant) (x : Content) : Except DataFailureCode Content :=
  require .constraintViolation (x.appendHistory ⟨principalId, v.entityName.1, v.recordId, v.recordVersion.1, kind,
    before.map (snapshot b), after.map (snapshot b), now⟩)

/-- `_insert_record`. -/
def insertRecord (b : StorageBackend) (s : RecordSpecification) (principalId : String) (v : RecordValue)
    (x : Content) : Except DataFailureCode Content := do
  let e ← require .internalError (s.entity v.entityName.1)
  let cells ← require .internalError (encodeFields b e v.fields)
  require .constraintViolation (x.insertRow ⟨v.entityName.1, v.recordId, principalId, v.createdAt, v.updatedAt,
    v.createdVia.1, v.recordVersion.1, cells⟩)

/-- The body of `create_record`. -/
def createRecord (b : StorageBackend) (s : RecordSpecification) (caller : Caller) (t : Readings)
    (c : CreateRecordCommand) (x : Content) : Except DataFailureCode (Content × Result) := do
  let record ← require .validationFailed (acceptFields s c.entityName.1 c.record)
  let value ← require .internalError
    (buildRecord c.entityName.1 t.newId 1 t.now t.now caller.createdVia record)
  check .constraintViolation (references s caller.principalId c.entityName.1 record x)
  let x ← insertRecord b s caller.principalId value x
  let x ← appendEvent b caller.principalId value .create none (some record) t.now x
  return (x, .record value)

/-- `_select_record`, of a record that must be there at the version expected. -/
def selectRecord (b : StorageBackend) (s : RecordSpecification) (principalId entityName : String) (id : Uuid)
    (expected : ℕ) (x : Content) : Except DataFailureCode RecordValue := do
  let row ← require .notFound (x.recordRow principalId entityName id)
  let before ← require .storageUnavailable (decodeRecord b s row)
  check .staleRecordVersion (before.recordVersion.1 = expected)
  return before

/-- The body of `update_record`. -/
def updateRecord (b : StorageBackend) (s : RecordSpecification) (caller : Caller) (t : Readings)
    (c : UpdateRecordCommand) (x : Content) : Except DataFailureCode (Content × Result) := do
  check .validationFailed (c.expectedRecordVersion.1 < MAX_REVISION && validateUpdates s c.entityName.1 c.updates)
  let before ← selectRecord b s caller.principalId c.entityName.1 c.recordId c.expectedRecordVersion.1 x
  let fields ← require .validationFailed
    ((mergeFields before.fields c.updates).bind (acceptFields s c.entityName.1))
  check .constraintViolation (references s caller.principalId c.entityName.1 fields x)
  let after ← require .internalError (buildRecord before.entityName.1 before.recordId
    (before.recordVersion.1 + 1) before.createdAt t.now before.createdVia.1 fields)
  let e ← require .internalError (s.entity after.entityName.1)
  let cells ← require .internalError (encodeFields b e after.fields)
  let x ← require .staleRecordVersion (x.updateRow caller.principalId after.entityName.1 after.recordId
    before.recordVersion.1 after.recordVersion.1 after.updatedAt (some cells))
  let x ← appendEvent b caller.principalId after .update (some before.fields) (some after.fields) t.now x
  return (x, .record after)

/-- The body of `delete_record`. -/
def deleteRecord (b : StorageBackend) (s : RecordSpecification) (caller : Caller) (t : Readings)
    (c : DeleteRecordCommand) (x : Content) : Except DataFailureCode (Content × Result) := do
  check .validationFailed (c.expectedRecordVersion.1 < MAX_REVISION)
  let before ← selectRecord b s caller.principalId c.entityName.1 c.recordId c.expectedRecordVersion.1 x
  let x := x.clearMemberships (caller.principalId, c.entityName.1, c.recordId) fun _ => true
  let x ← require .staleRecordVersion
    (x.deleteRow caller.principalId c.entityName.1 c.recordId before.recordVersion.1)
  let terminal ← require .internalError (buildRecord before.entityName.1 before.recordId
    (before.recordVersion.1 + 1) before.createdAt t.now before.createdVia.1 before.fields)
  let x ← appendEvent b caller.principalId terminal .delete (some before.fields) none t.now x
  return (x, .deleted c.entityName.1 c.recordId (before.recordVersion.1 + 1))

/-! ## Branches -/

/-- `_branch_row`. -/
def branchRow (principalId : String) (id : Uuid) (x : Content) : Option BranchRow :=
  (x.branches.find? id).filter fun r => r.principalId = principalId

/-- `_has_ancestor`, in so many steps; a branch met again counts as one. -/
def hasAncestor (principalId : String) (sought : Uuid) (x : Content) : ℕ → List Uuid → Option Uuid → Bool
  | _, _, none => false
  | 0, _, some _ => true
  | fuel + 1, seen, some current =>
    if current = sought ∨ current ∈ seen then true
    else
      match branchRow principalId current x with
      | none => false
      | some r => hasAncestor principalId sought x fuel (current :: seen) r.value.parentBranchId

/-- `BranchValue(...)`: the order of its times is what is left to check. -/
def buildBranch (id : Uuid) (slug : { s : String // requireSlug s = true })
    (title : { s : String // requireText s 160 = true }) (intent : { s : String // requireText s 1000 = true })
    (branchType : Option { s : String // requireBranchType s = true }) (parent : Option Uuid)
    (status : BranchStatus) (summary : Option { s : String // requireText s 1000 = true })
    (createdAt updatedAt : Instant) (revision : Revision) : Option BranchValue :=
  if h : ¬ updatedAt.before createdAt then
    some ⟨id, slug, title, intent, branchType, parent, status, summary, createdAt, updatedAt, revision, h⟩
  else none

/-- The body of `create_branch`; a principal has a slug once. -/
def createBranch (caller : Caller) (t : Readings) (c : CreateBranchCommand) (x : Content) :
    Except DataFailureCode (Content × Result) := do
  check .notFound (c.parentBranchId.all fun p => (branchRow caller.principalId p x).isSome)
  let branch ← require .internalError (buildBranch t.newId c.slug c.title c.intent c.branchType
    c.parentBranchId .active c.retrievalSummary t.now t.now .first)
  check .alreadyExists
    (x.branches.rows.all fun r => r.principalId ≠ caller.principalId || r.value.slug ≠ branch.slug)
  let branches ← require .alreadyExists (x.branches.insert ⟨caller.principalId, branch⟩)
  return ({ x with branches }, .branch branch)

/-- The body of `update_branch`. -/
def updateBranch (caller : Caller) (t : Readings) (c : UpdateBranchCommand) (x : Content) :
    Except DataFailureCode (Content × Result) := do
  check .validationFailed (c.expectedBranchRevision.1 < MAX_REVISION)
  let row ← require .notFound (branchRow caller.principalId c.branchId x)
  let current := row.value
  check .staleBranchRevision (current.branchRevision.1 = c.expectedBranchRevision.1)
  let parent := c.updates.parentBranchId.getD current.parentBranchId
  check .constraintViolation (parent ≠ some current.branchId)
  check .notFound (parent.all fun p => (branchRow caller.principalId p x).isSome)
  check .constraintViolation
    (!hasAncestor caller.principalId current.branchId x (x.branches.rows.length + 1) [] parent)
  let title := c.updates.title.getD current.title
  let intent := c.updates.intent.getD current.intent
  let branchType := c.updates.branchType.getD current.branchType
  let status := c.updates.status.getD current.status
  let summary := c.updates.retrievalSummary.getD current.retrievalSummary
  if title = current.title ∧ intent = current.intent ∧ branchType = current.branchType ∧
      parent = current.parentBranchId ∧ status = current.status ∧ summary = current.retrievalSummary then
    return (x, .branch current)
  else
    let next ← require .internalError (buildBranch current.branchId current.slug title intent branchType parent
      status summary current.createdAt t.now ⟨current.branchRevision.1 + 1, Nat.le_add_left ..⟩)
    return ({ x with branches := x.branches.set ⟨caller.principalId, next⟩ }, .branch next)

/-! ## Assignments -/

/-- The kind of event that the end of a membership is. -/
def unassignKind : BranchRole → HistoryKind
  | .primary => .primaryUnassign
  | .related => .relatedUnassign

/-- `_apply_mapping`: what has become of the memberships, and the kind of
the event where something has. -/
def applyMapping (branchId : Uuid) (role : BranchRole) (operation : AssignmentOperation) (k : RecordIdentity)
    (now : Instant) (x : Content) : Option (Content × Option HistoryKind) :=
  let mapping := (x.memberships.find? (k, branchId)).map (·.role)
  let row : MembershipRow := ⟨k.1, k.2.1, k.2.2, branchId, role, now⟩
  match operation, role with
  | .unassign, role =>
    if mapping ≠ some role then some (x, none)
    else some (x.clearMemberships k fun m => m.branchId = branchId, some (unassignKind role))
  | .assign, .related =>
    if mapping.isSome then some (x, none)
    else (x.insertMembership row).map fun y => (y, some .relatedAssign)
  | .assign, .primary =>
    if mapping = some .primary then some (x, none)
    else
      let previous := (x.membershipsOf k).any fun m => m.role = .primary
      -- the branch's own membership goes, and the primary one wherever it is
      let cleared := x.clearMemberships k fun m => decide (m.branchId = branchId) || decide (m.role = .primary)
      (cleared.insertMembership row).map fun y => (y, some (if previous then .primaryMove else .primaryAssign))

/-- What is checked of a target before any membership changes. -/
def checkTarget (b : StorageBackend) (s : RecordSpecification) (principalId : String) (x : Content)
    (target : BranchAssignmentTarget) : Except DataFailureCode FrozenJsonObject := do
  let row ← require .notFound (x.recordRow principalId target.entityName.1 target.recordId)
  check .staleRecordVersion (row.recordVersion = target.expectedRecordVersion.1)
  require .internalError (recordFields b s target.entityName.1 row.cells)

/-- A target of an assignment, its record's fields known. -/
def assignTarget (b : StorageBackend) (caller : Caller) (t : Readings) (c : AssignBranchRecordsCommand)
    (target : BranchAssignmentTarget) (fields : FrozenJsonObject) (x : Content) :
    Except DataFailureCode (Content × (String × Uuid × ℕ)) := do
  let k : RecordIdentity := (caller.principalId, target.entityName.1, target.recordId)
  let (x, changed) ← require .constraintViolation (applyMapping c.branchId c.role c.operation k t.now x)
  match changed with
  | none => return (x, target.entityName.1, target.recordId, target.expectedRecordVersion.1)
  | some kind =>
    let version := target.expectedRecordVersion.1 + 1
    let x ← require .staleRecordVersion (x.updateRow caller.principalId target.entityName.1 target.recordId
      target.expectedRecordVersion.1 version t.now none)
    let x ← require .constraintViolation (x.appendHistory ⟨caller.principalId, target.entityName.1,
      target.recordId, version, kind, some (snapshot b fields), some (snapshot b fields), t.now⟩)
    return (x, target.entityName.1, target.recordId, version)

/-- The targets of an assignment, one after the other. -/
def assignTargets (b : StorageBackend) (caller : Caller) (t : Readings) (c : AssignBranchRecordsCommand) :
    List (BranchAssignmentTarget × FrozenJsonObject) → Content →
      Except DataFailureCode (Content × List (String × Uuid × ℕ))
  | [], x => .ok (x, [])
  | (target, fields) :: rest, x => do
    let (x, ref) ← assignTarget b caller t c target fields x
    let (x, refs) ← assignTargets b caller t c rest x
    return (x, ref :: refs)

/-- The fields of every target's record. -/
def checkTargets (b : StorageBackend) (s : RecordSpecification) (principalId : String) (x : Content) :
    List BranchAssignmentTarget → Except DataFailureCode (List (BranchAssignmentTarget × FrozenJsonObject))
  | [] => .ok []
  | target :: rest => do
    let fields ← checkTarget b s principalId x target
    let checked ← checkTargets b s principalId x rest
    return (target, fields) :: checked

/-- The body of `assign_records`. -/
def assignRecords (b : StorageBackend) (s : RecordSpecification) (caller : Caller) (t : Readings)
    (c : AssignBranchRecordsCommand) (x : Content) : Except DataFailureCode (Content × Result) := do
  check .validationFailed (c.targets.all fun target => (s.entity target.entityName.1).isSome)
  check .validationFailed (c.targets.all fun target => target.expectedRecordVersion.1 < MAX_REVISION)
  let branch ← require .notFound (branchRow caller.principalId c.branchId x)
  check .constraintViolation (c.operation = .unassign || branch.value.status = .active)
  let checked ← checkTargets b s caller.principalId x c.targets
  let (x, refs) ← assignTargets b caller t c checked x
  return (x, .assignment refs)

/-! ## Every operation -/

/-- The operation of a command. -/
def operate (b : StorageBackend) (s : RecordSpecification) (caller : Caller) (t : Readings) (x : Content) :
    Command → Except DataFailureCode (Content × Result)
  | .createRecord c => createRecord b s caller t c x
  | .updateRecord c => updateRecord b s caller t c x
  | .deleteRecord c => deleteRecord b s caller t c x
  | .createBranch c => createBranch caller t c x
  | .updateBranch c => updateBranch caller t c x
  | .assignBranchRecords c => assignRecords b s caller t c x

end Data

end Aipcs

import Aipcs.Records.Specification
import Aipcs.Registry.Service
import Aipcs.Store.Fence
import Mathlib.Data.Prod.Lex

/-!
# Records — stored values and the members of a store

The values a service store holds: records, history events, branches and
memberships, each with the checks of its constructor. A store's content
is a list of them in one canonical order; `validatePortableMembers` asks
that the list is a whole store: versions without gaps, a current record
for every history that has not ended, branches without cycles.
-/

namespace Aipcs

namespace Records

open Manifest Portable

/-! ## Values -/

/-- `_require_text`. -/
def requireText (s : String) (maximum : ℕ) : Bool :=
  s ≠ "" && s.length ≤ maximum && !s.toList.contains '\x00'

/-- `_require_slug`. -/
def requireSlug (s : String) : Bool :=
  let word := fun c : Char => ('a' ≤ c && c ≤ 'z') || ('0' ≤ c && c ≤ '9')
  let cs := s.toList
  3 ≤ cs.length && cs.length ≤ 64 && cs.head?.any (fun c => 'a' ≤ c && c ≤ 'z') &&
    cs.getLast?.any word && cs.all fun c => word c || c = '-'

/-- `_require_optional_branch_type`, of a text. -/
def requireBranchType (s : String) : Bool :=
  match s.toList with
  | [] => false
  | c :: rest => 'a' ≤ c && c ≤ 'z' && rest.length ≤ 79 &&
      rest.all fun c => ('a' ≤ c && c ≤ 'z') || ('0' ≤ c && c ≤ '9') || c = '_' || c = '-'

/-- A name that `_require_entity` lets pass. -/
abbrev EntityName : Type := { s : String // isIdentifier s = true }

/-- A revision that `_require_revision` lets pass. -/
abbrev Revision : Type := { n : ℕ // 1 ≤ n }

abbrev Revision.first : Revision := ⟨1, le_rfl⟩

structure RecordValue where
  entityName : EntityName
  recordId : Uuid
  recordVersion : Revision
  createdAt : Instant
  updatedAt : Instant
  createdVia : { s : String // requireText s 128 = true }
  fields : FrozenJsonObject
  ordered : ¬ updatedAt.before createdAt
  domain : fields.names.all (fun n => !serverManaged n) = true

inductive HistoryKind where
  | create
  | update
  | delete
  | primaryAssign
  | primaryMove
  | primaryUnassign
  | relatedAssign
  | relatedUnassign
deriving DecidableEq

/-- The kind's text. -/
def HistoryKind.value : HistoryKind → String
  | .create => "create"
  | .update => "update"
  | .delete => "delete"
  | .primaryAssign => "primary_assign"
  | .primaryMove => "primary_move"
  | .primaryUnassign => "primary_unassign"
  | .relatedAssign => "related_assign"
  | .relatedUnassign => "related_unassign"

structure RecordHistoryEvent where
  entityName : EntityName
  recordId : Uuid
  recordVersion : Revision
  kind : HistoryKind
  occurredAt : Instant
  before : Option FrozenJsonObject
  after : Option FrozenJsonObject
  created : kind = .create → before = none ∧ after.isSome = true
  deleted : kind = .delete → before.isSome = true ∧ after = none

inductive BranchStatus where
  | active
  | archived
  | superseded
deriving DecidableEq

def BranchStatus.value : BranchStatus → String
  | .active => "active"
  | .archived => "archived"
  | .superseded => "superseded"

structure BranchValue where
  branchId : Uuid
  slug : { s : String // requireSlug s = true }
  title : { s : String // requireText s 160 = true }
  intent : { s : String // requireText s 1000 = true }
  branchType : Option { s : String // requireBranchType s = true }
  parentBranchId : Option Uuid
  status : BranchStatus
  retrievalSummary : Option { s : String // requireText s 1000 = true }
  createdAt : Instant
  updatedAt : Instant
  branchRevision : Revision
  ordered : ¬ updatedAt.before createdAt

inductive BranchRole where
  | primary
  | related
deriving DecidableEq

def BranchRole.value : BranchRole → String
  | .primary => "primary"
  | .related => "related"

/-- `BranchMembership`; its name is only bounded. -/
structure BranchMembership where
  branchId : Uuid
  entityName : { s : String // s ≠ "" ∧ s.length ≤ 64 }
  recordId : Uuid
  role : BranchRole
deriving DecidableEq

/-! ## Members -/

/-- `PortableStoreMember`. -/
inductive PortableStoreMember where
  | record (value : RecordValue)
  | history (value : RecordHistoryEvent)
  | branch (value : BranchValue)
  | branchMembership (value : BranchMembership)

namespace PortableStoreMember

/-- `member.kind`. -/
def kind : PortableStoreMember → SectionKind
  | .record _ => .record
  | .history _ => .history
  | .branch _ => .branch
  | .branchMembership _ => .branchMembership

/-- A key of the canonical order: the section, up to three texts, a
number and a text, compared in turn. -/
abbrev SortKey : Type := ℕ ×ₗ String ×ₗ String ×ₗ String ×ₗ ℕ ×ₗ String

/-- `portable_member_sort_key`; what a section does not use is left blank. -/
def sortKey : PortableStoreMember → SortKey
  | .record v => toLex (0, toLex (v.entityName.1, toLex (v.recordId.hex, toLex ("", toLex (0, "")))))
  | .history v =>
    toLex (1, toLex (v.entityName.1, toLex (v.recordId.hex, toLex ("", toLex (v.recordVersion.1, "")))))
  | .branch v => toLex (2, toLex (v.branchId.hex, toLex ("", toLex ("", toLex (0, "")))))
  | .branchMembership v => toLex (3, toLex (v.branchId.hex, toLex (v.entityName.1,
      toLex (v.recordId.hex, toLex (0, v.role.value)))))

end PortableStoreMember

/-- Records are told apart by these. -/
abbrev Identity : Type := String × Uuid

def RecordValue.identity (v : RecordValue) : Identity := (v.entityName.1, v.recordId)
def RecordHistoryEvent.identity (v : RecordHistoryEvent) : Identity := (v.entityName.1, v.recordId)
def BranchMembership.identity (v : BranchMembership) : Identity := (v.entityName.1, v.recordId)

section members

variable (members : List PortableStoreMember)

def recordsOf : List RecordValue := members.filterMap fun
  | .record v => some v
  | _ => none

def historiesOf : List RecordHistoryEvent := members.filterMap fun
  | .history v => some v
  | _ => none

def branchesOf : List BranchValue := members.filterMap fun
  | .branch v => some v
  | _ => none

def membershipsOf : List BranchMembership := members.filterMap fun
  | .branchMembership v => some v
  | _ => none

end members

/-! ## A whole store -/

def MAX_STORE_MEMBERS : ℕ := 1000000 - 3

/-- A snapshot that an event carries. -/
def validSnapshot (s : RecordSpecification) (entityName : String) (o : Option FrozenJsonObject) : Bool :=
  o.all (validateCreate s entityName)

/-- One member by itself. -/
def validMember (s : RecordSpecification) : PortableStoreMember → Bool
  | .record v => validateCreate s v.entityName.1 v.fields
  | .history v => (s.entity v.entityName.1).isSome && validSnapshot s v.entityName.1 v.before &&
      validSnapshot s v.entityName.1 v.after
  | _ => true

/-- The events of one identity, and its current record. -/
def validHistory (current : Option RecordValue) (events : List RecordHistoryEvent) : Bool :=
  events.map (fun h => h.recordVersion.1) = List.range' 1 events.length &&
    events.head?.any (fun h => h.kind = .create) && events.tail.all (fun h => h.kind ≠ .create) &&
    events.dropLast.all (fun h => h.kind ≠ .delete) &&
    events.getLast?.any fun last =>
      decide (last.kind = .delete) = current.isNone &&
        current.all fun v => v.recordVersion = last.recordVersion

/-- The walk to a branch's ancestors ends, within so many steps. -/
def ancestryEnds (branches : List BranchValue) (branch : Uuid) : ℕ → List Uuid → Option Uuid → Bool
  | _, _, none => true
  | 0, _, some _ => false
  | fuel + 1, seen, some parent =>
    if parent ∈ seen ∨ parent = branch then false
    else
      match branches.find? fun b => b.branchId = parent with
      | some b => ancestryEnds branches branch fuel (parent :: seen) b.parentBranchId
      | none => false

/-- `validate_portable_members`. -/
def validatePortableMembers (members : List PortableStoreMember) (s : RecordSpecification) : Bool :=
  let records := recordsOf members
  let histories := historiesOf members
  let branches := branchesOf members
  let memberships := membershipsOf members
  members.length ≤ MAX_STORE_MEMBERS &&
    decide ((members.map (·.sortKey)).Pairwise (· < ·)) &&
    members.all (validMember s) &&
    histories.all (fun h =>
      validHistory (records.find? fun v => v.identity = h.identity)
        (histories.filter fun x => x.identity = h.identity)) &&
    records.all (fun v => histories.any fun h => h.identity = v.identity) &&
    branches.all (fun b => ancestryEnds branches b.branchId (branches.length + 1) [] b.parentBranchId) &&
    memberships.all (fun m => branches.any (fun b => b.branchId = m.branchId) &&
      records.any fun v => v.identity = m.identity) &&
    decide ((memberships.map fun m => (m.branchId, m.identity)).Nodup) &&
    decide (((memberships.filter fun m => m.role = .primary).map (·.identity)).Nodup)

end Records

end Aipcs

import Aipcs.Common.Sessions
import Aipcs.Store.Barrier

/-!
# Service store — mutations and their replays

`_mutate` of the two data stores as a program over its statements: an
attempt, the observation of what an attempt of unknown outcome has left,
and both once more. The world is the content of a service's store, the
replay rows, the fence and the transactions under way; a commit that fails
may have taken effect. What has taken effect is kept as history, which the
code does not see.
-/

namespace Aipcs

namespace Store

namespace Mutating

open Registry Program Barrier

/-! ## Mutations and outcomes -/

/-- `operation_kind` of a replay row. -/
inductive MutationKind where
  | createRecord
  | updateRecord
  | deleteRecord
  | createBranch
  | updateBranch
  | assignBranchRecords
deriving DecidableEq

/-- Is the mutation one of the branch topology? -/
def MutationKind.topology : MutationKind → Bool
  | .createBranch | .updateBranch | .assignBranchRecords => true
  | _ => false

/-- `DataFailureCode`. -/
inductive DataFailureCode where
  | validationFailed
  | notFound
  | alreadyExists
  | changedFingerprint
  | staleRecordVersion
  | staleBranchRevision
  | constraintViolation
  | storageMigrationRequired
  | storageBusy
  | operationUncertain
  | storageUnavailable
  | writeAdmissionClosed
  | internalError
deriving DecidableEq

/-- A mutation: what its replay row is found by and compared with, and
which stored results decode under its specification. -/
structure Mutation where
  identity : MutationIdentity
  operationKind : MutationKind
  fingerprint : String
  decodes : String → Bool

/-- A row of `aipcs_mutation`. -/
structure Replay where
  operationKind : MutationKind
  fingerprint : String
  resultJson : String
deriving DecidableEq

/-- The row is one of the mutation. -/
def Replay.IsOf (r : Replay) (c : Mutation) : Prop :=
  r.operationKind = c.operationKind ∧ r.fingerprint = c.fingerprint

instance (r : Replay) (c : Mutation) : Decidable (r.IsOf c) := inferInstanceAs (Decidable (_ ∧ _))

/-- What a caller is answered. A success is known by the text of its result,
from which it is decoded where it is replayed. -/
inductive Outcome where
  | success (resultJson : String) (replayed : Bool)
  | failure (code : DataFailureCode)
deriving DecidableEq

/-- What a statement may raise, as `_mutate_once` tells it apart. -/
inductive StoreError where
  | constraintViolation
  | migration
  | busy
  | integrity
  | database (contended : Bool)
  | unavailable
  | other
deriving DecidableEq

/-- The failure each error is answered as. -/
def StoreError.code : StoreError → DataFailureCode
  | .constraintViolation => .constraintViolation
  | .migration => .storageMigrationRequired
  | .busy => .storageBusy
  | .integrity => .constraintViolation
  | .database contended => if contended then .storageBusy else .storageUnavailable
  | .unavailable => .storageUnavailable
  | .other => .internalError

/-! ## Statements -/

variable {Content : Type}

/-- What an operation has written and not committed. -/
structure Staged (Content : Type) where
  change : Content → Content
  resultJson : String

/-- The statements of an attempt, and an observation. -/
inductive Call (Content : Type) where
  | begin_
  | readFence
  | lockIdempotency (c : Mutation)
  | mutationRow (c : Mutation)
  | operate (c : Mutation)
  | commit (c : Mutation) (staged : Option (Staged Content))
  | rollback
  | observe (c : Mutation)

/-- What each answers. An operation may also refuse. -/
def Call.Reply : Call Content → Type
  | .begin_ => Except StoreError Unit
  | .readFence => Except StoreError FenceState
  | .lockIdempotency _ => Except StoreError Unit
  | .mutationRow _ => Except StoreError (Option Replay)
  | .operate _ => Except StoreError (Except DataFailureCode (Staged Content))
  | .commit _ _ => Bool
  | .rollback => Unit
  | .observe _ => Except StoreError (Option Replay)

abbrev Run (Content : Type) (α : Type) : Type := Program (E := Call Content) Call.Reply α

/-- The checks of the store, and `BEGIN IMMEDIATE` or `BEGIN`. -/
def begin_ : Run Content (Except StoreError Unit) := perform (Call.begin_ : Call Content)

/-- `_write_admission_open`. -/
def readFence : Run Content (Except StoreError FenceState) := perform (Call.readFence : Call Content)

/-- `_lock_idempotency`. -/
def lockIdempotency (c : Mutation) : Run Content (Except StoreError Unit) :=
  perform (Call.lockIdempotency c : Call Content)

/-- `_mutation_row`. -/
def mutationRow (c : Mutation) : Run Content (Except StoreError (Option Replay)) :=
  perform (Call.mutationRow c : Call Content)

/-- The body of an operation past its replay, its completion row with it. -/
def operate (c : Mutation) : Run Content (Except StoreError (Except DataFailureCode (Staged Content))) :=
  perform (Call.operate c : Call Content)

/-- `_commit`: does it return? -/
def commit (c : Mutation) (staged : Option (Staged Content)) : Run Content Bool :=
  perform (Call.commit c staged : Call Content)

/-- The transaction is rolled back and its connection closed. -/
def rollback : Run Content Unit := perform (Call.rollback : Call Content)

/-- The read-only transaction of an observation. -/
def readReplay (c : Mutation) : Run Content (Except StoreError (Option Replay)) :=
  perform (Call.observe c : Call Content)

/-! ## Attempts -/

/-- The attempt is answered as a failure. -/
def refuses (code : DataFailureCode) : Run Content (Option Outcome) := do
  let _ ← rollback
  pure (some (.failure code))

/-- What a stored result that does not decode is answered as. -/
def undecodable (kind : MutationKind) : DataFailureCode :=
  if kind.topology then .internalError else .storageUnavailable

/-- The attempt is committed; nothing is known of a commit that does not return. -/
def finishes (c : Mutation) (staged : Option (Staged Content)) (out : Outcome) :
    Run Content (Option Outcome) := do
  let returned ← commit c staged
  pure (if returned then some out else none)

/-- `_record_replay`, `_delete_replay`, `_branch_replay` and
`_assignment_replay`, over the row they have found. -/
def replayRow (c : Mutation) (row : Replay) : Run Content (Option Outcome) :=
  if ¬ row.IsOf c then refuses .changedFingerprint
  else if c.decodes row.resultJson then finishes c none (.success row.resultJson true)
  else refuses (undecodable c.operationKind)

/-- The operation of an attempt, and its end. -/
def operation (c : Mutation) : Run Content (Option Outcome) := do
  match ← mutationRow c with
  | .error error => refuses error.code
  | .ok (some row) => replayRow c row
  | .ok none =>
    match ← operate c with
    | .error error => refuses error.code
    | .ok (.error code) => refuses code
    | .ok (.ok staged) => finishes c (some staged) (.success staged.resultJson false)

/-- The lock of an attempt, which SQLite has no need of. -/
def secure (adapter : StorageBackend) (c : Mutation) : Run Content (Except StoreError Unit) :=
  if adapter = .postgresql then lockIdempotency c else pure (.ok ())

/-- `_mutate_once`; nothing for an uncertain mutation. -/
def mutateOnce (adapter : StorageBackend) (c : Mutation) : Run Content (Option Outcome) := do
  match ← begin_ with
  | .error error => pure (some (.failure error.code))
  | .ok () =>
    match ← readFence with
    | .error error => refuses error.code
    | .ok .closed => refuses .writeAdmissionClosed
    | .ok .open_ =>
      match ← secure adapter c with
      | .error error => refuses error.code
      | .ok () => operation c

/-! ## Observations -/

/-- What SQLite's `_observe_completed` makes of the row: a row that is not
the mutation's, or does not decode, is trusted as little as an error. -/
def observeCompleted (c : Mutation) : Except StoreError (Option Replay) → Option Outcome
  | .error _ => some (.failure .operationUncertain)
  | .ok none => none
  | .ok (some row) =>
    if row.IsOf c ∧ c.decodes row.resultJson then some (.success row.resultJson true)
    else some (.failure .operationUncertain)

/-- What PostgreSQL's `_observe` makes of it: nothing, where it is not the
mutation's own result. -/
def observe (c : Mutation) : Except StoreError (Option Replay) → Option Outcome
  | .ok (some row) =>
    if row.IsOf c ∧ c.decodes row.resultJson then some (.success row.resultJson true) else none
  | _ => none

/-- What an adapter's observation comes to. -/
def observation (adapter : StorageBackend) (c : Mutation) (r : Except StoreError (Option Replay)) :
    Option Outcome :=
  if adapter = .postgresql then observe c r else observeCompleted c r

/-- `_observe_completed` and `_observe`. -/
def observes (adapter : StorageBackend) (c : Mutation) : Run Content (Option Outcome) := do
  let r ← readReplay c
  pure (observation adapter c r)

/-- `_mutate`. -/
def mutate (adapter : StorageBackend) (c : Mutation) : Run Content Outcome := do
  match ← mutateOnce adapter c with
  | some out => pure out
  | none =>
    match ← observes adapter c with
    | some out => pure out
    | none =>
      match ← mutateOnce adapter c with
      | some out => pure out
      | none =>
        let seen ← observes adapter c
        pure (seen.getD (.failure .operationUncertain))

/-! ## The store -/

/-- A mutation that has taken effect, and the session that made it. -/
structure Application (Content : Type) where
  session : ℕ
  identity : MutationIdentity
  replay : Replay
  change : Content → Content

/-- A transaction of a session: over, or under way, perhaps with an advisory lock. -/
inductive Txn where
  | over
  | open_ (lock : Option ℤ)
deriving DecidableEq

/-- A service's store, and what has taken effect in it. -/
structure World (Content : Type) where
  content : Content
  replays : MutationIdentity → Option Replay
  fence : FenceState
  txns : ℕ → Txn
  applied : List (Application Content)

namespace World

variable (w : World Content)

/-- A session's transaction goes on. -/
def move (n : ℕ) (t : Txn) : World Content := { w with txns := Function.update w.txns n t }

/-- What is staged takes effect. -/
def apply (n : ℕ) (c : Mutation) (x : Staged Content) : World Content :=
  { w with
    content := x.change w.content
    replays := Function.update w.replays c.identity (some ⟨c.operationKind, c.fingerprint, x.resultJson⟩)
    applied := w.applied ++ [⟨n, c.identity, ⟨c.operationKind, c.fingerprint, x.resultJson⟩, x.change⟩] }

/-- A commit that takes effect. -/
def commit (n : ℕ) (c : Mutation) (staged : Option (Staged Content)) : World Content :=
  (staged.elim w (w.apply n c)).move n .over

end World

/-- What may happen between two statements: transactions break off, and the
fence is changed, with SQLite only while no other transaction is under way. -/
structure Meanwhile (adapter : StorageBackend) (w u : World Content) : Prop where
  content : u.content = w.content
  replays : u.replays = w.replays
  applied : u.applied = w.applied
  txns : ∀ n, u.txns n = w.txns n ∨ u.txns n = .over
  fence : adapter = .sqlite → (∃ n, u.txns n ≠ .over) → u.fence = w.fence

/-- The lock of a mutation, by the hash of its text. -/
def lockKey (hash : String → ℤ) (namespace_ : String) (m : MutationIdentity) : ℤ :=
  hash (idempotencyLockText namespace_ m)

/-- **A statement of a session served.** Any may raise. SQLite has one
writer at a time; PostgreSQL has the transactions that hold one lock wait
for each other, and refuses an observation that locks the row, as those of
the branch topology do, in a transaction that is read-only. -/
inductive Serve (adapter : StorageBackend) (hash : String → ℤ) (namespace_ : String) (n : ℕ) :
    World Content → (e : Call Content) → e.Reply → World Content → Prop
  | begins {w : World Content} : (adapter = .sqlite → ∀ m, w.txns m = .over) →
      Serve adapter hash namespace_ n w .begin_ (.ok ()) (w.move n (.open_ none))
  | beginRaises {w : World Content} (error : StoreError) :
      Serve adapter hash namespace_ n w .begin_ (.error error) (w.move n .over)
  | fenceRead {w : World Content} : w.txns n ≠ .over →
      Serve adapter hash namespace_ n w .readFence (.ok w.fence) w
  | fenceRaises {w : World Content} (error : StoreError) :
      Serve adapter hash namespace_ n w .readFence (.error error) w
  | locked {w : World Content} {c : Mutation} : w.txns n ≠ .over →
      (∀ m, m ≠ n → w.txns m ≠ .open_ (some (lockKey hash namespace_ c.identity))) →
      Serve adapter hash namespace_ n w (.lockIdempotency c) (.ok ())
        (w.move n (.open_ (some (lockKey hash namespace_ c.identity))))
  | lockRaises {w : World Content} {c : Mutation} (error : StoreError) :
      Serve adapter hash namespace_ n w (.lockIdempotency c) (.error error) w
  | rowRead {w : World Content} {c : Mutation} : w.txns n ≠ .over →
      Serve adapter hash namespace_ n w (.mutationRow c) (.ok (w.replays c.identity)) w
  | rowRaises {w : World Content} {c : Mutation} (error : StoreError) :
      Serve adapter hash namespace_ n w (.mutationRow c) (.error error) w
  | operated {w : World Content} {c : Mutation} (r : Except DataFailureCode (Staged Content)) :
      w.txns n ≠ .over → Serve adapter hash namespace_ n w (.operate c) (.ok r) w
  | operateRaises {w : World Content} {c : Mutation} (error : StoreError) :
      Serve adapter hash namespace_ n w (.operate c) (.error error) w
  | committed {w : World Content} {c : Mutation} {staged : Option (Staged Content)} (returned : Bool) :
      w.txns n ≠ .over → Serve adapter hash namespace_ n w (.commit c staged) returned (w.commit n c staged)
  | commitFails {w : World Content} {c : Mutation} {staged : Option (Staged Content)} :
      Serve adapter hash namespace_ n w (.commit c staged) false (w.move n .over)
  | rolledBack {w : World Content} : Serve adapter hash namespace_ n w .rollback () (w.move n .over)
  | observed {w : World Content} {c : Mutation} :
      ¬ (adapter = .postgresql ∧ c.operationKind.topology = true) →
      Serve adapter hash namespace_ n w (.observe c) (.ok (w.replays c.identity)) w
  | observeRaises {w : World Content} {c : Mutation} (error : StoreError) :
      Serve adapter hash namespace_ n w (.observe c) (.error error) w

/-- A statement served after whatever has happened meanwhile. -/
def Serves (adapter : StorageBackend) (hash : String → ℤ) (namespace_ : String) (n : ℕ)
    (w : World Content) (e : Call Content) (r : e.Reply) (w' : World Content) : Prop :=
  ∃ u, Meanwhile adapter w u ∧ Serve adapter hash namespace_ n u e r w'

/-- The mutations of a store, from one with this content and without replays. -/
def mutations (adapter : StorageBackend) (hash : String → ℤ) (namespace_ : String) (content : Content) :
    System (Sessions (World Content) (E := Call Content) Call.Reply Mutation Outcome)
      (ℕ × Sessions.Event (E := Call Content) Call.Reply Mutation) :=
  Sessions.serving (fun w => w.content = content ∧ w.applied = [] ∧ (∀ m, w.replays m = none) ∧
    ∀ n, w.txns n = .over) (mutate adapter) (Serves adapter hash namespace_)

end Mutating

end Store

end Aipcs

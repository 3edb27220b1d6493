import Aipcs.Common.System
import Aipcs.Registry.UnitOfWork
import Aipcs.Store.Fence

/-!
# Coordinator — runs over the registry and the service stores

A run of `PortableCoordinator.transition`, `export` or `purge` is a
sequence of steps, each one transaction of the registry or one call of a
service store. Between two steps any other run may take steps, and a run
may stop for good. What the environment decides is in the event of a
step: the clock's readings, and for a call whether it returns, raises
after its effect or raises without one. The bytes a run writes and the
content of a snapshot are not part of the state.
-/

namespace Aipcs

namespace Coordinator

open Registry Store

/-- How a call ends: it returns, raises after its effect, or raises without one. -/
inductive Fate where
  | done
  | unseen
  | lost
deriving DecidableEq

/-- Does a call that ends so have its effect? -/
def Fate.effective : Fate → Bool
  | .lost => false
  | _ => true

/-- The registry and the fence of each service's store, absent where
there is no store. -/
structure Shared where
  registry : Database
  stores : Uuid → Option WriteAdmissionFence

/-- The digest of a bundle's root. -/
abbrev Root : Type := { s : String // isSha256 s.toList = true }

/-- Where a run stands: what it is about to do, with the values it holds.
A run that has not begun, or that has returned or crashed, is `outside`. -/
inductive RunState where
  | outside
  | observing (c : OperationalLifecycleCommand) (s : Service) (target : FenceState)
  | changing (c : OperationalLifecycleCommand) (s : Service) (target : FenceState)
      (observed : WriteAdmissionFence)
  | rereading (c : OperationalLifecycleCommand) (s : Service) (target : FenceState)
  | finalizing (c : OperationalLifecycleCommand)
  | recovering (command : RegistryAuthorityCommand)
  | exportReading (request c : ExportCommand) (s : Service)
  | exportSnapshot (request c : ExportCommand) (s : Service) (fence : WriteAdmissionFence)
  | exportEncoding (request c : ExportCommand) (s : Service)
  | exportVerifying (request c : ExportCommand) (s : Service) (fence : WriteAdmissionFence)
      (root : Root) (at_ : Instant)
  | exportRechecking (request c : ExportCommand) (s : Service) (root : Root) (at_ : Instant)
  | exportCompleting (c : ExportCommand) (s : Service) (root : Root) (at_ : Instant)
  | purging (c : PurgeCommand) (s : Service)
  | removing (c : PurgeCommand) (s : Service)
  | checkingAbsent (c : PurgeCommand) (s : Service)
  | confirming (c : PurgeCommand) (s : Service)
  | finalizingPurge (c : PurgeCommand)

/-- How reading and encoding a snapshot ends. -/
inductive SnapshotOutcome where
  | encoded (root : Root) (at_ : Instant)
  | contractError
  | raised

/-- One step of a run, with what the environment decides about it. -/
inductive Event where
  | admission (request : RegistryAuthorityCommand) (now : Instant) (fate : Fate)
  | readFence (returns : Bool)
  | transitionFence (fate : Fate)
  | snapshot (outcome : SnapshotOutcome)
  | recheck (now : Instant) (returns : Bool)
  | complete (receiptId : Option Uuid) (fate : Fate)
  | checkStore (returns : Bool)
  | remove (fate : Fate)
  | isAbsent (returns : Bool)
  | finalize (at_ : Instant) (fate : Fate)
  | crash

/-- The fence that goes with a status: `"open" if target_status == "active"
else "closed"`. -/
def targetFence (status : OperationalStatus) : FenceState :=
  if status = .active then .open_ else .closed

/-! ## Admission -/

/-- `_admit`: the intent, the service it names and the registry, where
the command is admitted. -/
def admitted (d : Database) (request : RegistryAuthorityCommand) (now : Instant) :
    Option (RegistryAuthorityCommand × Service × Database) :=
  match d.resolveOrPrepare request now with
  | some (.prepared c, prepared) =>
    (prepared.service c.principalId c.serviceId).map fun s => (c, s, prepared)
  | _ => none

/-- A service whose store is not the coordinator's. -/
def foreign (backend : StorageBackend) (s : Service) : Bool := s.storage ≠ some backend

/-- What a run does first once it is admitted. -/
def firstStep (backend : StorageBackend) (request c : RegistryAuthorityCommand) (s : Service) :
    RunState :=
  match request, c with
  | .operational r, .operational o =>
    match transitionTargetStatus r.kind s.designState s.operationalStatus with
    | none => .recovering c
    | some target =>
      if s.designState ≠ .materialised then .finalizing o
      else if foreign backend s then .recovering c
      else .observing o s (targetFence target)
  | .export_ r, .export_ e =>
    if s.designState ≠ .materialised then .exportEncoding r e s
    else if foreign backend s then .recovering c
    else .exportReading r e s
  | .purge _, .purge p =>
    if s.designState ≠ .materialised then .finalizingPurge p
    else if foreign backend s || s.operationalStatus ≠ .archived then .recovering c
    else .purging p s
  | _, _ => .outside

/-! ## Terminal transactions -/

/-- The outcomes `_terminal` commits. -/
def committed : AuthorityOutcome → Bool
  | .completed _ _ => true
  | .recoveryRequired _ => true
  | _ => false

/-- `_terminal`, by the registry it leaves. -/
def terminal (g : Shared) (operation : Option (AuthorityOutcome × Database)) (fate : Fate) :
    Shared :=
  match operation with
  | some (outcome, ended) =>
    if committed outcome && fate.effective then { g with registry := ended } else g
  | none => g

/-- A call that leaves a service's store as told, unless it has no effect. -/
def storeCall (g : Shared) (id : Uuid) (left : Option WriteAdmissionFence) (fate : Fate) : Shared :=
  if fate.effective then { g with stores := Function.update g.stores id left } else g

/-- `_receipt` of an export. -/
def exportReceipt (backend : StorageBackend) (s : Service) (root : Root) (at_ : Instant)
    (receiptId : Uuid) : TransferReceipt where
  receiptId := receiptId
  kind := .export_
  principalId := s.principalId
  serviceId := s.serviceId
  bundleRootSha256 := root.1
  storageBackend := backend
  serviceRevision := s.serviceRevision
  operationalStatus := s.operationalStatus
  verification := .verified
  createdAt := at_
  root := root.2
  revision := s.revision

/-! ## Steps -/

/-- One step of a run. Events that do not fit where the run stands are no steps. -/
def advance (backend : StorageBackend) (g : Shared) : RunState → Event → Option (Shared × RunState)
  | _, .crash => some (g, .outside)
  | .outside, .admission request now fate =>
    if request.kind = .import_ then none
    else
      match admitted g.registry request now with
      | some (c, s, prepared) =>
        match fate with
        | .done => some ({ g with registry := prepared }, firstStep backend request c s)
        | .unseen => some ({ g with registry := prepared }, .outside)
        | .lost => some (g, .outside)
      | none => some (g, .outside)
  -- `transition`
  | .observing c s target, .readFence returns =>
    match g.stores s.serviceId with
    | some fence => some (g, if returns then .changing c s target fence else .outside)
    | none => some (g, .outside)
  | .changing c s target observed, .transitionFence fate =>
    match (g.stores s.serviceId).bind fun found => transitionFence found observed target with
    | some result =>
      some (storeCall g s.serviceId (some result.fence) fate,
        if fate ≠ .done then .rereading c s target
        else if result.fence.state ≠ target then .recovering (.operational c)
        else .finalizing c)
    | none => some (g, .rereading c s target)
  | .rereading c s target, .readFence returns =>
    match g.stores s.serviceId with
    | some fence =>
      some (g, if returns && fence.state = target then .finalizing c else .outside)
    | none => some (g, .outside)
  | .finalizing c, .finalize at_ fate =>
    some (terminal g (g.registry.finalizeOperational c at_) fate, .outside)
  | .recovering command, .finalize _ fate =>
    some (terminal g (g.registry.markRecoveryRequired command) fate, .outside)
  -- `export`
  | .exportReading r c s, .readFence returns =>
    match g.stores s.serviceId with
    | some fence =>
      some (g, if ¬ returns then .outside
        else if fence.state ≠ .closed then .recovering (.export_ c)
        else .exportSnapshot r c s fence)
    | none => some (g, .outside)
  | .exportSnapshot r c s fence, .snapshot outcome =>
    if g.stores s.serviceId ≠ some fence then some (g, .outside)
    else
      match outcome with
      | .encoded root at_ => some (g, .exportVerifying r c s fence root at_)
      | .contractError => some (g, .recovering (.export_ c))
      | .raised => some (g, .outside)
  | .exportEncoding r c s, .snapshot outcome =>
    match outcome with
    | .encoded root at_ => some (g, .exportRechecking r c s root at_)
    | .contractError => some (g, .recovering (.export_ c))
    | .raised => some (g, .outside)
  | .exportVerifying r c s fence root at_, .readFence returns =>
    match g.stores s.serviceId with
    | some found =>
      some (g, if ¬ returns then .outside
        else if found ≠ fence then .recovering (.export_ c)
        else .exportRechecking r c s root at_)
    | none => some (g, .outside)
  | .exportRechecking r c s root at_, .recheck now returns =>
    match g.registry.resolveOrPrepare (.export_ r) now with
    | some (outcome, resolved) =>
      some (g, if ¬ returns then .outside
        else if outcome = .prepared (.export_ c) ∧
          resolved.service r.principalId r.serviceId = some s then .exportCompleting c s root at_
        else .recovering (.export_ c))
    | none => some (g, .outside)
  | .exportCompleting c s root at_, .complete receiptId fate =>
    match receiptId with
    | some id =>
      some (terminal g (g.registry.completeExport c (exportReceipt backend s root at_ id)) fate,
        .outside)
    | none => some (g, .recovering (.export_ c))
  -- `purge`
  | .purging c s, .checkStore returns =>
    match g.stores s.serviceId with
    | some fence =>
      some (g, if returns && fence.state = .closed then .removing c s else .checkingAbsent c s)
    | none => some (g, if returns then .confirming c s else .checkingAbsent c s)
  | .removing c s, .remove fate =>
    some (storeCall g s.serviceId none fate, if fate = .done then .confirming c s else .checkingAbsent c s)
  | .checkingAbsent c s, .isAbsent returns =>
    some (g, if returns && (g.stores s.serviceId).isNone then .confirming c s else .outside)
  | .confirming c s, .isAbsent returns =>
    some (g, if returns && (g.stores s.serviceId).isNone then .finalizingPurge c else .outside)
  | .finalizingPurge c, .finalize at_ fate =>
    some (terminal g (g.registry.finalizePurge c at_) fate, .outside)
  | _, _ => none

/-- All runs, over one registry and its stores. -/
structure World extends Shared where
  runs : ℕ → RunState

/-- A run of the world takes a step. -/
def World.step (backend : StorageBackend) (w : World) (run : ℕ) (e : Event) : Option World :=
  (advance backend w.toShared (w.runs run) e).map fun r =>
    { r.1 with runs := Function.update w.runs run r.2 }

/-- A service whose fence and status agree. -/
def Agrees (s : Service) (store : Option WriteAdmissionFence) : Prop :=
  ∃ fence, store = some fence ∧ (fence.state = .open_ ↔ s.operationalStatus = .active)

/-- No claim keeps the service from another operation. -/
def Quiet (d : Database) (s : Service) : Prop :=
  ∀ r ∈ d.claims.rows, Database.blocks s.principalId s.serviceId r = false

/-- Nothing runs, no claim of the service is pending, and the service, if
it is materialised, agrees with its store. -/
structure World.Initial (id : Uuid) (w : World) : Prop where
  outside : ∀ run, w.runs run = .outside
  settled : ∀ r ∈ w.registry.claims.rows, r.serviceId = id → r.pending = false
  agrees : ∀ s ∈ w.registry.services.rows, s.serviceId = id → s.designState = .materialised →
    Agrees s (w.stores id)

/-- The coordinator's runs, from a state in which one service is settled. -/
def coordination (backend : StorageBackend) (id : Uuid) : System World (ℕ × Event) where
  init := World.Initial id
  step w l w' := w.step backend l.1 l.2 = some w'

end Coordinator

end Aipcs

import Aipcs.Common.Program
import Aipcs.Lifecycle.Recovery
import Aipcs.Registry.Lifecycle

/-!
# Lifecycle — the coordinator

`LifecycleCoordinator.execute` as a program over its calls. A registry
transaction is one call: what the transaction answers, and how it ends.
An adapter's answer is a value, a value of a wrong type or an error, and
nothing is assumed of the order they come in.
-/

namespace Aipcs

namespace Lifecycle

open Registry Relational Program

/-! ## Calls and replies -/

/-- What a call may raise. A transient journal is also an unavailable storage. -/
inductive StorageError where
  | busy
  | transientJournal
  | unavailable
  | migration
  | contract
  | other
deriving DecidableEq

inductive MigrationStatus where
  | uninitialised
  | outdated
  | ready
  | incompatible
  | dirty
deriving DecidableEq

/-- A `MigrationState`; `serviceStore` tells the component. -/
structure MigrationState where
  serviceStore : Bool
  status : MigrationStatus
deriving DecidableEq

/-- `DomainSchemaState.status`. -/
inductive DomainSchemaStatus where
  | unmaterialised
  | ready
  | incompatible
deriving DecidableEq

/-- A `StorageAdapterInfo`, by its backend and whether it supports service stores. -/
structure StorageAdapterInfo where
  backend : StorageBackend
  serviceStore : Bool
deriving DecidableEq

structure ServiceStoreLocator where
  backend : StorageBackend
  namespace_ : String
deriving DecidableEq

/-- How a call of an adapter ends. -/
inductive Answer (α : Type) where
  | value (a : α)
  | malformed
  | raised (error : StorageError)

/-- How a registry transaction ends: it or its unit of work raised before
the end, or it gave a value and then its commit, rollback or close raised
or did not. -/
inductive Transaction (α : Type) where
  | raised (error : StorageError)
  | ended (value : α) (failure : Option StorageError)

inductive Call where
  | admission (command : LifecycleCommand)
  | allocate (id : Uuid)
  | inspectMigration (locator : ServiceStoreLocator)
  | migrate (locator : ServiceStoreLocator)
  | inspect (locator : ServiceStoreLocator) (specification : RelationalSpecification)
  | materialise (locator : ServiceStoreLocator) (specification : RelationalSpecification)
  | evolve (locator : ServiceStoreLocator) (transition : RelationalTransition)
  | now
  | finalizeCompleted (completion : Completion)
  | finalizeRecoveryRequired (intent : LifecycleIntent) (at_ : Instant)

/-- What each call answers. Admission answers the outcome and, of a
prepared one, the service it names. -/
def Call.Reply : Call → Type
  | .admission _ => Transaction (LifecycleOutcome × Option Service)
  | .allocate _ => Answer (StorageAdapterInfo × ServiceStoreLocator)
  | .inspectMigration _ => Answer MigrationState
  | .migrate _ => Answer MigrationState
  | .inspect _ _ => Answer DomainSchemaStatus
  | .materialise _ _ => Answer DomainSchemaStatus
  | .evolve _ _ => Answer DomainSchemaStatus
  | .now => Answer Instant
  | .finalizeCompleted _ => Transaction LifecycleOutcome
  | .finalizeRecoveryRequired _ _ => Transaction LifecycleOutcome

/-- `LifecycleExecutionResult`. -/
inductive ExecutionResult where
  | completed (service : Service)
  | failed (category : ResultCategory)
deriving DecidableEq

abbrev Run (α : Type) : Type := Program Call.Reply α

/-- `uow.mutations.resolve_or_admit` and, of a prepared claim, `uow.services.get`. -/
def resolveOrAdmit (command : LifecycleCommand) :
    Run (Transaction (LifecycleOutcome × Option Service)) := perform (Call.admission command)

/-- `catalog.info` and `catalog.allocate`. -/
def allocate (id : Uuid) : Run (Answer (StorageAdapterInfo × ServiceStoreLocator)) :=
  perform (Call.allocate id)

/-- `catalog.inspect_migration`. -/
def inspectMigration (l : ServiceStoreLocator) : Run (Answer MigrationState) :=
  perform (Call.inspectMigration l)

/-- `catalog.migrate`. -/
def migrate (l : ServiceStoreLocator) : Run (Answer MigrationState) := perform (Call.migrate l)

/-- `domain.inspect`. -/
def inspect (l : ServiceStoreLocator) (s : RelationalSpecification) :
    Run (Answer DomainSchemaStatus) := perform (Call.inspect l s)

/-- `domain.materialise`. -/
def materialise (l : ServiceStoreLocator) (s : RelationalSpecification) :
    Run (Answer DomainSchemaStatus) := perform (Call.materialise l s)

/-- `domain.evolve`. -/
def evolve (l : ServiceStoreLocator) (t : RelationalTransition) :
    Run (Answer DomainSchemaStatus) := perform (Call.evolve l t)

/-- `clock.now`. -/
def now : Run (Answer Instant) := perform Call.now

/-- `uow.mutations.finalize_completed`. -/
def completeClaim (c : Completion) : Run (Transaction LifecycleOutcome) :=
  perform (Call.finalizeCompleted c)

/-- `uow.mutations.finalize_recovery_required`. -/
def recoverClaim (i : LifecycleIntent) (at_ : Instant) : Run (Transaction LifecycleOutcome) :=
  perform (Call.finalizeRecoveryRequired i at_)

/-! ## Results -/

/-- `_registry_outcome`. -/
def registryOutcome : LifecycleOutcome → ExecutionResult
  | .completed _ s => .completed s
  | .conflict => .failed .changedFingerprint
  | .staleRevision => .failed .staleRevision
  | .unsupportedTransition => .failed .unsupportedTransition
  | .operationInProgress => .failed .operationInProgress
  | .recoveryRequired _ => .failed .recoveryRequired
  | .prepared _ => .failed .internalFailure

/-- `_before_commit_error`. -/
def beforeCommitError : StorageError → ExecutionResult
  | .busy => .failed .storageBusy
  | .unavailable | .transientJournal => .failed .storageUnavailable
  | _ => .failed .internalFailure

/-- `_terminal_write_error`. -/
def terminalWriteError : StorageError → ExecutionResult
  | .busy => .failed .storageBusy
  | .unavailable | .transientJournal => .failed .operationUncertain
  | _ => .failed .internalFailure

/-! ## Terminal writes -/

/-- `_terminal_write`, from what its transaction answered. -/
def terminalWrite : Transaction LifecycleOutcome → ExecutionResult
  | .raised error => terminalWriteError error
  | .ended (.completed i s) failure =>
    if failure.isSome then .failed .operationUncertain else registryOutcome (.completed i s)
  | .ended (.recoveryRequired i) failure =>
    if failure.isSome then .failed .operationUncertain else registryOutcome (.recoveryRequired i)
  | .ended _ _ => .failed .internalFailure

/-- `_finalize_completed`. -/
def finalizeCompleted (i : LifecycleIntent) (l : ServiceStoreLocator) : Run ExecutionResult := do
  match ← now with
  | .value at_ =>
    let reply ← completeClaim ⟨i, at_, l.backend⟩
    pure (terminalWrite reply)
  | _ => pure (.failed .internalFailure)

/-- `_finalize_recovery`. -/
def finalizeRecovery (i : LifecycleIntent) : Run ExecutionResult := do
  match ← now with
  | .value at_ =>
    let reply ← recoverClaim i at_
    pure (terminalWrite reply)
  | _ => pure (.failed .internalFailure)

/-! ## Admission -/

/-- `_admit`, with `_commit_prepared` and `_close_nonmutating`. -/
def admission (command : LifecycleCommand) : Run (Except ExecutionResult (LifecycleIntent × Service)) := do
  match ← resolveOrAdmit command with
  | .raised error => pure (.error (beforeCommitError error))
  | .ended (.prepared i, source) failure =>
    if failure.isSome then pure (.error (.failed .operationUncertain))
    else
      match source with
      | none => Except.error <$> finalizeRecovery i
      | some s => pure (.ok (i, s))
  | .ended (outcome, _) failure =>
    pure (.error (failure.elim (registryOutcome outcome) beforeCommitError))

/-- `_valid_locator`. -/
def validLocator (info : StorageAdapterInfo) (l : ServiceStoreLocator) (i : LifecycleIntent) : Bool :=
  info.serviceStore && l.backend = info.backend && l.namespace_ = serviceNamespace i.serviceId

/-- `_locator`. -/
def locate (i : LifecycleIntent) (source : Service) :
    Run (Except ExecutionResult ServiceStoreLocator) := do
  match ← allocate i.serviceId with
  | .value (info, l) =>
    if ¬ validLocator info l i ∨ i.kind = .evolve ∧ source.storage ≠ some l.backend then
      pure (.error (.failed .internalFailure))
    else pure (.ok l)
  | .raised .busy => pure (.error (.failed .storageBusy))
  | .raised .unavailable | .raised .transientJournal => pure (.error (.failed .storageUnavailable))
  | _ => pure (.error (.failed .internalFailure))

/-- `_compile`: the specification to reach, and for an evolve the transition. -/
def compile (i : LifecycleIntent) (source : Service) :
    Option (RelationalSpecification × Option RelationalTransition) :=
  if i.kind = .materialise then some (compileManifest i.targetManifest, none)
  else do
    let current ← source.manifest
    let transition ← classifyTransition current i.targetManifest
    some (compileManifest i.targetManifest, some transition)

/-! ## Observation -/

/-- The observation a status is. -/
def MigrationStatus.observation : MigrationStatus → FoundationObservation
  | .uninitialised => .uninitialised
  | .outdated => .outdated
  | .ready => .ready
  | .dirty => .dirty
  | .incompatible => .incompatible

def DomainSchemaStatus.observation : DomainSchemaStatus → DomainObservation
  | .unmaterialised => .unmaterialised
  | .ready => .ready
  | .incompatible => .incompatible

/-- What `_foundation` makes of a returned state. -/
def classifyState (state : MigrationState) : Except ExecutionResult FoundationObservation :=
  if state.serviceStore then .ok state.status.observation else .error (.failed .internalFailure)

/-- The one independent read that may promote a foundation migrated past a
transient journal. -/
def refresh (l : ServiceStoreLocator) : Run (Except ExecutionResult FoundationObservation) := do
  match ← inspectMigration l with
  | .value state =>
    pure (.ok (if state.serviceStore && state.status = .ready then .ready else .uncertain))
  | .malformed => pure (.ok .uncertain)
  | .raised .busy => pure (.ok .busy)
  | .raised .unavailable | .raised .transientJournal | .raised .migration => pure (.ok .uncertain)
  | .raised _ => pure (.error (.failed .internalFailure))

/-- What the transient-journal path makes of a returned state. -/
def promote (l : ServiceStoreLocator) (state : MigrationState) :
    Run (Except ExecutionResult FoundationObservation) :=
  if ¬ state.serviceStore then pure (.error (.failed .internalFailure))
  else if state.status = .ready then pure (.ok .ready)
  else refresh l

/-- The read after a migration past a transient journal became unavailable. -/
def reinspect (l : ServiceStoreLocator) : Run (Except ExecutionResult FoundationObservation) := do
  match ← inspectMigration l with
  | .value state => promote l state
  | .raised .busy => pure (.ok .busy)
  | .raised .unavailable | .raised .transientJournal | .raised .migration => pure (.ok .uncertain)
  | _ => pure (.error (.failed .internalFailure))

/-- `_foundation` past a transient journal. -/
def reconcileJournal (l : ServiceStoreLocator) :
    Run (Except ExecutionResult FoundationObservation) := do
  match ← migrate l with
  | .value state => promote l state
  | .raised .busy => pure (.ok .busy)
  | .raised .unavailable | .raised .transientJournal => reinspect l
  | .raised .migration => pure (.ok .uncertain)
  | _ => pure (.error (.failed .internalFailure))

/-- `_foundation` past an unavailable storage. -/
def reconcileUnavailable (l : ServiceStoreLocator) :
    Run (Except ExecutionResult FoundationObservation) := do
  match ← migrate l with
  | .value state => pure (classifyState state)
  | .raised .busy => pure (.ok .busy)
  | .raised .unavailable | .raised .transientJournal => pure (.ok .unavailable)
  | .raised .migration => pure (.ok .uncertain)
  | _ => pure (.error (.failed .internalFailure))

/-- `_foundation`. -/
def foundation (l : ServiceStoreLocator) : Run (Except ExecutionResult FoundationObservation) := do
  match ← inspectMigration l with
  | .value state => pure (classifyState state)
  | .raised .busy => pure (.ok .busy)
  | .raised .transientJournal => reconcileJournal l
  | .raised .unavailable => reconcileUnavailable l
  | .raised .migration => pure (.ok .uncertain)
  | _ => pure (.error (.failed .internalFailure))

/-- The second inspection of `_domain_state`, past a transient journal. -/
def inspectAgain (l : ServiceStoreLocator) (s : RelationalSpecification) :
    Run (Except ExecutionResult DomainObservation) := do
  match ← inspect l s with
  | .value status => pure (.ok status.observation)
  | .raised .busy => pure (.ok .busy)
  | .raised .unavailable | .raised .transientJournal | .raised .migration => pure (.ok .uncertain)
  | _ => pure (.error (.failed .internalFailure))

/-- What a foundation that is not ready makes of a schema. -/
def domainUnderFoundation : FoundationObservation → Except ExecutionResult DomainObservation
  | .busy => .ok .busy
  | .unavailable => .ok .unavailable
  | .uncertain => .ok .uncertain
  | _ => .error (.failed .operationUncertain)

/-- `_domain_state`. -/
def domainState (l : ServiceStoreLocator) (s : RelationalSpecification) :
    Run (Except ExecutionResult DomainObservation) := do
  match ← inspect l s with
  | .value status => pure (.ok status.observation)
  | .raised .busy => pure (.ok .busy)
  | .raised .transientJournal => do
    match ← foundation l with
    | .error result => pure (.error result)
    | .ok .ready => inspectAgain l s
    | .ok f => pure (domainUnderFoundation f)
  | .raised .unavailable => pure (.ok .unavailable)
  | .raised .migration => pure (.ok .uncertain)
  | _ => pure (.error (.failed .internalFailure))

/-- The source of an evolve, read where the target is not there. -/
def sourceState (l : ServiceStoreLocator) (transition : Option RelationalTransition)
    (target : DomainObservation) : Run (Except ExecutionResult DomainObservation) :=
  if target = .unmaterialised ∨ target = .incompatible then
    match transition with
    | none => pure (.error (.failed .internalFailure))
    | some t => domainState l t.current
  else pure (.ok .notObserved)

/-- `_observe`. -/
def observe (i : LifecycleIntent) (l : ServiceStoreLocator) (target : RelationalSpecification)
    (transition : Option RelationalTransition) : Run (Except ExecutionResult Observation) := do
  match ← foundation l with
  | .error result => pure (.error result)
  | .ok f =>
    if i.kind = .materialise then
      if f = .ready then do
        match ← domainState l target with
        | .error result => pure (.error result)
        | .ok t => pure (.ok (.materialise .prepared f t))
      else pure (.ok (.materialise .prepared f .notObserved))
    else if f = .ready then do
      match ← domainState l target with
      | .error result => pure (.error result)
      | .ok t => do
        match ← sourceState l transition t with
        | .error result => pure (.error result)
        | .ok s => pure (.ok (.evolve .prepared f t s))
    else pure (.ok (.evolve .prepared f .notObserved .notObserved))

/-! ## Reconciliation -/

/-- How `_apply` takes what its call raised. -/
def actionError : StorageError → ExecutionResult
  | .busy => .failed .storageBusy
  | .contract => .failed .internalFailure
  | _ => .failed .operationUncertain

/-- `_apply` of `prepare_foundation`. -/
def applyFoundation (l : ServiceStoreLocator) : Run (Except ExecutionResult MigrationState) := do
  match ← migrate l with
  | .value state => pure (if state.serviceStore then .ok state else .error (.failed .internalFailure))
  | .malformed => pure (.error (.failed .internalFailure))
  | .raised error => pure (.error (actionError error))

/-- What `_apply` makes of a schema call, whose state it does not read. -/
def appliedSchema : Answer DomainSchemaStatus → Option ExecutionResult
  | .raised error => some (actionError error)
  | _ => none

/-- `_apply` of `apply_initial_schema` or `apply_transition`. -/
def applySchema (plan : RecoveryPlan) (l : ServiceStoreLocator) (target : RelationalSpecification)
    (transition : Option RelationalTransition) : Run (Option ExecutionResult) :=
  match plan, transition with
  | .applyInitialSchema, _ => do
    let reply ← materialise l target
    pure (appliedSchema reply)
  | .applyTransition, some t => do
    let reply ← evolve l t
    pure (appliedSchema reply)
  | _, _ => pure (some (.failed .internalFailure))

/-- What the loop of `execute` carries from one round to the next. -/
structure Progress where
  attempted : List RecoveryPlan := []
  foundationResult : Option MigrationStatus := none
  foundationReconciled : Bool := false

/-- The actions there are to attempt. -/
def actions : List RecoveryPlan := [.prepareFoundation, .applyInitialSchema, .applyTransition]

/-- How many rounds are left. -/
def Progress.left (p : Progress) : ℕ :=
  (actions.filter fun a => a ∉ p.attempted).length + if p.foundationReconciled then 0 else 1

theorem Progress.left_attempt {p : Progress} {a : RecoveryPlan} (ha : a ∈ actions)
    (h : a ∉ p.attempted) (f : Option MigrationStatus) :
    Progress.left { p with attempted := a :: p.attempted, foundationResult := f } < p.left := by
  have hsub : (actions.filter fun x => x ∉ a :: p.attempted) =
      (actions.filter fun x => x ∉ p.attempted).filter fun x => x ≠ a := by
    rw [List.filter_filter]
    refine List.filter_congr fun x _ => ?_
    by_cases hx : x = a <;> simp [hx]
  have hlt := List.length_filter_lt_length_iff_exists (p := fun x => decide (x ≠ a))
    (l := actions.filter fun x => x ∉ p.attempted) |>.2 ⟨a, by simp [ha, h], by simp⟩
  simp only [Progress.left, hsub]
  omega

theorem Progress.left_reconcile {p : Progress} (h : p.foundationReconciled = false)
    (f : Option MigrationStatus) :
    Progress.left { p with foundationReconciled := true, foundationResult := f } < p.left := by
  simp [Progress.left, h]

/-- May repeated dirt be reconciled at the mutation boundary once more? -/
def Progress.mayReconcile (p : Progress) (plan : RecoveryPlan) (o : Observation) : Bool :=
  plan = .prepareFoundation && o.foundation = .dirty &&
    (p.foundationResult = some .dirty || p.foundationResult = some .ready) &&
    !p.foundationReconciled

theorem Progress.not_reconciled {p : Progress} {plan : RecoveryPlan} {o : Observation}
    (h : p.mayReconcile plan o = true) : p.foundationReconciled = false := by
  rw [mayReconcile, Bool.and_eq_true, Bool.not_eq_true'] at h
  exact h.2

/-- How a deferral ends: an unavailable storage after an action was
attempted leaves the outcome open. -/
def deferred (p : Progress) (r : DeferredResult) : ExecutionResult :=
  if p.attempted ≠ [] ∧ r = .storageUnavailable then .failed .operationUncertain
  else .failed r.category

/-- The loop of `execute`. -/
def reconcile (i : LifecycleIntent) (l : ServiceStoreLocator) (target : RelationalSpecification)
    (transition : Option RelationalTransition) (p : Progress) : Run ExecutionResult := do
  match ← observe i l target transition with
  | .error result => pure result
  | .ok o =>
    if o.valid = false then pure (.failed .internalFailure)
    else
      match planRecovery o with
      | .deferObservation r => pure (deferred p r)
      | .recoveryRequired => finalizeRecovery i
      | .finalizeRegistry => finalizeCompleted i l
      | .replayComplete => pure (.failed .internalFailure)
      | plan =>
        if _hattempted : plan ∈ p.attempted then
          if _hagain : p.mayReconcile plan o = true then do
            match ← applyFoundation l with
            | .error result => pure result
            | .ok state =>
              reconcile i l target transition
                { p with foundationReconciled := true, foundationResult := some state.status }
          else pure (.failed .operationUncertain)
        else if _hprepare : plan = .prepareFoundation then do
          match ← applyFoundation l with
          | .error result => pure result
          | .ok state =>
            reconcile i l target transition
              { p with attempted := plan :: p.attempted, foundationResult := some state.status }
        else if _hschema : plan ∈ actions then do
          match ← applySchema plan l target transition with
          | some result => pure result
          | none => reconcile i l target transition { p with attempted := plan :: p.attempted }
        else pure (.failed .internalFailure)
termination_by p.left
decreasing_by
  · exact Progress.left_reconcile (Progress.not_reconciled _hagain) _
  · exact Progress.left_attempt (by rw [_hprepare]; decide) _hattempted _
  · exact Progress.left_attempt _hschema _hattempted p.foundationResult

/-- `execute`. -/
def execute (command : LifecycleCommand) : Run ExecutionResult := do
  match ← admission command with
  | .error result => pure result
  | .ok (i, source) =>
    if sourceMatches i source = false then finalizeRecovery i
    else do
      match ← locate i source with
      | .error result => pure result
      | .ok l =>
        match compile i source with
        | none => pure (.failed .internalFailure)
        | some (target, transition) => reconcile i l target transition {}

end Lifecycle

end Aipcs

import Aipcs.Manifest.Dump
import Aipcs.Registry.UnitOfWork
import Aipcs.Relational.Transition

/-!
# Registry — the lifecycle operations of a unit of work

Admission of a materialise or evolve command, and the two operations that
end an admitted claim. As with the authority operations each is a
function of the database it finds, and gives nothing where it raises.
-/

namespace Aipcs

namespace Registry

open Manifest Relational

/-! ## Commands -/

/-- A service revision a lifecycle command may expect. -/
abbrev LifecycleRevision : Type := { n : ℕ // 1 ≤ n ∧ n ≤ MAX_SERVICE_REVISION }

structure MaterialiseCommand where
  principalId : PrincipalId
  createdVia : CreatedVia
  serviceId : Uuid
  expectedServiceRevision : LifecycleRevision
  idempotencyKey : IdempotencyKey
deriving DecidableEq

/-- An evolve command; its target is one version after the expected one. -/
structure EvolveCommand where
  principalId : PrincipalId
  createdVia : CreatedVia
  serviceId : Uuid
  expectedServiceRevision : LifecycleRevision
  expectedSchemaVersion : ℕ
  idempotencyKey : IdempotencyKey
  targetManifest : ManifestV2
  version : 1 ≤ expectedSchemaVersion ∧ expectedSchemaVersion < MAX_SCHEMA_VERSION
  advances : targetManifest.schemaVersion = expectedSchemaVersion + 1
deriving DecidableEq

inductive LifecycleCommand where
  | materialise (c : MaterialiseCommand)
  | evolve (c : EvolveCommand)
deriving DecidableEq

namespace LifecycleCommand

def principalId : LifecycleCommand → PrincipalId
  | .materialise c => c.principalId
  | .evolve c => c.principalId

def createdVia : LifecycleCommand → CreatedVia
  | .materialise c => c.createdVia
  | .evolve c => c.createdVia

def serviceId : LifecycleCommand → Uuid
  | .materialise c => c.serviceId
  | .evolve c => c.serviceId

def expectedServiceRevision : LifecycleCommand → ℕ
  | .materialise c => c.expectedServiceRevision.1
  | .evolve c => c.expectedServiceRevision.1

def expectedSchemaVersion : LifecycleCommand → ℕ
  | .materialise _ => 1
  | .evolve c => c.expectedSchemaVersion

def idempotencyKey : LifecycleCommand → IdempotencyKey
  | .materialise c => c.idempotencyKey
  | .evolve c => c.idempotencyKey

def kind : LifecycleCommand → OperationKind
  | .materialise _ => .materialise
  | .evolve _ => .evolve

/-- `canonical_lifecycle_json`. -/
def canonicalJson (command : LifecycleCommand) : List Char :=
  asciiObject ([
    ("created_via", asciiString command.createdVia.1),
    ("expected_schema_version", asciiNat command.expectedSchemaVersion),
    ("expected_service_revision", asciiNat command.expectedServiceRevision),
    ("kind", asciiString command.kind.value),
    ("principal", asciiString command.principalId.1),
    ("service_id", asciiString command.serviceId.text)] ++
    match command with
    | .materialise _ => []
    | .evolve c => [("target_manifest", manifestJson c.targetManifest.toManifestDocument)])

/-- `lifecycle_fingerprint`. -/
@[irreducible] def fingerprint (command : LifecycleCommand) : String :=
  asciiFingerprint command.canonicalJson

/-- The claim a command is recorded under. -/
def key (c : LifecycleCommand) : PrincipalId × IdempotencyKey := (c.principalId, c.idempotencyKey)

theorem kind_lifecycle (c : LifecycleCommand) : c.kind = .materialise ∨ c.kind = .evolve := by
  cases c
  · exact .inl rfl
  · exact .inr rfl

/-- `prepare_intent`, of a target of the version the command names. -/
def intent (command : LifecycleCommand) (target : ManifestV2) : LifecycleIntent where
  kind := command.kind
  principalId := command.principalId
  createdVia := command.createdVia
  serviceId := command.serviceId
  expectedServiceRevision := command.expectedServiceRevision
  expectedSchemaVersion := command.expectedSchemaVersion
  idempotencyKey := command.idempotencyKey
  fingerprint := command.fingerprint
  targetManifest := target
  lifecycle := command.kind_lifecycle

end LifecycleCommand

/-- The claim an intent is recorded under. -/
def LifecycleIntent.key (i : LifecycleIntent) : PrincipalId × IdempotencyKey :=
  (i.principalId, i.idempotencyKey)

@[simp] theorem ClaimRow.key_lifecycle (i : LifecycleIntent) (p : ClaimPhase Service) :
    (ClaimRow.lifecycle i p).key = i.key := rfl

@[simp] theorem LifecycleCommand.key_intent (c : LifecycleCommand) (m : ManifestV2) :
    (c.intent m).key = c.key := rfl

/-! ## Outcomes and completions -/

/-- `LifecycleRegistryOutcome`. -/
inductive LifecycleOutcome where
  | conflict
  | completed (intent : LifecycleIntent) (service : Service)
  | prepared (intent : LifecycleIntent)
  | recoveryRequired (intent : LifecycleIntent)
  | staleRevision
  | unsupportedTransition
  | operationInProgress
deriving DecidableEq

/-- `MaterialiseCompletion` and `EvolveCompletion`, told apart by the
intent; an evolve completion has no storage. -/
structure Completion where
  intent : LifecycleIntent
  at_ : Instant
  storage : StorageBackend
deriving DecidableEq

namespace Service

/-- `replace(service, design_state="materialised", ...)` of a completion,
or nothing when the constructor refuses. -/
def withMaterialised (s : Service) (c : Completion) : Option Service :=
  if h : s.updatedAt.micros ≤ c.at_.micros ∧
      c.intent.expectedServiceRevision + 1 ≤ MAX_SERVICE_REVISION ∧ s.manifest.isSome = true then
    some { s with
      designState := .materialised
      materialisedAt := some c.at_
      storage := some c.storage
      updatedAt := c.at_
      lastActivityAt := c.at_
      serviceRevision := c.intent.expectedServiceRevision + 1
      updated := Nat.le_trans s.updated h.1
      active := Nat.le_refl _
      revision := ⟨by omega, h.2.1⟩
      paired := rfl
      during := fun t ht => by
        obtain rfl := Option.some.inj ht
        exact ⟨Nat.le_trans s.updated h.1, Nat.le_refl _⟩
      seeded := fun hd => absurd hd (by simp)
      complete := fun _ => ⟨h.2.2, rfl⟩ }
  else none

/-- `replace(service, manifest=target, ...)` of a completion. -/
def withTarget (s : Service) (c : Completion) : Option Service :=
  if h : s.updatedAt.micros ≤ c.at_.micros ∧
      c.intent.expectedServiceRevision + 1 ≤ MAX_SERVICE_REVISION then
    some { s with
      manifest := some c.intent.targetManifest
      updatedAt := c.at_
      lastActivityAt := c.at_
      serviceRevision := c.intent.expectedServiceRevision + 1
      updated := Nat.le_trans s.updated h.1
      active := Nat.le_refl _
      revision := ⟨by omega, h.2⟩
      during := fun t ht => ⟨(s.during t ht).1, Nat.le_trans (s.during t ht).2 h.1⟩
      complete := fun hd => ⟨rfl, (s.complete hd).2⟩ }
  else none

/-- `_terminal_service`. -/
def terminal (s : Service) (c : Completion) : Option Service :=
  if c.intent.kind = .materialise then s.withMaterialised c else s.withTarget c

end Service

/-! ## Matching a service with an intent -/

/-- `service.manifest == manifest`. -/
def manifestIs (s : Service) (m : ManifestV2) : Bool :=
  s.manifest.any fun n => n.toManifestDocument.equal m.toManifestDocument

/-- The service awaits its first materialisation. -/
def awaitsMaterialisation (s : Service) : Bool :=
  s.designState = .seeded && s.schemaVersion = some 1 && s.materialisedAt.isNone && s.storage.isNone

/-- The service has been materialised. -/
def isMaterialised (s : Service) : Bool :=
  s.designState = .materialised && s.materialisedAt.isSome && s.storage.isSome

/-- `_supported_lifecycle_state`. -/
def supportedLifecycleState (s : Service) : LifecycleCommand → Bool
  | .materialise _ => s.operationalStatus = .active && s.manifest.isSome && awaitsMaterialisation s
  | .evolve _ => s.operationalStatus = .active && s.manifest.isSome && isMaterialised s

/-- What `_finalization_preconditions` and the coordinator's
`_source_matches` have in common: the service is the one admitted. -/
def sourceMatches (i : LifecycleIntent) (s : Service) : Bool :=
  s.principalId = i.principalId && s.serviceId = i.serviceId && s.operationalStatus = .active &&
    s.serviceRevision = i.expectedServiceRevision && s.schemaVersion = some i.expectedSchemaVersion &&
    s.manifest.isSome &&
    if i.kind = .materialise then awaitsMaterialisation s && manifestIs s i.targetManifest
    else isMaterialised s

/-- `_finalization_preconditions`. -/
def finalizationPreconditions (s : Service) (c : Completion) : Bool :=
  sourceMatches c.intent s && !(c.at_.before s.updatedAt) &&
    (c.intent.kind = .materialise ||
      s.schemaVersion.any fun v => c.intent.targetManifest.schemaVersion = v + 1)

namespace Database

variable (d : Database)

/-- `_existing_lifecycle_claim`; a tombstone has no intent to decode. -/
def existingLifecycleClaim (row : ClaimRow) (command : LifecycleCommand) : Option LifecycleOutcome :=
  if row.fingerprint ≠ command.fingerprint ∨ row.operationKind ≠ command.kind then some .conflict
  else
    match row with
    | .lifecycle i .prepared => some (.prepared i)
    | .lifecycle i .recoveryRequired => some (.recoveryRequired i)
    | .lifecycle i (.completed s) => some (.completed i s)
    | _ => none

/-- The claim that keeps a lifecycle command out. -/
def lifecycleBlocker (principal : PrincipalId) (id : Uuid) : Option LifecycleOutcome :=
  match d.claims.rows.find? (blocks principal id) with
  | some (.lifecycle i .recoveryRequired) => some (.recoveryRequired i)
  | some _ => some .operationInProgress
  | none => none

/-- The target of a command: the manifest to materialise, or the manifest
a transition is classified to. -/
def lifecycleTarget (s : Service) : LifecycleCommand → Option ManifestV2
  | .materialise _ => s.manifest
  | .evolve c =>
    s.manifest.bind fun m => (classifyTransition m c.targetManifest).map fun _ => c.targetManifest

/-- `resolve_or_admit` of a new command. -/
def admitLifecycle (command : LifecycleCommand) : Option (LifecycleOutcome × Database) :=
  match d.service command.principalId command.serviceId with
  | none => some (.staleRevision, d)
  | some s =>
    if s.serviceRevision ≠ command.expectedServiceRevision ∨
        s.schemaVersion ≠ some command.expectedSchemaVersion then some (.staleRevision, d)
    else if ¬ supportedLifecycleState s command ∨ MAX_SERVICE_REVISION ≤ s.serviceRevision then
      some (.unsupportedTransition, d)
    else
      match d.lifecycleBlocker command.principalId command.serviceId with
      | some blocker => some (blocker, d)
      | none =>
        match lifecycleTarget s command with
        | none => some (.unsupportedTransition, d)
        | some target =>
          (d.insertClaim (.lifecycle (command.intent target) .prepared)).map fun prepared =>
            (.prepared (command.intent target), prepared)

/-- `resolve_or_admit`. -/
def resolveOrAdmit (command : LifecycleCommand) : Option (LifecycleOutcome × Database) :=
  match d.claimRow command.key with
  | some row => (existingLifecycleClaim row command).map fun outcome => (outcome, d)
  | none => d.admitLifecycle command

/-- `_terminal_or_prepared`. -/
def terminalOrPrepared (i : LifecycleIntent) : Option LifecycleOutcome :=
  match d.claimRow i.key with
  | some (.lifecycle stored phase) =>
    if stored.fingerprint ≠ i.fingerprint ∨ stored.kind ≠ i.kind then none
    else
      match phase with
      | .prepared => if stored = i then some (.prepared stored) else none
      | .recoveryRequired => some (.recoveryRequired stored)
      | .completed s => some (.completed stored s)
  | _ => none

/-- The claim of an intent in another phase. -/
def endLifecycle (i : LifecycleIntent) (phase : ClaimPhase Service) : Database :=
  { d with claims := d.claims.set (.lifecycle i phase) }

/-- `_mark_recovery_required`, of a claim that is prepared. -/
def markLifecycleRecovery (i : LifecycleIntent) : LifecycleOutcome × Database :=
  (.recoveryRequired i, d.endLifecycle i .recoveryRequired)

/-- `finalize_completed`. -/
def finalizeCompleted (c : Completion) : Option (LifecycleOutcome × Database) :=
  match d.terminalOrPrepared c.intent with
  | none => none
  | some (.prepared _) =>
    match d.service c.intent.principalId c.intent.serviceId with
    | none => some (d.markLifecycleRecovery c.intent)
    | some s =>
      if c.at_.before s.updatedAt then none
      else if finalizationPreconditions s c = false then some (d.markLifecycleRecovery c.intent)
      else
        (s.terminal c).bind fun ended =>
          match d.save ended c.intent.expectedServiceRevision with
          | (saved, some true) =>
            some (.completed c.intent ended, saved.endLifecycle c.intent (.completed ended))
          | (_, some false) => some (d.markLifecycleRecovery c.intent)
          | (_, none) => none
  | some outcome => some (outcome, d)

/-- `finalize_recovery_required`. -/
def finalizeRecoveryRequired (i : LifecycleIntent) : Option (LifecycleOutcome × Database) :=
  match d.terminalOrPrepared i with
  | none => none
  | some (.prepared _) => some (d.markLifecycleRecovery i)
  | some outcome => some (outcome, d)

end Database

end Registry

end Aipcs

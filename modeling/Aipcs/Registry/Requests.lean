import Aipcs.Registry.Lifecycle

/-!
# Registry — seeding, designing and publishing an import

The requests of the service application, and the operation by which
what was imported becomes a service. A request is one write transaction:
where it fails it is rolled back, so what it leaves is what it found.
-/

namespace Aipcs

namespace Registry

open Manifest

def MAX_DOMAIN_CLASS_LENGTH : ℕ := 64
def MAX_INTENT_LENGTH : ℕ := 1000

/-! ## Commands -/

structure ApplicationContext where
  principalId : PrincipalId
  createdVia : CreatedVia
deriving DecidableEq

/-- A seed request that `_validate_seed` lets pass. -/
structure SeedCommand where
  domainName : { s : String // isIdentifier s = true }
  domainClass : ValidText MAX_DOMAIN_CLASS_LENGTH
  intentDescription : ValidText MAX_INTENT_LENGTH
  idempotencyKey : IdempotencyKey
deriving DecidableEq

/-- A design request that `_validate_design` lets pass. -/
structure DesignCommand where
  serviceId : Uuid
  manifest : ManifestV2
  idempotencyKey : IdempotencyKey
  first : manifest.schemaVersion = 1
  fresh : manifest.migrationHistory = []
deriving DecidableEq

/-- `_fingerprint` of a seed. -/
@[irreducible] def seedFingerprint (context : ApplicationContext) (c : SeedCommand) : String :=
  asciiFingerprint (asciiObject [
    ("created_via", asciiString context.createdVia.1),
    ("domain_class", asciiString c.domainClass.1),
    ("domain_name", asciiString c.domainName.1),
    ("intent", asciiString c.intentDescription.1),
    ("kind", asciiString "seed"),
    ("principal", asciiString context.principalId.1)])

/-- `_fingerprint` of a design. -/
@[irreducible] def designFingerprint (context : ApplicationContext) (c : DesignCommand) : String :=
  asciiFingerprint (asciiObject [
    ("created_via", asciiString context.createdVia.1),
    ("kind", asciiString "design"),
    ("manifest", manifestJson c.manifest.toManifestDocument),
    ("principal", asciiString context.principalId.1),
    ("service_id", asciiString c.serviceId.text)])

/-! ## Outcomes -/

/-- The errors the service application raises. -/
inductive ApplicationError where
  | conflict
  | internalFailure
  | invalidCommand
  | invalidState
  | notFound
deriving DecidableEq

inductive NonLifecycleKind where
  | seed
  | design
deriving DecidableEq

def NonLifecycleKind.operation : NonLifecycleKind → OperationKind
  | .seed => .seed
  | .design => .design

/-- `NonLifecycleRegistryOutcome`. -/
inductive NonLifecycleOutcome where
  | new
  | conflict
  | completed (service : Service)
deriving DecidableEq

inductive RecoveryState where
  | clear
  | pending
  | recoveryRequired
deriving DecidableEq

/-- What a request returns: the service and its recovery state, which the
public projection shows. -/
structure ServiceMetadata where
  service : Service
  recoveryState : RecoveryState
deriving DecidableEq

/-! ## Services that requests write -/

namespace Service

/-- The service a seed adds. -/
def ofSeed (context : ApplicationContext) (c : SeedCommand) (id : Uuid) (now : Instant) : Service where
  serviceId := id
  principalId := context.principalId
  domainName := c.domainName.1
  domainClass := c.domainClass.1
  intentDescription := c.intentDescription.1
  createdAt := now
  updatedAt := now
  lastActivityAt := now
  manifest := none
  designState := .seeded
  operationalStatus := .active
  serviceRevision := 1
  materialisedAt := none
  storage := none
  updated := now.le_self
  active := now.le_self
  revision := first_revision
  paired := rfl
  during := fun _ h => absurd h (by simp)
  seeded := fun _ => rfl
  complete := fun h => absurd h (by simp)

/-- `replace(service, manifest=..., schema_version=1, updated_at=now,
last_activity_at=now, service_revision=service.service_revision + 1)`. -/
def withDesign (s : Service) (m : ManifestV2) (now : Instant) : Option Service :=
  if h : s.updatedAt.micros ≤ now.micros ∧ s.serviceRevision + 1 ≤ MAX_SERVICE_REVISION then
    some { s with
      manifest := some m
      updatedAt := now
      lastActivityAt := now
      serviceRevision := s.serviceRevision + 1
      updated := created_le h
      active := now.le_self
      revision := revision_succ h
      during := during_le h
      complete := fun hd => ⟨rfl, (s.complete hd).2⟩ }
  else none

theorem withDesign_eq_some {s u : Service} {m : ManifestV2} {now : Instant}
    (h : s.withDesign m now = some u) :
    u.serviceId = s.serviceId ∧ u.principalId = s.principalId ∧ u.manifest = some m ∧
      u.serviceRevision = s.serviceRevision + 1 := by
  unfold withDesign at h
  split at h
  · obtain rfl := Option.some.inj h
    exact ⟨rfl, rfl, rfl, rfl⟩
  · exact absurd h (by simp)

end Service

/-- What a replayed design must show: `CompletedNonLifecycleClaim` takes
no other service for one. -/
def designSnapshot (s : Service) : Bool :=
  s.designState = .seeded && s.operationalStatus = .active && s.manifest.isSome &&
    s.schemaVersion = some 1 && s.serviceRevision = 2 && s.updatedAt = s.lastActivityAt

namespace Database

variable (d : Database)

/-! ## Reads and writes of the unit of work -/

/-- `find_domain`. -/
def findDomain (principal : PrincipalId) (name : String) : Option Service :=
  d.services.rows.find? fun s => s.principalId = principal && s.domainName = name

/-- `recovery_state`, which raises when a service has two pending claims. -/
def recoveryState (principal : PrincipalId) (id : Uuid) : Option RecoveryState :=
  match d.claims.rows.filter (blocks principal id) with
  | [] => some .clear
  | [.lifecycle _ .prepared] | [.authority _ .prepared] => some .pending
  | [_] => some .recoveryRequired
  | _ => none

/-- A service inserted, subject to its key and to one domain name a service. -/
def insertService (s : Service) : Option Database :=
  if d.services.rows.any fun x => x.principalId = s.principalId && x.domainName = s.domainName then
    none
  else (d.services.insert s).map fun services => { d with services }

/-- An identity inserted, subject to its key and to the index that gives
a domain name one live or prepared identity. -/
def insertIdentity (i : IdentityRow) : Option Database :=
  if i.state.domain.isSome && d.identities.rows.any fun r =>
      r.principalId = i.principalId && r.state.domain = i.state.domain then none
  else (d.identities.insert i).map fun identities => { d with identities }

/-- `add`. -/
def add (s : Service) : Option Database :=
  (d.insertService s).bind fun added =>
    added.insertIdentity ⟨s.serviceId, s.principalId, .live s.domainName s.storage⟩

/-- `resolve_non_lifecycle`. -/
def resolveNonLifecycle (kind : NonLifecycleKind) (principal : PrincipalId) (key : IdempotencyKey)
    (fingerprint : String) : Option NonLifecycleOutcome :=
  match d.claimRow (principal, key) with
  | none => some .new
  | some row =>
    if row.fingerprint ≠ fingerprint then some .conflict
    else
      match row with
      | .nonLifecycle c =>
        if c.kind ≠ .legacy ∧ c.kind ≠ kind.operation then some .conflict
        else if c.kind = .design ∧ designSnapshot c.result = false then none
        else some (.completed c.result)
      | _ => some .conflict

/-- `complete_non_lifecycle`. -/
def completeNonLifecycle (kind : NonLifecycleKind) (principal : PrincipalId) (key : IdempotencyKey)
    (fingerprint : String) (s : Service) : Option Database :=
  if s.principalId ≠ principal then none
  else d.insertClaim (.nonLifecycle ⟨kind.operation, principal, key, fingerprint, s, by
    cases kind
    · exact .inr (.inl rfl)
    · exact .inr (.inr rfl)⟩)

/-! ## Requests -/

/-- The end of a request: the projection, and the database committed. -/
def respond (s : Service) (left : Database) : Except ApplicationError (ServiceMetadata × Database) :=
  match left.recoveryState s.principalId s.serviceId with
  | some state => .ok (⟨s, state⟩, left)
  | none => .error .internalFailure

/-- The claim of a request that is new: recorded with its service, and
answered. -/
def completed (kind : NonLifecycleKind) (context : ApplicationContext) (key : IdempotencyKey)
    (fingerprint : String) (s : Service) : Except ApplicationError (ServiceMetadata × Database) :=
  match d.completeNonLifecycle kind context.principalId key fingerprint s with
  | some left => respond s left
  | none => .error .internalFailure

/-- `_resolve_non_lifecycle_claim` and the answer to a replay; a request
that is new goes on as given. -/
def replayed (kind : NonLifecycleKind) (context : ApplicationContext) (key : IdempotencyKey)
    (fingerprint : String) (onNew : Except ApplicationError (ServiceMetadata × Database)) :
    Except ApplicationError (ServiceMetadata × Database) :=
  match d.resolveNonLifecycle kind context.principalId key fingerprint with
  | none => .error .internalFailure
  | some .conflict => .error .conflict
  | some (.completed s) =>
    if s.principalId ≠ context.principalId then .error .internalFailure else respond s d
  | some .new => onNew

/-- `ServiceApplication.seed`; the id is the provider's. -/
def seed (context : ApplicationContext) (c : SeedCommand) (id : Uuid) (now : Instant) :
    Except ApplicationError (ServiceMetadata × Database) :=
  d.replayed .seed context c.idempotencyKey (seedFingerprint context c) <|
    match d.findDomain context.principalId c.domainName.1 with
    | some existing =>
      d.completed .seed context c.idempotencyKey (seedFingerprint context c) existing
    | none =>
      match d.add (.ofSeed context c id now) with
      | none => .error .internalFailure
      | some added =>
        added.completed .seed context c.idempotencyKey (seedFingerprint context c)
          (.ofSeed context c id now)

/-- The service may be designed. -/
def awaitsDesign (s : Service) : Bool :=
  s.operationalStatus = .active && s.designState = .seeded && s.manifest.isNone

/-- A new design of a service that is found. -/
def designService (context : ApplicationContext) (c : DesignCommand) (now : Instant) (s : Service) :
    Except ApplicationError (ServiceMetadata × Database) :=
  if ¬ awaitsDesign s then .error .invalidState
  else if MAX_SERVICE_REVISION ≤ s.serviceRevision then .error .internalFailure
  else if now.before s.updatedAt then .error .internalFailure
  else
    match s.withDesign c.manifest now with
    | none => .error .internalFailure
    | some changed =>
      match d.save changed s.serviceRevision with
      | (saved, some true) =>
        saved.completed .design context c.idempotencyKey (designFingerprint context c) changed
      | (_, some false) =>
        -- `_reread_after_stale_design`
        if (d.service context.principalId c.serviceId).isNone then .error .notFound
        else .error .invalidState
      | (_, none) => .error .internalFailure

/-- `ServiceApplication.design`. -/
def design (context : ApplicationContext) (c : DesignCommand) (now : Instant) :
    Except ApplicationError (ServiceMetadata × Database) :=
  d.replayed .design context c.idempotencyKey (designFingerprint context c) <|
    match d.service context.principalId c.serviceId with
    | none => .error .notFound
    | some s => d.designService context c now s

/-! ## Publishing an import -/

/-- The reservation, the service and the receipt a prepared import may be
published with. -/
def publishable (c : ImportCommand) (s : Service) (r : TransferReceipt) : Bool :=
  ((d.identities.find? c.identity.serviceId).any fun row =>
    row.principalId = c.identity.principalId &&
      match row.state with
      | .importPrepared domain _ key _ =>
        domain = c.identity.domainName.1 && key = c.idempotencyKey
      | _ => false) &&
    (d.service c.identity.principalId c.identity.serviceId).isNone &&
    s.principalId = c.identity.principalId && s.serviceId = c.identity.serviceId &&
    s.domainName = c.identity.domainName.1 && s.storage.all (· = c.destinationBackend) &&
    r.kind = .import_ && r.verification = .verified && c.destinationBackend = .sqlite &&
    r.storageBackend = .sqlite && r.principalId = c.identity.principalId &&
    r.serviceId = c.identity.serviceId && r.bundleRootSha256 = c.bundleRootSha256.1 &&
    r.storageBackend = c.destinationBackend && r.serviceRevision = s.serviceRevision &&
    r.operationalStatus = s.operationalStatus && (d.receipts.find? r.receiptId).isNone

/-- The reserved identity of a service made live, which raises unless it
is the claim's. -/
def publishIdentity (c : ImportCommand) (s : Service) : Option Database :=
  match d.identities.find? s.serviceId with
  | some row =>
    match row.state with
    | .importPrepared domain _ key _ =>
      if row.principalId = s.principalId ∧ key = c.idempotencyKey then
        some { d with identities := d.identities.set { row with state := .live domain s.storage } }
      else none
    | _ => none
  | none => none

/-- `publish_import`. -/
def publishImport (c : ImportCommand) (s : Service) (r : TransferReceipt) :
    Option (AuthorityOutcome × Database) :=
  match d.authorityPreparedOrTerminal (.import_ c) with
  | none => none
  | some (.prepared _) =>
    if d.publishable c s r = false then d.markAuthorityRecovery (.import_ c)
    else
      (d.insertService s).bind fun inserted =>
        (inserted.publishIdentity c s).bind fun published =>
          (published.insertReceipt ⟨c.idempotencyKey, r⟩).bind fun received =>
            received.completeAuthority (.import_ c) (.service s)
  | some outcome => some (outcome, d)

end Database

end Registry

end Aipcs

import Aipcs.Common.Table
import Aipcs.Registry.Evidence

/-!
# Registry — the tables

The four tables the authority operations read and write. A row is kept
as the value its columns spell: a claim's columns repeat its intent, and
the check constraints of the claim and identity tables say which columns
are null in which state, so the states are constructors here.
-/

namespace Aipcs

namespace Registry

/-- The phase of a claim that has an intent, with the result it stores. -/
inductive ClaimPhase (ρ : Type) where
  | prepared
  | completed (result : ρ)
  | recoveryRequired
deriving DecidableEq

/-- A materialise or evolve intent. -/
structure LifecycleIntent where
  kind : OperationKind
  principalId : PrincipalId
  createdVia : CreatedVia
  serviceId : Uuid
  expectedServiceRevision : ℕ
  expectedSchemaVersion : ℕ
  idempotencyKey : IdempotencyKey
  fingerprint : String
  targetManifest : Manifest.ManifestV2
  lifecycle : kind = .materialise ∨ kind = .evolve
deriving DecidableEq

/-- What a seed or design request left: a completed claim without intent. -/
structure NonLifecycleClaim where
  kind : OperationKind
  principalId : PrincipalId
  idempotencyKey : IdempotencyKey
  fingerprint : String
  result : Service
  nonLifecycle : kind = .legacy ∨ kind = .seed ∨ kind = .design
deriving DecidableEq

/-- What a purge leaves of the other claims of its service. -/
structure TombstonedClaim where
  operationKind : OperationKind
  principalId : PrincipalId
  idempotencyKey : IdempotencyKey
  fingerprint : String
  serviceId : Uuid
  notPurge : operationKind ≠ .purge
deriving DecidableEq

/-- A row of `aipcs_registry_claim`. -/
inductive ClaimRow where
  | nonLifecycle (claim : NonLifecycleClaim)
  | lifecycle (intent : LifecycleIntent) (phase : ClaimPhase Service)
  | authority (command : RegistryAuthorityCommand) (phase : ClaimPhase AuthorityResult)
  | tombstoned (claim : TombstonedClaim)
deriving DecidableEq

namespace ClaimRow

def principalId : ClaimRow → PrincipalId
  | .nonLifecycle c => c.principalId
  | .lifecycle i _ => i.principalId
  | .authority c _ => c.principalId
  | .tombstoned c => c.principalId

def idempotencyKey : ClaimRow → IdempotencyKey
  | .nonLifecycle c => c.idempotencyKey
  | .lifecycle i _ => i.idempotencyKey
  | .authority c _ => c.idempotencyKey
  | .tombstoned c => c.idempotencyKey

def fingerprint : ClaimRow → String
  | .nonLifecycle c => c.fingerprint
  | .lifecycle i _ => i.fingerprint
  | .authority c _ => c.fingerprint
  | .tombstoned c => c.fingerprint

def serviceId : ClaimRow → Uuid
  | .nonLifecycle c => c.result.serviceId
  | .lifecycle i _ => i.serviceId
  | .authority c _ => c.serviceId
  | .tombstoned c => c.serviceId

def operationKind : ClaimRow → OperationKind
  | .nonLifecycle c => c.kind
  | .lifecycle i _ => i.kind
  | .authority c _ => c.kind
  | .tombstoned c => c.operationKind

/-- `"phase" IN ('prepared','recovery_required')`. -/
def pending : ClaimRow → Bool
  | .lifecycle _ .prepared | .lifecycle _ .recoveryRequired => true
  | .authority _ .prepared | .authority _ .recoveryRequired => true
  | _ => false

/-- The primary key. -/
def key (r : ClaimRow) : PrincipalId × IdempotencyKey := (r.principalId, r.idempotencyKey)

@[simp] theorem key_authority (c : RegistryAuthorityCommand) (p : ClaimPhase AuthorityResult) :
    (ClaimRow.authority c p).key = c.key := rfl

/-- The row as a purge of its service leaves it, which the check on
tombstones forbids for a purge. -/
def tombstone (r : ClaimRow) : Option ClaimRow :=
  if h : r.operationKind ≠ .purge then
    some (.tombstoned ⟨r.operationKind, r.principalId, r.idempotencyKey, r.fingerprint,
      r.serviceId, h⟩)
  else none

end ClaimRow

/-- The state of an identity, with the columns that are not null in it. -/
inductive IdentityState where
  | live (domainName : String) (storageBackend : Option StorageBackend)
  | importPrepared (domainName : String) (storageBackend : StorageBackend)
      (claimIdempotencyKey : IdempotencyKey) (lifecycleAt : Instant)
  | tombstoned (claimIdempotencyKey : IdempotencyKey) (lifecycleAt : Instant)
deriving DecidableEq

/-- The domain name a live or import-prepared identity holds. -/
def IdentityState.domain : IdentityState → Option String
  | .live d _ => some d
  | .importPrepared d _ _ _ => some d
  | .tombstoned _ _ => none

/-- A row of `aipcs_registry_identity`; its namespace is the id's. -/
structure IdentityRow where
  serviceId : Uuid
  principalId : PrincipalId
  state : IdentityState
deriving DecidableEq

/-- A row of `aipcs_registry_receipt`. -/
structure ReceiptRow where
  idempotencyKey : IdempotencyKey
  receipt : TransferReceipt
deriving DecidableEq

/-- The registry database. -/
structure Database where
  services : Table Service.serviceId
  claims : Table ClaimRow.key
  identities : Table IdentityRow.serviceId
  receipts : Table fun r : ReceiptRow => r.receipt.receiptId

namespace Database

/-- `_claim_row`. -/
def claimRow (d : Database) (key : PrincipalId × IdempotencyKey) : Option ClaimRow :=
  d.claims.find? key

/-- `_service`. -/
def service (d : Database) (principal : PrincipalId) (id : Uuid) : Option Service :=
  (d.services.find? id).filter fun s => s.principalId = principal

/-- Does the row keep the service from another operation? -/
def blocks (principal : PrincipalId) (id : Uuid) (r : ClaimRow) : Bool :=
  r.principalId = principal && r.serviceId = id && r.pending

/-- A claim inserted, subject to the primary key and to the index that
allows a service one pending claim. -/
def insertClaim (d : Database) (r : ClaimRow) : Option Database :=
  if r.pending && d.claims.rows.any (blocks r.principalId r.serviceId) then none
  else (d.claims.insert r).map fun claims => { d with claims }

/-- A receipt inserted, subject to the primary key and to one receipt a claim. -/
def insertReceipt (d : Database) (r : ReceiptRow) : Option Database :=
  if d.receipts.rows.any fun x =>
      x.receipt.principalId = r.receipt.principalId && x.idempotencyKey = r.idempotencyKey then none
  else (d.receipts.insert r).map fun receipts => { d with receipts }

theorem service_eq_some {d : Database} {principal : PrincipalId} {id : Uuid} {s : Service} :
    d.service principal id = some s ↔ d.services.find? id = some s ∧ s.principalId = principal := by
  rw [service, Option.filter_eq_some_iff, decide_eq_true_eq]

theorem blocks_iff {principal : PrincipalId} {id : Uuid} {r : ClaimRow} :
    blocks principal id r = true ↔ r.principalId = principal ∧ r.serviceId = id ∧ r.pending = true := by
  simp [blocks, and_assoc]

end Database

end Registry

end Aipcs

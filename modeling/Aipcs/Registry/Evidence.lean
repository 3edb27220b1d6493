import Aipcs.Registry.Service

/-!
# Registry — commands, intents and terminal evidence

An intent is an admitted command and a phase: the other fields of the
two intent classes are functions of the command, which their
constructors check, the fingerprint among them. The fingerprint is the
digest of the command's canonical payload; the idempotency key is not
part of it.
-/

namespace Aipcs

namespace Registry

/-! ## Kinds of operation -/

inductive OperationKind where
  | legacy
  | seed
  | design
  | materialise
  | evolve
  | suspend
  | resume
  | archive
  | restore
  | export_
  | import_
  | purge
deriving DecidableEq

/-- The kind's value. -/
def OperationKind.value : OperationKind → String
  | .legacy => "legacy"
  | .seed => "seed"
  | .design => "design"
  | .materialise => "materialise"
  | .evolve => "evolve"
  | .suspend => "suspend"
  | .resume => "resume"
  | .archive => "archive"
  | .restore => "restore"
  | .export_ => "export"
  | .import_ => "import"
  | .purge => "purge"

/-- The kind of an operational command. -/
def OperationalLifecycleKind.operation : OperationalLifecycleKind → OperationKind
  | .suspend => .suspend
  | .resume => .resume
  | .archive => .archive
  | .restore => .restore

def OperationalStatus.value : OperationalStatus → String
  | .active => "active"
  | .suspended => "suspended"
  | .archived => "archived"

def StorageBackend.value : StorageBackend → String
  | .sqlite => "sqlite"
  | .postgresql => "postgresql"

/-! ## Commands -/

/-- `SuspendCommand`, `ResumeCommand`, `ArchiveCommand` or `RestoreCommand`. -/
structure OperationalLifecycleCommand where
  kind : OperationalLifecycleKind
  principalId : PrincipalId
  createdVia : CreatedVia
  serviceId : Uuid
  expectedServiceRevision : ExpectedRevision
  idempotencyKey : IdempotencyKey
deriving DecidableEq

structure ExportCommand where
  principalId : PrincipalId
  createdVia : CreatedVia
  serviceId : Uuid
  expectedServiceRevision : ExpectedRevision
  idempotencyKey : IdempotencyKey
deriving DecidableEq

/-- The identity a bundle brings; its namespace is the id's. -/
structure ImportIdentity where
  principalId : PrincipalId
  serviceId : Uuid
  domainName : { s : String // Manifest.isIdentifier s = true }
deriving DecidableEq

structure ImportCommand where
  principalId : PrincipalId
  createdVia : CreatedVia
  identity : ImportIdentity
  destinationBackend : StorageBackend
  bundleRootSha256 : { s : String // isSha256 s.toList = true }
  idempotencyKey : IdempotencyKey
  owned : identity.principalId = principalId
deriving DecidableEq

inductive PurgeAuthority where
  | verifiedReceipt (receiptId : Uuid)
  | explicitOverride
deriving DecidableEq

/-- `authority.receipt_id`. -/
def PurgeAuthority.receiptId : PurgeAuthority → Option Uuid
  | .verifiedReceipt r => some r
  | .explicitOverride => none

structure PurgeCommand where
  principalId : PrincipalId
  createdVia : CreatedVia
  serviceId : Uuid
  expectedServiceRevision : ExpectedRevision
  idempotencyKey : IdempotencyKey
  authority : PurgeAuthority
deriving DecidableEq

inductive RegistryAuthorityCommand where
  | operational (c : OperationalLifecycleCommand)
  | export_ (c : ExportCommand)
  | import_ (c : ImportCommand)
  | purge (c : PurgeCommand)
deriving DecidableEq

/-! ## Fingerprints -/

/-- Four lowercase hexadecimal digits after `\u`. -/
def unicodeEscape (n : ℕ) : List Char := '\\' :: 'u' :: Sha256.hexDigits n 4

/-- A character, as `json.dumps` spells it in ASCII. -/
def asciiChar (c : Char) : List Char :=
  let n := c.toNat
  if c = '"' then ['\\', '"']
  else if c = '\\' then ['\\', '\\']
  else if c = '\n' then ['\\', 'n']
  else if c = '\r' then ['\\', 'r']
  else if c = '\t' then ['\\', 't']
  else if n = 12 then ['\\', 'f']
  else if n = 8 then ['\\', 'b']
  else if 32 ≤ n ∧ n ≤ 126 then [c]
  else if n < 0x10000 then unicodeEscape n
  else unicodeEscape (0xD800 + (n - 0x10000) / 1024) ++ unicodeEscape (0xDC00 + (n - 0x10000) % 1024)

/-- A string literal in ASCII. -/
def asciiString (s : String) : List Char := '"' :: s.toList.flatMap asciiChar ++ ['"']

/-- `json.dumps` of an object whose members are given in name order. -/
def asciiObject (members : List (String × List Char)) : List Char :=
  let texts := members.map fun m => asciiString m.1 ++ ':' :: m.2
  '{' :: (texts.intersperse [',']).flatten ++ ['}']

/-- `hashlib.sha256(text.encode("utf-8")).hexdigest()` of ASCII text. -/
def asciiFingerprint (text : List Char) : String :=
  String.ofList (sha256Hex (text.map fun c => c.toNat.toUInt8))

/-- `canonical_operational_lifecycle_json`. -/
def canonicalOperationalLifecycleJson (c : OperationalLifecycleCommand) : List Char :=
  asciiObject [
    ("created_via", asciiString c.createdVia.1),
    ("expected_service_revision", Nat.toDigits 10 c.expectedServiceRevision.1),
    ("kind", asciiString c.kind.operation.value),
    ("principal", asciiString c.principalId.1),
    ("service_id", asciiString c.serviceId.text),
    ("target_operational_status", asciiString (deterministicTargetStatus c.kind).value)]

/-- `_canonical_portable_json` of an export. -/
def canonicalExportJson (c : ExportCommand) : List Char :=
  asciiObject [
    ("created_via", asciiString c.createdVia.1),
    ("expected_service_revision", Nat.toDigits 10 c.expectedServiceRevision.1),
    ("kind", asciiString "export"),
    ("principal", asciiString c.principalId.1),
    ("service_id", asciiString c.serviceId.text)]

/-- `_canonical_portable_json` of an import. -/
def canonicalImportJson (c : ImportCommand) : List Char :=
  asciiObject [
    ("bundle_root_sha256", asciiString c.bundleRootSha256.1),
    ("created_via", asciiString c.createdVia.1),
    ("destination_backend", asciiString c.destinationBackend.value),
    ("domain_name", asciiString c.identity.domainName.1),
    ("kind", asciiString "import"),
    ("logical_namespace", asciiString (serviceNamespace c.identity.serviceId)),
    ("principal", asciiString c.principalId.1),
    ("service_id", asciiString c.identity.serviceId.text)]

/-- `_canonical_portable_json` of a purge. -/
def canonicalPurgeJson (c : PurgeCommand) : List Char :=
  asciiObject ([
    ("created_via", asciiString c.createdVia.1),
    ("expected_service_revision", Nat.toDigits 10 c.expectedServiceRevision.1),
    ("kind", asciiString "purge"),
    ("principal", asciiString c.principalId.1)] ++
    match c.authority with
    | .verifiedReceipt r => [
      ("purge_authority", asciiString "verified_receipt"),
      ("receipt_id", asciiString r.text),
      ("service_id", asciiString c.serviceId.text)]
    | .explicitOverride => [
      ("purge_authority", asciiString "explicit_override"),
      ("service_id", asciiString c.serviceId.text)])

namespace RegistryAuthorityCommand

def principalId : RegistryAuthorityCommand → PrincipalId
  | .operational c => c.principalId
  | .export_ c => c.principalId
  | .import_ c => c.principalId
  | .purge c => c.principalId

def createdVia : RegistryAuthorityCommand → CreatedVia
  | .operational c => c.createdVia
  | .export_ c => c.createdVia
  | .import_ c => c.createdVia
  | .purge c => c.createdVia

def serviceId : RegistryAuthorityCommand → Uuid
  | .operational c => c.serviceId
  | .export_ c => c.serviceId
  | .import_ c => c.identity.serviceId
  | .purge c => c.serviceId

/-- `expected_service_revision`, which an import does not have. -/
def expectedServiceRevision : RegistryAuthorityCommand → Option ExpectedRevision
  | .operational c => some c.expectedServiceRevision
  | .export_ c => some c.expectedServiceRevision
  | .import_ _ => none
  | .purge c => some c.expectedServiceRevision

def idempotencyKey : RegistryAuthorityCommand → IdempotencyKey
  | .operational c => c.idempotencyKey
  | .export_ c => c.idempotencyKey
  | .import_ c => c.idempotencyKey
  | .purge c => c.idempotencyKey

def kind : RegistryAuthorityCommand → OperationKind
  | .operational c => c.kind.operation
  | .export_ _ => .export_
  | .import_ _ => .import_
  | .purge _ => .purge

/-- `operational_lifecycle_fingerprint` and `portable_fingerprint`. -/
@[irreducible] def fingerprint : RegistryAuthorityCommand → String
  | .operational c => asciiFingerprint (canonicalOperationalLifecycleJson c)
  | .export_ c => asciiFingerprint (canonicalExportJson c)
  | .import_ c => asciiFingerprint (canonicalImportJson c)
  | .purge c => asciiFingerprint (canonicalPurgeJson c)

/-- The claim a command is recorded under. -/
def key (c : RegistryAuthorityCommand) : PrincipalId × IdempotencyKey :=
  (c.principalId, c.idempotencyKey)

end RegistryAuthorityCommand

/-! ## Evidence -/

inductive ReceiptVerification where
  | unverified
  | verified
deriving DecidableEq

inductive ReceiptKind where
  | export_
  | import_
deriving DecidableEq

@[ext]
structure TransferReceipt where
  receiptId : Uuid
  kind : ReceiptKind
  principalId : PrincipalId
  serviceId : Uuid
  bundleRootSha256 : String
  storageBackend : StorageBackend
  serviceRevision : ℕ
  operationalStatus : OperationalStatus
  verification : ReceiptVerification
  createdAt : Instant
  root : isSha256 bundleRootSha256.toList = true
  revision : 1 ≤ serviceRevision ∧ serviceRevision ≤ MAX_SERVICE_REVISION

instance : DecidableEq TransferReceipt := fun _ _ => decidable_of_iff' _ TransferReceipt.ext_iff

/-- A purged service's last trace; its receipt is the one its authority
names. -/
structure PurgeTombstone where
  principalId : PrincipalId
  serviceId : Uuid
  createdVia : CreatedVia
  purgedAt : Instant
  authority : PurgeAuthority
deriving DecidableEq

/-- What a completed claim stores. -/
inductive AuthorityResult where
  | service (s : Service)
  | receipt (r : TransferReceipt)
  | tombstone (t : PurgeTombstone)
deriving DecidableEq

end Registry

end Aipcs

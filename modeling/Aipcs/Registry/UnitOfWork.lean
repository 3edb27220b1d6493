import Aipcs.Registry.Tables

/-!
# Registry — the authority operations of a unit of work

Each operation runs inside one `BEGIN IMMEDIATE` transaction, so it is a
function of the database it finds: the outcome and the database it
leaves, or nothing when it raises, in which case the caller rolls back.
The audit rows it appends are read by no operation and are left out.
-/

namespace Aipcs

namespace Registry

inductive IdentityCollisionKind where
  | serviceId
  | domain
  | tombstone
deriving DecidableEq

/-- The intent of a pending claim. -/
inductive ActiveIntent where
  | authority (command : RegistryAuthorityCommand)
  | lifecycle (intent : LifecycleIntent)
deriving DecidableEq

/-- `RegistryAuthorityOutcome`. -/
inductive AuthorityOutcome where
  | prepared (command : RegistryAuthorityCommand)
  | completed (command : RegistryAuthorityCommand) (result : AuthorityResult)
  | recoveryRequired (intent : ActiveIntent)
  | conflict
  | staleRevision
  | unsupportedTransition
  | operationInProgress (intent : ActiveIntent)
  | identityCollision (kind : IdentityCollisionKind)
  | tombstoned (claim : TombstonedClaim)
deriving DecidableEq

/-- The kinds of the earlier claim table. -/
def earlierKinds : List OperationKind := [.legacy, .seed, .design, .materialise, .evolve]

/-- `_existing_authority_claim`. -/
def existingAuthorityClaim (row : ClaimRow) (command : RegistryAuthorityCommand) :
    AuthorityOutcome :=
  if row.operationKind ∈ earlierKinds then .conflict
  else
    match row with
    | .nonLifecycle _ => .conflict
    | .lifecycle _ _ => .conflict
    | .tombstoned t =>
      if t.fingerprint = command.fingerprint ∧ t.operationKind = command.kind ∧
        t.serviceId = command.serviceId then .tombstoned t
      else .conflict
    | .authority stored phase =>
      if stored.kind ≠ command.kind ∨ stored.fingerprint ≠ command.fingerprint then .conflict
      else
        match phase with
        | .prepared => .prepared stored
        | .recoveryRequired => .recoveryRequired (.authority stored)
        | .completed result => .completed stored result

namespace Database

variable (d : Database)

/-- `_authority_blocker`. -/
def authorityBlocker (principal : PrincipalId) (id : Uuid) : Option AuthorityOutcome :=
  match d.claims.rows.find? (blocks principal id) with
  | some (.lifecycle intent .recoveryRequired) => some (.recoveryRequired (.lifecycle intent))
  | some (.lifecycle intent _) => some (.operationInProgress (.lifecycle intent))
  | some (.authority stored .recoveryRequired) => some (.recoveryRequired (.authority stored))
  | some (.authority stored _) => some (.operationInProgress (.authority stored))
  | _ => none

/-- `_import_collision`. -/
def importCollision (c : ImportCommand) : Option IdentityCollisionKind :=
  match d.identities.find? c.identity.serviceId with
  | some row =>
    match row.state with
    | .tombstoned _ _ => some .tombstone
    | _ => some .serviceId
  | none =>
    if d.identities.rows.any fun r =>
        r.principalId = c.identity.principalId && r.state.domain = some c.identity.domainName.1 then
      some .domain
    else none

/-- `_purge_receipt_is_valid`. -/
def purgeReceiptIsValid (c : PurgeCommand) : Bool :=
  match c.authority with
  | .explicitOverride => true
  | .verifiedReceipt id =>
    (d.receipts.find? id).any fun r =>
      r.receipt.kind = .export_ && r.receipt.verification = .verified &&
        r.receipt.principalId = c.principalId && r.receipt.serviceId = c.serviceId &&
        r.receipt.serviceRevision = c.expectedServiceRevision.1 &&
        r.receipt.operationalStatus = .archived

/-- The import branch of `resolve_or_prepare`. -/
def prepareImport (c : ImportCommand) (now : Instant) : Option (AuthorityOutcome × Database) :=
  if c.destinationBackend ≠ .sqlite then some (.unsupportedTransition, d)
  else
    match d.importCollision c with
    | some kind => some (.identityCollision kind, d)
    | none => do
      let prepared ← d.insertClaim (.authority (.import_ c) .prepared)
      let identities ← prepared.identities.insert
        ⟨c.identity.serviceId, c.identity.principalId,
          .importPrepared c.identity.domainName.1 c.destinationBackend c.idempotencyKey now⟩
      some (.prepared (.import_ c), { prepared with identities })

/-- What `resolve_or_prepare` asks of the service, beyond its revision. -/
def supports (command : RegistryAuthorityCommand) (s : Service) : Bool :=
  match command with
  | .operational c =>
    (transitionTargetStatus c.kind s.designState s.operationalStatus).isSome
  | .export_ _ => !(s.designState = .materialised && s.operationalStatus = .active)
  | .purge c => s.operationalStatus = .archived && d.purgeReceiptIsValid c
  | .import_ _ => true

/-- `resolve_or_prepare` of a new command that names a service. -/
def prepareService (command : RegistryAuthorityCommand) : Option (AuthorityOutcome × Database) :=
  match d.service command.principalId command.serviceId, command.expectedServiceRevision with
  | some s, some expected =>
    if s.serviceRevision ≠ expected.1 then some (.staleRevision, d)
    else
      match d.authorityBlocker command.principalId command.serviceId with
      | some blocker => some (blocker, d)
      | none =>
        if d.supports command s then
          (d.insertClaim (.authority command .prepared)).map fun prepared =>
            (.prepared command, prepared)
        else some (.unsupportedTransition, d)
  | _, _ => some (.staleRevision, d)

/-- `resolve_or_prepare`. -/
def resolveOrPrepare (command : RegistryAuthorityCommand) (now : Instant) :
    Option (AuthorityOutcome × Database) :=
  match d.claimRow command.key with
  | some row => some (existingAuthorityClaim row command, d)
  | none =>
    match command with
    | .import_ c => d.prepareImport c now
    | _ => d.prepareService command

/-- `_authority_prepared_or_terminal`; a missing, foreign or tombstoned
claim raises. -/
def authorityPreparedOrTerminal (command : RegistryAuthorityCommand) : Option AuthorityOutcome :=
  match d.claimRow command.key with
  | none => none
  | some row =>
    match existingAuthorityClaim row command with
    | .conflict => none
    | .tombstoned _ => none
    | outcome => some outcome

/-- The `UPDATE` of a prepared claim to a terminal phase, which raises
unless it hits one row. -/
def endClaim (command : RegistryAuthorityCommand) (phase : ClaimPhase AuthorityResult) :
    Option Database :=
  match d.claimRow command.key with
  | some (.authority stored .prepared) =>
    if stored.fingerprint = command.fingerprint then
      some { d with claims := d.claims.set (.authority command phase) }
    else none
  | _ => none

/-- `_complete_authority`. -/
def completeAuthority (command : RegistryAuthorityCommand) (result : AuthorityResult) :
    Option (AuthorityOutcome × Database) :=
  (d.endClaim command (.completed result)).map fun ended => (.completed command result, ended)

/-- `_mark_authority_recovery`. -/
def markAuthorityRecovery (command : RegistryAuthorityCommand) :
    Option (AuthorityOutcome × Database) :=
  (d.endClaim command .recoveryRequired).map fun ended =>
    (.recoveryRequired (.authority command), ended)

/-- `mark_recovery_required`. -/
def markRecoveryRequired (command : RegistryAuthorityCommand) :
    Option (AuthorityOutcome × Database) :=
  match d.authorityPreparedOrTerminal command with
  | none => none
  | some (.prepared _) => d.markAuthorityRecovery command
  | some outcome => some (outcome, d)

/-! ## Finalising a status change -/

/-- `_update_live_identity`: the database afterwards, or nothing when no
live identity is hit. -/
def updateLiveIdentity (s : Service) : Option Database :=
  match d.identities.find? s.serviceId with
  | some row =>
    match row.state with
    | .live _ _ =>
      if row.principalId = s.principalId then
        some { d with identities := d.identities.set { row with
          state := .live s.domainName s.storage } }
      else none
    | _ => none
  | none => none

/-- `save`. The service row is written before the identity is looked for,
so where the second raises the database that is left has the first. -/
def save (s : Service) (expected : ℕ) : Database × Option Bool :=
  if ¬ (1 ≤ expected ∧ expected < 2 ^ 63 - 1) ∨ s.serviceRevision ≠ expected + 1 then (d, none)
  else
    match d.service s.principalId s.serviceId with
    | some row =>
      if row.serviceRevision = expected then
        let written := { d with services := d.services.set s }
        match written.updateLiveIdentity s with
        | some saved => (saved, some true)
        | none => (written, none)
      else (d, some false)
    | none => (d, some false)

/-- The status change of `finalize_operational`: the database and the
service saved, or the database as it stands when recovery is marked. -/
def applyOperational (c : OperationalLifecycleCommand) (at_ : Instant) :
    Database × Option Service :=
  match d.service c.principalId c.serviceId with
  | none => (d, none)
  | some s =>
    if s.serviceRevision ≠ c.expectedServiceRevision.1 ∨ at_.before s.updatedAt then (d, none)
    else
      match transitionTargetStatus c.kind s.designState s.operationalStatus with
      | none => (d, none)
      | some target =>
        match s.withStatus target at_ with
        | none => (d, none)
        | some terminal =>
          match d.save terminal c.expectedServiceRevision.1 with
          | (saved, some true) => (saved, some terminal)
          | (saved, _) => (saved, none)

/-- `finalize_operational`. -/
def finalizeOperational (c : OperationalLifecycleCommand) (at_ : Instant) :
    Option (AuthorityOutcome × Database) :=
  match d.authorityPreparedOrTerminal (.operational c) with
  | none => none
  | some (.prepared _) =>
    match d.applyOperational c at_ with
    | (saved, some terminal) => saved.completeAuthority (.operational c) (.service terminal)
    | (left, none) => left.markAuthorityRecovery (.operational c)
  | some outcome => some (outcome, d)

/-! ## Finalising an export -/

/-- The receipt a prepared export may be completed with. -/
def receiptMatches (c : ExportCommand) (s : Service) (r : TransferReceipt) : Bool :=
  s.serviceRevision = c.expectedServiceRevision.1 && r.kind = .export_ &&
    r.verification = .verified && r.storageBackend = .sqlite && r.principalId = c.principalId &&
    r.serviceId = c.serviceId && r.serviceRevision = c.expectedServiceRevision.1 &&
    r.operationalStatus = s.operationalStatus && s.storage.all (r.storageBackend = ·) &&
    (d.receipts.find? r.receiptId).isNone

/-- `complete_export`. -/
def completeExport (c : ExportCommand) (r : TransferReceipt) :
    Option (AuthorityOutcome × Database) :=
  match d.authorityPreparedOrTerminal (.export_ c) with
  | none => none
  | some (.prepared _) =>
    match (d.service c.principalId c.serviceId).filter fun s => d.receiptMatches c s r with
    | none => d.markAuthorityRecovery (.export_ c)
    | some _ =>
      (d.insertReceipt ⟨c.idempotencyKey, r⟩).bind fun received =>
        received.completeAuthority (.export_ c) (.receipt r)
  | some outcome => some (outcome, d)

/-! ## Finalising a purge -/

/-- May the service be purged under the claim? -/
def purgeable (c : PurgeCommand) (s : Service) (at_ : Instant) : Bool :=
  s.serviceRevision = c.expectedServiceRevision.1 && s.operationalStatus = .archived &&
    !(at_.before s.updatedAt) && d.purgeReceiptIsValid c

/-- A claim that a purge turns into a tombstone: one of the service under
another key. -/
def otherClaim (c : PurgeCommand) (r : ClaimRow) : Bool :=
  r.principalId = c.principalId && r.serviceId = c.serviceId &&
    r.idempotencyKey ≠ c.idempotencyKey

/-- The row after the purge's `UPDATE` of the other claims. -/
def tombstoneRow (c : PurgeCommand) (r : ClaimRow) : ClaimRow :=
  if otherClaim c r then r.tombstone.getD r else r

theorem key_tombstoneRow (c : PurgeCommand) (r : ClaimRow) :
    (tombstoneRow c r).key = r.key := by
  unfold tombstoneRow ClaimRow.tombstone
  by_cases h : otherClaim c r = true
  · rw [if_pos h]
    by_cases hk : r.operationKind ≠ .purge
    · rw [dif_pos hk]
      rfl
    · rw [dif_neg hk]
      rfl
  · rw [if_neg h]

/-- The deletions and tombstones of `finalize_purge`, which raise when a
purge claim would become a tombstone or no live identity is left to. -/
def erase (c : PurgeCommand) (at_ : Instant) : Option Database :=
  if d.claims.rows.any fun r => otherClaim c r && r.operationKind = .purge then none
  else
    match d.identities.find? c.serviceId with
    | some row =>
      match row.state with
      | .live _ _ =>
        if row.principalId = c.principalId then
          some {
            services := d.services.keep fun s =>
              !(s.principalId = c.principalId && s.serviceId = c.serviceId)
            claims := d.claims.update (tombstoneRow c) (key_tombstoneRow c)
            identities := d.identities.set { row with
              state := .tombstoned c.idempotencyKey at_ }
            receipts := d.receipts.keep fun r =>
              !(r.receipt.principalId = c.principalId && r.receipt.serviceId = c.serviceId) }
        else none
      | _ => none
    | none => none

/-- `finalize_purge`. -/
def finalizePurge (c : PurgeCommand) (at_ : Instant) : Option (AuthorityOutcome × Database) :=
  match d.authorityPreparedOrTerminal (.purge c) with
  | none => none
  | some (.prepared _) =>
    match (d.service c.principalId c.serviceId).filter fun s => d.purgeable c s at_ with
    | none => d.markAuthorityRecovery (.purge c)
    | some s =>
      (d.erase c at_).bind fun erased =>
        erased.completeAuthority (.purge c)
          (.tombstone ⟨s.principalId, s.serviceId, c.createdVia, at_, c.authority⟩)
  | some outcome => some (outcome, d)

end Database

end Registry

end Aipcs

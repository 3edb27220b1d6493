import Aipcs.Common.Uuid
import Aipcs.Manifest.Definition

/-!
# Registry — services and the operational lifecycle

A `Service` is one row of the registry's service table. Its constructor
checks are carried as fields, so a service that exists is a service the
program could build. The operational lifecycle moves a service between
three statuses; `transitionTargetStatus` is the matrix it moves by.
-/

namespace Aipcs

namespace Registry

def MAX_SERVICE_REVISION : ℕ := 2 ^ 63 - 1
def MAX_SCHEMA_VERSION : ℕ := 65
def MAX_PRINCIPAL_LENGTH : ℕ := 128
def MAX_CREATED_VIA_LENGTH : ℕ := 64
def MAX_IDEMPOTENCY_KEY_LENGTH : ℕ := 128

/-! ## Text -/

/-- The characters `str.strip` takes off. -/
def isSpace (c : Char) : Bool :=
  let n := c.toNat
  (9 ≤ n && n ≤ 13) || (28 ≤ n && n ≤ 32) || n = 0x85 || n = 0xA0 || n = 0x1680 ||
    (0x2000 ≤ n && n ≤ 0x200A) || n = 0x2028 || n = 0x2029 || n = 0x202F || n = 0x205F ||
    n = 0x3000

/-- `_valid_text`: present, without outer white space, and not too long. -/
def validText (s : String) (maximum : ℕ) : Bool :=
  s ≠ "" && !(s.toList.head?.any isSpace) && !(s.toList.getLast?.any isSpace) &&
    s.length ≤ maximum

/-- A text that `_valid_text` lets pass. -/
abbrev ValidText (maximum : ℕ) : Type := { s : String // validText s maximum = true }

abbrev PrincipalId : Type := ValidText MAX_PRINCIPAL_LENGTH
abbrev CreatedVia : Type := ValidText MAX_CREATED_VIA_LENGTH
abbrev IdempotencyKey : Type := ValidText MAX_IDEMPOTENCY_KEY_LENGTH

/-- A service revision a command may expect. -/
abbrev ExpectedRevision : Type := { n : ℕ // 1 ≤ n ∧ n < MAX_SERVICE_REVISION }

/-! ## Services -/

inductive StorageBackend where
  | sqlite
  | postgresql
deriving DecidableEq

inductive DesignState where
  | seeded
  | materialised
deriving DecidableEq

inductive OperationalStatus where
  | active
  | suspended
  | archived
deriving DecidableEq

/-- `svc_<hex>`, the store a service id names. -/
def serviceNamespace (id : Uuid) : String := "svc_" ++ id.hex

/-- A namespace is one service's. -/
theorem serviceNamespace_injective : Function.Injective serviceNamespace := by
  intro u v h
  exact Uuid.hex_injective (String.append_right_inj "svc_" |>.1 h)

/-- A row of the service table. The store a materialised service lives in
is named after its id, so of `MaterialisationStorage` the backend is what
is left to say. -/
structure Service where
  serviceId : Uuid
  principalId : PrincipalId
  domainName : String
  domainClass : String
  intentDescription : String
  createdAt : Instant
  updatedAt : Instant
  lastActivityAt : Instant
  manifest : Option Manifest.ManifestV2
  designState : DesignState
  operationalStatus : OperationalStatus
  serviceRevision : ℕ
  materialisedAt : Option Instant
  storage : Option StorageBackend
  updated : createdAt.micros ≤ updatedAt.micros
  active : updatedAt.micros ≤ lastActivityAt.micros
  revision : 1 ≤ serviceRevision ∧ serviceRevision ≤ MAX_SERVICE_REVISION
  paired : materialisedAt.isNone = storage.isNone
  during : ∀ t ∈ materialisedAt, createdAt.micros ≤ t.micros ∧ t.micros ≤ updatedAt.micros
  seeded : designState = .seeded → storage = none
  complete : designState = .materialised → manifest.isSome = true ∧ storage.isSome = true
deriving DecidableEq

theorem first_revision : 1 ≤ 1 ∧ 1 ≤ MAX_SERVICE_REVISION := by decide

namespace Service

variable {s : Service} {at_ : Instant}

theorem created_le (h : s.updatedAt.micros ≤ at_.micros ∧ s.serviceRevision + 1 ≤ MAX_SERVICE_REVISION) :
    s.createdAt.micros ≤ at_.micros := Nat.le_trans s.updated h.1

theorem revision_succ (h : s.updatedAt.micros ≤ at_.micros ∧ s.serviceRevision + 1 ≤ MAX_SERVICE_REVISION) :
    1 ≤ s.serviceRevision + 1 ∧ s.serviceRevision + 1 ≤ MAX_SERVICE_REVISION := ⟨by omega, h.2⟩

theorem during_le (h : s.updatedAt.micros ≤ at_.micros ∧ s.serviceRevision + 1 ≤ MAX_SERVICE_REVISION) :
    ∀ t ∈ s.materialisedAt, s.createdAt.micros ≤ t.micros ∧ t.micros ≤ at_.micros :=
  fun t ht => ⟨(s.during t ht).1, Nat.le_trans (s.during t ht).2 h.1⟩

/-- `service.schema_version`, which a manifest and nothing else brings. -/
def schemaVersion (s : Service) : Option ℕ := s.manifest.map (·.schemaVersion)

/-- `replace(service, operational_status=target, updated_at=at,
last_activity_at=at, service_revision=service.service_revision + 1)`, or
nothing when the constructor refuses. -/
def withStatus (s : Service) (target : OperationalStatus) (at_ : Instant) : Option Service :=
  if h : s.updatedAt.micros ≤ at_.micros ∧ s.serviceRevision + 1 ≤ MAX_SERVICE_REVISION then
    some { s with
      operationalStatus := target
      updatedAt := at_
      lastActivityAt := at_
      serviceRevision := s.serviceRevision + 1
      updated := created_le h
      active := at_.le_self
      revision := revision_succ h
      during := during_le h }
  else none

theorem withStatus_eq_some {s u : Service} {target : OperationalStatus} {at_ : Instant}
    (h : s.withStatus target at_ = some u) :
    u.serviceId = s.serviceId ∧ u.principalId = s.principalId ∧
      u.operationalStatus = target ∧ u.designState = s.designState ∧ u.storage = s.storage ∧
      u.serviceRevision = s.serviceRevision + 1 := by
  unfold withStatus at h
  split at h
  · obtain rfl := Option.some.inj h
    exact ⟨rfl, rfl, rfl, rfl, rfl, rfl⟩
  · exact absurd h (by simp)

end Service

/-! ## The operational lifecycle -/

inductive OperationalLifecycleKind where
  | suspend
  | resume
  | archive
  | restore
deriving DecidableEq

inductive OperationalLifecyclePhase where
  | prepared
  | completed
  | recoveryRequired
deriving DecidableEq

/-- `deterministic_target_status`. -/
def deterministicTargetStatus : OperationalLifecycleKind → OperationalStatus
  | .suspend => .suspended
  | .resume => .active
  | .archive => .archived
  | .restore => .suspended

/-- `allowed_sources`. -/
def allowedSources : OperationalLifecycleKind → List OperationalStatus
  | .suspend => [.active]
  | .resume => [.suspended]
  | .archive => [.active, .suspended]
  | .restore => [.archived]

/-- `transition_target_status`. The design state is checked to be one of
the two there are, and plays no other part. -/
def transitionTargetStatus (kind : OperationalLifecycleKind) (_ : DesignState)
    (current : OperationalStatus) : Option OperationalStatus :=
  if current ∈ allowedSources kind then some (deterministicTargetStatus kind) else none

/-- A transition that is admitted goes to the status its kind names. -/
theorem transitionTargetStatus_eq_some {kind : OperationalLifecycleKind} {design : DesignState}
    {current target : OperationalStatus}
    (h : transitionTargetStatus kind design current = some target) :
    current ∈ allowedSources kind ∧ target = deterministicTargetStatus kind := by
  unfold transitionTargetStatus at h
  by_cases hmem : current ∈ allowedSources kind
  · rw [if_pos hmem] at h
    exact ⟨hmem, (Option.some.inj h).symm⟩
  · rw [if_neg hmem] at h
    exact absurd h (by simp)

end Registry

end Aipcs

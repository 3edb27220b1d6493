import Mathlib.Logic.Basic

/-!
# Lifecycle — recovery planning

The vocabulary of the lifecycle coordinator and its planner: from the
phase of an intent and one ordered observation of the storage, the one
action to take next. The observation's constructors refuse combinations
that no ordered observation has.
-/

namespace Aipcs

namespace Lifecycle

inductive LifecyclePhase where
  | prepared
  | completed
  | recoveryRequired
deriving DecidableEq

inductive FoundationObservation where
  | uninitialised
  | outdated
  | ready
  | dirty
  | incompatible
  | notObserved
  | busy
  | unavailable
  | uncertain
deriving DecidableEq

inductive DomainObservation where
  | unmaterialised
  | ready
  | incompatible
  | notObserved
  | busy
  | unavailable
  | uncertain
deriving DecidableEq

inductive DeferredResult where
  | storageBusy
  | operationUncertain
  | storageUnavailable
deriving DecidableEq

/-- `RecoveryPlan`: an action, and for a deferral the result it defers with. -/
inductive RecoveryPlan where
  | prepareFoundation
  | applyInitialSchema
  | applyTransition
  | finalizeRegistry
  | replayComplete
  | deferObservation (result : DeferredResult)
  | recoveryRequired
deriving DecidableEq

/-- `LifecycleResultCategory`. -/
inductive ResultCategory where
  | malformedInput
  | unsupportedTransition
  | staleRevision
  | changedFingerprint
  | operationInProgress
  | recoveryRequired
  | storageBusy
  | operationUncertain
  | storageUnavailable
  | internalFailure
deriving DecidableEq

/-- The category a deferral ends in. -/
def DeferredResult.category : DeferredResult → ResultCategory
  | .storageBusy => .storageBusy
  | .operationUncertain => .operationUncertain
  | .storageUnavailable => .storageUnavailable

/-- `lifecycle_result_retryable`. -/
def ResultCategory.retryable : ResultCategory → Bool
  | .storageBusy | .operationInProgress | .operationUncertain => true
  | _ => false

/-! ## Observations -/

/-- `_FOUNDATION_EXACT_NON_READY | _FOUNDATION_NON_STATE`. -/
def FoundationObservation.nonReady : FoundationObservation → Bool
  | .ready | .notObserved => false
  | _ => true

/-- `_DOMAIN_NON_STATE`. -/
def DomainObservation.nonState : DomainObservation → Bool
  | .busy | .unavailable | .uncertain => true
  | _ => false

/-- `MaterialiseRecoveryObservation` or `EvolveRecoveryObservation`. -/
inductive Observation where
  | materialise (phase : LifecyclePhase) (foundation : FoundationObservation)
      (target : DomainObservation)
  | evolve (phase : LifecyclePhase) (foundation : FoundationObservation)
      (target source : DomainObservation)
deriving DecidableEq

/-- `observed.foundation`. -/
def Observation.foundation : Observation → FoundationObservation
  | .materialise _ f _ => f
  | .evolve _ f _ _ => f

/-- `_validate_ready_evolve_observation`. -/
def readyEvolveValid : DomainObservation → DomainObservation → Bool
  | .ready, source => source = .notObserved
  | .busy, source | .unavailable, source | .uncertain, source => source = .notObserved
  | .unmaterialised, source => source = .unmaterialised || source.nonState
  | .incompatible, source => source = .ready || source = .incompatible || source.nonState
  | .notObserved, _ => false

/-- The checks of the observations' constructors. -/
def Observation.valid : Observation → Bool
  | .materialise .prepared foundation target =>
    if foundation = .ready then target ≠ .notObserved
    else foundation.nonReady && target = .notObserved
  | .materialise _ foundation target => foundation = .notObserved && target = .notObserved
  | .evolve .prepared foundation target source =>
    if foundation = .ready then readyEvolveValid target source
    else foundation.nonReady && target = .notObserved && source = .notObserved
  | .evolve _ foundation target source =>
    foundation = .notObserved && target = .notObserved && source = .notObserved

/-! ## Planning -/

/-- `_deferred_foundation`. -/
def deferredFoundation : FoundationObservation → Option RecoveryPlan
  | .busy => some (.deferObservation .storageBusy)
  | .uncertain => some (.deferObservation .operationUncertain)
  | .unavailable => some (.deferObservation .storageUnavailable)
  | _ => none

/-- `_deferred_domain`. -/
def deferredDomain : DomainObservation → Option RecoveryPlan
  | .busy => some (.deferObservation .storageBusy)
  | .uncertain => some (.deferObservation .operationUncertain)
  | .unavailable => some (.deferObservation .storageUnavailable)
  | _ => none

/-- `_plan_materialise`. -/
def planMaterialise (foundation : FoundationObservation) (target : DomainObservation) : RecoveryPlan :=
  match foundation with
  | .uninitialised | .outdated | .dirty => .prepareFoundation
  | .incompatible => .recoveryRequired
  | _ =>
    (deferredDomain target).getD <|
      match target with
      | .unmaterialised => .applyInitialSchema
      | .ready => .finalizeRegistry
      | _ => .recoveryRequired

/-- `_plan_evolve`. -/
def planEvolve (foundation : FoundationObservation) (target source : DomainObservation) :
    RecoveryPlan :=
  match foundation with
  | .outdated | .dirty => .prepareFoundation
  | .ready =>
    (deferredDomain target).getD <|
      match target with
      | .ready => .finalizeRegistry
      | .unmaterialised => (deferredDomain source).getD .recoveryRequired
      | .incompatible =>
        (deferredDomain source).getD <|
          if source = .ready then .applyTransition else .recoveryRequired
      | _ => .recoveryRequired
  | _ => .recoveryRequired

/-- `plan_recovery`, of an observation in the intent's own phase and kind. -/
def planRecovery : Observation → RecoveryPlan
  | .materialise .completed _ _ | .evolve .completed _ _ _ => .replayComplete
  | .materialise .recoveryRequired _ _ | .evolve .recoveryRequired _ _ _ => .recoveryRequired
  | .materialise .prepared foundation target =>
    (deferredFoundation foundation).getD (planMaterialise foundation target)
  | .evolve .prepared foundation target source =>
    (deferredFoundation foundation).getD (planEvolve foundation target source)

/-- **What a materialise plans recovery on**: a foundation or a target
that was read and is incompatible. -/
theorem planRecovery_materialise {f : FoundationObservation} {t : DomainObservation}
    (hv : (Observation.materialise .prepared f t).valid = true)
    (h : planRecovery (.materialise .prepared f t) = .recoveryRequired) :
    f = .incompatible ∨ f = .ready ∧ t = .incompatible := by
  revert hv h
  cases f <;> cases t <;> decide

/-- **What an evolve plans recovery on**: a foundation that is incompatible
or absent, or a target and a source that are both absent or both incompatible. -/
theorem planRecovery_evolve {f : FoundationObservation} {t s : DomainObservation}
    (hv : (Observation.evolve .prepared f t s).valid = true)
    (h : planRecovery (.evolve .prepared f t s) = .recoveryRequired) :
    f = .incompatible ∨ f = .uninitialised ∨
      f = .ready ∧ (t = .unmaterialised ∧ s = .unmaterialised ∨
        t = .incompatible ∧ s = .incompatible) := by
  revert hv h
  cases f <;> cases t <;> cases s <;> decide

/-- The registry is finalised where the target is ready. -/
theorem planRecovery_materialise_ready {f : FoundationObservation} {t : DomainObservation}
    (h : planRecovery (.materialise .prepared f t) = .finalizeRegistry) : t = .ready := by
  revert h
  cases f <;> cases t <;> decide

theorem planRecovery_evolve_ready {f : FoundationObservation} {t s : DomainObservation}
    (h : planRecovery (.evolve .prepared f t s) = .finalizeRegistry) : t = .ready := by
  revert h
  cases f <;> cases t <;> cases s <;> decide

/-- Each kind acts on the schema in its own way. -/
theorem planRecovery_evolve_ne_initial {f : FoundationObservation} {t s : DomainObservation} :
    planRecovery (.evolve .prepared f t s) ≠ .applyInitialSchema := by
  cases f <;> cases t <;> cases s <;> decide

theorem planRecovery_materialise_ne_transition {f : FoundationObservation} {t : DomainObservation} :
    planRecovery (.materialise .prepared f t) ≠ .applyTransition := by
  cases f <;> cases t <;> decide

end Lifecycle

end Aipcs

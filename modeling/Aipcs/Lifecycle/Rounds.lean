import Aipcs.Lifecycle.Guarded

/-!
# Lifecycle — the rounds of an execution

`execute` again, with a log of its rounds: what each observed, and what it
had `_apply` do. The log adds no call and changes no result (`request_eq`).
An action is attempted once, and a foundation that is dirty again prepared
once more; so whatever the calls answer there are four rounds at most.
-/

namespace Aipcs

namespace Lifecycle

open Registry Relational Program

/-! ## The log -/

/-- `unavailable` and `uncertain`. -/
def FoundationObservation.inconclusive : FoundationObservation → Bool
  | .unavailable | .uncertain => true
  | _ => false

/-- `unavailable` and `uncertain`. -/
def DomainObservation.inconclusive : DomainObservation → Bool
  | .unavailable | .uncertain => true
  | _ => false

/-- Was anything in the observation unavailable or uncertain? -/
def Observation.inconclusive : Observation → Bool
  | .materialise _ foundation target => foundation.inconclusive || target.inconclusive
  | .evolve _ foundation target source =>
    foundation.inconclusive || target.inconclusive || source.inconclusive

/-- A round of the loop: what `_observe` gave, where it gave an observation,
and the action `_apply` was called with, where it was. -/
structure Round where
  observed : Option Observation
  applied : Option RecoveryPlan
deriving DecidableEq

/-- Did the round prepare the foundation? -/
def Round.prepares (r : Round) : Bool := r.applied = some .prepareFoundation

/-- Did the round act on the schema? -/
def Round.changesSchema (r : Round) : Bool :=
  r.applied = some .applyInitialSchema || r.applied = some .applyTransition

/-- How a round ends: with the result of the run, or before another round. -/
abbrev Outcome (p : Progress) : Type := Except ExecutionResult { p' : Progress // p'.left < p.left }

/-- One round of the loop of `execute`. -/
def oneRound (i : LifecycleIntent) (l : ServiceStoreLocator) (target : RelationalSpecification)
    (transition : Option RelationalTransition) (p : Progress) : Run (Round × Outcome p) := do
  match ← observe i l target transition with
  | .error result => pure (⟨none, none⟩, .error result)
  | .ok o =>
    if o.valid = false then pure (⟨some o, none⟩, .error (.failed .internalFailure))
    else
      match planRecovery o with
      | .deferObservation r => pure (⟨some o, none⟩, .error (deferred p r))
      | .recoveryRequired => do
        let result ← finalizeRecovery i
        pure (⟨some o, none⟩, .error result)
      | .finalizeRegistry => do
        let result ← finalizeCompleted i l
        pure (⟨some o, none⟩, .error result)
      | .replayComplete => pure (⟨some o, none⟩, .error (.failed .internalFailure))
      | plan =>
        if hattempted : plan ∈ p.attempted then
          if hagain : p.mayReconcile plan o = true then do
            match ← applyFoundation l with
            | .error result => pure (⟨some o, some plan⟩, .error result)
            | .ok state =>
              pure (⟨some o, some plan⟩,
                .ok ⟨{ p with foundationReconciled := true, foundationResult := some state.status },
                  Progress.left_reconcile (Progress.not_reconciled hagain) _⟩)
          else pure (⟨some o, none⟩, .error (.failed .operationUncertain))
        else if hprepare : plan = .prepareFoundation then do
          match ← applyFoundation l with
          | .error result => pure (⟨some o, some plan⟩, .error result)
          | .ok state =>
            pure (⟨some o, some plan⟩,
              .ok ⟨{ p with attempted := plan :: p.attempted, foundationResult := some state.status },
                Progress.left_attempt (by rw [hprepare]; decide) hattempted _⟩)
        else if hschema : plan ∈ actions then do
          match ← applySchema plan l target transition with
          | some result => pure (⟨some o, some plan⟩, .error result)
          | none =>
            pure (⟨some o, some plan⟩, .ok ⟨{ p with attempted := plan :: p.attempted },
              Progress.left_attempt hschema hattempted p.foundationResult⟩)
        else pure (⟨some o, none⟩, .error (.failed .internalFailure))

/-- The loop of `execute`, with its log. -/
def rounds (i : LifecycleIntent) (l : ServiceStoreLocator) (target : RelationalSpecification)
    (transition : Option RelationalTransition) (p : Progress) : Run (List Round × ExecutionResult) := do
  match ← oneRound i l target transition p with
  | (r, .error result) => pure ([r], result)
  | (r, .ok ⟨p', _hleft⟩) =>
    let (log, result) ← rounds i l target transition p'
    pure (r :: log, result)
termination_by p.left

/-- `execute`, with the log of its rounds. -/
def executeRounds (command : LifecycleCommand) : Run (List Round × ExecutionResult) := do
  match ← admission command with
  | .error result => pure ([], result)
  | .ok (i, source) =>
    if sourceMatches i source = false then do
      let result ← finalizeRecovery i
      pure ([], result)
    else do
      match ← locate i source with
      | .error result => pure ([], result)
      | .ok l =>
        match compile i source with
        | none => pure ([], .failed .internalFailure)
        | some (target, transition) => rounds i l target transition {}

/-- `execute` of any object, which may be no command. -/
def request : Option LifecycleCommand → Run ExecutionResult
  | none => pure (.failed .malformedInput)
  | some command => execute command

/-- `request`, with the log of its rounds. -/
def requestRounds : Option LifecycleCommand → Run (List Round × ExecutionResult)
  | none => pure ([], .failed .malformedInput)
  | some command => executeRounds command

variable {i : LifecycleIntent} {l : ServiceStoreLocator} {target : RelationalSpecification}
variable {transition : Option RelationalTransition}

/-! ## The log is only a log -/

/-- The loop is a round, and the loop again where it does not end the run. -/
theorem reconcile_oneRound (p : Progress) : reconcile i l target transition p =
    oneRound i l target transition p >>= fun x =>
      match x.2 with
      | .error result => pure result
      | .ok p' => reconcile i l target transition p'.1 := by
  rw [reconcile, oneRound, bind_assoc]
  congr 1
  funext r
  rcases r with result | o
  · rfl
  dsimp only
  by_cases hvalid : o.valid = false
  · rw [if_pos hvalid, if_pos hvalid]
    rfl
  rw [if_neg hvalid, if_neg hvalid]
  generalize planRecovery o = plan
  cases plan with
  | deferObservation r => rfl
  | recoveryRequired =>
    dsimp only
    rw [bind_assoc]
    exact (bind_pure _).symm
  | finalizeRegistry =>
    dsimp only
    rw [bind_assoc]
    exact (bind_pure _).symm
  | replayComplete => rfl
  | _ =>
    dsimp only
    split_ifs with hattempted hagain hprepare hschema
    · rw [bind_assoc]
      congr 1
      funext r
      rcases r with result | state <;> rfl
    · rfl
    · rw [bind_assoc]
      congr 1
      funext r
      rcases r with result | state <;> rfl
    · rw [bind_assoc]
      congr 1
      funext r
      rcases r with _ | result <;> rfl
    · rfl

/-- The rounds of a loop, by induction on the rounds it has left. -/
theorem reconcile_eq (n : ℕ) : ∀ p : Progress, p.left = n →
    reconcile i l target transition p = Prod.snd <$> rounds i l target transition p := by
  induction n using Nat.strong_induction_on with
  | _ n ih =>
    intro p hn
    rw [reconcile_oneRound, rounds, map_bind]
    congr 1
    funext x
    rcases x with ⟨r, result | ⟨p', hleft⟩⟩
    · rfl
    · rw [map_bind]
      exact (ih _ (hn ▸ hleft) p' rfl).trans (map_eq_pure_bind _ _)

/-- **The log of a run** adds no call to it and changes no result. -/
theorem request_eq (command : Option LifecycleCommand) : request command = Prod.snd <$> requestRounds command := by
  cases command with
  | none => rfl
  | some command =>
    rw [request, requestRounds, execute, executeRounds, map_bind]
    congr 1
    funext r
    rcases r with result | ⟨i, source⟩
    · rfl
    dsimp only
    split_ifs
    · rw [map_bind]
      exact (bind_pure _).symm
    · rw [map_bind]
      congr 1
      funext r
      rcases r with result | l
      · rfl
      dsimp only
      cases compile i source with
      | none => rfl
      | some c => exact reconcile_eq _ {} rfl

/-! ## How many calls -/

theorem refresh_atMost : AtMost 1 (refresh l) := by
  refine AtMost.perform fun reply => ?_
  rcases reply with state | _ | error
  · exact trivial
  · exact trivial
  · cases error <;> exact trivial

theorem promote_atMost {state : MigrationState} : AtMost 1 (promote l state) := by
  unfold promote
  split_ifs
  · exact trivial
  · exact refresh_atMost
  · exact trivial

theorem reinspect_atMost : AtMost 2 (reinspect l) := by
  refine AtMost.perform fun reply => ?_
  rcases reply with state | _ | error
  · exact promote_atMost
  · exact trivial
  · cases error <;> exact trivial

theorem reconcileJournal_atMost : AtMost 3 (reconcileJournal l) := by
  refine AtMost.perform fun reply => ?_
  rcases reply with state | _ | error
  · exact promote_atMost.mono (by omega : 1 ≤ 2)
  · exact trivial
  · cases error <;> first | exact reinspect_atMost | exact trivial

theorem reconcileUnavailable_atMost : AtMost 1 (reconcileUnavailable l) := by
  refine AtMost.perform fun reply => ?_
  rcases reply with state | _ | error
  · exact trivial
  · exact trivial
  · cases error <;> exact trivial

theorem foundation_atMost : AtMost 4 (foundation l) := by
  refine AtMost.perform fun reply => ?_
  rcases reply with state | _ | error
  · exact trivial
  · exact trivial
  · cases error with
    | transientJournal => exact reconcileJournal_atMost
    | unavailable => exact reconcileUnavailable_atMost.mono (Nat.le_add_left 1 2)
    | _ => exact trivial

theorem inspectAgain_atMost {s : RelationalSpecification} : AtMost 1 (inspectAgain l s) := by
  refine AtMost.perform fun reply => ?_
  rcases reply with status | _ | error
  · exact trivial
  · exact trivial
  · cases error <;> exact trivial

theorem domainState_atMost {s : RelationalSpecification} : AtMost 6 (domainState l s) := by
  refine AtMost.perform fun reply => ?_
  rcases reply with status | _ | error
  · exact trivial
  · exact trivial
  · cases error with
    | transientJournal =>
      refine AtMost.bind (c := 1) foundation_atMost fun r => ?_
      rcases r with result | f
      · exact trivial
      · cases f <;> first | exact inspectAgain_atMost | exact trivial
    | _ => exact trivial

theorem sourceState_atMost {t : DomainObservation} : AtMost 6 (sourceState l transition t) := by
  unfold sourceState
  split_ifs
  · cases transition with
    | none => exact trivial
    | some t => exact domainState_atMost
  · exact trivial

/-- An observation reads the foundation, and under it the target and the source. -/
theorem observe_atMost : AtMost 16 (observe i l target transition) := by
  refine AtMost.bind (c := 12) foundation_atMost fun r => ?_
  rcases r with result | f
  · exact trivial
  · dsimp only
    split_ifs
    · refine AtMost.bind (c := 6) domainState_atMost fun r => ?_
      rcases r with result | t <;> exact trivial
    · exact trivial
    · refine AtMost.bind (c := 6) domainState_atMost fun r => ?_
      rcases r with result | t
      · exact trivial
      · refine AtMost.bind (b := 6) (c := 0) sourceState_atMost fun r => ?_
        rcases r with result | s <;> exact trivial
    · exact trivial

theorem finalizeRecovery_atMost : AtMost 2 (finalizeRecovery i) := by
  refine AtMost.perform fun reply => ?_
  rcases reply with at_ | _ | error
  · exact fun _ => trivial
  · exact trivial
  · exact trivial

theorem finalizeCompleted_atMost : AtMost 2 (finalizeCompleted i l) := by
  refine AtMost.perform fun reply => ?_
  rcases reply with at_ | _ | error
  · exact fun _ => trivial
  · exact trivial
  · exact trivial

theorem admission_atMost {command : LifecycleCommand} : AtMost 3 (admission command) := by
  refine AtMost.perform fun reply => ?_
  rcases reply with error | ⟨⟨outcome, source⟩, failure⟩
  · exact trivial
  · cases outcome with
    | prepared i =>
      dsimp only
      split_ifs
      · exact trivial
      · cases source with
        | none => exact AtMost.bind (c := 0) finalizeRecovery_atMost fun _ => trivial
        | some s => exact trivial
    | _ => exact trivial

theorem locate_atMost {source : Service} : AtMost 1 (locate i source) := by
  refine AtMost.perform fun reply => ?_
  rcases reply with ⟨info, l⟩ | _ | error
  · dsimp only
    split_ifs <;> exact trivial
  · exact trivial
  · cases error <;> exact trivial

theorem applyFoundation_atMost : AtMost 1 (applyFoundation l) := by
  refine AtMost.perform fun reply => ?_
  rcases reply with state | _ | error <;> exact trivial

/-! ## What an observation plans -/

/-- The action that an intent's kind has on the schema. -/
def schemaAction (i : LifecycleIntent) : RecoveryPlan :=
  if i.kind = .materialise then .applyInitialSchema else .applyTransition

/-- An observation has the schema acted on as the intent's kind does, and
only where it is conclusive. -/
def Observation.Suits (i : LifecycleIntent) (o : Observation) : Prop :=
  planRecovery o = .applyInitialSchema ∨ planRecovery o = .applyTransition →
    planRecovery o = schemaAction i ∧ o.inconclusive = false

theorem planRecovery_materialise_conclusive {f : FoundationObservation} {t : DomainObservation}
    (h : planRecovery (.materialise .prepared f t) = .applyInitialSchema) :
    (Observation.materialise .prepared f t).inconclusive = false := by
  revert h
  cases f <;> cases t <;> decide

theorem planRecovery_evolve_conclusive {f : FoundationObservation} {t s : DomainObservation}
    (h : planRecovery (.evolve .prepared f t s) = .applyTransition) :
    (Observation.evolve .prepared f t s).inconclusive = false := by
  revert h
  cases f <;> cases t <;> cases s <;> decide

theorem suits_materialise {f : FoundationObservation} {t : DomainObservation} (hi : i.kind = .materialise) :
    (Observation.materialise .prepared f t).Suits i := by
  rintro (h | h)
  · exact ⟨by rw [h, schemaAction, if_pos hi], planRecovery_materialise_conclusive h⟩
  · exact absurd h planRecovery_materialise_ne_transition

theorem suits_evolve {f : FoundationObservation} {t s : DomainObservation} (hi : i.kind ≠ .materialise) :
    (Observation.evolve .prepared f t s).Suits i := by
  rintro (h | h)
  · exact absurd h planRecovery_evolve_ne_initial
  · exact ⟨by rw [h, schemaAction, if_neg hi], planRecovery_evolve_conclusive h⟩

theorem observe_suits :
    Returns (fun r => ∀ o, r = .ok o → o.Suits i) (observe i l target transition) := by
  refine Returns.bind (returns_true _) fun r _ => ?_
  rcases r with result | f
  · exact fun _ h => absurd h (by simp)
  dsimp only
  split_ifs with hkind hready hready
  · refine Returns.bind (returns_true _) fun r _ => ?_
    rcases r with result | t
    · exact fun _ h => absurd h (by simp)
    · rintro o ⟨⟩
      exact suits_materialise hkind
  · rintro o ⟨⟩
    exact suits_materialise hkind
  · refine Returns.bind (returns_true _) fun r _ => ?_
    rcases r with result | t
    · exact fun _ h => absurd h (by simp)
    refine Returns.bind (returns_true _) fun r _ => ?_
    rcases r with result | s
    · exact fun _ h => absurd h (by simp)
    · rintro o ⟨⟩
      exact suits_evolve hkind
  · rintro o ⟨⟩
    exact suits_evolve hkind

/-! ## What a round spends -/

/-- Does the call act on the schema? -/
def Call.changesSchema : Call → Bool
  | .materialise _ _ | .evolve _ _ => true
  | _ => false

/-- How many preparations are left. -/
def Progress.preparations (p : Progress) : ℕ :=
  (if .prepareFoundation ∈ p.attempted then 0 else 1) + if p.foundationReconciled then 0 else 1

/-- How many actions on the schema are left. -/
def Progress.schemas (i : LifecycleIntent) (p : Progress) : ℕ := if schemaAction i ∈ p.attempted then 0 else 1

/-- What is left when a round has ended, by what is left in the progress it leaves. -/
def remaining (f : Progress → ℕ) {p : Progress} : Outcome p → ℕ
  | .error _ => 0
  | .ok p' => f p'.1

/-- What a round does: it spends what is left, and acts on the schema where
what it observed is conclusive. -/
structure RoundSpec (i : LifecycleIntent) (p : Progress) (x : Round × Outcome p) : Prop where
  preparations : x.1.prepares.toNat + remaining Progress.preparations x.2 ≤ p.preparations
  schemas : x.1.changesSchema.toNat + remaining (Progress.schemas i) x.2 ≤ p.schemas i
  acted : ∀ p', x.2 = .ok p' → x.1.prepares.toNat + x.1.changesSchema.toNat = 1
  conclusive : x.1.changesSchema = true → ∃ o, x.1.observed = some o ∧ o.inconclusive = false

variable {p : Progress} {o : Option Observation}

theorem schemaAction_ne : schemaAction i ≠ .prepareFoundation := by
  unfold schemaAction
  split_ifs <;> decide

/-- A round that ends the run without `_apply`. -/
theorem roundSpec_ended {result : ExecutionResult} : RoundSpec i p (⟨o, none⟩, .error result) :=
  ⟨Nat.zero_le _, Nat.zero_le _, fun _ h => absurd h (by simp), fun h => absurd h Bool.false_ne_true⟩

theorem preparations_attempt (h : .prepareFoundation ∉ p.attempted) {f : Option MigrationStatus} :
    Progress.preparations { p with attempted := .prepareFoundation :: p.attempted, foundationResult := f } + 1 =
      p.preparations := by
  simp only [Progress.preparations, List.mem_cons, true_or, if_true, if_neg h]
  omega

theorem preparations_reconcile (h : p.foundationReconciled = false) {f : Option MigrationStatus} :
    Progress.preparations { p with foundationReconciled := true, foundationResult := f } + 1 = p.preparations := by
  simp [Progress.preparations, h]

theorem schemas_prepare {f : Option MigrationStatus} :
    Progress.schemas i { p with attempted := .prepareFoundation :: p.attempted, foundationResult := f } =
      p.schemas i := by
  simp [Progress.schemas, schemaAction_ne]

theorem preparations_schema :
    Progress.preparations { p with attempted := schemaAction i :: p.attempted } = p.preparations := by
  simp [Progress.preparations, schemaAction_ne.symm]

theorem schemas_schema (h : schemaAction i ∉ p.attempted) :
    Progress.schemas i { p with attempted := schemaAction i :: p.attempted } + 1 = p.schemas i := by
  simp [Progress.schemas, h]

theorem prepares_schema : Round.prepares ⟨o, some (schemaAction i)⟩ = false := by
  simp [Round.prepares, schemaAction_ne]

theorem changesSchema_schema : Round.changesSchema ⟨o, some (schemaAction i)⟩ = true := by
  unfold schemaAction
  split_ifs <;> rfl

/-- A round that prepares the foundation, before another round. -/
theorem roundSpec_prepared {p' : { p' : Progress // p'.left < p.left }}
    (hp : p'.1.preparations + 1 = p.preparations) (hs : p'.1.schemas i = p.schemas i) :
    RoundSpec i p (⟨o, some .prepareFoundation⟩, .ok p') where
  preparations := by
    change 1 + p'.1.preparations ≤ p.preparations
    omega
  schemas := by
    change 0 + p'.1.schemas i ≤ p.schemas i
    omega
  acted _ _ := rfl
  conclusive h := absurd h Bool.false_ne_true

/-- A preparation that ends the run. -/
theorem roundSpec_failed (hp : 1 ≤ p.preparations) {result : ExecutionResult} :
    RoundSpec i p (⟨o, some .prepareFoundation⟩, .error result) :=
  ⟨hp, Nat.zero_le _, fun _ h => absurd h (by simp), fun h => absurd h Bool.false_ne_true⟩

/-- A round that acts on the schema. -/
theorem roundSpec_schema {seen : Observation} (hseen : seen.inconclusive = false) (h : schemaAction i ∉ p.attempted)
    {out : Outcome p} (hp : remaining Progress.preparations out ≤ p.preparations)
    (hs : remaining (Progress.schemas i) out = 0) :
    RoundSpec i p (⟨some seen, some (schemaAction i)⟩, out) where
  preparations := by
    rw [prepares_schema]
    change 0 + remaining Progress.preparations out ≤ p.preparations
    omega
  schemas := by
    have hone := schemas_schema h
    rw [changesSchema_schema, hs]
    change 1 + 0 ≤ p.schemas i
    omega
  acted _ _ := by
    rw [prepares_schema, changesSchema_schema]
    rfl
  conclusive _ := ⟨seen, rfl, hseen⟩

/-! ## The budget of a run -/

section budget

variable {cost : Call → ℕ} {k m n s : ℕ} (hprice : ∀ c, cost c ≤ k + m * c.changesSchema.toNat)

include hprice

/-- Calls that leave the schema alone. -/
theorem spends {α : Type} {q : Run α} {b : ℕ} (hq : AtMost b q)
    (hmakes : Makes (fun c => c.changesSchema = false) q) (hs : n + b * k ≤ s) :
    Ensures (budget cost) (fun s' _ => n ≤ s') s q :=
  hq.ensures hmakes (fun c hc => by
    have hcost := hprice c
    rw [hc, Bool.toNat_false, Nat.mul_zero] at hcost
    exact hcost) hs

theorem applySchema_spends {plan : RecoveryPlan} (hs : n + k + m ≤ s) :
    Ensures (budget cost) (fun s' _ => n ≤ s') s (applySchema plan l target transition) := by
  unfold applySchema
  split
  · have hcost : cost (.materialise l target) ≤ k + m * 1 := hprice _
    refine Ensures.perform (by change cost _ ≤ s; omega) fun _ => ?_
    change n ≤ s - cost _
    omega
  · rename_i t
    have hcost : cost (.evolve l t) ≤ k + m * 1 := hprice _
    refine Ensures.perform (by change cost _ ≤ s; omega) fun _ => ?_
    change n ≤ s - cost _
    omega
  · change n ≤ s
    omega

omit hprice in
theorem finalizeCompleted_makes : Makes (fun c => c.changesSchema = false) (finalizeCompleted i l) := by
  refine Makes.perform rfl fun reply => ?_
  rcases reply with at_ | _ | error
  · exact Makes.perform rfl fun _ => trivial
  · exact trivial
  · exact trivial

omit hprice in
theorem applyFoundation_makes : Makes (fun c => c.changesSchema = false) (applyFoundation l) := by
  refine Makes.perform rfl fun reply => ?_
  rcases reply with state | _ | error <;> exact trivial

/-- A round that prepares the foundation. -/
theorem prepared_spec {seen : Option Observation} {next : MigrationState → { p' : Progress // p'.left < p.left }}
    (hnext : ∀ state, (next state).1.preparations + 1 = p.preparations ∧ (next state).1.schemas i = p.schemas i)
    (hp : 1 ≤ p.preparations) (hs : n + 2 * k + m * p.schemas i ≤ s) :
    Ensures (budget cost) (fun s' x => n + m * remaining (Progress.schemas i) x.2 ≤ s' ∧ RoundSpec i p x) s (do
      match ← applyFoundation l with
      | .error result => pure (⟨seen, some .prepareFoundation⟩, .error result)
      | .ok state => pure ((⟨seen, some .prepareFoundation⟩, .ok (next state)) : Round × Outcome p)) := by
  refine Ensures.bind (spends (n := n + m * p.schemas i) hprice applyFoundation_atMost applyFoundation_makes (by omega))
    fun v r hv => ?_
  rcases r with result | state
  · refine ⟨?_, roundSpec_failed hp⟩
    change n + m * 0 ≤ v
    omega
  · obtain ⟨hprepared, hschemas⟩ := hnext state
    refine ⟨?_, roundSpec_prepared hprepared hschemas⟩
    change n + m * (next state).1.schemas i ≤ v
    rw [hschemas]
    exact hv

/-- **One round** spends what is left of the attempts, and of the budget
eighteen calls beside an action on the schema. -/
theorem oneRound_spec (hs : n + 18 * k + m * p.schemas i ≤ s) :
    Ensures (budget cost) (fun s' x => n + m * remaining (Progress.schemas i) x.2 ≤ s' ∧ RoundSpec i p x) s
      (oneRound i l target transition p) := by
  have hread : Makes (fun c => c.changesSchema = false) (observe i l target transition) :=
    observe_makes.mono fun c hc => by cases c <;> first | rfl | exact hc.elim
  have hobserve := spends (n := n + 2 * k + m * p.schemas i) hprice observe_atMost hread (s := s) (by omega)
  refine Ensures.bind (hobserve.returns observe_suits) fun u r ⟨hu, hsuits⟩ => ?_
  rcases r with result | o
  · exact ⟨by change n + m * 0 ≤ u; omega, roundSpec_ended⟩
  have hended : ∀ (seen : Option Observation) (result : ExecutionResult) {v : ℕ}, n ≤ v →
      n + m * remaining (p := p) (Progress.schemas i) (.error result) ≤ v ∧
        RoundSpec i p (⟨seen, none⟩, .error result) := fun _ _ _ hv => ⟨hv, roundSpec_ended⟩
  have hplan := hsuits o rfl
  dsimp only
  by_cases hvalid : o.valid = false
  · rw [if_pos hvalid]
    exact hended _ _ (by omega)
  rw [if_neg hvalid]
  split
  · exact hended _ _ (by omega)
  · refine Ensures.bind (spends (n := n) hprice finalizeRecovery_atMost
      (finalizeRecovery_makes.mono fun c hc => by cases c <;> first | rfl | exact hc.elim) (by omega)) fun v r hv => ?_
    exact hended _ _ hv
  · refine Ensures.bind (spends (n := n) hprice finalizeCompleted_atMost finalizeCompleted_makes (by omega))
      fun v r hv => ?_
    exact hended _ _ hv
  · exact hended _ _ (by omega)
  · split_ifs with hattempted hagain hprepare hschema
    · have hprepare : planRecovery o = .prepareFoundation := by
        simp only [Progress.mayReconcile, Bool.and_eq_true, decide_eq_true_eq] at hagain
        exact hagain.1.1.1
      have hreconciled := Progress.not_reconciled hagain
      simp only [hprepare]
      refine prepared_spec hprice (fun state => ⟨preparations_reconcile hreconciled, rfl⟩) ?_ (by omega)
      have hleft := preparations_reconcile hreconciled (f := none)
      omega
    · exact hended _ _ (by omega)
    · simp only [hprepare]
      rw [hprepare] at hattempted
      refine prepared_spec hprice (fun state => ⟨preparations_attempt hattempted, schemas_prepare⟩) ?_ (by omega)
      have hleft := preparations_attempt hattempted (f := none)
      omega
    · have hacts : planRecovery o = .applyInitialSchema ∨ planRecovery o = .applyTransition := by
        simp only [actions, List.mem_cons, List.not_mem_nil, or_false] at hschema
        exact hschema.resolve_left hprepare
      obtain ⟨haction, hconclusive⟩ := hplan hacts
      rw [haction] at hattempted
      have hleft := schemas_schema hattempted
      have hone : p.schemas i = 1 := by
        rw [Progress.schemas, if_neg hattempted]
      have hnone : Progress.schemas i { p with attempted := schemaAction i :: p.attempted } = 0 := by omega
      rw [hone] at hu
      simp only [haction]
      refine Ensures.bind (applySchema_spends (n := n) hprice (by omega)) fun v r hv => ?_
      rcases r with _ | result
      · refine ⟨?_, roundSpec_schema hconclusive hattempted preparations_schema.le hnone⟩
        change n + m * Progress.schemas i { p with attempted := schemaAction i :: p.attempted } ≤ v
        rw [hnone]
        exact hv
      · exact ⟨hv, roundSpec_schema hconclusive hattempted (Nat.zero_le _) rfl⟩
    · exact hended _ _ (by omega)

/-- What the log of a loop is, by what was left at its start. -/
structure LogSpec (i : LifecycleIntent) (p : Progress) (log : List Round) : Prop where
  rounds : log.length ≤ p.preparations + p.schemas i + 1
  preparations : log.countP Round.prepares ≤ p.preparations
  schemas : log.countP Round.changesSchema ≤ p.schemas i
  conclusive : ∀ r ∈ log, r.changesSchema = true → ∃ o, r.observed = some o ∧ o.inconclusive = false

omit hprice in
theorem countP_singleton {f : Round → Bool} (r : Round) : [r].countP f = (f r).toNat := by
  cases hr : f r <;> simp [hr]

omit hprice in
theorem countP_cons_toNat {f : Round → Bool} (r : Round) (log : List Round) :
    (r :: log).countP f = (f r).toNat + log.countP f := by
  cases hr : f r <;> simp [hr, Nat.add_comm]

omit hprice in
theorem logSpec_ended {r : Round} {result : ExecutionResult} (h : RoundSpec i p (r, .error result)) :
    LogSpec i p [r] where
  rounds := Nat.le_add_left 1 _
  preparations := by
    rw [countP_singleton]
    exact h.preparations
  schemas := by
    rw [countP_singleton]
    exact h.schemas
  conclusive r' hr' := by
    obtain rfl := List.mem_singleton.1 hr'
    exact h.conclusive

omit hprice in
theorem logSpec_cons {r : Round} {p' : { p' : Progress // p'.left < p.left }} {log : List Round}
    (h : RoundSpec i p (r, .ok p')) (hlog : LogSpec i p'.1 log) : LogSpec i p (r :: log) := by
  have hprepares : r.prepares.toNat + p'.1.preparations ≤ p.preparations := h.preparations
  have hchanges : r.changesSchema.toNat + p'.1.schemas i ≤ p.schemas i := h.schemas
  have hacted : r.prepares.toNat + r.changesSchema.toNat = 1 := h.acted p' rfl
  obtain ⟨hrounds, hpreparations, hschemas, hconclusive⟩ := hlog
  refine ⟨?_, ?_, ?_, List.forall_mem_cons.2 ⟨h.conclusive, hconclusive⟩⟩
  · rw [List.length_cons]
    omega
  · rw [countP_cons_toNat]
    omega
  · rw [countP_cons_toNat]
    omega

/-- **The loop**, by induction on the rounds it has left: each that goes on
has spent one of the attempts. -/
theorem rounds_spec (b : ℕ) : ∀ (p : Progress) (s : ℕ), p.left = b →
    (p.preparations + p.schemas i + 1) * (18 * k) + m * p.schemas i ≤ s →
      Ensures (budget cost) (fun _ x => LogSpec i p x.1) s (rounds i l target transition p) := by
  induction b using Nat.strong_induction_on with
  | _ b ih =>
    intro p s hb hs
    rw [rounds]
    rw [Nat.add_mul, Nat.one_mul] at hs
    refine Ensures.bind (oneRound_spec (n := (p.preparations + p.schemas i) * (18 * k)) hprice (by omega))
      fun u x ⟨hu, hx⟩ => ?_
    rcases x with ⟨r, result | ⟨p', hleft⟩⟩
    · exact logSpec_ended hx
    · have hprepares : r.prepares.toNat + p'.preparations ≤ p.preparations := hx.preparations
      have hchanges : r.changesSchema.toNat + p'.schemas i ≤ p.schemas i := hx.schemas
      have hacted : r.prepares.toNat + r.changesSchema.toNat = 1 := hx.acted _ rfl
      have hmul := Nat.mul_le_mul_right (18 * k)
        (by omega : p'.preparations + p'.schemas i + 1 ≤ p.preparations + p.schemas i)
      have hrest := ih _ (hb ▸ hleft) p' u rfl (by change _ + m * p'.schemas i ≤ u at hu; omega)
      refine Ensures.bind hrest fun v y hy => ?_
      exact logSpec_cons hx hy

/-- The log of a whole run: four rounds, in which the foundation is prepared
twice and the schema acted on once, each at most. -/
structure Bounded (log : List Round) : Prop where
  rounds : log.length ≤ 4
  preparations : log.countP Round.prepares ≤ 2
  schemas : log.countP Round.changesSchema ≤ 1
  conclusive : ∀ r ∈ log, r.changesSchema = true → ∃ o, r.observed = some o ∧ o.inconclusive = false

omit hprice in
theorem bounded_nil : Bounded [] :=
  ⟨Nat.zero_le _, Nat.zero_le _, Nat.zero_le _, fun _ h => absurd h List.not_mem_nil⟩

omit hprice in
theorem LogSpec.bounded {log : List Round} (h : LogSpec i {} log) : Bounded log :=
  ⟨h.rounds, h.preparations, h.schemas, h.conclusive⟩

theorem executeRounds_spec (command : LifecycleCommand) (hs : 76 * k + m ≤ s) :
    Ensures (budget cost) (fun _ x => Bounded x.1) s (executeRounds command) := by
  have haround : ∀ c, Around c → c.changesSchema = false := fun c hc => by cases c <;> first | rfl | exact hc.elim
  refine Ensures.bind (spends (n := 73 * k + m) hprice admission_atMost (admission_makes.mono haround) (by omega))
    fun u r hu => ?_
  rcases r with result | ⟨i, source⟩
  · exact bounded_nil
  dsimp only
  split_ifs
  · have hrecovery : Makes (fun c => c.changesSchema = false) (finalizeRecovery i) :=
      finalizeRecovery_makes.mono haround
    refine Ensures.bind (spends (n := 0) hprice finalizeRecovery_atMost hrecovery (by omega)) fun v r hv => ?_
    exact bounded_nil
  · refine Ensures.bind (spends (n := 72 * k + m) hprice locate_atMost (locate_makes.mono haround) (by omega))
      fun v r hv => ?_
    rcases r with result | l
    · exact bounded_nil
    dsimp only
    cases compile i source with
    | none => exact bounded_nil
    | some c =>
      refine (rounds_spec hprice (Progress.left {}) {} v rfl ?_).mono fun _ _ h => h.bounded
      change (2 + 1 + 1) * (18 * k) + m * 1 ≤ v
      omega

theorem requestRounds_spec (command : Option LifecycleCommand) (hs : 76 * k + m ≤ s) :
    Ensures (budget cost) (fun _ x => Bounded x.1) s (requestRounds command) := by
  cases command with
  | none => exact bounded_nil
  | some command => exact executeRounds_spec hprice command hs

theorem request_spec (command : Option LifecycleCommand) (hs : 76 * k + m ≤ s) :
    Ensures (budget cost) (fun _ _ => True) s (request command) := by
  rw [request_eq, map_eq_pure_bind]
  exact (requestRounds_spec hprice command hs).bind fun _ _ _ => trivial

end budget

theorem countP_eq_sum (f : Call → Bool) (t : List (Program.Reply Call.Reply)) :
    t.countP (fun x => f x.1) = (t.map fun x => (f x.1).toNat).sum := by
  induction t with
  | nil => rfl
  | cons x t ih =>
    rw [List.map_cons, List.sum_cons, ← ih]
    cases hx : f x.1 <;> simp [hx, Nat.add_comm]

/-- **An execution ends**, whatever its calls are answered: it never makes
more than 76 calls, nor more than one on the schema, and returns a result;
before that it has had four rounds, prepared the foundation twice and acted
on the schema once, each at most, and the last in a round in which nothing
observed was unavailable or uncertain. -/
theorem request_bounded (command : Option LifecycleCommand) :
    (∀ t out, Trace (request command) t out →
      t.length ≤ 76 ∧ t.countP (fun x => x.1.changesSchema) ≤ 1) ∧
    ∀ {W : Type} (serve : W → (c : Call) → c.Reply × W) (w : W), ∃ log result w',
      exec serve (requestRounds command) w = ((log, result), w') ∧
      exec serve (request command) w = (result, w') ∧ Bounded log := by
  refine ⟨fun t out ht => ⟨?_, ?_⟩, fun serve w => ?_⟩
  · have hcalls : Ensures (budget fun _ => 1) (fun _ _ => True) 76 (request command) :=
      request_spec (k := 1) (m := 0) (fun c => by omega) command (by omega)
    simpa using hcalls.spent_le ht
  · have hschemas : Ensures (budget fun c : Call => c.changesSchema.toNat) (fun _ _ => True) 1 (request command) :=
      request_spec (k := 0) (m := 1) (fun c => by omega) command (by omega)
    rw [countP_eq_sum]
    exact hschemas.spent_le ht
  · refine ⟨(exec serve (requestRounds command) w).1.1, (exec serve (requestRounds command) w).1.2,
      (exec serve (requestRounds command) w).2, rfl, by rw [request_eq, exec_map], ?_⟩
    have hlog : Ensures (budget fun _ => 1) (fun _ x => Bounded x.1) 76 (requestRounds command) :=
      requestRounds_spec (k := 1) (m := 0) (fun c => by omega) command (by omega)
    obtain ⟨t, ht⟩ := exec_trace serve (requestRounds command) w
    exact hlog.returned ht

theorem request_bounded_gone :
    [(⟨.admission goneCommand, .raised .busy⟩ : Program.Reply Call.Reply)].length ≤ 76 :=
  ((request_bounded (some goneCommand)).1 [⟨.admission goneCommand, .raised .busy⟩] _ (.replied (.stopped _))).1

end Lifecycle

end Aipcs

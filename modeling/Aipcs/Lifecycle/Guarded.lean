import Aipcs.Lifecycle.Evidence

/-!
# Lifecycle — what a run asks of the storage

A run addresses the store of the service it was admitted for and no
other, acts on its schema with what the intent compiles to, and asks for
completion only where the target was last found ready, under the backend
of the locator it was given. This too holds whatever the run is answered.
-/

namespace Aipcs

namespace Lifecycle

open Registry Relational Program

/-! ## Monitors -/

/-- The calls that the evidence allows. -/
def Evidence.Permits (v : Evidence) : Call → Prop
  | .inspect l _ => ∃ i source, v.admitted = some (i, some source) ∧
      l.namespace_ = serviceNamespace i.serviceId
  | .materialise l s => ∃ i source, v.admitted = some (i, some source) ∧
      l.namespace_ = serviceNamespace i.serviceId ∧ i.kind = .materialise ∧
      s = compileManifest i.targetManifest
  | .evolve l t => ∃ i source, v.admitted = some (i, some source) ∧
      l.namespace_ = serviceNamespace i.serviceId ∧ i.kind = .evolve ∧
      ∃ m, source.manifest = some m ∧ classifyTransition m i.targetManifest = some t
  | .finalizeCompleted c => ∃ source, v.admitted = some (c.intent, some source) ∧
      v.schema (compileManifest c.intent.targetManifest) = some .ready
  | _ => True

/-- The monitor that holds a run to its own service. -/
def guarded : Monitor Call.Reply Evidence := ⟨Evidence.Permits, Evidence.next⟩

theorem guarded_next : guarded.next = justified.next := rfl

/-- The monitor that holds a completion to the locator that was given. -/
def located : Monitor Call.Reply (Option ServiceStoreLocator) where
  permits s c := ∀ completion, c = .finalizeCompleted completion →
    ∃ l, s = some l ∧ completion.storage = l.backend
  next s c r :=
    match c, r with
    | .allocate _, (.value (_, l) : Answer (StorageAdapterInfo × ServiceStoreLocator)) => some l
    | .allocate _, _ => none
    | _, _ => s

/-! ## Reads -/

variable {v : Evidence} {i : LifecycleIntent} {source : Service} {l : ServiceStoreLocator}
variable {target : RelationalSpecification} {transition : Option RelationalTransition}

/-- A call that reads a store, or takes its foundation up. -/
def Reads (l : ServiceStoreLocator) : Call → Prop
  | .inspectMigration l' => l' = l
  | .migrate l' => l' = l
  | .inspect l' _ => l' = l
  | _ => False

theorem refresh_makes : Makes (Reads l) (refresh l) := by
  refine Makes.perform rfl fun reply => ?_
  rcases reply with state | _ | error
  · exact trivial
  · exact trivial
  · cases error <;> exact trivial

theorem promote_makes {state : MigrationState} : Makes (Reads l) (promote l state) := by
  unfold promote
  by_cases hstore : state.serviceStore = true
  · rw [if_neg (not_not.2 hstore)]
    split_ifs
    · exact trivial
    · exact refresh_makes
  · rw [if_pos hstore]
    exact trivial

theorem reinspect_makes : Makes (Reads l) (reinspect l) := by
  refine Makes.perform rfl fun reply => ?_
  rcases reply with state | _ | error
  · exact promote_makes
  · exact trivial
  · cases error <;> exact trivial

theorem reconcileJournal_makes : Makes (Reads l) (reconcileJournal l) := by
  refine Makes.perform rfl fun reply => ?_
  rcases reply with state | _ | error
  · exact promote_makes
  · exact trivial
  · cases error <;> first | exact reinspect_makes | exact trivial

theorem reconcileUnavailable_makes : Makes (Reads l) (reconcileUnavailable l) := by
  refine Makes.perform rfl fun reply => ?_
  rcases reply with state | _ | error
  · exact trivial
  · exact trivial
  · cases error <;> exact trivial

theorem foundation_makes : Makes (Reads l) (foundation l) := by
  refine Makes.perform rfl fun reply => ?_
  rcases reply with state | _ | error
  · exact trivial
  · exact trivial
  · cases error with
    | transientJournal => exact reconcileJournal_makes
    | unavailable => exact reconcileUnavailable_makes
    | _ => exact trivial

theorem inspectAgain_makes {s : RelationalSpecification} : Makes (Reads l) (inspectAgain l s) := by
  refine Makes.perform rfl fun reply => ?_
  rcases reply with status | _ | error
  · exact trivial
  · exact trivial
  · cases error <;> exact trivial

theorem domainState_makes {s : RelationalSpecification} : Makes (Reads l) (domainState l s) := by
  refine Makes.perform rfl fun reply => ?_
  rcases reply with status | _ | error
  · exact trivial
  · exact trivial
  · cases error with
    | transientJournal =>
      refine Makes.bind foundation_makes fun r => ?_
      rcases r with result | f
      · exact trivial
      · cases f <;> first | exact inspectAgain_makes | exact trivial
    | _ => exact trivial

theorem sourceState_makes {t : DomainObservation} :
    Makes (Reads l) (sourceState l transition t) := by
  unfold sourceState
  split_ifs
  · cases transition with
    | none => exact trivial
    | some t => exact domainState_makes
  · exact trivial

theorem observe_makes : Makes (Reads l) (observe i l target transition) := by
  refine Makes.bind foundation_makes fun r => ?_
  rcases r with result | f
  · exact trivial
  · dsimp only
    split_ifs
    · refine Makes.bind domainState_makes fun r => ?_
      rcases r with result | t <;> exact trivial
    · exact trivial
    · refine Makes.bind domainState_makes fun r => ?_
      rcases r with result | t
      · exact trivial
      · refine Makes.bind sourceState_makes fun r => ?_
        rcases r with result | s <;> exact trivial
    · exact trivial

/-! ## Runs -/

/-- What the evidence allows without asking for anything. -/
theorem permits_reads {c : Call} (hns : l.namespace_ = serviceNamespace i.serviceId)
    (ha : v.admitted = some (i, some source)) (h : Reads l c) : v.Permits c := by
  cases c with
  | inspect l' s =>
    obtain rfl := h
    exact ⟨i, source, ha, hns⟩
  | inspectMigration l' => exact trivial
  | migrate l' => exact trivial
  | _ => exact h.elim

/-- A read leaves what was admitted. -/
theorem admitted_next_reads {c : Call} {r : c.Reply} (h : Reads l c) :
    (v.next c r).admitted = v.admitted := by
  cases c with
  | inspect l' s => rfl
  | inspectMigration l' => rfl
  | migrate l' => rfl
  | _ => exact h.elim

theorem observe_guarded (hcompile : compile i source = some (target, transition))
    (hns : l.namespace_ = serviceNamespace i.serviceId) (ha : v.admitted = some (i, some source)) :
    Ensures guarded (Observed i source v) v (observe i l target transition) := by
  have hreads : Ensures guarded (fun u _ => u.admitted = some (i, some source)) v
      (observe i l target transition) :=
    observe_makes.ensures (J := fun u : Evidence => u.admitted = some (i, some source))
      (fun u c hu hc => permits_reads hns hu hc)
      (fun u c r hu hc => (admitted_next_reads hc).trans hu) ha
  exact (Ensures.transfer guarded_next (observe_observed hcompile) hreads).mono fun _ _ h => h.1

theorem finalizeRecovery_guarded : Ensures guarded (fun _ _ => True) v (finalizeRecovery i) := by
  refine Ensures.perform trivial fun reply => ?_
  rcases reply with at_ | _ | error
  · exact Ensures.perform trivial fun _ => trivial
  · exact trivial
  · exact trivial

theorem finalizeCompleted_guarded (ha : v.admitted = some (i, some source))
    (hready : v.schema (compileManifest i.targetManifest) = some .ready) :
    Ensures guarded (fun _ _ => True) v (finalizeCompleted i l) := by
  refine Ensures.perform trivial fun reply => ?_
  rcases reply with at_ | _ | error
  · exact Ensures.perform ⟨source, ha, hready⟩ fun _ => trivial
  · exact trivial
  · exact trivial

theorem applyFoundation_guarded :
    Ensures guarded (fun u _ => u.admitted = v.admitted) v (applyFoundation l) := by
  refine Ensures.perform trivial fun reply => ?_
  rcases reply with state | _ | error <;> exact rfl

/-- A materialise acts with the initial schema only, an evolve with its transition. -/
theorem applySchema_guarded {plan : RecoveryPlan} {o : Observation}
    (hcompile : compile i source = some (target, transition))
    (hns : l.namespace_ = serviceNamespace i.serviceId) (ha : v.admitted = some (i, some source))
    (hbears : v.Bears i source o) (hplan : planRecovery o = plan) :
    Ensures guarded (fun u _ => u.admitted = v.admitted) v (applySchema plan l target transition) := by
  obtain ⟨rfl, hevolve⟩ := compile_eq_some hcompile
  unfold applySchema
  split
  · refine Ensures.perform ⟨i, source, ha, hns, ?_, rfl⟩ fun _ => rfl
    cases hbears with
    | materialise hkind => exact hkind
    | evolve => exact absurd hplan planRecovery_evolve_ne_initial
  · rename_i t
    have hkind : i.kind = .evolve := by
      cases hbears with
      | materialise => exact absurd hplan planRecovery_materialise_ne_transition
      | evolve hkind => exact hkind
    obtain ⟨m, t', hm, ht, heq⟩ := hevolve (by rw [hkind]; decide)
    obtain rfl := Option.some.inj heq
    exact Ensures.perform ⟨i, source, ha, hns, hkind, m, hm, ht⟩ fun _ => rfl
  · exact rfl

/-- By induction on the rounds left, as for recovery: what a round acts on
is what it has itself observed. -/
theorem reconcile_guarded (hcompile : compile i source = some (target, transition))
    (hns : l.namespace_ = serviceNamespace i.serviceId) (n : ℕ) :
    ∀ (p : Progress) (v : Evidence), p.left = n → v.admitted = some (i, some source) →
      Ensures guarded (fun _ _ => True) v (reconcile i l target transition p) := by
  induction n using Nat.strong_induction_on with
  | _ n ih =>
    intro p v hn hv
    rw [reconcile]
    refine Ensures.bind (observe_guarded hcompile hns hv) fun u r hr => ?_
    obtain ⟨ha, hobs⟩ := hr
    rw [hv] at ha
    cases r with
    | error result => exact trivial
    | ok o =>
      have hbears := hobs o rfl
      dsimp only
      by_cases hvalid : o.valid = false
      · rw [if_pos hvalid]
        exact trivial
      rw [if_neg hvalid]
      split
      · exact trivial
      · exact finalizeRecovery_guarded
      · rename_i hplan
        exact finalizeCompleted_guarded ha (hbears.ready hplan)
      · exact trivial
      · split_ifs with hattempted hagain hprepare hschema
        · refine Ensures.bind applyFoundation_guarded fun w r hw => ?_
          cases r with
          | error result => exact trivial
          | ok state =>
            exact ih _ (hn ▸ Progress.left_reconcile (Progress.not_reconciled hagain) _) _ w rfl
              (hw.trans ha)
        · exact trivial
        · refine Ensures.bind applyFoundation_guarded fun w r hw => ?_
          cases r with
          | error result => exact trivial
          | ok state =>
            exact ih _ (hn ▸ Progress.left_attempt (by rw [hprepare]; decide) hattempted _) _ w rfl
              (hw.trans ha)
        · refine Ensures.bind (applySchema_guarded hcompile hns ha hbears rfl) fun w r hw => ?_
          cases r with
          | some result => exact trivial
          | none =>
            exact ih _ (hn ▸ Progress.left_attempt hschema hattempted p.foundationResult) _ w rfl
              (hw.trans ha)
        · exact trivial

/-- The calls around a reconciliation. -/
def Around : Call → Prop
  | .admission _ => True
  | .allocate _ => True
  | .now => True
  | .finalizeRecoveryRequired _ _ => True
  | _ => False

theorem finalizeRecovery_makes : Makes Around (finalizeRecovery i) := by
  refine Makes.perform trivial fun reply => ?_
  rcases reply with at_ | _ | error
  · exact Makes.perform trivial fun _ => trivial
  · exact trivial
  · exact trivial

theorem admission_makes {command : LifecycleCommand} : Makes Around (admission command) := by
  refine Makes.perform trivial fun reply => ?_
  rcases reply with error | ⟨⟨outcome, source⟩, failure⟩
  · exact trivial
  · cases outcome with
    | prepared i =>
      dsimp only
      split_ifs
      · exact trivial
      · cases source with
        | none => exact Makes.bind finalizeRecovery_makes fun _ => trivial
        | some s => exact trivial
    | _ => exact trivial

theorem locate_makes : Makes Around (locate i source) := by
  refine Makes.perform trivial fun reply => ?_
  rcases reply with ⟨info, l⟩ | _ | error
  · dsimp only
    split_ifs <;> exact trivial
  · exact trivial
  · cases error <;> exact trivial

theorem around_guarded {α : Type} {p : Run α} (hp : Makes Around p) :
    Ensures guarded (fun _ _ => True) v p :=
  hp.ensures (J := fun _ : Evidence => True)
    (fun u c _ hc => by cases c <;> first | exact trivial | exact hc.elim) (fun _ _ _ _ _ => trivial)
    trivial

theorem validLocator_namespace {info : StorageAdapterInfo} (h : validLocator info l i = true) :
    l.namespace_ = serviceNamespace i.serviceId := by
  simp only [validLocator, Bool.and_eq_true, decide_eq_true_eq] at h
  exact h.2

theorem locate_guarded (ha : v.admitted = some (i, some source)) :
    Ensures guarded (fun u r => u.admitted = some (i, some source) ∧
      ∀ l, r = .ok l → l.namespace_ = serviceNamespace i.serviceId) v (locate i source) := by
  refine Ensures.perform trivial fun reply => ?_
  rcases reply with ⟨info, l⟩ | _ | error
  · dsimp only
    split_ifs with hrefused
    · exact ⟨ha, fun _ h => absurd h (by simp)⟩
    · rw [not_or, not_not] at hrefused
      refine ⟨ha, fun l' h => ?_⟩
      obtain rfl := Except.ok.inj h
      exact validLocator_namespace hrefused.1
  · exact ⟨ha, fun _ h => absurd h (by simp)⟩
  · cases error <;> exact ⟨ha, fun _ h => absurd h (by simp)⟩

/-- **A run keeps to what it was admitted for.** -/
theorem execute_guarded (command : LifecycleCommand) :
    Ensures guarded (fun _ _ => True) {} (execute command) := by
  refine Ensures.bind (Ensures.transfer guarded_next admission_ensures
    (around_guarded admission_makes)) fun u r hu => ?_
  match r with
  | .error result => exact trivial
  | .ok (i, source) =>
    have ha := hu.1 i source rfl
    dsimp only
    split_ifs
    · exact finalizeRecovery_guarded
    · refine Ensures.bind (locate_guarded ha) fun w r ⟨hw, hl⟩ => ?_
      match r with
      | .error result => exact trivial
      | .ok l =>
        dsimp only
        cases hcompile : compile i source with
        | none => exact trivial
        | some c => exact reconcile_guarded hcompile (hl l rfl) _ _ w rfl hw

/-! ## Locators -/

/-- A call that is given no locator, and completes under the one there is. -/
def Under (l : ServiceStoreLocator) : Call → Prop
  | .allocate _ => False
  | .finalizeCompleted c => c.storage = l.backend
  | _ => True

theorem under_of_reads {c : Call} (h : Reads l c) : Under l c := by
  cases c <;> first | exact trivial | exact h.elim

theorem finalizeRecovery_under : Makes (Under l) (finalizeRecovery i) := by
  refine Makes.perform trivial fun reply => ?_
  rcases reply with at_ | _ | error
  · exact Makes.perform trivial fun _ => trivial
  · exact trivial
  · exact trivial

theorem finalizeCompleted_under : Makes (Under l) (finalizeCompleted i l) := by
  refine Makes.perform trivial fun reply => ?_
  rcases reply with at_ | _ | error
  · exact Makes.perform rfl fun _ => trivial
  · exact trivial
  · exact trivial

theorem applyFoundation_under : Makes (Under l) (applyFoundation l) := by
  refine Makes.perform trivial fun reply => ?_
  rcases reply with state | _ | error <;> exact trivial

theorem applySchema_under {plan : RecoveryPlan} :
    Makes (Under l) (applySchema plan l target transition) := by
  unfold applySchema
  split
  · exact Makes.perform trivial fun _ => trivial
  · exact Makes.perform trivial fun _ => trivial
  · exact trivial

theorem reconcile_under (n : ℕ) : ∀ p : Progress, p.left = n →
    Makes (Under l) (reconcile i l target transition p) := by
  induction n using Nat.strong_induction_on with
  | _ n ih =>
    intro p hn
    rw [reconcile]
    refine Makes.bind (observe_makes.mono fun _ => under_of_reads) fun r => ?_
    rcases r with result | o
    · exact trivial
    dsimp only
    by_cases hvalid : o.valid = false
    · rw [if_pos hvalid]
      exact trivial
    rw [if_neg hvalid]
    split
    · exact trivial
    · exact finalizeRecovery_under
    · exact finalizeCompleted_under
    · exact trivial
    · split_ifs with hattempted hagain hprepare hschema
      · refine Makes.bind applyFoundation_under fun r => ?_
        rcases r with result | state
        · exact trivial
        · exact ih _ (hn ▸ Progress.left_reconcile (Progress.not_reconciled hagain) _) _ rfl
      · exact trivial
      · refine Makes.bind applyFoundation_under fun r => ?_
        rcases r with result | state
        · exact trivial
        · exact ih _ (hn ▸ Progress.left_attempt (by rw [hprepare]; decide) hattempted _) _ rfl
      · refine Makes.bind applySchema_under fun r => ?_
        rcases r with _ | result
        · exact ih _ (hn ▸ Progress.left_attempt hschema hattempted p.foundationResult) _ rfl
        · exact trivial
      · exact trivial

theorem under_located {α : Type} {p : Run α} (hp : Makes (Under l) p) :
    Ensures located (fun _ _ => True) (some l) p := by
  refine (hp.ensures (J := fun s => s = some l) (fun s c hs hc completion heq => ?_)
    (fun s c r hs hc => ?_) rfl).mono fun _ _ _ => trivial
  · subst heq
    exact ⟨l, hs, hc⟩
  · cases c <;> first | exact hs | exact hc.elim

theorem locate_located {s : Option ServiceStoreLocator} :
    Ensures located (fun s r => ∀ l, r = .ok l → s = some l) s (locate i source) := by
  refine Ensures.perform (fun _ h => absurd h (by simp)) fun reply => ?_
  rcases reply with ⟨info, l⟩ | _ | error
  · dsimp only
    split_ifs
    · exact fun _ h => absurd h (by simp)
    · exact fun l' h => congrArg some (Except.ok.inj h)
  · exact fun _ h => absurd h (by simp)
  · cases error <;> exact fun _ h => absurd h (by simp)

/-- **A completion is asked for under the locator that was given.** -/
theorem execute_located (command : LifecycleCommand) :
    Ensures located (fun _ _ => True) none (execute command) := by
  have haround : Ensures located (fun _ _ => True) none (admission command) :=
    admission_makes.ensures (J := fun _ => True)
      (fun s c _ hc completion heq => by subst heq; exact hc.elim) (fun _ _ _ _ _ => trivial) trivial
  refine Ensures.bind haround fun s r _ => ?_
  match r with
  | .error result => exact trivial
  | .ok (i, source) =>
    dsimp only
    split_ifs
    · refine (finalizeRecovery_makes (i := i)).ensures (J := fun _ => True)
        (fun s c _ hc completion heq => ?_) (fun _ _ _ _ _ => trivial) trivial
      subst heq
      exact hc.elim
    · refine Ensures.bind locate_located fun s r hl => ?_
      match r with
      | .error result => exact trivial
      | .ok l =>
        dsimp only
        cases hcompile : compile i source with
        | none => exact trivial
        | some c =>
          rw [hl l rfl]
          exact under_located (reconcile_under _ _ rfl)

end Lifecycle

end Aipcs

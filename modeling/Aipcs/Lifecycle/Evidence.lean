import Aipcs.Lifecycle.Coordinator
import Aipcs.Registry.LifecycleEffects

/-!
# Lifecycle — what a move to recovery rests on

`Evidence` is what the replies of a run amount to: what admission gave,
and the last answer to each question asked of the storage, kept only
while it is a complete one. A run asks for recovery only under evidence
that is `Justified`, whatever it was answered.
-/

namespace Aipcs

namespace Lifecycle

open Registry Relational Program

/-! ## Evidence -/

/-- What the replies amount to. -/
structure Evidence where
  admitted : Option (LifecycleIntent × Option Service) := none
  foundation : Option MigrationStatus := none
  schema : RelationalSpecification → Option DomainSchemaStatus := fun _ => none

/-- The status an answer about the foundation gives. -/
def Answer.foundation : Answer MigrationState → Option MigrationStatus
  | .value state => if state.serviceStore then some state.status else none
  | _ => none

/-- The status an answer about a schema gives. -/
def Answer.schema : Answer DomainSchemaStatus → Option DomainSchemaStatus
  | .value status => some status
  | _ => none

/-- A reply taken into account. What was read of the storage is void once
a schema is acted on. -/
def Evidence.next (v : Evidence) : (c : Call) → c.Reply → Evidence
  | .admission _, .ended (.prepared i, source) none => { admitted := some (i, source) }
  | .admission _, _ => {}
  | .inspectMigration _, (a : Answer MigrationState) => { v with foundation := a.foundation }
  | .migrate _, (a : Answer MigrationState) => { v with foundation := a.foundation }
  | .inspect _ s, (a : Answer DomainSchemaStatus) =>
    { v with schema := Function.update v.schema s a.schema }
  | .materialise _ _, _ => { admitted := v.admitted }
  | .evolve _ _, _ => { admitted := v.admitted }
  | .allocate _, _ => v
  | .now, _ => v
  | .finalizeCompleted _, _ => v
  | .finalizeRecoveryRequired _ _, _ => v

/-- **The storage contradicts the intent**: an incompatible foundation or
schema, or for an evolve a foundation or source that is not there. -/
def Evidence.Contradicts (v : Evidence) (i : LifecycleIntent) (s : Service) : Prop :=
  v.foundation = some .incompatible ∨
    i.kind = .evolve ∧ v.foundation = some .uninitialised ∨
    v.foundation = some .ready ∧ i.kind = .materialise ∧
      v.schema (compileManifest i.targetManifest) = some .incompatible ∨
    v.foundation = some .ready ∧ i.kind = .evolve ∧ ∃ m ∈ s.manifest,
      (v.schema (compileManifest i.targetManifest) = some .unmaterialised ∧
          v.schema (compileManifest m) = some .unmaterialised ∨
        v.schema (compileManifest i.targetManifest) = some .incompatible ∧
          v.schema (compileManifest m) = some .incompatible)

/-- **What may move a claim to recovery**: the claim was admitted, and the
service it was admitted with does not match it or the storage contradicts it. -/
def Evidence.Justified (v : Evidence) (i : LifecycleIntent) : Prop :=
  ∃ source, v.admitted = some (i, source) ∧
    ∀ s ∈ source, sourceMatches i s = false ∨ v.Contradicts i s

/-- The monitor that lets a claim be moved to recovery only where that is justified. -/
def justified : Monitor Call.Reply Evidence where
  permits v c := ∀ i at_, c = .finalizeRecoveryRequired i at_ → v.Justified i
  next := Evidence.next

theorem permits_of_ne {v : Evidence} {c : Call} (h : ∀ i at_, c ≠ .finalizeRecoveryRequired i at_) :
    justified.permits v c := fun i at_ hc => absurd hc (h i at_)

/-! ## One read -/

variable {v : Evidence} {i : LifecycleIntent} {source : Service} {l : ServiceStoreLocator}

/-- The evidence bears out what a foundation was read as. -/
def Evidence.BearsFoundation (v : Evidence) (f : FoundationObservation) : Prop :=
  ∀ status : MigrationStatus, status.observation = f → v.foundation = some status

/-- A read of the foundation: nothing else is asked. -/
def ReadsFoundation (v v' : Evidence) (r : Except ExecutionResult FoundationObservation) : Prop :=
  v'.admitted = v.admitted ∧ v'.schema = v.schema ∧ ∀ f, r = .ok f → v'.BearsFoundation f

/-- A read that came to no state. -/
def FoundationObservation.stateless : FoundationObservation → Bool
  | .busy | .unavailable | .uncertain | .notObserved => true
  | _ => false

theorem MigrationStatus.observation_ne {status : MigrationStatus} {f : FoundationObservation}
    (h : f.stateless = true) : status.observation ≠ f := by
  rintro rfl
  cases status <;> exact absurd h (by decide)

theorem MigrationStatus.observation_inj {a b : MigrationStatus} (h : a.observation = b.observation) :
    a = b := by
  revert h
  cases a <;> cases b <;> decide

section ReadsFoundation

variable {v' : Evidence}

theorem reads_error {result : ExecutionResult} (ha : v'.admitted = v.admitted)
    (hs : v'.schema = v.schema) : ReadsFoundation v v' (.error result) :=
  ⟨ha, hs, fun _ h => absurd h (by simp)⟩

theorem reads_none {f : FoundationObservation} (ha : v'.admitted = v.admitted)
    (hs : v'.schema = v.schema) (hf : f.stateless = true) : ReadsFoundation v v' (.ok f) := by
  refine ⟨ha, hs, fun g hg status hstatus => ?_⟩
  obtain rfl := Except.ok.inj hg
  exact absurd hstatus (MigrationStatus.observation_ne hf)

theorem reads_status {status : MigrationStatus} (ha : v'.admitted = v.admitted)
    (hs : v'.schema = v.schema) (hf : v'.foundation = some status) :
    ReadsFoundation v v' (.ok status.observation) := by
  refine ⟨ha, hs, fun g hg status' hstatus => ?_⟩
  obtain rfl := Except.ok.inj hg
  rw [hf, MigrationStatus.observation_inj hstatus]

/-- A state that was returned is borne out by its own reply. -/
theorem reads_classifyState (v' : Evidence) (ha : v'.admitted = v.admitted) (hs : v'.schema = v.schema)
    {state : MigrationState} (hf : v'.foundation = Answer.foundation (.value state)) :
    ReadsFoundation v v' (classifyState state) := by
  unfold classifyState
  by_cases hstore : state.serviceStore = true
  · rw [if_pos hstore]
    rw [Answer.foundation, if_pos hstore] at hf
    exact reads_status ha hs hf
  · rw [if_neg hstore]
    exact reads_error ha hs

theorem refresh_reads (ha : v'.admitted = v.admitted) (hs : v'.schema = v.schema) :
    Ensures justified (ReadsFoundation v) v' (refresh l) := by
  refine Ensures.perform (permits_of_ne (by simp)) fun reply => ?_
  match reply with
  | .value state =>
    by_cases hready : (state.serviceStore && state.status = .ready) = true
    · dsimp only
      rw [if_pos hready]
      rw [Bool.and_eq_true, decide_eq_true_eq] at hready
      refine @reads_status _ _ .ready ha hs ?_
      change Answer.foundation (.value state) = _
      rw [Answer.foundation, if_pos hready.1, hready.2]
    · dsimp only
      rw [if_neg hready]
      exact reads_none ha hs rfl
  | .malformed => exact reads_none ha hs rfl
  | .raised .busy => exact reads_none ha hs rfl
  | .raised .unavailable => exact reads_none ha hs rfl
  | .raised .transientJournal => exact reads_none ha hs rfl
  | .raised .migration => exact reads_none ha hs rfl
  | .raised .contract => exact reads_error ha hs
  | .raised .other => exact reads_error ha hs

theorem promote_reads (v' : Evidence) (ha : v'.admitted = v.admitted) (hs : v'.schema = v.schema)
    {state : MigrationState} (hf : v'.foundation = Answer.foundation (.value state)) :
    Ensures justified (ReadsFoundation v) v' (promote l state) := by
  unfold promote
  by_cases hstore : state.serviceStore = true
  · rw [if_neg (not_not.2 hstore)]
    by_cases hready : state.status = .ready
    · rw [if_pos hready]
      refine @reads_status _ _ .ready ha hs ?_
      rw [hf, Answer.foundation, if_pos hstore, hready]
    · rw [if_neg hready]
      exact refresh_reads ha hs
  · rw [if_pos hstore]
    exact reads_error ha hs

theorem reinspect_reads (ha : v'.admitted = v.admitted) (hs : v'.schema = v.schema) :
    Ensures justified (ReadsFoundation v) v' (reinspect l) := by
  refine Ensures.perform (permits_of_ne (by simp)) fun reply => ?_
  match reply with
  | .value state => exact promote_reads (v'.next (.inspectMigration l) (.value state)) ha hs rfl
  | .malformed => exact reads_error ha hs
  | .raised .busy => exact reads_none ha hs rfl
  | .raised .unavailable => exact reads_none ha hs rfl
  | .raised .transientJournal => exact reads_none ha hs rfl
  | .raised .migration => exact reads_none ha hs rfl
  | .raised .contract => exact reads_error ha hs
  | .raised .other => exact reads_error ha hs

theorem reconcileJournal_reads (ha : v'.admitted = v.admitted) (hs : v'.schema = v.schema) :
    Ensures justified (ReadsFoundation v) v' (reconcileJournal l) := by
  refine Ensures.perform (permits_of_ne (by simp)) fun reply => ?_
  match reply with
  | .value state => exact promote_reads (v'.next (.migrate l) (.value state)) ha hs rfl
  | .malformed => exact reads_error ha hs
  | .raised .busy => exact reads_none ha hs rfl
  | .raised .unavailable => exact reinspect_reads ha hs
  | .raised .transientJournal => exact reinspect_reads ha hs
  | .raised .migration => exact reads_none ha hs rfl
  | .raised .contract => exact reads_error ha hs
  | .raised .other => exact reads_error ha hs

theorem reconcileUnavailable_reads (ha : v'.admitted = v.admitted) (hs : v'.schema = v.schema) :
    Ensures justified (ReadsFoundation v) v' (reconcileUnavailable l) := by
  refine Ensures.perform (permits_of_ne (by simp)) fun reply => ?_
  match reply with
  | .value state => exact reads_classifyState (v'.next (.migrate l) (.value state)) ha hs rfl
  | .malformed => exact reads_error ha hs
  | .raised .busy => exact reads_none ha hs rfl
  | .raised .unavailable => exact reads_none ha hs rfl
  | .raised .transientJournal => exact reads_none ha hs rfl
  | .raised .migration => exact reads_none ha hs rfl
  | .raised .contract => exact reads_error ha hs
  | .raised .other => exact reads_error ha hs

/-- **A foundation is read as what the last answer about it says.** -/
theorem foundation_reads (ha : v'.admitted = v.admitted) (hs : v'.schema = v.schema) :
    Ensures justified (ReadsFoundation v) v' (foundation l) := by
  refine Ensures.perform (permits_of_ne (by simp)) fun reply => ?_
  match reply with
  | .value state => exact reads_classifyState (v'.next (.inspectMigration l) (.value state)) ha hs rfl
  | .malformed => exact reads_error ha hs
  | .raised .busy => exact reads_none ha hs rfl
  | .raised .transientJournal => exact reconcileJournal_reads ha hs
  | .raised .unavailable => exact reconcileUnavailable_reads ha hs
  | .raised .migration => exact reads_none ha hs rfl
  | .raised .contract => exact reads_error ha hs
  | .raised .other => exact reads_error ha hs

end ReadsFoundation

/-! ## Reading a schema -/

/-- A read of a schema over a foundation that is ready: the answers about
other schemas stay, and a state read is borne out. -/
structure ReadsSchema (s : RelationalSpecification) (v v' : Evidence)
    (r : Except ExecutionResult DomainObservation) : Prop where
  admitted : v'.admitted = v.admitted
  others : ∀ s', s' ≠ s → v'.schema s' = v.schema s'
  state : ∀ status : DomainSchemaStatus, r = .ok status.observation →
    v'.foundation = some .ready ∧ v'.schema s = some status

theorem DomainSchemaStatus.observation_inj {a b : DomainSchemaStatus}
    (h : a.observation = b.observation) : a = b := by
  revert h
  cases a <;> cases b <;> decide

theorem schema_error {s : RelationalSpecification} {v' : Evidence} {result : ExecutionResult}
    (ha : v'.admitted = v.admitted) (ho : ∀ s', s' ≠ s → v'.schema s' = v.schema s') :
    ReadsSchema s v v' (.error result) := ⟨ha, ho, fun _ h => absurd h (by simp)⟩

theorem schema_none {s : RelationalSpecification} {v' : Evidence} {t : DomainObservation}
    (ha : v'.admitted = v.admitted) (ho : ∀ s', s' ≠ s → v'.schema s' = v.schema s')
    (ht : t.nonState = true) : ReadsSchema s v v' (.ok t) := by
  refine ⟨ha, ho, fun status h => ?_⟩
  rw [Except.ok.inj h] at ht
  exact absurd ht (by cases status <;> decide)

theorem schema_status {s : RelationalSpecification} {v' : Evidence} {status : DomainSchemaStatus}
    (ha : v'.admitted = v.admitted) (ho : ∀ s', s' ≠ s → v'.schema s' = v.schema s')
    (hready : v'.foundation = some .ready) (hs : v'.schema s = some status) :
    ReadsSchema s v v' (.ok status.observation) := by
  refine ⟨ha, ho, fun status' h => ?_⟩
  rw [← DomainSchemaStatus.observation_inj (Except.ok.inj h)]
  exact ⟨hready, hs⟩

/-- An answer about a schema is recorded under it. -/
theorem next_inspect {s : RelationalSpecification} (v : Evidence) (a : Answer DomainSchemaStatus) :
    (v.next (.inspect l s) a).schema s = a.schema ∧
      ∀ s', s' ≠ s → (v.next (.inspect l s) a).schema s' = v.schema s' :=
  ⟨Function.update_self .., fun _ h => Function.update_of_ne h ..⟩

theorem inspectAgain_reads {s : RelationalSpecification} {v' : Evidence}
    (ha : v'.admitted = v.admitted) (ho : ∀ s', s' ≠ s → v'.schema s' = v.schema s')
    (hready : v'.foundation = some .ready) :
    Ensures justified (ReadsSchema s v) v' (inspectAgain l s) := by
  refine Ensures.perform (permits_of_ne (by simp)) fun reply => ?_
  obtain ⟨hself, hne⟩ := next_inspect (l := l) (s := s) v' reply
  have ho' : ∀ s', s' ≠ s → (v'.next (.inspect l s) reply).schema s' = v.schema s' :=
    fun s' h => (hne s' h).trans (ho s' h)
  match reply with
  | .value status => exact schema_status ha ho' hready hself
  | .malformed => exact schema_error ha ho'
  | .raised .busy => exact schema_none ha ho' rfl
  | .raised .unavailable => exact schema_none ha ho' rfl
  | .raised .transientJournal => exact schema_none ha ho' rfl
  | .raised .migration => exact schema_none ha ho' rfl
  | .raised .contract => exact schema_error ha ho'
  | .raised .other => exact schema_error ha ho'

/-- **A schema is read as what the last answer about it says.** -/
theorem domainState_reads {s : RelationalSpecification} (hready : v.foundation = some .ready) :
    Ensures justified (ReadsSchema s v) v (domainState l s) := by
  refine Ensures.perform (permits_of_ne (by simp)) fun reply => ?_
  obtain ⟨hself, hne⟩ := next_inspect (l := l) (s := s) v reply
  match reply with
  | .value status => exact schema_status rfl hne hready hself
  | .malformed => exact schema_error rfl hne
  | .raised .busy => exact schema_none rfl hne rfl
  | .raised .unavailable => exact schema_none rfl hne rfl
  | .raised .transientJournal =>
    refine Ensures.bind (foundation_reads rfl rfl) fun u r ⟨ha, hs, hf⟩ => ?_
    have ho : ∀ s', s' ≠ s → u.schema s' = v.schema s' := fun s' h => by rw [hs]; exact hne s' h
    match r with
    | .error result => exact schema_error ha ho
    | .ok .ready => exact inspectAgain_reads ha ho (hf _ rfl .ready rfl)
    | .ok .busy => exact schema_none ha ho rfl
    | .ok .unavailable => exact schema_none ha ho rfl
    | .ok .uncertain => exact schema_none ha ho rfl
    | .ok .uninitialised => exact schema_error ha ho
    | .ok .outdated => exact schema_error ha ho
    | .ok .dirty => exact schema_error ha ho
    | .ok .incompatible => exact schema_error ha ho
    | .ok .notObserved => exact schema_error ha ho
  | .raised .migration => exact schema_none rfl hne rfl
  | .raised .contract => exact schema_error rfl hne
  | .raised .other => exact schema_error rfl hne

/-! ## Observing -/

/-- What a run may be asked to recover for, once it has observed. -/
def Observes (i : LifecycleIntent) (source : Service) (v v' : Evidence)
    (r : Except ExecutionResult Observation) : Prop :=
  v'.admitted = v.admitted ∧ ∀ o, r = .ok o → o.valid = true →
    planRecovery o = .recoveryRequired → v'.Contradicts i source

/-- The specification to reach is not the one there is: its version is the next. -/
theorem target_ne_current {m : Manifest.ManifestV2} {t : RelationalTransition}
    (h : classifyTransition m i.targetManifest = some t) :
    compileManifest i.targetManifest ≠ compileManifest m := by
  intro heq
  have hversion := (classifyTransition_eq_some h).version
  have := congrArg RelationalSpecification.schemaVersion heq
  simp only [compileManifest] at this
  omega

theorem compile_eq_some {target : RelationalSpecification} {transition : Option RelationalTransition}
    (h : compile i source = some (target, transition)) :
    target = compileManifest i.targetManifest ∧
      (i.kind ≠ .materialise → ∃ m t, source.manifest = some m ∧
        classifyTransition m i.targetManifest = some t ∧ transition = some t) := by
  unfold compile at h
  by_cases hkind : i.kind = .materialise
  · rw [if_pos hkind] at h
    obtain ⟨rfl, -⟩ := Prod.mk.inj (Option.some.inj h)
    exact ⟨rfl, fun hne => absurd hkind hne⟩
  · rw [if_neg hkind] at h
    simp only [Option.bind_eq_bind, Option.bind_eq_some_iff] at h
    obtain ⟨m, hm, t, ht, heq⟩ := h
    obtain ⟨rfl, rfl⟩ := Prod.mk.inj (Option.some.inj heq)
    exact ⟨rfl, fun _ => ⟨m, t, hm, ht, rfl⟩⟩

/-- The evidence bears out an observation: what it says of the foundation
and of each schema is what the last answer about it said. -/
inductive Evidence.Bears (v : Evidence) (i : LifecycleIntent) (source : Service) : Observation → Prop
  | materialise {f : FoundationObservation} {t : DomainObservation} : i.kind = .materialise →
      (f ≠ .ready → v.BearsFoundation f) →
      (∀ status : DomainSchemaStatus, t = status.observation →
        v.foundation = some .ready ∧ v.schema (compileManifest i.targetManifest) = some status) →
      v.Bears i source (.materialise .prepared f t)
  | evolve {f : FoundationObservation} {t s : DomainObservation} {m : Manifest.ManifestV2} :
      i.kind = .evolve → source.manifest = some m → (f ≠ .ready → v.BearsFoundation f) →
      (∀ status : DomainSchemaStatus, t = status.observation →
        v.schema (compileManifest i.targetManifest) = some status) →
      (∀ status : DomainSchemaStatus, s = status.observation →
        v.foundation = some .ready ∧ v.schema (compileManifest m) = some status) →
      v.Bears i source (.evolve .prepared f t s)

/-- **Recovery is planned on a contradiction.** -/
theorem Evidence.Bears.contradicts {o : Observation} (h : v.Bears i source o) (hvalid : o.valid = true)
    (hplan : planRecovery o = .recoveryRequired) : v.Contradicts i source := by
  cases h with
  | materialise hkind hf ht =>
    rcases planRecovery_materialise hvalid hplan with rfl | ⟨rfl, rfl⟩
    · exact .inl (hf (by decide) .incompatible rfl)
    · obtain ⟨hready, htarget⟩ := ht .incompatible rfl
      exact .inr (.inr (.inl ⟨hready, hkind, htarget⟩))
  | @evolve f t s m hkind hm hf ht hs =>
    rcases planRecovery_evolve hvalid hplan with rfl | rfl | ⟨rfl, ⟨rfl, rfl⟩ | ⟨rfl, rfl⟩⟩
    · exact .inl (hf (by decide) .incompatible rfl)
    · exact .inr (.inl ⟨hkind, hf (by decide) .uninitialised rfl⟩)
    · obtain ⟨hready, hsource⟩ := hs .unmaterialised rfl
      exact .inr (.inr (.inr ⟨hready, hkind, m, hm, .inl ⟨ht .unmaterialised rfl, hsource⟩⟩))
    · obtain ⟨hready, hsource⟩ := hs .incompatible rfl
      exact .inr (.inr (.inr ⟨hready, hkind, m, hm, .inr ⟨ht .incompatible rfl, hsource⟩⟩))

/-- **The registry is finalised on a target that was found ready.** -/
theorem Evidence.Bears.ready {o : Observation} (h : v.Bears i source o)
    (hplan : planRecovery o = .finalizeRegistry) :
    v.schema (compileManifest i.targetManifest) = some .ready := by
  cases h with
  | materialise _ _ ht => exact (ht .ready (planRecovery_materialise_ready hplan)).2
  | evolve _ _ _ ht _ => exact ht .ready (planRecovery_evolve_ready hplan)

/-- What a run reads when it observes. -/
def Observed (i : LifecycleIntent) (source : Service) (v v' : Evidence)
    (r : Except ExecutionResult Observation) : Prop :=
  v'.admitted = v.admitted ∧ ∀ o, r = .ok o → v'.Bears i source o

theorem observed_error {v' : Evidence} {result : ExecutionResult} (ha : v'.admitted = v.admitted) :
    Observed i source v v' (.error result) := ⟨ha, fun _ h => absurd h (by simp)⟩

theorem observed_ok {v' : Evidence} {o : Observation} (ha : v'.admitted = v.admitted)
    (h : v'.Bears i source o) : Observed i source v v' (.ok o) := by
  refine ⟨ha, fun o' ho => ?_⟩
  obtain rfl := Except.ok.inj ho
  exact h

/-- A schema that was not asked for is in no state. -/
theorem notObserved_ne (status : DomainSchemaStatus) :
    DomainObservation.notObserved ≠ status.observation := by
  cases status <;> decide

/-- The source is read only under a target that was read and is not there. -/
theorem evolve_observed {t : RelationalTransition} {m : Manifest.ManifestV2} (hkind : i.kind = .evolve)
    (hm : source.manifest = some m) (ht : classifyTransition m i.targetManifest = some t)
    {u : Evidence} {d : DomainObservation}
    (hd : ReadsSchema (compileManifest i.targetManifest) v u (.ok d)) :
    Ensures justified (Observed i source v) u (do
      match ← sourceState l (some t) d with
      | .error result => pure (.error result)
      | .ok s => pure (.ok (.evolve .prepared .ready d s))) := by
  have hcurrent : t.current = compileManifest m := (classifyTransition_eq_some ht).current
  unfold sourceState
  by_cases habsent : d = .unmaterialised ∨ d = .incompatible
  · obtain ⟨status, hstatus⟩ : ∃ status : DomainSchemaStatus, d = status.observation := by
      rcases habsent with rfl | rfl
      · exact ⟨.unmaterialised, rfl⟩
      · exact ⟨.incompatible, rfl⟩
    obtain ⟨hready, -⟩ := hd.state status (by rw [hstatus])
    rw [if_pos habsent]
    refine Ensures.bind (domainState_reads hready) fun w r hs => ?_
    rw [hcurrent] at hs
    match r with
    | .error result => exact observed_error (hs.admitted.trans hd.admitted)
    | .ok s =>
      refine observed_ok (hs.admitted.trans hd.admitted) (.evolve hkind hm (fun h => absurd rfl h)
        (fun status hstatus => ?_) fun status hstatus => hs.state status (by rw [hstatus]))
      rw [hs.others _ (target_ne_current ht)]
      exact (hd.state status (by rw [hstatus])).2
  · rw [if_neg habsent]
    refine observed_ok hd.admitted (.evolve hkind hm (fun h => absurd rfl h) (fun status hstatus => ?_)
      fun status hstatus => absurd hstatus (notObserved_ne status))
    exact (hd.state status (by rw [hstatus])).2

/-- **An observation is borne out by the replies.** -/
theorem observe_observed {target : RelationalSpecification} {transition : Option RelationalTransition}
    (hcompile : compile i source = some (target, transition)) :
    Ensures justified (Observed i source v) v (observe i l target transition) := by
  obtain ⟨rfl, hevolve⟩ := compile_eq_some hcompile
  refine Ensures.bind (foundation_reads rfl rfl) fun u r ⟨ha, _, hf⟩ => ?_
  match r with
  | .error result => exact observed_error ha
  | .ok f =>
    have hbears := hf f rfl
    by_cases hkind : i.kind = .materialise
    · dsimp only
      rw [if_pos hkind]
      by_cases hready : f = .ready
      · subst hready
        rw [if_pos rfl]
        refine Ensures.bind (domainState_reads (hbears .ready rfl)) fun w r ht => ?_
        match r with
        | .error result => exact observed_error (ht.admitted.trans ha)
        | .ok t =>
          exact observed_ok (ht.admitted.trans ha) (.materialise hkind (fun h => absurd rfl h)
            fun status hs => ht.state status (by rw [hs]))
      · rw [if_neg hready]
        exact observed_ok ha (.materialise hkind (fun _ => hbears)
          fun status hs => absurd hs (notObserved_ne status))
    · obtain ⟨m, t, hm, ht, rfl⟩ := hevolve hkind
      have hkind' : i.kind = .evolve := i.lifecycle.resolve_left hkind
      dsimp only
      rw [if_neg hkind]
      by_cases hready : f = .ready
      · subst hready
        rw [if_pos rfl]
        refine Ensures.bind (domainState_reads (hbears .ready rfl)) fun w r hd => ?_
        match r with
        | .error result => exact observed_error (hd.admitted.trans ha)
        | .ok d =>
          refine (evolve_observed hkind' hm ht hd).mono fun x r hx => ⟨hx.1.trans ha, hx.2⟩
      · rw [if_neg hready]
        exact observed_ok ha (.evolve hkind' hm (fun _ => hbears)
          (fun status hs => absurd hs (notObserved_ne status))
          fun status hs => absurd hs (notObserved_ne status))

/-- An observation that calls for recovery is a contradiction. -/
theorem observe_observes {target : RelationalSpecification} {transition : Option RelationalTransition}
    (hcompile : compile i source = some (target, transition)) :
    Ensures justified (Observes i source v) v (observe i l target transition) :=
  (observe_observed hcompile).mono fun _ _ h =>
    ⟨h.1, fun o ho hvalid hplan => (h.2 o ho).contradicts hvalid hplan⟩

/-! ## Runs -/

/-- Recovery is asked for under evidence that justifies it. -/
theorem finalizeRecovery_ensures (h : v.Justified i) :
    Ensures justified (fun _ _ => True) v (finalizeRecovery i) := by
  refine Ensures.perform (permits_of_ne (by simp)) fun reply => ?_
  match reply with
  | .value at_ =>
    refine Ensures.perform ?_ fun _ => trivial
    intro i' _ hcall
    obtain ⟨rfl, rfl⟩ := Call.finalizeRecoveryRequired.inj hcall
    exact h
  | .malformed => exact trivial
  | .raised _ => exact trivial

theorem finalizeCompleted_ensures :
    Ensures justified (fun _ _ => True) v (finalizeCompleted i l) := by
  refine Ensures.perform (permits_of_ne (by simp)) fun reply => ?_
  match reply with
  | .value at_ => exact Ensures.perform (permits_of_ne (by simp)) fun _ => trivial
  | .malformed => exact trivial
  | .raised _ => exact trivial

theorem applyFoundation_ensures :
    Ensures justified (fun u _ => u.admitted = v.admitted) v (applyFoundation l) := by
  refine Ensures.perform (permits_of_ne (by simp)) fun reply => ?_
  match reply with
  | .value state => exact rfl
  | .malformed => exact rfl
  | .raised _ => exact rfl

theorem applySchema_ensures {plan : RecoveryPlan} {target : RelationalSpecification}
    {transition : Option RelationalTransition} :
    Ensures justified (fun u _ => u.admitted = v.admitted) v
      (applySchema plan l target transition) := by
  unfold applySchema
  split
  · exact Ensures.perform (permits_of_ne (by simp)) fun _ => rfl
  · exact Ensures.perform (permits_of_ne (by simp)) fun _ => rfl
  · exact rfl

/-- The loop, by induction on the rounds it has left: each round observes
anew, and what the rounds before it did is no evidence. -/
theorem reconcile_ensures {target : RelationalSpecification} {transition : Option RelationalTransition}
    (hcompile : compile i source = some (target, transition)) (n : ℕ) :
    ∀ (p : Progress) (v : Evidence), p.left = n → v.admitted = some (i, some source) →
      Ensures justified (fun _ _ => True) v (reconcile i l target transition p) := by
  induction n using Nat.strong_induction_on with
  | _ n ih =>
    intro p v hn hv
    rw [reconcile]
    refine Ensures.bind (observe_observes hcompile) fun u r hr => ?_
    obtain ⟨ha, hobs⟩ := hr
    rw [hv] at ha
    cases r with
    | error result => exact trivial
    | ok o =>
      dsimp only
      by_cases hvalid : o.valid = false
      · rw [if_pos hvalid]
        exact trivial
      rw [if_neg hvalid]
      split
      · exact trivial
      · rename_i hplan
        refine finalizeRecovery_ensures ⟨some source, ha, fun s hs => ?_⟩
        obtain rfl := Option.some.inj hs
        exact .inr (hobs o rfl (Bool.not_eq_false _ ▸ hvalid) hplan)
      · exact finalizeCompleted_ensures
      · exact trivial
      · split_ifs with hattempted hagain hprepare hschema
        · refine Ensures.bind applyFoundation_ensures fun w r hw => ?_
          cases r with
          | error result => exact trivial
          | ok state =>
            exact ih _ (hn ▸ Progress.left_reconcile (Progress.not_reconciled hagain) _) _ w rfl
              (hw.trans ha)
        · exact trivial
        · refine Ensures.bind applyFoundation_ensures fun w r hw => ?_
          cases r with
          | error result => exact trivial
          | ok state =>
            exact ih _ (hn ▸ Progress.left_attempt (by rw [hprepare]; decide) hattempted _) _ w rfl
              (hw.trans ha)
        · refine Ensures.bind applySchema_ensures fun w r hw => ?_
          cases r with
          | some result => exact trivial
          | none =>
            exact ih _ (hn ▸ Progress.left_attempt hschema hattempted p.foundationResult) _ w rfl
              (hw.trans ha)
        · exact trivial

theorem admission_ensures {command : LifecycleCommand} :
    Ensures justified (fun u r => ∀ i s, r = .ok (i, s) → u.admitted = some (i, some s)) v
      (admission command) := by
  refine Ensures.perform (permits_of_ne (by simp)) fun reply => ?_
  match reply with
  | .raised error => exact fun _ _ h => absurd h (by simp)
  | .ended (.prepared i, none) none =>
    have h : Ensures justified (fun _ _ => True) (v.next (.admission command)
        (.ended (.prepared i, none) none)) (finalizeRecovery i) :=
      finalizeRecovery_ensures ⟨none, rfl, fun s hs => absurd hs (by simp)⟩
    exact h.bind fun u result _ i s heq => absurd heq (by simp)
  | .ended (.prepared i, some s) none =>
    intro i' s' heq
    obtain ⟨rfl, rfl⟩ := Prod.mk.inj (Except.ok.inj heq)
    exact rfl
  | .ended (.prepared i, source) (some error) => exact fun _ _ h => absurd h (by simp)
  | .ended (.conflict, source) failure => exact fun _ _ h => absurd h (by simp)
  | .ended (.completed i s, source) failure => exact fun _ _ h => absurd h (by simp)
  | .ended (.recoveryRequired i, source) failure => exact fun _ _ h => absurd h (by simp)
  | .ended (.staleRevision, source) failure => exact fun _ _ h => absurd h (by simp)
  | .ended (.unsupportedTransition, source) failure => exact fun _ _ h => absurd h (by simp)
  | .ended (.operationInProgress, source) failure => exact fun _ _ h => absurd h (by simp)

theorem locate_ensures :
    Ensures justified (fun u _ => u.admitted = v.admitted) v (locate i source) := by
  refine Ensures.perform (permits_of_ne (by simp)) fun reply => ?_
  match reply with
  | .value (info, l) =>
    dsimp only
    split_ifs <;> exact rfl
  | .malformed => exact rfl
  | .raised .busy => exact rfl
  | .raised .unavailable => exact rfl
  | .raised .transientJournal => exact rfl
  | .raised .migration => exact rfl
  | .raised .contract => exact rfl
  | .raised .other => exact rfl

theorem execute_ensures (command : LifecycleCommand) :
    Ensures justified (fun _ _ => True) {} (execute command) := by
  refine Ensures.bind admission_ensures fun u r hu => ?_
  match r with
  | .error result => exact trivial
  | .ok (i, source) =>
    have ha := hu i source rfl
    dsimp only
    by_cases hmatch : sourceMatches i source = false
    · rw [if_pos hmatch]
      refine finalizeRecovery_ensures ⟨some source, ha, fun s hs => ?_⟩
      obtain rfl := Option.some.inj hs
      exact .inl hmatch
    · rw [if_neg hmatch]
      refine Ensures.bind locate_ensures fun w r hw => ?_
      match r with
      | .error result => exact trivial
      | .ok l =>
        dsimp only
        cases hcompile : compile i source with
        | none => exact trivial
        | some c => exact reconcile_ensures hcompile _ _ w rfl (hw.trans ha)

/-- What the replies of a run so far amount to. -/
def Evidence.of (t : List (Program.Reply Call.Reply)) : Evidence := justified.after {} t

/-- **A claim is moved to recovery on contradictory evidence only.**
Whatever a run is answered, it asks for recovery only when the service it
was admitted with does not match the intent, or when the last answers
about the storage contradict it. And of the two operations that end a
claim, completion moves it to recovery only when the service then found
is missing or does not match it either. -/
theorem recovery_only_on_contradiction (command : LifecycleCommand) :
    (∀ t out, Trace (execute command) t out →
      ∀ before after i at_ r, t = before ++ ⟨.finalizeRecoveryRequired i at_, r⟩ :: after →
        (Evidence.of before).Justified i) ∧
    ∀ (d d' : Database) (c : Completion) (i : LifecycleIntent),
      d.finalizeCompleted c = some (.recoveryRequired i, d') → d' ≠ d →
      (c.intent.kind = .evolve →
        c.intent.targetManifest.schemaVersion = c.intent.expectedSchemaVersion + 1) →
      i = c.intent ∧ ∀ s, d.service i.principalId i.serviceId = some s → sourceMatches i s = false := by
  refine ⟨fun t out ht before after i at_ r hsplit => ?_, fun d d' c i hfinal hne hversion => ?_⟩
  · exact (execute_ensures command).trace ht hsplit i at_ rfl
  · rcases Database.finalizeCompleted_cases hfinal with ⟨hsame, -⟩ | ⟨hout, -, hservice⟩ | ⟨u, hout, -⟩
    · exact absurd hsame hne
    · obtain rfl := LifecycleOutcome.recoveryRequired.inj hout
      refine ⟨rfl, fun s hs => ?_⟩
      obtain ⟨hclock, hpre⟩ := hservice s hs
      by_contra hmatch
      rw [Bool.not_eq_false] at hmatch
      have hschema := (sourceMatches_iff.1 hmatch).2.2.2.2.1
      rcases c.intent.lifecycle with hkind | hkind
      · simp [finalizationPreconditions, hmatch, hclock, hkind] at hpre
      · simp [finalizationPreconditions, hmatch, hclock, hschema, hversion hkind] at hpre
    · exact absurd hout (by simp)

/-- A service that is gone when its command is admitted. -/
def goneCommand : LifecycleCommand :=
  .materialise ⟨⟨"alice", by decide⟩, ⟨"cli", by decide⟩, ⟨1, by decide, by decide⟩, ⟨1, by decide⟩,
    ⟨"first", by decide⟩⟩

/-- A manifest of one entity without fields of its own. -/
def goneManifest : Manifest.ManifestV2 where
  schemaVersion := 1
  entities := [{ name := "gone", attributes := Manifest.SERVER_MANAGED_FIELDS }]
  valid := by decide

theorem recovery_only_on_contradiction_gone :
    (Evidence.of [⟨.admission goneCommand, .ended (.prepared (goneCommand.intent goneManifest), none) none⟩,
      ⟨.now, .value ⟨0, by decide⟩⟩]).Justified (goneCommand.intent goneManifest) :=
  (recovery_only_on_contradiction goneCommand).1
    [⟨.admission goneCommand, .ended (.prepared (goneCommand.intent goneManifest), none) none⟩,
      ⟨.now, .value ⟨0, by decide⟩⟩,
      ⟨.finalizeRecoveryRequired (goneCommand.intent goneManifest) ⟨0, by decide⟩, .raised .busy⟩]
    none (.replied (.replied (.replied (.stopped _)))) _ [] _ _ _ rfl

end Lifecycle

end Aipcs

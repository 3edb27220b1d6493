import Aipcs.Lifecycle.Convergence
import Aipcs.Lifecycle.SchemaPlan

/-!
# Lifecycle — when a replay is decisive

One execution of a command whose claim is prepared, alone and without a
fault. It completes the claim exactly when the engine's checks stay within
their budget on the store as it is and as it is to be, and the rows are
distinct on every unique index to add. Otherwise the claim is left
prepared, whatever is tried again.
-/

namespace Aipcs

namespace Lifecycle

open Registry Relational Store Program

variable {V : Type} [DecidableEq V] {engine : Engine V} {at_ : Instant} {w : World V}
variable {l : ServiceStoreLocator} {α : Type}

/-! ## Calls in a run of its own -/

/-- A program run alone and without a fault. -/
abbrev alone (engine : Engine V) (at_ : Instant) (p : Run α) (w : World V) : α × World V :=
  exec (serve engine at_) p w

omit [DecidableEq V] in
theorem onStore_sqlite {β : Type} (hl : l.backend = .sqlite)
    (f : ServiceStore V → Answer β × ServiceStore V) :
    onStore w l f = ((f (w.store l)).1, w.withStore l (f (w.store l)).2) := if_pos hl

omit [DecidableEq V] in
theorem onStore_read {β : Type} (hl : l.backend = .sqlite) (f : ServiceStore V → Answer β) :
    (onStore w l fun st => (f st, st)) = (f (w.store l), w) := by
  rw [onStore_sqlite hl, World.withStore_store]

section calls

variable (hl : l.backend = .sqlite)

include hl

theorem alone_inspectMigration (f : Answer MigrationState → Run α) :
    alone engine at_ (inspectMigration l >>= f) w =
      alone engine at_ (f ((w.store l).inspectMigration engine)) w := by
  have hserve : serve engine at_ w (.inspectMigration l) = ((w.store l).inspectMigration engine, w) :=
    onStore_read hl fun st => st.inspectMigration engine
  change exec _ (f (serve engine at_ w (.inspectMigration l)).1) _ = _
  rw [hserve]

theorem alone_inspect {s : RelationalSpecification} (f : Answer DomainSchemaStatus → Run α) :
    alone engine at_ (inspect l s >>= f) w = alone engine at_ (f ((w.store l).inspect engine s)) w := by
  have hserve : serve engine at_ w (.inspect l s) = ((w.store l).inspect engine s, w) :=
    onStore_read hl fun st => st.inspect engine s
  change exec _ (f (serve engine at_ w (.inspect l s)).1) _ = _
  rw [hserve]

theorem alone_migrate (f : Answer MigrationState → Run α) :
    alone engine at_ (migrate l >>= f) w = alone engine at_ (f ((w.store l).migrate engine).1)
      (w.withStore l ((w.store l).migrate engine).2) := by
  have hserve : serve engine at_ w (.migrate l) = _ := onStore_sqlite hl fun st => st.migrate engine
  change exec _ (f (serve engine at_ w (.migrate l)).1) _ = _
  rw [hserve]

theorem alone_materialise {s : RelationalSpecification} (f : Answer DomainSchemaStatus → Run α) :
    alone engine at_ (materialise l s >>= f) w = alone engine at_ (f ((w.store l).materialise engine s).1)
      (w.withStore l ((w.store l).materialise engine s).2) := by
  have hserve : serve engine at_ w (.materialise l s) = _ :=
    onStore_sqlite hl fun st => st.materialise engine s
  change exec _ (f (serve engine at_ w (.materialise l s)).1) _ = _
  rw [hserve]

theorem alone_evolve {t : RelationalTransition} (f : Answer DomainSchemaStatus → Run α) :
    alone engine at_ (evolve l t >>= f) w = alone engine at_ (f ((w.store l).evolve engine t).1)
      (w.withStore l ((w.store l).evolve engine t).2) := by
  have hserve : serve engine at_ w (.evolve l t) = _ := onStore_sqlite hl fun st => st.evolve engine t
  change exec _ (f (serve engine at_ w (.evolve l t)).1) _ = _
  rw [hserve]

end calls

theorem alone_bind {β : Type} (p : Run β) (f : β → Run α) : alone engine at_ (p >>= f) w =
    alone engine at_ (f (alone engine at_ p w).1) (alone engine at_ p w).2 := exec_bind ..

/-! ## The foundation -/

/-- A store whose foundation has been taken up to the last step. -/
def readied (st : ServiceStore V) : ServiceStore V := { st with foundation := .ready, journal := false }

omit [DecidableEq V] in
theorem readied_eq {st : ServiceStore V} (h : st.Usable) : readied st = st := by
  cases st
  obtain ⟨hf, hj⟩ := h
  simp only at hf hj
  subst hf hj
  rfl

omit [DecidableEq V] in
theorem usable_readied {st : ServiceStore V} : (readied st).Usable := ⟨rfl, rfl⟩

omit [DecidableEq V] in
theorem inspectMigration_usable {st : ServiceStore V} (hu : st.Usable) :
    st.inspectMigration engine = if CHECK_BUDGET ≤ engine.quickCheck st then .raised .migration
      else .value ⟨true, .ready⟩ := by
  rw [ServiceStore.inspectMigration, hu.1, hu.2]
  by_cases hquick : CHECK_BUDGET ≤ engine.quickCheck st <;> simp [hquick, Foundation.status]

omit [DecidableEq V] in
theorem migrate_eq (st : ServiceStore V) : st.migrate engine =
    if st.foundation = .ready then ((readied st).inspectMigration engine, readied st)
    else if CHECK_BUDGET ≤ engine.quickCheck (readied st) then
      (.raised .migration, { st with foundation := .preparedR3, journal := false })
    else (.value ⟨true, .ready⟩, readied st) := rfl

omit [DecidableEq V] in
theorem migrate_fst (st : ServiceStore V) : (st.migrate engine).1 =
    if CHECK_BUDGET ≤ engine.quickCheck (readied st) then .raised .migration
    else .value ⟨true, .ready⟩ := by
  rw [migrate_eq, inspectMigration_usable usable_readied]
  by_cases hready : st.foundation = .ready
  · rw [if_pos hready]
  · rw [if_neg hready]
    by_cases hquick : CHECK_BUDGET ≤ engine.quickCheck (readied st)
    · rw [if_pos hquick, if_pos hquick]
    · rw [if_neg hquick, if_neg hquick]

omit [DecidableEq V] in
theorem migrate_snd {st : ServiceStore V} (hquick : engine.quickCheck (readied st) < CHECK_BUDGET) :
    (st.migrate engine).2 = readied st := by
  rw [migrate_eq, if_neg (not_le.2 hquick)]
  by_cases hready : st.foundation = .ready
  · rw [if_pos hready]
  · rw [if_neg hready]

/-- What a store's foundation is found to be once it can be taken up. -/
def checked (engine : Engine V) (st : ServiceStore V) : FoundationObservation :=
  if CHECK_BUDGET ≤ engine.quickCheck (readied st) then .uncertain else .ready

section foundation

variable (hl : l.backend = .sqlite)

include hl

theorem foundation_usable (hu : (w.store l).Usable) :
    alone engine at_ (foundation l) w = (.ok (checked engine (w.store l)), w) := by
  rw [foundation, alone_inspectMigration hl, inspectMigration_usable hu, checked, readied_eq hu]
  by_cases hquick : CHECK_BUDGET ≤ engine.quickCheck (w.store l)
  · rw [if_pos hquick, if_pos hquick]
    rfl
  · rw [if_neg hquick, if_neg hquick]
    rfl

/-- A journal is read past by taking the foundation up. -/
theorem foundation_journal (hj : (w.store l).journal = true) : alone engine at_ (foundation l) w =
    (.ok (checked engine (w.store l)), w.withStore l ((w.store l).migrate engine).2) := by
  rw [foundation, alone_inspectMigration hl, ServiceStore.inspectMigration, if_pos hj]
  change alone engine at_ (reconcileJournal l) w = _
  rw [reconcileJournal, alone_migrate hl, migrate_fst, checked]
  by_cases hquick : CHECK_BUDGET ≤ engine.quickCheck (readied (w.store l))
  · rw [if_pos hquick, if_pos hquick]
    rfl
  · rw [if_neg hquick, if_neg hquick]
    rfl

theorem foundation_status (hj : (w.store l).journal = false) (hf : (w.store l).foundation ≠ .ready) :
    alone engine at_ (foundation l) w = (.ok (w.store l).foundation.status.observation, w) := by
  rw [foundation, alone_inspectMigration hl, ServiceStore.inspectMigration, hj]
  simp [hf]
  rfl

theorem applyFoundation_alone : alone engine at_ (applyFoundation l) w =
    (if CHECK_BUDGET ≤ engine.quickCheck (readied (w.store l)) then .error (.failed .operationUncertain)
      else .ok ⟨true, .ready⟩, w.withStore l ((w.store l).migrate engine).2) := by
  rw [applyFoundation, alone_migrate hl, migrate_fst]
  by_cases hquick : CHECK_BUDGET ≤ engine.quickCheck (readied (w.store l))
  · rw [if_pos hquick, if_pos hquick]
    rfl
  · rw [if_neg hquick, if_neg hquick]
    rfl

end foundation

/-! ## The schema -/

omit [DecidableEq V] in
theorem blocked_usable {st : ServiceStore V} (hu : st.Usable)
    (hquick : engine.quickCheck st < CHECK_BUDGET) : st.blocked engine = none := by
  rw [ServiceStore.blocked, hu.1, hu.2]
  simpa using hquick

/-- What an inspection is observed as. -/
def Answer.domain : Answer DomainSchemaStatus → DomainObservation
  | .value status => status.observation
  | _ => .uncertain

theorem inspectDomain_raised {st : ServiceStore V} {m : SchemaLayout} :
    (∃ status, st.inspectDomain engine m = .value status) ∨
      st.inspectDomain engine m = .raised .migration := by
  unfold ServiceStore.inspectDomain
  by_cases hempty : st.schema.tables = [] ∧ st.schema.indices = []
  · rw [if_pos hempty]
    exact .inl ⟨_, rfl⟩
  rw [if_neg hempty]
  by_cases hsame : ¬ st.schema.Same m
  · rw [if_pos hsame]
    exact .inl ⟨_, rfl⟩
  rw [if_neg hsame]
  by_cases hbudget : CHECK_BUDGET ≤ engine.foreignKeyCheck st
  · rw [if_pos hbudget]
    exact .inr rfl
  · rw [if_neg hbudget]
    exact .inl ⟨_, rfl⟩

section schema

variable (hl : l.backend = .sqlite) (hu : (w.store l).Usable)
variable (hquick : engine.quickCheck (w.store l) < CHECK_BUDGET)

include hl hu hquick

theorem domainState_alone {s : RelationalSpecification} : alone engine at_ (domainState l s) w =
    (.ok ((w.store l).inspectDomain engine (layout s)).domain, w) := by
  rw [domainState, alone_inspect hl, ServiceStore.inspect, blocked_usable hu hquick]
  dsimp only
  rcases @inspectDomain_raised V _ engine (w.store l) (layout s) with ⟨status, h⟩ | h
  · rw [h]
    rfl
  · rw [h]
    rfl

theorem foundation_alone : alone engine at_ (foundation l) w = (.ok .ready, w) := by
  rw [foundation_usable hl hu, checked, readied_eq hu, if_neg (not_le.2 hquick)]

variable {i : LifecycleIntent} {target : RelationalSpecification}
variable {transition : Option RelationalTransition}

theorem observe_materialise (hkind : i.kind = .materialise) :
    alone engine at_ (observe i l target transition) w = (.ok (.materialise .prepared .ready
      ((w.store l).inspectDomain engine (layout target)).domain), w) := by
  rw [observe, alone_bind, foundation_alone hl hu hquick]
  dsimp only
  rw [if_pos hkind, if_pos rfl, alone_bind, domainState_alone hl hu hquick]
  rfl

/-- The source is read under a target that is not there. -/
theorem observe_evolve (hkind : i.kind = .evolve) {t : RelationalTransition} {d : DomainObservation}
    (hd : ((w.store l).inspectDomain engine (layout target)).domain = d) :
    alone engine at_ (observe i l target (some t)) w = (.ok (.evolve .prepared .ready d
      (if d = .unmaterialised ∨ d = .incompatible then
        ((w.store l).inspectDomain engine (layout t.current)).domain else .notObserved)), w) := by
  rw [observe, alone_bind, foundation_alone hl hu hquick]
  dsimp only
  rw [if_neg (by rw [hkind]; decide), if_pos rfl, alone_bind, domainState_alone hl hu hquick, hd]
  dsimp only
  rw [alone_bind, sourceState]
  by_cases habsent : d = .unmaterialised ∨ d = .incompatible
  · rw [if_pos habsent, if_pos habsent, domainState_alone hl hu hquick]
    rfl
  · rw [if_neg habsent, if_neg habsent]
    rfl

end schema

/-! ## Rounds -/

section rounds

variable {i : LifecycleIntent} {target : RelationalSpecification} {w' : World V}
variable {transition : Option RelationalTransition} {p : Progress} {o : Observation}

/-- A round that defers. -/
theorem reconcile_defers (ho : alone engine at_ (observe i l target transition) w = (.ok o, w'))
    (hvalid : o.valid = true) {r : DeferredResult} (hplan : planRecovery o = .deferObservation r) :
    alone engine at_ (reconcile i l target transition p) w = (deferred p r, w') := by
  rw [reconcile, alone_bind, ho]
  dsimp only
  rw [if_neg (by rw [hvalid]; decide), hplan]
  rfl

/-- A round that finalises the registry. -/
theorem reconcile_finalizes (ho : alone engine at_ (observe i l target transition) w = (.ok o, w'))
    (hvalid : o.valid = true) (hplan : planRecovery o = .finalizeRegistry) :
    alone engine at_ (reconcile i l target transition p) w =
      alone engine at_ (finalizeCompleted i l) w' := by
  rw [reconcile, alone_bind, ho]
  dsimp only
  rw [if_neg (by rw [hvalid]; decide), hplan]

/-- A round that takes the foundation up. -/
theorem reconcile_prepares (ho : alone engine at_ (observe i l target transition) w = (.ok o, w'))
    (hvalid : o.valid = true) (hplan : planRecovery o = .prepareFoundation)
    (hnew : .prepareFoundation ∉ p.attempted) :
    alone engine at_ (reconcile i l target transition p) w =
      alone engine at_ (applyFoundation l >>= fun r =>
        match r with
        | .error result => pure result
        | .ok state => reconcile i l target transition
            { p with attempted := .prepareFoundation :: p.attempted, foundationResult := some state.status }) w' := by
  rw [reconcile, alone_bind, ho]
  dsimp only
  rw [if_neg (by rw [hvalid]; decide), hplan]
  dsimp only
  rewrite [dif_neg hnew, dif_pos rfl]
  refine congrArg (fun f => alone engine at_ (applyFoundation l >>= f) w') (funext fun r => ?_)
  cases r <;> rfl

/-- A round that acts on the schema. -/
theorem reconcile_acts (ho : alone engine at_ (observe i l target transition) w = (.ok o, w'))
    (hvalid : o.valid = true) {plan : RecoveryPlan} (hplan : planRecovery o = plan)
    (hschema : plan = .applyInitialSchema ∨ plan = .applyTransition) (hnew : plan ∉ p.attempted) :
    alone engine at_ (reconcile i l target transition p) w =
      alone engine at_ (applySchema plan l target transition >>= fun r =>
        match r with
        | some result => pure result
        | none => reconcile i l target transition { p with attempted := plan :: p.attempted }) w' := by
  rw [reconcile, alone_bind, ho]
  dsimp only
  rw [if_neg (by rw [hvalid]; decide), hplan]
  rcases hschema with rfl | rfl <;> dsimp only <;>
    rewrite [dif_neg hnew, dif_neg (by decide), dif_pos (by decide)] <;>
    refine congrArg (fun f => alone engine at_ (applySchema _ l target transition >>= f) w')
      (funext fun r => ?_) <;> cases r <;> rfl

end rounds

/-! ## Plans -/

section plans

variable {st left : ServiceStore V} {plan : List ServiceStore.Statement} {m : SchemaLayout}

/-- The checks that stand between a plan that went through and its commit. -/
theorem apply_executed (hplan : st.executeAll plan = some left) (hu : left.Usable)
    (hne : m.tables ≠ []) (hsame : left.schema.Same m) (hclean : left.foreignKeysClean = true) :
    st.apply engine plan m =
      if engine.quickCheck left < CHECK_BUDGET ∧ engine.foreignKeyCheck left < CHECK_BUDGET then
        (.value .ready, left)
      else (.raised .migration, st) := by
  have htables : ¬ (left.schema.tables = [] ∧ left.schema.indices = []) :=
    fun h => hsame.symm.extends_.tables_ne_nil hne h.1
  rw [ServiceStore.apply, hplan]
  dsimp only
  by_cases hquick : engine.quickCheck left < CHECK_BUDGET
  · rw [blocked_usable hu hquick]
    by_cases hkeys : engine.foreignKeyCheck left < CHECK_BUDGET
    · rw [ServiceStore.inspectDomain_ready.2 ⟨htables, hsame, hclean, hkeys⟩, if_pos ⟨hquick, hkeys⟩]
    · rw [if_neg fun h => hkeys h.2, ServiceStore.inspectDomain, if_neg htables, if_neg (not_not.2 hsame),
        if_pos (not_lt.1 hkeys)]
  · have hblocked : left.blocked engine = some .migration := by
      rw [ServiceStore.blocked, hu.1, hu.2]
      simpa using hquick
    rw [hblocked, if_neg fun h => hquick h.1]

theorem apply_refused (hplan : st.executeAll plan = none) :
    st.apply engine plan m = (.raised .migration, st) := by
  rw [ServiceStore.apply, hplan]

/-- What an inspection says of a layout that is there, with references
that lead somewhere. -/
theorem inspectDomain_same (hne : m.tables ≠ []) (hsame : st.schema.Same m)
    (hclean : st.foreignKeysClean = true) : st.inspectDomain engine m =
      if engine.foreignKeyCheck st < CHECK_BUDGET then .value .ready else .raised .migration := by
  have htables : ¬ (st.schema.tables = [] ∧ st.schema.indices = []) :=
    fun h => hsame.symm.extends_.tables_ne_nil hne h.1
  by_cases hkeys : engine.foreignKeyCheck st < CHECK_BUDGET
  · rw [ServiceStore.inspectDomain_ready.2 ⟨htables, hsame, hclean, hkeys⟩, if_pos hkeys]
  · rw [ServiceStore.inspectDomain, if_neg htables, if_neg (not_not.2 hsame), if_pos (not_lt.1 hkeys),
      if_neg hkeys]

theorem inspectDomain_other (hne : st.schema.tables ≠ []) (hnot : ¬ st.schema.Same m) :
    st.inspectDomain engine m = .value .incompatible := by
  rw [ServiceStore.inspectDomain, if_neg fun h => hne h.1, if_pos hnot]

theorem inspectDomain_empty (hempty : st.schema = .empty) :
    st.inspectDomain engine m = .value .unmaterialised := by
  rw [ServiceStore.inspectDomain, hempty, if_pos ⟨rfl, rfl⟩]

end plans

/-! ## Feasibility -/

/-- **The replay of an intent can go through**: the checks stay within their
budget on the store as it is found and as it is to be, and the rows are
distinct on each unique index that is to be added. -/
inductive Feasible (engine : Engine V) (st : ServiceStore V) (i : LifecycleIntent) (s : Service) : Prop
  | there : engine.quickCheck (readied st) < CHECK_BUDGET → st.schema.Same (targetLayout i) →
      engine.foreignKeyCheck (readied st) < CHECK_BUDGET → Feasible engine st i s
  | initial : engine.quickCheck (readied st) < CHECK_BUDGET → i.kind = .materialise →
      st.schema = .empty →
      engine.quickCheck { readied st with schema := targetLayout i } < CHECK_BUDGET →
      engine.foreignKeyCheck { readied st with schema := targetLayout i } < CHECK_BUDGET →
      Feasible engine st i s
  | transition {m : Manifest.ManifestV2} {t : RelationalTransition} :
      engine.quickCheck (readied st) < CHECK_BUDGET → i.kind = .evolve → s.manifest = some m →
      classifyTransition m i.targetManifest = some t →
      engine.foreignKeyCheck (readied st) < CHECK_BUDGET →
      (∀ j ∈ t.additions.indices, j.unique = true → ServiceStore.DistinctOn (st.rows j.entity) j.fields) →
      engine.quickCheck { readied st with schema := ServiceStore.grown t st.schema } < CHECK_BUDGET →
      engine.foreignKeyCheck { readied st with schema := ServiceStore.grown t st.schema } < CHECK_BUDGET →
      Feasible engine st i s

theorem Feasible.quick {st : ServiceStore V} {i : LifecycleIntent} {s : Service}
    (h : Feasible engine st i s) : engine.quickCheck (readied st) < CHECK_BUDGET := by
  cases h with
  | there hquick => exact hquick
  | initial hquick => exact hquick
  | transition hquick => exact hquick

/-- How an execution ends: with the claim completed, over a store on which
that is feasible, or with the registry as it was. -/
def Decides (engine : Engine V) (w : World V) (i : LifecycleIntent) (s : Service) (out : Database) :
    Prop :=
  (Feasible engine (w.storeOf i.serviceId) i s ∧
      ∃ u, out.claimRow i.key = some (.lifecycle i (.completed u))) ∨
    ¬ Feasible engine (w.storeOf i.serviceId) i s ∧ out = w.registry

/-! ## Usable stores -/

section usable

variable {i : LifecycleIntent} {s : Service} {p : Progress}

/-- What a replay may rely on: the claim is prepared over the admitted
service, and the clock is not before it. -/
structure Replayed (w : World V) (i : LifecycleIntent) (s : Service) (at_ : Instant) : Prop where
  row : w.registry.claimRow i.key = some (.lifecycle i .prepared)
  service : w.registry.service i.principalId i.serviceId = some s
  admitted : Database.Admitted i s
  clock : ¬ at_.before s.updatedAt
  live : Live w.registry

omit [DecidableEq V] in
theorem Replayed.withStore (h : Replayed w i s at_) (st : ServiceStore V) :
    Replayed (w.withStore l st) i s at_ := ⟨h.row, h.service, h.admitted, h.clock, h.live⟩

/-- The registry is finalised. -/
theorem finalizeCompleted_alone (h : Replayed w i s at_) :
    ∃ u, (alone engine at_ (finalizeCompleted i l) w).2.registry.claimRow i.key =
      some (.lifecycle i (.completed u)) := by
  have hid : s.serviceId = i.serviceId := Table.key_of_find? (Database.service_eq_some.1 h.service).1
  obtain ⟨u, d', hfinal, hcompletes⟩ := Database.Admitted.completes (c := ⟨i, at_, l.backend⟩)
    h.admitted h.row h.service h.clock (h.live _ _ (hid ▸ (Database.service_eq_some.1 h.service).1))
  have hserve : serve engine at_ w (.finalizeCompleted ⟨i, at_, l.backend⟩) =
      (.ended (.completed i u) none, { w with registry := d' }) := by
    change onRegistry w (w.registry.finalizeCompleted ⟨i, at_, l.backend⟩) = _
    rw [hfinal]
    rfl
  refine ⟨u, ?_⟩
  change (serve engine at_ w (.finalizeCompleted ⟨i, at_, l.backend⟩)).2.registry.claimRow i.key = _
  rw [hserve]
  exact hcompletes.effect.2.2.2.2.1

variable (hl : l = ⟨.sqlite, serviceNamespace i.serviceId⟩)

include hl

omit [DecidableEq V] in
theorem store_eq : w.store l = w.storeOf i.serviceId := by
  rw [hl]
  rfl

variable (h : Replayed w i s at_) (hu : (w.storeOf i.serviceId).Usable)
variable (hquick : engine.quickCheck (w.storeOf i.serviceId) < CHECK_BUDGET)

include h hu hquick

/-- **Over a store that is at the target** the replay hangs on the check of
the references. -/
theorem reconcile_there {transition : Option RelationalTransition}
    (htransition : i.kind = .evolve → transition.isSome = true)
    (hsame : (w.storeOf i.serviceId).schema.Same (targetLayout i))
    (hclean : (w.storeOf i.serviceId).foreignKeysClean = true) :
    Decides engine w i s (alone engine at_
      (reconcile i l (compileManifest i.targetManifest) transition p) w).2.registry := by
  have hb : l.backend = .sqlite := by rw [hl]
  rw [← store_eq hl] at hu hquick hsame hclean
  have hdomain := @inspectDomain_same V _ engine (w.store l) (targetLayout i)
    targetLayout_tables_ne_nil hsame hclean
  by_cases hkeys : engine.foreignKeyCheck (w.store l) < CHECK_BUDGET
  · rw [if_pos hkeys] at hdomain
    have hround : alone engine at_ (reconcile i l (compileManifest i.targetManifest) transition p) w =
        alone engine at_ (finalizeCompleted i l) w := by
      rcases i.lifecycle with hkind | hkind
      · have ho := @observe_materialise V _ engine at_ w l hb hu hquick i
          (compileManifest i.targetManifest) transition hkind
        rw [show layout (compileManifest i.targetManifest) = targetLayout i from rfl, hdomain] at ho
        exact reconcile_finalizes ho rfl rfl
      · obtain ⟨t, rfl⟩ := Option.isSome_iff_exists.1 (htransition hkind)
        have ho := @observe_evolve V _ engine at_ w l hb hu hquick i
          (compileManifest i.targetManifest) hkind t .ready (by
            rw [show layout (compileManifest i.targetManifest) = targetLayout i from rfl, hdomain]; rfl)
        exact reconcile_finalizes ho rfl rfl
    rw [hround]
    refine .inl ⟨.there ?_ ?_ ?_, finalizeCompleted_alone h⟩ <;> rw [← store_eq hl]
    · rwa [readied_eq hu]
    · exact hsame
    · rwa [readied_eq hu]
  · rw [if_neg hkeys] at hdomain
    have hround : (alone engine at_ (reconcile i l (compileManifest i.targetManifest) transition p) w).2 =
        w := by
      rcases i.lifecycle with hkind | hkind
      · have ho := @observe_materialise V _ engine at_ w l hb hu hquick i
          (compileManifest i.targetManifest) transition hkind
        rw [show layout (compileManifest i.targetManifest) = targetLayout i from rfl, hdomain] at ho
        rw [reconcile_defers ho rfl rfl]
      · obtain ⟨t, rfl⟩ := Option.isSome_iff_exists.1 (htransition hkind)
        have ho := @observe_evolve V _ engine at_ w l hb hu hquick i
          (compileManifest i.targetManifest) hkind t .uncertain (by
            rw [show layout (compileManifest i.targetManifest) = targetLayout i from rfl, hdomain]; rfl)
        rw [reconcile_defers ho rfl rfl]
    rw [hround]
    refine .inr ⟨fun hfeasible => ?_, rfl⟩
    rw [← store_eq hl] at hfeasible
    cases hfeasible with
    | there _ _ hfk => exact hkeys (by rwa [readied_eq hu] at hfk)
    | initial _ _ hempty =>
      rw [hempty] at hsame
      exact hsame.symm.extends_.tables_ne_nil targetLayout_tables_ne_nil rfl
    | transition _ _ _ _ hfk => exact hkeys (by rwa [readied_eq hu] at hfk)

omit hu hquick in
/-- The round after an action that went through. -/
theorem reconcile_after {transition : Option RelationalTransition} {left : ServiceStore V}
    (htransition : i.kind = .evolve → transition.isSome = true) (hleft : left.Usable)
    (hsame : left.schema.Same (targetLayout i)) (hclean : left.foreignKeysClean = true)
    (hquick' : engine.quickCheck left < CHECK_BUDGET)
    (hkeys : engine.foreignKeyCheck left < CHECK_BUDGET) :
    ∃ u, (alone engine at_ (reconcile i l (compileManifest i.targetManifest) transition p)
      (w.withStore l left)).2.registry.claimRow i.key = some (.lifecycle i (.completed u)) := by
  have hself : (w.withStore l left).storeOf i.serviceId = left :=
    World.storeOf_withStore_self (by rw [hl])
  have hdecides := @reconcile_there V _ engine at_ (w.withStore l left) l i s p hl (h.withStore left)
    (by rw [hself]; exact hleft) (by rw [hself]; exact hquick') transition htransition
    (by rw [hself]; exact hsame) (by rw [hself]; exact hclean)
  rcases hdecides with ⟨-, hcompleted⟩ | ⟨hnot, -⟩
  · exact hcompleted
  · refine absurd (.there ?_ ?_ ?_) hnot <;> rw [hself]
    · rwa [readied_eq hleft]
    · exact hsame
    · rwa [readied_eq hleft]

/-- **Over a store without a schema** a materialise hangs on the checks of
the store it makes. -/
theorem reconcile_initial (hkind : i.kind = .materialise)
    (hempty : (w.storeOf i.serviceId).schema = .empty) (hsound : (w.storeOf i.serviceId).Sound)
    (hnew : .applyInitialSchema ∉ p.attempted) :
    Decides engine w i s (alone engine at_
      (reconcile i l (compileManifest i.targetManifest) none p) w).2.registry := by
  have hb : l.backend = .sqlite := by rw [hl]
  have hstore := store_eq (w := w) hl
  have hrows := ServiceStore.rows_eq_nil hsound hempty
  have hversion : (compileManifest i.targetManifest).schemaVersion = 1 := by
    obtain ⟨-, -, -, -, -, -, hstate⟩ := sourceMatches_iff.1 h.admitted.matches_
    rw [if_pos hkind] at hstate
    have hawaits := hstate.1
    simp only [awaitsMaterialisation, Bool.and_eq_true, decide_eq_true_eq] at hawaits
    have hone := hawaits.1.1.2
    rw [Service.schemaVersion, h.admitted.materialise hkind] at hone
    exact Option.some.inj hone
  have happly : (w.storeOf i.serviceId).materialise engine (compileManifest i.targetManifest) =
      (w.storeOf i.serviceId).apply engine (layoutPlan (targetLayout i)) (targetLayout i) := by
    rw [ServiceStore.materialise, if_neg (not_not.2 hversion), blocked_usable hu hquick]
    dsimp only
    rw [inspectDomain_empty hempty]
    rfl
  have hexecuted := @apply_executed V _ engine _ { w.storeOf i.serviceId with schema := targetLayout i }
    (layoutPlan (targetLayout i)) (targetLayout i) (ServiceStore.executeAll_layoutPlan hempty hrows)
    ⟨hu.1, hu.2⟩ targetLayout_tables_ne_nil (.refl _) (ServiceStore.clean_of_no_rows hrows)
  have ho := @observe_materialise V _ engine at_ w l hb (by rw [hstore]; exact hu)
    (by rw [hstore]; exact hquick) i (compileManifest i.targetManifest) none hkind
  rw [hstore, inspectDomain_empty hempty] at ho
  have hact : alone engine at_ (applySchema .applyInitialSchema l (compileManifest i.targetManifest)
      none) w = (appliedSchema ((w.storeOf i.serviceId).materialise engine
        (compileManifest i.targetManifest)).1, w.withStore l ((w.storeOf i.serviceId).materialise engine
        (compileManifest i.targetManifest)).2) := by
    rw [← hstore]
    exact alone_materialise hb _
  have hplan : planRecovery (.materialise .prepared .ready .unmaterialised) = .applyInitialSchema := rfl
  rw [reconcile_acts ho rfl hplan (.inl rfl) hnew, alone_bind, hact, happly, hexecuted]
  by_cases hpass : engine.quickCheck { w.storeOf i.serviceId with schema := targetLayout i } <
      CHECK_BUDGET ∧ engine.foreignKeyCheck { w.storeOf i.serviceId with schema := targetLayout i } <
      CHECK_BUDGET
  · rw [if_pos hpass]
    refine .inl ⟨.initial ?_ hkind hempty ?_ ?_, ?_⟩
    · rwa [readied_eq hu]
    · rw [readied_eq hu]
      exact hpass.1
    · rw [readied_eq hu]
      exact hpass.2
    · exact reconcile_after hl h (by rw [hkind]; decide) ⟨hu.1, hu.2⟩ (.refl _)
        (ServiceStore.clean_of_no_rows hrows) hpass.1 hpass.2
  · rw [if_neg hpass]
    refine .inr ⟨fun hfeasible => ?_, rfl⟩
    cases hfeasible with
    | there _ hsame =>
      rw [hempty] at hsame
      exact hsame.symm.extends_.tables_ne_nil targetLayout_tables_ne_nil rfl
    | initial _ _ _ hq hk =>
      rw [readied_eq hu] at hq hk
      exact hpass ⟨hq, hk⟩
    | transition _ hevolve => exact absurd (hkind.symm.trans hevolve) (by decide)

/-- **Over a store that is at the source** an evolve hangs on the checks of
the store before and after, and on the rows under the indices it adds. -/
theorem reconcile_transition (hkind : i.kind = .evolve) {m : Manifest.ManifestV2}
    {t : RelationalTransition} (hm : s.manifest = some m)
    (ht : classifyTransition m i.targetManifest = some t)
    (hcurrent : (w.storeOf i.serviceId).schema.Same (layout (compileManifest m)))
    (hnot : ¬ (w.storeOf i.serviceId).schema.Same (targetLayout i))
    (hsound : (w.storeOf i.serviceId).Sound) (hnew : .applyTransition ∉ p.attempted) :
    Decides engine w i s (alone engine at_
      (reconcile i l (compileManifest i.targetManifest) (some t) p) w).2.registry := by
  have hb : l.backend = .sqlite := by rw [hl]
  have hstore := store_eq (w := w) hl
  have haccepted := classifyTransition_eq_some ht
  have htables : (w.storeOf i.serviceId).schema.tables ≠ [] :=
    hcurrent.symm.extends_.tables_ne_nil layout_tables_ne_nil
  have htarget : (w.storeOf i.serviceId).inspectDomain engine (targetLayout i) = .value .incompatible :=
    inspectDomain_other htables hnot
  have hsource := @inspectDomain_same V _ engine (w.storeOf i.serviceId) (layout (compileManifest m))
    layout_tables_ne_nil hcurrent hsound.references
  -- what can stand in the way of a transition that is this one
  have honly : Feasible engine (w.storeOf i.serviceId) i s →
      engine.foreignKeyCheck (w.storeOf i.serviceId) < CHECK_BUDGET ∧
      (∀ j ∈ t.additions.indices, j.unique = true →
        ServiceStore.DistinctOn ((w.storeOf i.serviceId).rows j.entity) j.fields) ∧
      engine.quickCheck { w.storeOf i.serviceId with
        schema := ServiceStore.grown t (w.storeOf i.serviceId).schema } < CHECK_BUDGET ∧
      engine.foreignKeyCheck { w.storeOf i.serviceId with
        schema := ServiceStore.grown t (w.storeOf i.serviceId).schema } < CHECK_BUDGET := by
    intro hfeasible
    cases hfeasible with
    | there _ hsame => exact absurd hsame hnot
    | initial _ hinitial => exact absurd (hkind.symm.trans hinitial) (by decide)
    | transition _ _ hm' ht' hk hd hq' hk' =>
      obtain rfl := Option.some.inj (hm.symm.trans hm')
      obtain rfl := Option.some.inj (ht.symm.trans ht')
      rw [readied_eq hu] at hk hq' hk'
      exact ⟨hk, hd, hq', hk'⟩
  have ho := @observe_evolve V _ engine at_ w l hb (by rw [hstore]; exact hu)
    (by rw [hstore]; exact hquick) i (compileManifest i.targetManifest) hkind t .incompatible (by
      rw [hstore, show layout (compileManifest i.targetManifest) = targetLayout i from rfl, htarget]
      rfl)
  rw [if_pos (.inr rfl), hstore, haccepted.current, hsource] at ho
  by_cases hkeys : engine.foreignKeyCheck (w.storeOf i.serviceId) < CHECK_BUDGET
  · rw [if_pos hkeys] at ho hsource
    have happly : (w.storeOf i.serviceId).evolve engine t =
        (w.storeOf i.serviceId).apply engine (transitionPlan t) (targetLayout i) := by
      rw [ServiceStore.evolve, blocked_usable hu hquick, haccepted.target]
      dsimp only
      rw [show layout (compileManifest i.targetManifest) = targetLayout i from rfl, htarget]
      dsimp only
      rw [haccepted.current, hsource]
    have hact : alone engine at_ (applySchema .applyTransition l (compileManifest i.targetManifest)
        (some t)) w = (appliedSchema ((w.storeOf i.serviceId).evolve engine t).1,
          w.withStore l ((w.storeOf i.serviceId).evolve engine t).2) := by
      rw [← hstore]
      exact alone_evolve hb _
    have hplan := ServiceStore.executeAll_transitionPlan haccepted hcurrent
    have haction : planRecovery (.evolve .prepared .ready .incompatible .ready) = .applyTransition := rfl
    rw [reconcile_acts ho rfl haction (.inr rfl) hnew, alone_bind, hact, happly]
    by_cases hdistinct : ∀ j ∈ t.additions.indices, j.unique = true →
        ServiceStore.DistinctOn ((w.storeOf i.serviceId).rows j.entity) j.fields
    · rw [if_pos hdistinct] at hplan
      rw [apply_executed hplan ⟨hu.1, hu.2⟩ targetLayout_tables_ne_nil
        (ServiceStore.grown_same haccepted hcurrent) (ServiceStore.clean_grown haccepted hsound hcurrent)]
      split_ifs with hpass
      · refine .inl ⟨.transition ?_ hkind hm ht ?_ hdistinct ?_ ?_, ?_⟩
        · rwa [readied_eq hu]
        · rwa [readied_eq hu]
        · rw [readied_eq hu]
          exact hpass.1
        · rw [readied_eq hu]
          exact hpass.2
        · exact reconcile_after hl h (fun _ => rfl) ⟨hu.1, hu.2⟩
            (ServiceStore.grown_same haccepted hcurrent)
            (ServiceStore.clean_grown haccepted hsound hcurrent) hpass.1 hpass.2
      · exact .inr ⟨fun hfeasible => hpass (honly hfeasible).2.2, rfl⟩
    · rw [if_neg hdistinct] at hplan
      rw [apply_refused hplan]
      exact .inr ⟨fun hfeasible => hdistinct (honly hfeasible).2.1, rfl⟩
  · rw [if_neg hkeys] at ho
    rw [reconcile_defers ho rfl rfl]
    exact .inr ⟨fun hfeasible => hkeys (honly hfeasible).1, rfl⟩

end usable

/-! ## Stores that are not usable -/

section foundations

variable {i : LifecycleIntent} {s : Service} {p : Progress} {w' : World V}
variable {target : RelationalSpecification} {transition : Option RelationalTransition}

theorem observe_nonReady {f : FoundationObservation} (hf : f ≠ .ready)
    (hfound : alone engine at_ (foundation l) w = (.ok f, w')) :
    alone engine at_ (observe i l target transition) w =
      (.ok (if i.kind = .materialise then .materialise .prepared f .notObserved
        else .evolve .prepared f .notObserved .notObserved), w') := by
  rw [observe, alone_bind, hfound]
  dsimp only
  by_cases hkind : i.kind = .materialise
  · rw [if_pos hkind, if_neg hf, if_pos hkind]
    rfl
  · rw [if_neg hkind, if_neg hf, if_neg hkind]
    rfl

/-- A foundation that cannot be checked defers the round. -/
theorem reconcile_uncertain (hfound : alone engine at_ (foundation l) w = (.ok .uncertain, w')) :
    (alone engine at_ (reconcile i l target transition p) w).2 = w' := by
  have ho := @observe_nonReady V _ engine at_ w l i w' target transition .uncertain (by decide) hfound
  by_cases hkind : i.kind = .materialise
  · rw [if_pos hkind] at ho
    rw [reconcile_defers ho rfl rfl]
  · rw [if_neg hkind] at ho
    rw [reconcile_defers ho rfl rfl]

/-- A journal that was read past leaves the round as it is over the store
without one. -/
theorem reconcile_journal (hfound : alone engine at_ (foundation l) w = (.ok .ready, w'))
    (hfound' : alone engine at_ (foundation l) w' = (.ok .ready, w')) :
    alone engine at_ (reconcile i l target transition p) w =
      alone engine at_ (reconcile i l target transition p) w' := by
  have ho : alone engine at_ (observe i l target transition) w =
      alone engine at_ (observe i l target transition) w' := by
    rw [observe, alone_bind, alone_bind, hfound, hfound']
  rw [reconcile, alone_bind, alone_bind, ho]

/-- A foundation that is not up to its last step is taken up by a round of
its own. -/
theorem reconcile_unready (hl : l.backend = .sqlite) (hkind : i.kind = .materialise)
    (hj : (w.store l).journal = false) (hf : (w.store l).foundation ≠ .ready)
    (hnew : .prepareFoundation ∉ p.attempted) :
    alone engine at_ (reconcile i l target transition p) w =
      alone engine at_ (applyFoundation l >>= fun r =>
        match r with
        | .error result => pure result
        | .ok state => reconcile i l target transition
            { p with attempted := .prepareFoundation :: p.attempted, foundationResult := some state.status }) w := by
  have hplan : (w.store l).foundation.status.observation ≠ .ready ∧
      (Observation.materialise .prepared (w.store l).foundation.status.observation .notObserved).valid = true ∧
      planRecovery (.materialise .prepared (w.store l).foundation.status.observation .notObserved) =
        .prepareFoundation := by
    revert hf
    cases (w.store l).foundation <;> decide
  have ho := @observe_nonReady V _ engine at_ w l i w target transition _ hplan.1
    (@foundation_status V _ engine at_ w l hl hj hf)
  rw [if_pos hkind] at ho
  exact reconcile_prepares ho hplan.2.1 hplan.2.2 hnew

theorem feasible_readied {st : ServiceStore V} : Feasible engine (readied st) i s ↔ Feasible engine st i s := by
  constructor <;> intro h <;> cases h with
  | there hq hs hk => exact .there hq hs hk
  | initial hq hkind hs hq' hk => exact .initial hq hkind hs hq' hk
  | transition hq hkind hm ht hk hd hq' hk' => exact .transition hq hkind hm ht hk hd hq' hk'

end foundations

/-! ## A replay -/

section replay

variable {i : LifecycleIntent} {s : Service} {p : Progress}
variable {target : RelationalSpecification} {transition : Option RelationalTransition}

/-- What the specification and the transition of an execution are. -/
theorem compile_admitted (h : Database.Admitted i s) :
    (i.kind = .materialise ∧ compile i s = some (compileManifest i.targetManifest, none)) ∨
      i.kind = .evolve ∧ ∃ m t, s.manifest = some m ∧ classifyTransition m i.targetManifest = some t ∧
        compile i s = some (compileManifest i.targetManifest, some t) := by
  rcases i.lifecycle with hkind | hkind
  · exact .inl ⟨hkind, by rw [compile, if_pos hkind]⟩
  · obtain ⟨m, t, hm, ht⟩ := h.evolve hkind
    refine .inr ⟨hkind, m, t, hm, ht, ?_⟩
    rw [compile, if_neg (by rw [hkind]; decide), hm]
    simp [ht]

/-- The one pending claim of the service is the replayed one. -/
theorem Replayed.reached (h : Replayed w i s at_) (hw : Consistent w) {kind : OperationKind}
    (hreached : Reached w kind i.serviceId) :
    (w.storeOf i.serviceId).schema.Same (targetLayout i) := by
  obtain ⟨j, hj, -, hid, hsame⟩ := hreached
  obtain rfl := hw.pending_eq hj (.inl h.row) hid
  exact hsame

omit [DecidableEq V] in
theorem Replayed.find (h : Replayed w i s at_) :
    w.registry.services.find? i.serviceId = some s := (Database.service_eq_some.1 h.service).1

omit [DecidableEq V] in
theorem Replayed.seeded (h : Replayed w i s at_) (hkind : i.kind = .materialise) :
    s.designState = .seeded := by
  have hstate := (sourceMatches_iff.1 h.admitted.matches_).2.2.2.2.2.2
  rw [if_pos hkind] at hstate
  simp only [awaitsMaterialisation, Bool.and_eq_true, decide_eq_true_eq] at hstate
  exact hstate.1.1.1.1

omit [DecidableEq V] in
theorem Replayed.materialised (h : Replayed w i s at_) (hkind : i.kind = .evolve) :
    s.designState = .materialised := by
  have hstate := (sourceMatches_iff.1 h.admitted.matches_).2.2.2.2.2.2
  rw [if_neg (by rw [hkind]; decide)] at hstate
  simp only [isMaterialised, Bool.and_eq_true, decide_eq_true_eq] at hstate
  exact hstate.1.1

variable (hl : l = ⟨.sqlite, serviceNamespace i.serviceId⟩) (hw : Consistent w)
variable (h : Replayed w i s at_) (hcompile : compile i s = some (target, transition))

include hl hw h hcompile

/-- A replay over a store that is usable and can be checked. -/
theorem reconcile_usable (hu : (w.storeOf i.serviceId).Usable)
    (hquick : engine.quickCheck (w.storeOf i.serviceId) < CHECK_BUDGET)
    (hinitial : .applyInitialSchema ∉ p.attempted) (htransition : .applyTransition ∉ p.attempted) :
    Decides engine w i s (alone engine at_ (reconcile i l target transition p) w).2.registry := by
  have hsound := hw.sound (serviceNamespace i.serviceId)
  rcases compile_admitted h.admitted with ⟨hkind, hc⟩ | ⟨hkind, m, t, hm, ht, hc⟩ <;>
    obtain ⟨rfl, rfl⟩ := Prod.mk.inj (Option.some.inj (hcompile.symm.trans hc))
  · rcases hw.seeded _ s h.find (h.seeded hkind) with hempty | ⟨hreached, -⟩
    · exact reconcile_initial hl h hu hquick hkind hempty hsound hinitial
    · exact reconcile_there hl h hu hquick (by rw [hkind]; decide) (h.reached hw hreached)
        hsound.references
  · by_cases hsame : (w.storeOf i.serviceId).schema.Same (targetLayout i)
    · exact reconcile_there hl h hu hquick (fun _ => rfl) hsame hsound.references
    · rcases (hw.materialised _ s h.find (h.materialised hkind)).2.2 m hm with hcurrent | hreached
      · exact reconcile_transition hl h hu hquick hkind hm ht hcurrent hsame hsound htransition
      · exact absurd (h.reached hw hreached) hsame

/-- A replay over a store that is found with a journal, or with a
foundation that is not up to its last step: it is taken up first. -/
theorem reconcile_readied (hquick : engine.quickCheck (readied (w.storeOf i.serviceId)) < CHECK_BUDGET)
    (hinitial : .applyInitialSchema ∉ p.attempted) (htransition : .applyTransition ∉ p.attempted) :
    Decides engine w i s (alone engine at_ (reconcile i l target transition p)
      (w.withStore l (readied (w.storeOf i.serviceId)))).2.registry := by
  have hself : (w.withStore l (readied (w.storeOf i.serviceId))).storeOf i.serviceId =
      readied (w.storeOf i.serviceId) := World.storeOf_withStore_self (by rw [hl])
  have halike : Alike w (w.withStore l (readied (w.storeOf i.serviceId))) :=
    alike_withStore ⟨by rw [store_eq hl]; rfl, by rw [store_eq hl]; rfl, fun _ => usable_readied⟩
  have hdecides := @reconcile_usable V _ engine at_ _ l i s p target transition hl (halike.consistent hw)
    (h.withStore _) hcompile (by rw [hself]; exact usable_readied) (by rw [hself]; exact hquick)
    hinitial htransition
  rw [Decides, hself, feasible_readied] at hdecides
  exact hdecides

/-- **A round decides.** -/
theorem reconcile_decides :
    Decides engine w i s (alone engine at_ (reconcile i l target transition {}) w).2.registry := by
  have hb : l.backend = .sqlite := by rw [hl]
  have hstore := store_eq (w := w) hl
  by_cases hquick : engine.quickCheck (readied (w.storeOf i.serviceId)) < CHECK_BUDGET
  · have hself : (w.withStore l (readied (w.storeOf i.serviceId))).store l =
        readied (w.storeOf i.serviceId) := World.stores_withStore_self
    have hready := @foundation_alone V _ engine at_ (w.withStore l (readied (w.storeOf i.serviceId))) l hb
      (by rw [hself]; exact usable_readied) (by rw [hself]; exact hquick)
    by_cases hu : (w.storeOf i.serviceId).Usable
    · exact reconcile_usable hl hw h hcompile hu (by rwa [readied_eq hu] at hquick) (by decide) (by decide)
    by_cases hj : (w.storeOf i.serviceId).journal = true
    · -- the journal is read past within the first observation
      have hfound := @foundation_journal V _ engine at_ w l hb (by rw [hstore]; exact hj)
      rw [hstore, checked, if_neg (not_le.2 hquick), migrate_snd hquick] at hfound
      rw [reconcile_journal hfound hready]
      exact reconcile_readied hl hw h hcompile hquick (by decide) (by decide)
    · -- the foundation is taken up by a round of its own
      rw [Bool.not_eq_true] at hj
      have hf : (w.storeOf i.serviceId).foundation ≠ .ready := fun hf => hu ⟨hf, hj⟩
      have hkind : i.kind = .materialise := by
        refine i.lifecycle.resolve_right fun hkind => hu ?_
        exact (hw.materialised _ s h.find (h.materialised hkind)).2.1
      rw [reconcile_unready hb hkind (by rw [hstore]; exact hj) (by rw [hstore]; exact hf) (by decide),
        alone_bind, applyFoundation_alone hb, hstore, if_neg (not_le.2 hquick), migrate_snd hquick]
      exact reconcile_readied hl hw h hcompile hquick (by decide) (by decide)
  · refine .inr ⟨fun hfeasible => hquick hfeasible.quick, ?_⟩
    rw [not_lt] at hquick
    have hchecked : checked engine (w.store l) = .uncertain := by rw [checked, hstore, if_pos hquick]
    by_cases hj : (w.storeOf i.serviceId).journal = true
    · have hfound := @foundation_journal V _ engine at_ w l hb (by rw [hstore]; exact hj)
      rw [hchecked] at hfound
      rw [reconcile_uncertain hfound]
      rfl
    rw [Bool.not_eq_true] at hj
    by_cases hf : (w.storeOf i.serviceId).foundation = .ready
    · have hfound := @foundation_usable V _ engine at_ w l hb (by rw [hstore]; exact ⟨hf, hj⟩)
      rw [hchecked] at hfound
      rw [reconcile_uncertain hfound]
    · have hkind : i.kind = .materialise := by
        refine i.lifecycle.resolve_right fun hkind => hf ?_
        exact (hw.materialised _ s h.find (h.materialised hkind)).2.1.1
      rw [reconcile_unready hb hkind (by rw [hstore]; exact hj) (by rw [hstore]; exact hf) (by decide),
        alone_bind, applyFoundation_alone hb, hstore, if_pos hquick]
      rfl

end replay

/-! ## Executions -/

section executions

variable {command : LifecycleCommand} {m : Manifest.ManifestV2} {s : Service}

/-- The row of a command is replayed to it. -/
theorem serve_replay (hrow : w.registry.claimRow command.key = some (.lifecycle (command.intent m) .prepared))
    (hs : w.registry.service command.principalId command.serviceId = some s) :
    serve engine at_ w (.admission command) =
      (.ended (.prepared (command.intent m), some s) none, w) := by
  have hexisting : Database.existingLifecycleClaim (.lifecycle (command.intent m) .prepared) command =
      some (.prepared (command.intent m)) := if_neg (not_or.2 ⟨not_not.2 rfl, not_not.2 rfl⟩)
  have hresolved : w.registry.resolveOrAdmit command =
      some (.prepared (command.intent m), w.registry) := by
    rw [Database.resolveOrAdmit, hrow]
    dsimp only
    rw [hexisting, Option.map_some]
  change onRegistry w (admitted w.registry command) = _
  rw [admitted, hresolved, Option.map_some]
  dsimp only
  rw [show (command.intent m).principalId = command.principalId from rfl,
    show (command.intent m).serviceId = command.serviceId from rfl, hs]
  rfl

theorem alone_resolveOrAdmit {reply : Transaction (LifecycleOutcome × Option Service)} {w' : World V}
    (hserve : serve engine at_ w (.admission command) = (reply, w'))
    (f : Transaction (LifecycleOutcome × Option Service) → Run α) :
    alone engine at_ (resolveOrAdmit command >>= f) w = alone engine at_ (f reply) w' := by
  change exec _ (f (serve engine at_ w (.admission command)).1) _ = _
  rw [hserve]

theorem alone_allocate {id : Uuid} (f : Answer (StorageAdapterInfo × ServiceStoreLocator) → Run α) :
    alone engine at_ (allocate id >>= f) w =
      alone engine at_ (f (.value (⟨.sqlite, true⟩, ⟨.sqlite, serviceNamespace id⟩))) w := rfl

/-- **An execution decides.** -/
theorem execute_decides (hw : Consistent w)
    (hrow : w.registry.claimRow command.key = some (.lifecycle (command.intent m) .prepared))
    (hs : w.registry.service command.principalId command.serviceId = some s)
    (hclock : ¬ at_.before s.updatedAt) :
    Decides engine w (command.intent m) s (alone engine at_ (execute command) w).2.registry := by
  obtain ⟨u, hu, hadmitted⟩ := hw.claims (command.intent m) (.inl hrow)
  obtain rfl := Option.some.inj (hs.symm.trans hu)
  have h : Replayed w (command.intent m) s at_ := ⟨hrow, hs, hadmitted, hclock, hw.live⟩
  have hadmission : alone engine at_ (admission command) w = (.ok (command.intent m, s), w) := by
    rw [admission, alone_resolveOrAdmit (serve_replay hrow hs)]
    rfl
  have hlocate : alone engine at_ (locate (command.intent m) s) w =
      (.ok ⟨.sqlite, serviceNamespace (command.intent m).serviceId⟩, w) := by
    have hstorage : (command.intent m).kind = .evolve → s.storage = some .sqlite :=
      fun hkind => (hw.materialised _ s h.find (h.materialised hkind)).1
    rw [locate, alone_allocate]
    dsimp only
    rw [if_neg]
    · rfl
    · rintro (hinvalid | ⟨hkind, hne⟩)
      · simp [validLocator] at hinvalid
      · exact hne (hstorage hkind)
  obtain ⟨target, transition, hcompile⟩ : ∃ target transition,
      compile (command.intent m) s = some (target, transition) := by
    rcases compile_admitted hadmitted with ⟨-, hc⟩ | ⟨-, _, t, -, -, hc⟩
    · exact ⟨_, _, hc⟩
    · exact ⟨_, _, hc⟩
  rw [execute, alone_bind, hadmission]
  dsimp only
  rw [if_neg (by rw [hadmitted.matches_]; decide), alone_bind, hlocate]
  dsimp only
  rw [hcompile]
  exact reconcile_decides rfl hw h hcompile

/-- **When a replay is decisive.** In every state that runs can reach, a
prepared claim is ended by one more execution of its command, alone,
without a fault and with a clock that is not behind the service, exactly
when that execution can go through. -/
theorem replay_decisive {g : Interleaved (World V) Call.Reply ExecutionResult}
    (hg : (lifecycles engine).Reachable g)
    (hrow : g.world.registry.claimRow command.key = some (.lifecycle (command.intent m) .prepared)) :
    ∃ s, g.world.registry.service command.principalId command.serviceId = some s ∧
      ∀ at_ : Instant, ¬ at_.before s.updatedAt →
        ((∃ phase, phase ≠ .prepared ∧
            (alone engine at_ (execute command) g.world).2.registry.claimRow command.key =
              some (.lifecycle (command.intent m) phase)) ↔
          Feasible engine (g.world.storeOf command.serviceId) (command.intent m) s) := by
  have hw := (lifecycles_hold hg).world
  obtain ⟨s, hs, -⟩ := hw.claims (command.intent m) (.inl hrow)
  refine ⟨s, hs, fun at_ hclock => ?_⟩
  rcases @execute_decides V _ engine at_ g.world command m s hw hrow hs hclock with
    ⟨hfeasible, u, hcompleted⟩ | ⟨hnot, hsame⟩
  · exact ⟨fun _ => hfeasible, fun _ => ⟨.completed u, by simp, hcompleted⟩⟩
  · refine ⟨fun ⟨phase, hne, hended⟩ => ?_, fun hfeasible => absurd hfeasible hnot⟩
    rw [hsame, hrow] at hended
    exact absurd (ClaimRow.lifecycle.inj (Option.some.inj hended)).2.symm hne

end executions

/-! ## Notes under labels that are to be unique -/

namespace Converging

/-- What the evolve adds. -/
theorem transition_labels {t : RelationalTransition}
    (ht : classifyTransition noteManifest labelledManifest = some t) :
    t.additions.indices = [⟨"note_label", "note", ["label"], true⟩] := by
  have hindices : (classifyTransition noteManifest labelledManifest).map (·.additions.indices) =
      some [⟨"note_label", "note", ["label"], true⟩] := rfl
  rw [ht, Option.map_some] at hindices
  exact Option.some.inj hindices

/-- Two notes have one label. -/
theorem sameKey_note {a b x y : String} :
    ServiceStore.sameKey ["label"] (note a x) (note b y) = decide (x = y) := by
  have hlabel : ∀ id label, note id label "label" = some label := fun _ _ => rfl
  simp [ServiceStore.sameKey, hlabel]

theorem distinctOn_iff {labels : List String} :
    ServiceStore.DistinctOn ((storeOf labels).rows "note") ["label"] ↔ labels.Nodup := by
  have hrows : (storeOf labels).rows "note" = labels.zipIdx.map fun l => note (toString l.2) l.1 := rfl
  rw [hrows, ServiceStore.DistinctOn, List.pairwise_map]
  simp only [sameKey_note, decide_eq_false_iff_not]
  have hfst : labels.Nodup ↔ (labels.zipIdx.map Prod.fst).Nodup := by rw [List.zipIdx_map_fst]
  rw [hfst, List.Nodup, List.pairwise_map]

/-- The replay of the evolve can go through where the labels are distinct. -/
theorem feasible_iff {labels : List String} :
    Feasible idleEngine (storeOf labels) (evolveNotes.intent labelledManifest) notes ↔ labels.Nodup := by
  have hbudget : 0 < CHECK_BUDGET := by decide
  obtain ⟨t, ht⟩ : ∃ t, classifyTransition noteManifest labelledManifest = some t := ⟨_, rfl⟩
  constructor <;> intro h
  · cases h with
    | there _ hsame =>
      have hnone : (⟨"note_label", "note", ["label"], true⟩ : IndexLayout) ∈
        (layout (compileManifest noteManifest)).indices := (hsame.2 _).2 (by decide)
      exact absurd hnone (by decide)
    | initial _ hkind => exact absurd hkind (by decide)
    | transition _ _ hm ht _ hdistinct =>
      obtain rfl := Option.some.inj hm
      rw [transition_labels ht] at hdistinct
      exact distinctOn_iff.1 (hdistinct _ (List.mem_singleton_self _) rfl)
  · refine .transition hbudget rfl rfl ht hbudget (fun j hj _ => ?_) hbudget hbudget
    rw [transition_labels ht] at hj
    obtain rfl := List.mem_singleton.1 hj
    exact distinctOn_iff.2 h

end Converging

open Converging in
/-- Over notes with different labels the replay completes the claim. -/
theorem replay_decisive_distinct : ∃ g : Interleaved (World String) Call.Reply ExecutionResult,
    (lifecycles idleEngine).Reachable g ∧ ∃ phase, phase ≠ .prepared ∧
      (alone idleEngine start (execute evolveNotes) g.world).2.registry.claimRow evolveNotes.key =
        some (.lifecycle (evolveNotes.intent labelledManifest) phase) := by
  obtain ⟨g, hg, hworld⟩ := prepared_reachable ["a", "b"]
  obtain ⟨s, hs, hdecisive⟩ := @replay_decisive String _ idleEngine evolveNotes labelledManifest g hg
    (by rw [hworld]; rfl)
  rw [hworld] at hs
  obtain rfl : notes = s := Option.some.inj hs
  have hstore : g.world.storeOf noteId = storeOf ["a", "b"] := by rw [hworld, storeOf_world]
  refine ⟨g, hg, (hdecisive start (by decide)).2 ?_⟩
  rw [show evolveNotes.serviceId = noteId from rfl, hstore]
  exact feasible_iff.2 (by decide)

open Converging in
/-- Over two notes with one label the replay leaves the claim prepared. -/
theorem replay_leaves_prepared : ∃ g : Interleaved (World String) Call.Reply ExecutionResult,
    (lifecycles idleEngine).Reachable g ∧
      g.world.registry.claimRow evolveNotes.key =
        some (.lifecycle (evolveNotes.intent labelledManifest) .prepared) ∧
      ∀ at_ : Instant, ¬ at_.before notes.updatedAt →
        (alone idleEngine at_ (execute evolveNotes) g.world).2.registry.claimRow evolveNotes.key =
          some (.lifecycle (evolveNotes.intent labelledManifest) .prepared) := by
  obtain ⟨g, hg, hworld⟩ := prepared_reachable ["same", "same"]
  have hrow : g.world.registry.claimRow evolveNotes.key =
      some (.lifecycle (evolveNotes.intent labelledManifest) .prepared) := by
    rw [hworld]
    rfl
  have hstore : g.world.storeOf noteId = storeOf ["same", "same"] := by rw [hworld, storeOf_world]
  refine ⟨g, hg, hrow, fun at_ hclock => ?_⟩
  rcases @execute_decides String _ idleEngine at_ g.world evolveNotes labelledManifest notes
    (lifecycles_hold hg).world hrow (by rw [hworld]; rfl) hclock with ⟨hfeasible, -⟩ | ⟨-, hsame⟩
  · rw [show (evolveNotes.intent labelledManifest).serviceId = noteId from rfl, hstore] at hfeasible
    exact absurd (feasible_iff.1 hfeasible) (by decide)
  · rw [hsame, hrow]

end Lifecycle

end Aipcs

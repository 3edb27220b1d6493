import Aipcs.Lifecycle.World

/-!
# Lifecycle — the registry and the stores converge

`Consistent` is what holds of every world a run can meet, and `Tracks`
what holds of a run's own evidence in it. Each call keeps the first, takes
the second to its successor, and spoils the evidence of no other run, so
by the rule of interleavings both hold throughout. A materialised service
is found with the schema of its manifest, or of the target of an evolve
that is pending.
-/

namespace Aipcs

namespace Lifecycle

open Registry Relational Store Program

variable {V : Type}

/-! ## Invariants -/

/-- The claim of the intent is prepared or in recovery. -/
def Pending (d : Database) (i : LifecycleIntent) : Prop :=
  d.claimRow i.key = some (.lifecycle i .prepared) ∨
    d.claimRow i.key = some (.lifecycle i .recoveryRequired)

/-- The layout of what an intent is to reach. -/
def targetLayout (i : LifecycleIntent) : SchemaLayout := layout (compileManifest i.targetManifest)

/-- A pending claim of the service has brought its store to the target. -/
def Reached (w : World V) (kind : OperationKind) (id : Uuid) : Prop :=
  ∃ i, Pending w.registry i ∧ i.kind = kind ∧ i.serviceId = id ∧
    (w.storeOf id).schema.Same (targetLayout i)

/-- **What holds of every world a run can meet.** -/
structure Consistent [DecidableEq V] (w : World V) : Prop where
  frozen : w.registry.Frozen
  live : Live w.registry
  sound : ∀ n, (w.stores n).Sound
  claims : ∀ i, Pending w.registry i →
    ∃ s, w.registry.service i.principalId i.serviceId = some s ∧ Database.Admitted i s
  seeded : ∀ id s, w.registry.services.find? id = some s → s.designState = .seeded →
    (w.storeOf id).schema = .empty ∨ Reached w .materialise id ∧ (w.storeOf id).Usable
  materialised : ∀ id s, w.registry.services.find? id = some s → s.designState = .materialised →
    s.storage = some .sqlite ∧ (w.storeOf id).Usable ∧
      ∀ m, s.manifest = some m →
        (w.storeOf id).schema.Same (layout (compileManifest m)) ∨ Reached w .evolve id

/-- What a run that was admitted for an intent may rely on: the claim is on
record; while it is pending the service is the admitted one, and the store
at the target once it was found ready; and after that the store has all
the target has. -/
structure Follows (w : World V) (i : LifecycleIntent) (source : Service) (ready : Prop) : Prop where
  recorded : ∃ phase, w.registry.claimRow i.key = some (.lifecycle i phase)
  service : Pending w.registry i → w.registry.service i.principalId i.serviceId = some source
  target : Pending w.registry i → ready → (w.storeOf i.serviceId).schema.Same (targetLayout i)
  ended : ¬ Pending w.registry i → (targetLayout i).Extends (w.storeOf i.serviceId).schema

/-- What the world bears out of a run's evidence. -/
structure Tracks (w : World V) (v : Evidence × Option ServiceStoreLocator) : Prop where
  follows : ∀ i source, v.1.admitted = some (i, some source) →
    Follows w i source (v.1.schema (compileManifest i.targetManifest) = some .ready)
  sqlite : ∀ l, v.2 = some l → l.backend = .sqlite

theorem Follows.mono {w : World V} {i : LifecycleIntent} {source : Service} {ready ready' : Prop}
    (h : Follows w i source ready) (hready : ready' → ready) : Follows w i source ready' :=
  ⟨h.recorded, h.service, fun hp hr => h.target hp (hready hr), h.ended⟩

/-- Every run finds its own evidence as good as before. -/
def Undisturbed (w w' : World V) : Prop :=
  ∀ i source ready, Follows w i source ready → Follows w' i source ready

theorem Undisturbed.tracks {w w' : World V} (h : Undisturbed w w')
    {v : Evidence × Option ServiceStoreLocator} (hv : Tracks w v) : Tracks w' v :=
  ⟨fun i source ha => h i source _ (hv.follows i source ha), hv.sqlite⟩

/-! ## Pending claims -/

variable {w w' : World V} {i j : LifecycleIntent} {source : Service} {ready : Prop}

theorem Pending.row {d : Database} (h : Pending d i) :
    ∃ phase, d.claimRow i.key = some (.lifecycle i phase) ∧
      (ClaimRow.lifecycle i phase).pending = true := by
  rcases h with h | h
  · exact ⟨_, h, rfl⟩
  · exact ⟨_, h, rfl⟩

theorem targetLayout_tables_ne_nil : (targetLayout i).tables ≠ [] := layout_tables_ne_nil

variable [DecidableEq V]

/-- **A service has one pending claim.** -/
theorem Consistent.pending_eq (h : Consistent w) (hi : Pending w.registry i)
    (hj : Pending w.registry j) (hid : i.serviceId = j.serviceId) : i = j := by
  obtain ⟨s, hs, -⟩ := h.claims i hi
  obtain ⟨u, hu, -⟩ := h.claims j hj
  obtain ⟨hs, hsp⟩ := Database.service_eq_some.1 hs
  obtain ⟨hu, hup⟩ := Database.service_eq_some.1 hu
  rw [hid, hu] at hs
  obtain rfl := Option.some.inj hs
  obtain ⟨phase, hr, hrp⟩ := hi.row
  obtain ⟨phase', hx, hxp⟩ := hj.row
  have hone := h.frozen.single _ (Table.mem_of_find? hr) _ (Table.mem_of_find? hx) hrp hxp
    (hsp.symm.trans hup) hid
  exact (ClaimRow.lifecycle.inj hone).1

/-- The pending claim of a service that awaits its first schema is a
materialise, that of a materialised one an evolve. -/
theorem Consistent.kind_of_pending (h : Consistent w) (hi : Pending w.registry i) {s : Service}
    (hs : w.registry.services.find? i.serviceId = some s) :
    (s.designState = .seeded → i.kind = .materialise) ∧
      (s.designState = .materialised → i.kind = .evolve) := by
  obtain ⟨u, hu, hadmitted⟩ := h.claims i hi
  rw [(Database.service_eq_some.1 hu).1] at hs
  obtain rfl := Option.some.inj hs
  have hstate := (sourceMatches_iff.1 hadmitted.matches_).2.2.2.2.2.2
  rcases i.lifecycle with hkind | hkind
  · refine ⟨fun _ => hkind, fun hm => ?_⟩
    rw [if_pos hkind] at hstate
    simp [awaitsMaterialisation, hm] at hstate
  · refine ⟨fun hm => ?_, fun _ => hkind⟩
    rw [if_neg (by rw [hkind]; decide)] at hstate
    simp [isMaterialised, hm] at hstate

/-! ## Calls that leave registry and schemas -/

/-- Nothing has changed but rows and foundations. -/
structure Alike (w w' : World V) : Prop where
  registry : w'.registry = w.registry
  schema : ∀ n, (w'.stores n).schema = (w.stores n).schema
  sound : ∀ n, (w.stores n).Sound → (w'.stores n).Sound
  usable : ∀ n, (w.stores n).Usable → (w'.stores n).Usable

theorem Alike.refl (w : World V) : Alike w w :=
  ⟨rfl, fun _ => rfl, fun _ h => h, fun _ h => h⟩

theorem Alike.consistent (h : Alike w w') (hw : Consistent w) : Consistent w' := by
  obtain ⟨hregistry, hschema, hsound, husable⟩ := h
  have hreached : ∀ {kind id}, Reached w kind id → Reached w' kind id := by
    rintro kind id ⟨i, hp, hk, hid, hsame⟩
    refine ⟨i, hregistry ▸ hp, hk, hid, ?_⟩
    rw [World.storeOf, hschema]
    exact hsame
  refine ⟨hregistry ▸ hw.frozen, hregistry ▸ hw.live, fun n => hsound n (hw.sound n), ?_, ?_, ?_⟩
  · rw [hregistry]
    exact hw.claims
  · intro id s hs hstate
    rw [hregistry] at hs
    rw [World.storeOf, hschema]
    exact (hw.seeded id s hs hstate).imp_right fun h => ⟨hreached h.1, husable _ h.2⟩
  · intro id s hs hstate
    rw [hregistry] at hs
    obtain ⟨hstorage, hready, hmanifest⟩ := hw.materialised id s hs hstate
    refine ⟨hstorage, husable _ hready, fun m hm => ?_⟩
    rw [World.storeOf, hschema]
    exact (hmanifest m hm).imp_right hreached

theorem Alike.undisturbed (h : Alike w w') : Undisturbed w w' := by
  intro i source ready hf
  refine ⟨?_, ?_, ?_, ?_⟩ <;> rw [h.registry]
  · exact hf.recorded
  · exact hf.service
  · rw [World.storeOf, h.schema]
    exact hf.target
  · rw [World.storeOf, h.schema]
    exact hf.ended

/-- A store replaced by one that differs in rows and foundation only. -/
theorem alike_withStore {l : ServiceStoreLocator} {st : ServiceStore V}
    (h : Migrating (w.store l) st) : Alike w (w.withStore l st) := by
  refine ⟨rfl, fun n => ?_, fun n hn => ?_, fun n hn => ?_⟩ <;>
    by_cases hl : n = l.namespace_
  · subst hl
    rw [World.stores_withStore_self]
    exact h.schema
  · rw [World.stores_withStore_of_ne hl]
  · subst hl
    rw [World.stores_withStore_self]
    exact hn.congr h.schema h.rows
  · rw [World.stores_withStore_of_ne hl]
    exact hn
  · subst hl
    rw [World.stores_withStore_self]
    exact h.usable hn
  · rw [World.stores_withStore_of_ne hl]
    exact hn

/-- Other writers change rows only. -/
theorem Written.alike (h : Written w w') : Alike w w' := by
  refine ⟨h.registry, fun n => ?_, fun n hn => ?_, fun n hn => ?_⟩ <;>
    rcases h.stores n with heq | ⟨rows, heq, hsound⟩
  · rw [heq]
  · rw [heq]
  · rw [heq]
    exact hn
  · exact hsound
  · rw [heq]
    exact hn
  · rw [heq]
    exact hn

/-! ## Calls on a schema -/

/-- What a call on a schema has done, where it did anything: the claim was
pending, and its store is taken to the target, where it was not. -/
structure Acts (w : World V) (i : LifecycleIntent) (st : ServiceStore V) : Prop where
  pending : Pending w.registry i
  before : ¬ (w.storeOf i.serviceId).schema.Same (targetLayout i)
  after : st.schema.Same (targetLayout i)
  grows : (w.storeOf i.serviceId).schema.Extends st.schema
  sound : st.Sound
  usable : st.Usable

variable {engine : Engine V}

/-- What a committed plan leaves is an action. -/
theorem acts_of_commits {plan : List ServiceStore.Statement} {st : ServiceStore V}
    (hw : Consistent w) (hpending : Pending w.registry i)
    (hbefore : ¬ (w.storeOf i.serviceId).schema.Same (targetLayout i))
    (h : (w.storeOf i.serviceId).Commits plan (targetLayout i) st) : Acts w i st :=
  ⟨hpending, hbefore, h.same, ServiceStore.executeAll_extends h.executed,
    (hw.sound _).executeAll h.executed h.clean, h.usable⟩

/-- **A materialise, however stale, acts for its own pending claim only.** -/
theorem materialise_acts (hw : Consistent w) (hf : Follows w i source ready) :
    ((w.storeOf i.serviceId).materialise engine (compileManifest i.targetManifest)).2 =
        w.storeOf i.serviceId ∨
      Acts w i ((w.storeOf i.serviceId).materialise engine (compileManifest i.targetManifest)).2 := by
  rcases @ServiceStore.materialise_cases V _ engine (w.storeOf i.serviceId)
    (compileManifest i.targetManifest) with h | ⟨⟨htables, -⟩, hcommits⟩
  · exact .inl h
  · refine .inr (acts_of_commits hw ?_ (fun hsame => ?_) hcommits)
    · -- were the claim ended, the store would have the target's tables
      by_contra hended
      exact (hf.ended hended).tables_ne_nil targetLayout_tables_ne_nil htables
    · exact hsame.symm.extends_.tables_ne_nil targetLayout_tables_ne_nil htables

/-- **An evolve, however stale, acts for its own pending claim only.** -/
theorem evolve_acts {m : Manifest.ManifestV2} {t : RelationalTransition} (hw : Consistent w)
    (hf : Follows w i source ready) (ht : classifyTransition m i.targetManifest = some t) :
    ((w.storeOf i.serviceId).evolve engine t).2 = w.storeOf i.serviceId ∨
      Acts w i ((w.storeOf i.serviceId).evolve engine t).2 := by
  have haccepted := classifyTransition_eq_some ht
  rcases @ServiceStore.evolve_cases V _ engine (w.storeOf i.serviceId) t with
    h | ⟨⟨hcurrent, hnot⟩, hcommits⟩
  · exact .inl h
  · rw [haccepted.target] at hnot hcommits
    rw [haccepted.current] at hcurrent
    refine .inr (acts_of_commits hw ?_ hnot hcommits)
    by_contra hended
    -- a store that is back at the source and has the target's objects has them at the source
    have hback : (targetLayout i).Extends (layout (compileManifest m)) :=
      (hf.ended hended).trans hcurrent.extends_
    have hsame := SchemaLayout.Extends.same (layout_extends haccepted) hback named_layout named_layout
    exact hnot (hcurrent.trans hsame)

section acts

variable {l : ServiceStoreLocator} {st : ServiceStore V}

theorem Acts.reached (h : Acts w i st) (hl : l.namespace_ = serviceNamespace i.serviceId) :
    Reached (w.withStore l st) i.kind i.serviceId := by
  refine ⟨i, h.pending, rfl, rfl, ?_⟩
  rw [World.storeOf_withStore_self hl]
  exact h.after

omit [DecidableEq V] in
theorem reached_of_ne {kind : OperationKind} {id : Uuid} (hl : l.namespace_ = serviceNamespace i.serviceId)
    (hid : id ≠ i.serviceId) (h : Reached w kind id) : Reached (w.withStore l st) kind id := by
  obtain ⟨j, hp, hk, hj, hsame⟩ := h
  refine ⟨j, hp, hk, hj, ?_⟩
  rw [World.storeOf_withStore_of_ne hl hid]
  exact hsame

theorem Acts.consistent (h : Acts w i st) (hl : l.namespace_ = serviceNamespace i.serviceId)
    (hw : Consistent w) : Consistent (w.withStore l st) := by
  refine ⟨hw.frozen, hw.live, fun n => ?_, hw.claims, fun id s hs hstate => ?_, fun id s hs hstate => ?_⟩
  · by_cases hn : n = l.namespace_
    · rw [hn, World.stores_withStore_self]
      exact h.sound
    · rw [World.stores_withStore_of_ne hn]
      exact hw.sound n
  · by_cases hid : id = i.serviceId
    · subst hid
      have hkind := (hw.kind_of_pending h.pending hs).1 hstate
      refine .inr ⟨hkind ▸ h.reached hl, ?_⟩
      rw [World.storeOf_withStore_self hl]
      exact h.usable
    · rw [World.storeOf_withStore_of_ne hl hid]
      exact (hw.seeded id s hs hstate).imp_right fun hr => ⟨reached_of_ne hl hid hr.1, hr.2⟩
  · obtain ⟨hstorage, husable, hmanifest⟩ := hw.materialised id s hs hstate
    by_cases hid : id = i.serviceId
    · subst hid
      have hkind := (hw.kind_of_pending h.pending hs).2 hstate
      refine ⟨hstorage, ?_, fun m hm => .inr (hkind ▸ h.reached hl)⟩
      rw [World.storeOf_withStore_self hl]
      exact h.usable
    · rw [World.storeOf_withStore_of_ne hl hid]
      exact ⟨hstorage, husable, fun m hm => (hmanifest m hm).imp_right (reached_of_ne hl hid)⟩

/-- The runs of the same service have not found it ready, and what they
may rely on of an ended claim only grows. -/
theorem Acts.undisturbed (h : Acts w i st) (hl : l.namespace_ = serviceNamespace i.serviceId)
    (hw : Consistent w) : Undisturbed w (w.withStore l st) := by
  intro j source ready hf
  refine ⟨hf.recorded, hf.service, fun hp hr => ?_, fun hnot => ?_⟩
  · by_cases hid : j.serviceId = i.serviceId
    · obtain rfl := hw.pending_eq hp h.pending hid
      exact absurd (hf.target hp hr) h.before
    · rw [World.storeOf_withStore_of_ne hl hid]
      exact hf.target hp hr
  · by_cases hid : j.serviceId = i.serviceId
    · have hended := hf.ended hnot
      rw [hid] at hended ⊢
      rw [World.storeOf_withStore_self hl]
      exact hended.trans h.grows
    · rw [World.storeOf_withStore_of_ne hl hid]
      exact hf.ended hnot

end acts

/-! ## Calls on the registry -/

/-- A claim is admitted or moved to recovery: the services stay, and what
is on record stays there, as pending as it was. -/
structure Notes (d d' : Database) : Prop where
  services : d'.services = d.services
  identities : d'.identities = d.identities
  recorded : ∀ j phase, d.claimRow j.key = some (.lifecycle j phase) →
    (∃ phase', d'.claimRow j.key = some (.lifecycle j phase')) ∧ (Pending d' j ↔ Pending d j)

section notes

variable {d d' : Database}

theorem Notes.refl (d : Database) : Notes d d :=
  ⟨rfl, rfl, fun _ phase h => ⟨⟨phase, h⟩, Iff.rfl⟩⟩

theorem Notes.pending (h : Notes d d') (hp : Pending d i) : Pending d' i := by
  obtain ⟨phase, hrow, -⟩ := hp.row
  exact (h.recorded i phase hrow).2.2 hp

theorem Notes.service (h : Notes d d') (principal : PrincipalId) (id : Uuid) :
    d'.service principal id = d.service principal id := by
  rw [Database.service, h.services, Database.service]

/-- An admission records a claim under a free key. -/
theorem notes_insertClaim {r : ClaimRow} (h : d.insertClaim r = some d') : Notes d d' := by
  obtain ⟨hfresh, -, hothers, hservices⟩ := Database.insertClaim_eq_some h
  refine ⟨hservices, ?_, fun j phase hrow => ?_⟩
  · unfold Database.insertClaim at h
    split at h
    · exact absurd h (by simp)
    · obtain ⟨claims, -, rfl⟩ := Option.map_eq_some_iff.1 h
      rfl
  · have hkey : j.key ≠ r.key := fun heq => by
      rw [heq, hfresh] at hrow
      exact absurd hrow (by simp)
    rw [Pending, Pending, hothers _ hkey]
    exact ⟨⟨phase, hrow⟩, Iff.rfl⟩

theorem notes_recovers (h : Database.Recovers d d' i) : Notes d d' := by
  obtain ⟨hprepared, rfl⟩ := h
  have hself := @Database.claimRow_endLifecycle_self d i .recoveryRequired _ hprepared
  refine ⟨rfl, rfl, fun j phase hrow => ?_⟩
  by_cases hkey : j.key = i.key
  · rw [hkey, hprepared] at hrow
    obtain ⟨rfl, -⟩ := ClaimRow.lifecycle.inj (Option.some.inj hrow)
    exact ⟨⟨_, hself⟩, fun _ => .inl hprepared, fun _ => .inr hself⟩
  · rw [Pending, Pending, Database.claimRow_endLifecycle_of_ne hkey]
    exact ⟨⟨phase, hrow⟩, Iff.rfl⟩

omit [DecidableEq V] in
theorem Notes.undisturbed (h : Notes w.registry d') : Undisturbed w { w with registry := d' } := by
  intro j source ready hf
  obtain ⟨phase, hphase⟩ := hf.recorded
  obtain ⟨hrec, hiff⟩ := h.recorded j phase hphase
  refine ⟨hrec, fun hp => ?_, fun hp => hf.target (hiff.1 hp), fun hnot => hf.ended (hnot ∘ hiff.2)⟩
  rw [h.service]
  exact hf.service (hiff.1 hp)

theorem Notes.consistent (h : Notes w.registry d') (hw : Consistent w) (hfrozen : d'.Frozen)
    (hclaims : ∀ i, Pending d' i → Pending w.registry i ∨
      ∃ s, w.registry.service i.principalId i.serviceId = some s ∧ Database.Admitted i s) :
    Consistent { w with registry := d' } := by
  have hreached : ∀ {kind id}, Reached w kind id → Reached { w with registry := d' } kind id := by
    rintro kind id ⟨i, hp, hrest⟩
    exact ⟨i, h.pending hp, hrest⟩
  refine ⟨hfrozen, ?_, hw.sound, fun i hp => ?_, fun id s hs hstate => ?_, fun id s hs hstate => ?_⟩
  · rw [Live, h.services, h.identities]
    exact hw.live
  · rw [h.service]
    exact (hclaims i hp).elim (hw.claims i) id
  · rw [h.services] at hs
    exact (hw.seeded id s hs hstate).imp_right fun hr => ⟨hreached hr.1, hr.2⟩
  · rw [h.services] at hs
    obtain ⟨hstorage, husable, hmanifest⟩ := hw.materialised id s hs hstate
    exact ⟨hstorage, husable, fun m hm => (hmanifest m hm).imp_right hreached⟩

end notes

section completes

variable {c : Completion} {d' : Database} {u : Service}

/-- The claims that are pending after a completion: those that were, of other services. -/
theorem pending_completes (h : Database.Completes w.registry d' c u) (hw : Consistent w) :
    Pending d' j ↔ Pending w.registry j ∧ j.serviceId ≠ c.intent.serviceId := by
  obtain ⟨-, -, -, -, hself, hothers⟩ := h.effect
  by_cases hkey : j.key = c.intent.key
  · constructor
    · rw [Pending, hkey, hself]
      simp
    · rintro ⟨hp, hid⟩
      obtain ⟨phase, hrow, -⟩ := hp.row
      rw [hkey, h.prepared] at hrow
      obtain ⟨rfl, -⟩ := ClaimRow.lifecycle.inj (Option.some.inj hrow)
      exact absurd rfl hid
  · rw [Pending, Pending, hothers _ hkey]
    refine ⟨fun hp => ⟨hp, fun hid => hkey ?_⟩, fun hp => hp.1⟩
    rw [hw.pending_eq hp (.inl h.prepared) hid]

theorem service_completes (h : Database.Completes w.registry d' c u) (hw : Consistent w)
    (hp : Pending d' j) : d'.service j.principalId j.serviceId =
      w.registry.service j.principalId j.serviceId := by
  obtain ⟨huid, -, hservices, -⟩ := h.effect
  obtain ⟨-, hid⟩ := (pending_completes h hw).1 hp
  exact Database.service_set_of_ne hservices (huid ▸ hid)

omit [DecidableEq V] in
theorem live_completes (h : Database.Completes w.registry d' c u) (hw : Live w.registry) : Live d' := by
  obtain ⟨huid, -, hservices, ⟨identity, written, hidentity, hkey, hprin, hstate, hidentities⟩, -⟩ :=
    h.effect
  obtain ⟨row, hrow, -⟩ := h.source
  have hfind : w.registry.services.find? u.serviceId = some row :=
    huid ▸ (Database.service_eq_some.1 hrow).1
  intro id s hs
  rw [hservices] at hs
  rw [hidentities]
  by_cases hid : id = u.serviceId
  · subst hid
    rw [Table.find?_set_self hfind] at hs
    obtain rfl := Option.some.inj hs
    rw [← hkey] at hidentity ⊢
    exact ⟨written, _, _, Table.find?_set_self hidentity, hprin, hstate⟩
  · rw [Table.find?_set_of_ne hid] at hs
    rw [Table.find?_set_of_ne (by rw [hkey]; exact hid)]
    exact hw id s hs

/-- The service a completion writes: it is materialised, over a manifest
that is the target. -/
theorem completes_materialised (h : Database.Completes w.registry d' c u) (hw : Consistent w)
    (hstorage : c.storage = .sqlite) : u.designState = .materialised ∧ u.storage = some .sqlite ∧
      u.manifest = some c.intent.targetManifest := by
  obtain ⟨s, hs, -, hterminal⟩ := h.source
  obtain ⟨x, hx, hadmitted⟩ := hw.claims c.intent (.inl h.prepared)
  rw [hs] at hx
  obtain rfl := Option.some.inj hx
  obtain ⟨-, -, -, -, -, hkind | hkind⟩ := Service.terminal_eq_some hterminal
  · obtain ⟨hkind, hmanifest, hdesign, hbackend⟩ := hkind
    exact ⟨hdesign, hstorage ▸ hbackend, hmanifest.trans (hadmitted.materialise hkind)⟩
  · obtain ⟨hkind, hmanifest, hdesign, hbackend⟩ := hkind
    have hstate := (sourceMatches_iff.1 hadmitted.matches_).2.2.2.2.2.2
    rw [if_neg hkind, isMaterialised, Bool.and_eq_true, Bool.and_eq_true, decide_eq_true_eq] at hstate
    have hsqlite := (hw.materialised _ s (Database.service_eq_some.1 hs).1 hstate.1.1).1
    exact ⟨hdesign.trans hstate.1.1, hbackend.trans hsqlite, hmanifest⟩

/-- **A completion over a store that was found ready** makes the registry
say what the store is. -/
theorem completes_consistent (h : Database.Completes w.registry d' c u) (hw : Consistent w)
    (hready : (w.storeOf c.intent.serviceId).schema.Same (targetLayout c.intent))
    (hstorage : c.storage = .sqlite) : Consistent { w with registry := d' } := by
  obtain ⟨huid, -, hservices, -⟩ := h.effect
  obtain ⟨s, hs, -⟩ := h.source
  have hfind := (Database.service_eq_some.1 hs).1
  obtain ⟨hdesign, hsqlite, hmanifest⟩ := completes_materialised h hw hstorage
  have hself : d'.services.find? c.intent.serviceId = some u := by
    rw [hservices, ← huid]
    exact Table.find?_set_self (huid.symm ▸ hfind)
  have hother : ∀ id, id ≠ c.intent.serviceId →
      d'.services.find? id = w.registry.services.find? id := fun id hid => by
    rw [hservices]
    exact Table.find?_set_of_ne (huid.symm ▸ hid)
  have hreached : ∀ {kind id}, id ≠ c.intent.serviceId → Reached w kind id →
      Reached { w with registry := d' } kind id := by
    rintro kind id hid ⟨i, hp, hk, rfl, hsame⟩
    exact ⟨i, (pending_completes h hw).2 ⟨hp, hid⟩, hk, rfl, hsame⟩
  refine ⟨(h.moves hw.frozen).frozen hw.frozen, live_completes h hw.live, hw.sound, fun i hp => ?_,
    fun id x hx hstate => ?_, fun id x hx hstate => ?_⟩
  · rw [service_completes h hw hp]
    exact hw.claims i ((pending_completes h hw).1 hp).1
  · by_cases hid : id = c.intent.serviceId
    · subst hid
      obtain rfl := Option.some.inj (hself.symm.trans hx)
      exact absurd (hstate.symm.trans hdesign) (by decide)
    · exact (hw.seeded id x (hother id hid ▸ hx) hstate).imp_right fun hr => ⟨hreached hid hr.1, hr.2⟩
  · by_cases hid : id = c.intent.serviceId
    · subst hid
      obtain rfl := Option.some.inj (hself.symm.trans hx)
      refine ⟨hsqlite, ?_, fun m hm => .inl ?_⟩
      · cases hs' : s.designState with
        | seeded =>
          rcases hw.seeded _ s hfind hs' with hempty | ⟨-, husable⟩
          · rw [hempty] at hready
            exact absurd rfl (hready.symm.extends_.tables_ne_nil targetLayout_tables_ne_nil)
          · exact husable
        | materialised => exact (hw.materialised _ s hfind hs').2.1
      · obtain rfl := Option.some.inj (hmanifest.symm.trans hm)
        exact hready
    · obtain ⟨hb, husable, hlayouts⟩ := hw.materialised id x (hother id hid ▸ hx) hstate
      exact ⟨hb, husable, fun m hm => (hlayouts m hm).imp_right (hreached hid)⟩

theorem completes_undisturbed (h : Database.Completes w.registry d' c u) (hw : Consistent w)
    (hready : (w.storeOf c.intent.serviceId).schema.Same (targetLayout c.intent)) :
    Undisturbed w { w with registry := d' } := by
  obtain ⟨-, -, -, -, hself, hothers⟩ := h.effect
  intro j source ready hf
  obtain ⟨phase, hphase⟩ := hf.recorded
  by_cases hkey : j.key = c.intent.key
  · rw [hkey, h.prepared] at hphase
    obtain ⟨rfl, -⟩ := ClaimRow.lifecycle.inj (Option.some.inj hphase)
    have hnot : ¬ Pending d' c.intent := fun hp => ((pending_completes h hw).1 hp).2 rfl
    exact ⟨⟨_, hself⟩, fun hp => absurd hp hnot, fun hp => absurd hp hnot,
      fun _ => hready.symm.extends_⟩
  · refine ⟨⟨phase, (hothers _ hkey).trans hphase⟩, fun hp => ?_, fun hp => ?_, fun hnot => ?_⟩
    · rw [service_completes h hw hp]
      exact hf.service ((pending_completes h hw).1 hp).1
    · exact hf.target ((pending_completes h hw).1 hp).1
    · refine hf.ended fun hp => hnot ?_
      rw [Pending, hothers _ hkey]
      exact hp

end completes

/-! ## One call -/

/-- The monitor of a run. -/
abbrev monitor : Monitor Call.Reply (Evidence × Option ServiceStoreLocator) := guarded.prod located

variable {v : Evidence × Option ServiceStoreLocator} {c : Call}

omit [DecidableEq V] in
/-- The effect of an operation on a store. -/
theorem onStore_cases {α : Type} {l : ServiceStoreLocator}
    {f : ServiceStore V → Answer α × ServiceStore V} :
    onStore w l f = (.raised .contract, w) ∨
      onStore w l f = ((f (w.store l)).1, w.withStore l (f (w.store l)).2) := by
  unfold onStore
  by_cases hl : l.backend = .sqlite
  · rw [if_pos hl]
    exact .inr rfl
  · rw [if_neg hl]
    exact .inl rfl

omit [DecidableEq V] in
/-- An operation that leaves the store it finds. -/
theorem onStore_same {α : Type} {l : ServiceStoreLocator} {f : ServiceStore V → Answer α} :
    (onStore w l fun st => (f st, st)).2 = w := by
  rcases @onStore_cases V w α l fun st => (f st, st) with h | h
  · rw [h]
  · rw [h]
    exact World.withStore_store

omit [DecidableEq V] in
/-- A migration changes neither schema nor rows. -/
theorem migrate_migrating {st : ServiceStore V} : Migrating st (st.migrate engine).2 := by
  unfold ServiceStore.migrate
  dsimp only
  split_ifs with hready hbudget
  · exact ⟨rfl, rfl, fun _ => ⟨rfl, rfl⟩⟩
  · exact ⟨rfl, rfl, fun h => absurd h.1 hready⟩
  · exact ⟨rfl, rfl, fun _ => ⟨rfl, rfl⟩⟩

/-- A call on the schema of the admitted service. -/
theorem schemaCall_keeps {l : ServiceStoreLocator} {f : ServiceStore V → Answer DomainSchemaStatus × ServiceStore V}
    (hw : Consistent w) (hl : l.namespace_ = serviceNamespace i.serviceId)
    (h : (f (w.storeOf i.serviceId)).2 = w.storeOf i.serviceId ∨
      Acts w i (f (w.storeOf i.serviceId)).2) :
    Consistent (onStore w l f).2 ∧ Undisturbed w (onStore w l f).2 := by
  have hstore : w.store l = w.storeOf i.serviceId := congrArg w.stores hl
  rcases @onStore_cases V w _ l f with hsame | heffect
  · rw [hsame]
    exact ⟨hw, fun _ _ _ h => h⟩
  · rw [heffect, hstore]
    rcases h with hsame | hacts
    · rw [hsame, ← hstore, World.withStore_store]
      exact ⟨hw, fun _ _ _ h => h⟩
    · exact ⟨hacts.consistent hl hw, hacts.undisturbed hl hw⟩

theorem admission_keeps {command : LifecycleCommand} {d' : Database}
    {a : LifecycleOutcome × Option Service} (hw : Consistent w)
    (h : admitted w.registry command = some (a, d')) :
    Consistent { w with registry := d' } ∧ Undisturbed w { w with registry := d' } := by
  obtain ⟨⟨outcome, d⟩, hresolve, heq⟩ := Option.map_eq_some_iff.1 h
  obtain ⟨-, rfl⟩ := Prod.mk.inj heq
  rcases Database.resolveOrAdmit_cases hresolve with ⟨hsame, -⟩ | ⟨target, s, -, hinsert, hs, hadmitted⟩
  · dsimp only at hsame ⊢
    subst hsame
    exact ⟨hw, fun _ _ _ h => h⟩
  · have hnotes := notes_insertClaim hinsert
    refine ⟨hnotes.consistent hw ?_ fun i hp => ?_, hnotes.undisturbed⟩
    · refine (Database.moves_insertClaim hinsert rfl (.inr ⟨rfl, fun n hn => ⟨s, hs, ?_⟩⟩)
        fun _ _ _ _ => rfl).frozen hw.frozen
      exact (sourceMatches_iff.1 hadmitted.matches_).2.2.2.1.trans (Option.some.inj hn)
    · by_cases hkey : i.key = command.key
      · obtain ⟨-, hself, -⟩ := Database.insertClaim_eq_some hinsert
        obtain ⟨phase, hrow, -⟩ := hp.row
        rw [hkey] at hrow
        obtain ⟨rfl, -⟩ := ClaimRow.lifecycle.inj (Option.some.inj (hrow.symm.trans hself))
        exact .inr ⟨s, hs, hadmitted⟩
      · obtain ⟨-, -, hothers, -⟩ := Database.insertClaim_eq_some hinsert
        rw [Pending, hothers _ hkey] at hp
        exact .inl hp

theorem recovery_keeps {d' : Database} (hw : Consistent w)
    (h : Database.Recovers w.registry d' i) :
    Consistent { w with registry := d' } ∧ Undisturbed w { w with registry := d' } := by
  have hnotes := notes_recovers h
  refine ⟨hnotes.consistent hw ((h.moves).frozen hw.frozen) fun j hp => .inl ?_, hnotes.undisturbed⟩
  obtain ⟨hprepared, rfl⟩ := h
  by_cases hkey : j.key = i.key
  · have hself := @Database.claimRow_endLifecycle_self _ i .recoveryRequired _ hprepared
    obtain ⟨phase, hrow, -⟩ := hp.row
    rw [hkey] at hrow
    obtain ⟨rfl, -⟩ := ClaimRow.lifecycle.inj (Option.some.inj (hrow.symm.trans hself))
    exact .inl hprepared
  · rw [Pending, Database.claimRow_endLifecycle_of_ne hkey] at hp
    exact hp

theorem completion_keeps {completion : Completion} {d' : Database} {outcome : LifecycleOutcome}
    (hw : Consistent w) (hv : Tracks w v) (hp : monitor.permits v (.finalizeCompleted completion))
    (h : w.registry.finalizeCompleted completion = some (outcome, d')) :
    Consistent { w with registry := d' } ∧ Undisturbed w { w with registry := d' } := by
  obtain ⟨⟨source, ha, hready⟩, hlocated⟩ := hp
  obtain ⟨l, hl, hstorage⟩ := hlocated completion rfl
  rcases Database.finalizeCompleted_cases h with ⟨rfl, -⟩ | ⟨-, hrecovers, -⟩ | ⟨u, -, hcompletes⟩
  · exact ⟨hw, fun _ _ _ h => h⟩
  · exact recovery_keeps hw hrecovers
  · have hsame := (hv.follows _ _ ha).target (.inl hcompletes.prepared) hready
    exact ⟨completes_consistent hcompletes hw hsame (hstorage.trans (hv.sqlite l hl)),
      completes_undisturbed hcompletes hw hsame⟩

omit [DecidableEq V] in
/-- What a transaction on the registry leaves. -/
theorem onRegistry_cases {α : Type} {r : Option (α × Database)} {P : World V → Prop} (hsame : P w)
    (hcommit : ∀ a d, r = some (a, d) → P { w with registry := d }) : P (onRegistry w r).2 := by
  cases r with
  | none => exact hsame
  | some x => exact hcommit x.1 x.2 rfl

/-- **A permitted call keeps what holds of the world**, and the evidence of
every run. -/
theorem serve_keeps (at_ : Instant) (hw : Consistent w) (hv : Tracks w v) (hp : monitor.permits v c) :
    Consistent (serve engine at_ w c).2 ∧ Undisturbed w (serve engine at_ w c).2 := by
  have hstill : Consistent w ∧ Undisturbed w w := ⟨hw, fun _ _ _ h => h⟩
  have hregistry := fun {α} {r : Option (α × Database)} =>
    @onRegistry_cases V w α r (fun u => Consistent u ∧ Undisturbed w u) hstill
  cases c with
  | admission command => exact hregistry fun a d h => admission_keeps hw h
  | allocate id => exact hstill
  | inspectMigration l =>
    have hsame : (serve engine at_ w (.inspectMigration l)).2 = w := onStore_same
    rw [hsame]
    exact hstill
  | migrate l =>
    rcases @onStore_cases V w _ l fun st => st.migrate engine with hsame | heffect
    · have hsame : (serve engine at_ w (.migrate l)).2 = w := congrArg Prod.snd hsame
      rw [hsame]
      exact hstill
    · have heffect : (serve engine at_ w (.migrate l)).2 = _ := congrArg Prod.snd heffect
      have halike := alike_withStore (@migrate_migrating V engine (w.store l))
      rw [heffect]
      exact ⟨halike.consistent hw, halike.undisturbed⟩
  | inspect l s =>
    have hsame : (serve engine at_ w (.inspect l s)).2 = w := onStore_same
    rw [hsame]
    exact hstill
  | materialise l s =>
    obtain ⟨⟨i, source, ha, hl, -, rfl⟩, -⟩ := hp
    exact schemaCall_keeps hw hl (materialise_acts hw (hv.follows i source ha))
  | evolve l t =>
    obtain ⟨⟨i, source, ha, hl, -, m, -, ht⟩, -⟩ := hp
    exact schemaCall_keeps hw hl (evolve_acts hw (hv.follows i source ha) ht)
  | now => exact hstill
  | finalizeCompleted completion => exact hregistry fun a d h => completion_keeps hw hv hp h
  | finalizeRecoveryRequired j at' =>
    refine hregistry fun a d h => ?_
    rcases Database.finalizeRecoveryRequired_cases h with rfl | ⟨-, hrecovers⟩
    · exact hstill
    · exact recovery_keeps hw hrecovers

/-- So does a call that fails. -/
theorem leaves_keeps {w' : World V} (hw : Consistent w) (hv : Tracks w v) (hp : monitor.permits v c)
    (h : Leaves engine w c w') : Consistent w' ∧ Undisturbed w w' := by
  cases h with
  | nothing => exact ⟨hw, fun _ _ _ h => h⟩
  | effect at_ => exact serve_keeps at_ hw hv hp
  | part hmigrating =>
    have halike := alike_withStore hmigrating
    exact ⟨halike.consistent hw, halike.undisturbed⟩

omit [DecidableEq V] in
/-- Evidence that says no more is borne out as well. -/
theorem Tracks.weaken {v' : Evidence × Option ServiceStoreLocator} (hv : Tracks w v)
    (ha : ∀ i source, v'.1.admitted = some (i, some source) → v.1.admitted = some (i, some source))
    (hs : ∀ s, v'.1.schema s = some .ready → v.1.schema s = some .ready)
    (hl : ∀ l, v'.2 = some l → v.2 = some l ∨ l.backend = .sqlite) : Tracks w v' :=
  ⟨fun i source h => (hv.follows i source (ha i source h)).mono (hs _),
    fun l h => (hl l h).elim (hv.sqlite l) id⟩

omit [DecidableEq V] in
/-- A reply by which a call fails adds nothing. -/
theorem Tracks.failed {r : c.Reply} (hv : Tracks w v) (h : Failed c r) :
    Tracks w (monitor.next v c r) := by
  cases c with
  | admission command =>
    refine hv.weaken (fun i source ha => ?_) (fun s hs => ?_) fun l hl => .inl hl
    all_goals
      rcases r with error | ⟨⟨outcome, source⟩, _ | failure⟩
      · simp [monitor, Monitor.prod, guarded, Evidence.next] at *
      · exact h.elim
      · cases outcome <;> simp [monitor, Monitor.prod, guarded, Evidence.next] at *
  | allocate id =>
    refine hv.weaken (fun _ _ ha => ha) (fun _ hs => hs) fun l hl => ?_
    rcases r with a | _ | error
    · exact h.elim
    · exact absurd hl (by simp [monitor, Monitor.prod, located])
    · exact absurd hl (by simp [monitor, Monitor.prod, located])
  | inspect l s =>
    refine hv.weaken (fun _ _ ha => ha) (fun s' hs => ?_) fun l hl => .inl hl
    by_cases hsame : s' = s
    · subst hsame
      have hself : (v.1.next (.inspect l s') r).schema s' = some .ready := hs
      rw [(next_inspect v.1 r).1] at hself
      rcases r with a | _ | error
      · exact h.elim
      · exact absurd hself (by simp [Answer.schema])
      · exact absurd hself (by simp [Answer.schema])
    · have hother : (v.1.next (.inspect l s) r).schema s' = some .ready := hs
      rwa [(next_inspect v.1 r).2 s' hsame] at hother
  | materialise l s =>
    exact hv.weaken (fun _ _ ha => ha) (fun s' hs => absurd hs (by simp [monitor, Monitor.prod, guarded, Evidence.next])) fun l hl => .inl hl
  | evolve l t =>
    exact hv.weaken (fun _ _ ha => ha) (fun s' hs => absurd hs (by simp [monitor, Monitor.prod, guarded, Evidence.next])) fun l hl => .inl hl
  | _ => exact hv.weaken (fun _ _ ha => ha) (fun _ hs => hs) fun l hl => .inl hl

/-- What admission answers of a prepared claim. -/
theorem admitted_prepared {d d' : Database} {command : LifecycleCommand} {source : Option Service}
    (h : admitted d command = some ((.prepared i, source), d')) :
    d'.claimRow i.key = some (.lifecycle i .prepared) ∧
      source = d'.service i.principalId i.serviceId := by
  obtain ⟨⟨outcome, e⟩, hresolve, heq⟩ := Option.map_eq_some_iff.1 h
  obtain ⟨hanswer, rfl⟩ := Prod.mk.inj heq
  obtain ⟨rfl, hsource⟩ := Prod.mk.inj hanswer
  refine ⟨?_, hsource.symm⟩
  rcases Database.resolveOrAdmit_cases hresolve with ⟨rfl, hrecorded⟩ | ⟨target, s, ho, hinsert, -⟩
  · exact hrecorded i rfl
  · obtain rfl := LifecycleOutcome.prepared.inj ho
    exact (Database.insertClaim_eq_some hinsert).2.1

omit [DecidableEq V] in
/-- A run that is admitted may rely on its claim. -/
theorem tracks_admitted {d' : Database} {command : LifecycleCommand}
    {a : LifecycleOutcome × Option Service} (hv : Tracks { w with registry := d' } v)
    (h : admitted w.registry command = some (a, d')) :
    Tracks { w with registry := d' } (monitor.next v (.admission command) (.ended a none)) := by
  obtain ⟨outcome, source⟩ := a
  by_cases hprepared : ∃ i, outcome = .prepared i
  · obtain ⟨i, rfl⟩ := hprepared
    refine ⟨fun j s hj => ?_, hv.sqlite⟩
    obtain ⟨rfl, rfl⟩ := Prod.mk.inj (Option.some.inj hj)
    obtain ⟨hrow, hsource⟩ := admitted_prepared h
    exact ⟨⟨_, hrow⟩, fun _ => hsource.symm, fun _ hready => absurd hready (by simp [monitor,
      Monitor.prod, guarded, Evidence.next]), fun hnot => absurd (.inl hrow) hnot⟩
  · have hnone : guarded.next v.1 (.admission command) (.ended (outcome, source) none) = {} := by
      cases outcome with
      | prepared i => exact absurd ⟨i, rfl⟩ hprepared
      | _ => rfl
    refine ⟨fun j s hj => ?_, hv.sqlite⟩
    rw [monitor, Monitor.prod] at hj
    exact absurd ((congrArg Evidence.admitted hnone).symm.trans hj) (by simp)

/-- A schema that was found ready is there. -/
theorem tracks_inspected {l : ServiceStoreLocator} {s : RelationalSpecification} (hv : Tracks w v)
    (hl : l.namespace_ = serviceNamespace i.serviceId) {source : Service}
    (ha : v.1.admitted = some (i, some source)) :
    Tracks w (monitor.next v (.inspect l s) ((w.store l).inspect engine s)) := by
  refine ⟨fun j u hj => ?_, hv.sqlite⟩
  have hf := hv.follows j u hj
  refine ⟨hf.recorded, hf.service, fun hp hready => ?_, hf.ended⟩
  have hready : (v.1.next (.inspect l s) ((w.store l).inspect engine s)).schema
      (compileManifest j.targetManifest) = some .ready := hready
  by_cases hs : compileManifest j.targetManifest = s
  · subst hs
    rw [(next_inspect v.1 _).1] at hready
    obtain ⟨rfl, -⟩ := Prod.mk.inj (Option.some.inj (ha.symm.trans hj))
    have hstore : w.store l = w.storeOf i.serviceId := congrArg w.stores hl
    rw [hstore, ServiceStore.inspect] at hready
    split at hready
    · exact absurd hready (by simp [Answer.schema])
    · cases hinspect : (w.storeOf i.serviceId).inspectDomain engine
          (layout (compileManifest i.targetManifest)) with
      | value status =>
        rw [hinspect] at hready
        obtain rfl := Option.some.inj hready
        exact (ServiceStore.inspectDomain_ready.1 hinspect).2.1
      | malformed =>
        rw [hinspect] at hready
        exact absurd hready (by simp [Answer.schema])
      | raised error =>
        rw [hinspect] at hready
        exact absurd hready (by simp [Answer.schema])
  · rw [(next_inspect v.1 _).2 _ hs] at hready
    exact hf.target hp hready

/-- **A reply of a call served as it should be is borne out.** -/
theorem Tracks.served (at_ : Instant) (hw : Consistent w) (hv : Tracks w v)
    (hp : monitor.permits v c) :
    Tracks (serve engine at_ w c).2 (monitor.next v c (serve engine at_ w c).1) := by
  have hv' := (@serve_keeps V w _ engine v c at_ hw hv hp).2.tracks hv
  cases c with
  | admission command =>
    change Tracks (onRegistry w (admitted w.registry command)).2
      (monitor.next v (.admission command) (onRegistry w (admitted w.registry command)).1)
    change Tracks (onRegistry w (admitted w.registry command)).2 v at hv'
    cases h : admitted w.registry command with
    | none => exact hv.failed trivial
    | some x =>
      rw [h] at hv'
      exact tracks_admitted hv' h
  | allocate id =>
    refine hv'.weaken (fun _ _ ha => ha) (fun _ hs => hs) fun l hl => .inr ?_
    obtain rfl := Option.some.inj hl
    rfl
  | inspect l s =>
    obtain ⟨⟨i, source, ha, hl⟩, -⟩ := hp
    rcases @onStore_cases V w _ l fun st => (st.inspect engine s, st) with hserve | hserve
    · have hserve : serve engine at_ w (.inspect l s) = (.raised .contract, w) := hserve
      rw [hserve]
      exact hv.failed trivial
    · have hserve : serve engine at_ w (.inspect l s) = ((w.store l).inspect engine s, w) := by
        rw [World.withStore_store] at hserve
        exact hserve
      rw [hserve]
      exact tracks_inspected hv hl ha
  | materialise l s =>
    exact hv'.weaken (fun _ _ ha => ha) (fun s' hs => absurd hs (by simp [monitor, Monitor.prod, guarded, Evidence.next])) fun l hl => .inl hl
  | evolve l t =>
    exact hv'.weaken (fun _ _ ha => ha) (fun s' hs => absurd hs (by simp [monitor, Monitor.prod, guarded, Evidence.next])) fun l hl => .inl hl
  | _ => exact hv'.weaken (fun _ _ ha => ha) (fun _ hs => hs) fun l hl => .inl hl

/-! ## Every run -/

theorem Settled.consistent (h : Settled w) : Consistent w := by
  have hnone : ∀ r ∈ w.registry.claims.rows, r.pending ≠ true := fun r hr => by
    rw [h.claims r hr]
    decide
  refine ⟨⟨fun r hr _ _ hp => absurd hp (hnone r hr), fun r hr n hn => ?_⟩, h.live, h.sound,
    fun i hp => ?_, fun id s hs hstate => .inl (h.seeded id s hs hstate), fun id s hs hstate => ?_⟩
  · exact absurd (ClaimRow.pending_of_expectation hn) (hnone r hr)
  · obtain ⟨phase, hrow, hpending⟩ := hp.row
    exact absurd hpending (hnone _ (Table.mem_of_find? hrow))
  · obtain ⟨hstorage, husable, hmanifest⟩ := h.materialised id s hs hstate
    exact ⟨hstorage, husable, fun m hm => .inl (hmanifest m hm)⟩

omit [DecidableEq V] in
/-- A run begins with nothing to bear out. -/
theorem tracks_nothing : Tracks w ({}, none) :=
  ⟨fun _ _ h => absurd h (by simp), fun _ h => absurd h (by simp)⟩

/-- **Every call of every run keeps the invariants.** -/
theorem serves_keeps {w' : World V} {r : c.Reply} (hw : Consistent w) (hv : Tracks w v)
    (hp : monitor.permits v c) (h : Serves engine w c r w') :
    Consistent w' ∧ Tracks w' (monitor.next v c r) ∧ ∀ v', Tracks w v' → Tracks w' v' := by
  obtain ⟨u, hwritten, hserved⟩ := h
  have halike := hwritten.alike
  have hu := halike.consistent hw
  have hvu := halike.undisturbed.tracks hv
  rcases hserved with ⟨at_, heq⟩ | ⟨hfailed, hleaves⟩
  · obtain ⟨hkeeps, hundisturbed⟩ := @serve_keeps V u _ engine v c at_ hu hvu hp
    have hnext := @Tracks.served V u _ engine v c at_ hu hvu hp
    rw [heq] at hkeeps hundisturbed hnext
    exact ⟨hkeeps, hnext, fun v' hv' => hundisturbed.tracks (halike.undisturbed.tracks hv')⟩
  · obtain ⟨hkeeps, hundisturbed⟩ := leaves_keeps hu hvu hp hleaves
    exact ⟨hkeeps, (hundisturbed.tracks hvu).failed hfailed,
      fun v' hv' => hundisturbed.tracks (halike.undisturbed.tracks hv')⟩

variable {g : Interleaved (World V) Call.Reply ExecutionResult}

theorem lifecycles_hold (hg : (lifecycles engine).Reachable g) :
    Interleaved.Holds monitor Consistent Tracks g := by
  refine Interleaved.invariant (fun w => Settled.consistent) (fun w p _ hp => ?_)
    (fun w c r w' v hw hv hp hserves => serves_keeps hw hv hp hserves) hg
  obtain ⟨command, rfl⟩ := hp
  exact ⟨({}, none), tracks_nothing,
    ((execute_guarded command).prod (execute_located command)).mono fun _ _ _ => trivial⟩

/-- **Registry and stores converge.** Whatever runs there are, wherever
they stall, crash or meet a fault and however late they go on, the store
of a materialised service has the layout of its manifest, or a pending
evolve to the next version has brought it to its target's; and the store
of a service that is not materialised has no schema yet, or a pending
materialise has given it its manifest's. -/
theorem lifecycle_convergence (hg : (lifecycles engine).Reachable g) {id : Uuid} {s : Service}
    (hs : g.world.registry.services.find? id = some s) :
    (s.designState = .materialised → ∃ m, s.manifest = some m ∧
      ((g.world.storeOf id).schema.Same (layout (compileManifest m)) ∨
        ∃ i, Pending g.world.registry i ∧ i.kind = .evolve ∧ i.serviceId = id ∧
          i.targetManifest.schemaVersion = m.schemaVersion + 1 ∧
          (g.world.storeOf id).schema.Same (layout (compileManifest i.targetManifest)))) ∧
    (s.designState = .seeded → (g.world.storeOf id).schema = .empty ∨
      ∃ i, Pending g.world.registry i ∧ i.kind = .materialise ∧ i.serviceId = id ∧
        s.manifest = some i.targetManifest ∧
        (g.world.storeOf id).schema.Same (layout (compileManifest i.targetManifest))) := by
  have hw := (lifecycles_hold hg).world
  have hadmitted : ∀ {i}, Pending g.world.registry i → i.serviceId = id → Database.Admitted i s := by
    rintro i hp rfl
    obtain ⟨u, hu, hadmitted⟩ := hw.claims i hp
    rw [(Database.service_eq_some.1 hu).1] at hs
    exact Option.some.inj hs ▸ hadmitted
  refine ⟨fun hstate => ?_, fun hstate => ?_⟩
  · obtain ⟨m, hm⟩ := Option.isSome_iff_exists.1 (s.complete hstate).1
    refine ⟨m, hm, ((hw.materialised id s hs hstate).2.2 m hm).imp_right ?_⟩
    rintro ⟨i, hp, hkind, hid, hsame⟩
    obtain ⟨m', t, hm', ht⟩ := (hadmitted hp hid).evolve hkind
    obtain rfl := Option.some.inj (hm.symm.trans hm')
    exact ⟨i, hp, hkind, hid, (classifyTransition_eq_some ht).version, hsame⟩
  · refine (hw.seeded id s hs hstate).imp_right ?_
    rintro ⟨⟨i, hp, hkind, hid, hsame⟩, -⟩
    exact ⟨i, hp, hkind, hid, (hadmitted hp hid).materialise hkind, hsame⟩

/-! ## An evolve that is prepared -/

namespace Converging

open Manifest

/-- Notes with a label. -/
def noteEntity : EntityDefinition where
  name := "note"
  attributes := SERVER_MANAGED_FIELDS ++ [{ name := "label", type := .string }]

def noteManifest : ManifestV2 where
  schemaVersion := 1
  entities := [noteEntity]
  valid := by decide

/-- The next version, under which no two notes have one label. -/
def labelledManifest : ManifestV2 where
  schemaVersion := 2
  entities := [noteEntity]
  indices := [⟨"note_label", "note", ["label"], true⟩]
  migrationHistory := [⟨1, 2, ["labels are unique"]⟩]
  valid := by decide

def noteId : Uuid := ⟨23, by decide, by decide⟩

def start : Instant := default

theorem third_revision : 1 ≤ 3 ∧ 3 ≤ MAX_SERVICE_REVISION := by decide

def evolveNotes : LifecycleCommand :=
  .evolve ⟨⟨"dave", by decide⟩, ⟨"console", by decide⟩, noteId, ⟨3, third_revision⟩, 1, ⟨"evolve", by decide⟩,
    labelledManifest, by decide, rfl⟩

theorem not_seeded : DesignState.materialised = .seeded → some StorageBackend.sqlite = none := by simp

/-- The service, once materialised. -/
def notes : Service where
  serviceId := noteId
  principalId := evolveNotes.principalId
  domainName := "notes"
  domainClass := "notes"
  intentDescription := "notes"
  createdAt := start
  updatedAt := start
  lastActivityAt := start
  manifest := some noteManifest
  designState := .materialised
  operationalStatus := .active
  serviceRevision := 3
  materialisedAt := some start
  storage := some .sqlite
  updated := Nat.le_refl _
  active := Nat.le_refl _
  revision := third_revision
  paired := rfl
  during := by simp
  seeded := not_seeded
  complete := by simp

def registry (claims : List ClaimRow) (h : (claims.map ClaimRow.key).Nodup) : Database where
  services := ⟨[notes], List.nodup_singleton _⟩
  claims := ⟨claims, h⟩
  identities := ⟨[⟨noteId, evolveNotes.principalId, .live "notes" (some .sqlite)⟩],
    List.nodup_singleton _⟩
  receipts := .empty

/-- A note, as the store keeps it. -/
def note (id label : String) : Row String := fun f => List.lookup f [("id", id), ("owner_id", "dave"),
  ("created_at", "2026-01-01T00:00:00.000000Z"), ("updated_at", "2026-01-01T00:00:00.000000Z"),
  ("created_via", "console"), ("record_version", "1"), ("label", label)]

/-- A store of notes with the labels. -/
def storeOf (labels : List String) : ServiceStore String where
  foundation := .ready
  schema := layout (compileManifest noteManifest)
  rows := fun name =>
    if name = "note" then labels.zipIdx.map fun l => note (toString l.2) l.1 else []

/-- A world where the notes have labels and no claim is pending. -/
def world (labels : List String) (claims : List ClaimRow) (h : (claims.map ClaimRow.key).Nodup) :
    World String where
  registry := registry claims h
  stores := fun name => if name = serviceNamespace noteId then storeOf labels else {}

theorem storeOf_world {labels : List String} {claims : List ClaimRow} {h : (claims.map ClaimRow.key).Nodup} :
    (world labels claims h).storeOf noteId = storeOf labels := by
  rw [World.storeOf, world]
  dsimp only
  rw [if_pos rfl]

def evolveClaim : ClaimRow := .lifecycle (evolveNotes.intent labelledManifest) .prepared

theorem found {claims : List ClaimRow} {h : (claims.map ClaimRow.key).Nodup} {id : Uuid} {s : Service}
    (hs : (registry claims h).services.find? id = some s) : id = noteId ∧ s = notes := by
  have hmem : s ∈ [notes] := Table.mem_of_find? hs
  obtain rfl := List.mem_singleton.1 hmem
  exact ⟨(Table.key_of_find? hs).symm, rfl⟩

theorem note_column {id label f : String} (h : (note id label f).isSome = true) :
    ∃ c ∈ (tableLayout [] (entity noteEntity)).columns, c.name = f := by
  rw [note, List.lookup_isSome_iff] at h
  have hname : f = "id" ∨ f = "owner_id" ∨ f = "created_at" ∨ f = "updated_at" ∨ f = "created_via" ∨
      f = "record_version" ∨ f = "label" := by simpa using h
  rcases hname with rfl | rfl | rfl | rfl | rfl | rfl | rfl <;> decide

theorem sound_storeOf {labels : List String} : (storeOf labels).Sound := by
  have htable : (storeOf labels).schema.tables = [tableLayout [] (entity noteEntity)] := rfl
  refine ⟨fun name hname => ?_, fun name r hr f hf => ?_, ?_⟩
  · have hne : name ≠ "note" := fun h => hname _ (htable ▸ List.mem_singleton_self _) h.symm
    exact if_neg hne
  · by_cases hname : name = "note"
    · have hrows : (storeOf labels).rows name = labels.zipIdx.map fun l => note (toString l.2) l.1 :=
        if_pos hname
      rw [hrows] at hr
      obtain ⟨n, hn, rfl⟩ := List.mem_map.1 hr
      exact ⟨_, htable ▸ List.mem_singleton_self _, hname.symm, note_column hf⟩
    · have hnone : (storeOf labels).rows name = [] := if_neg hname
      rw [hnone] at hr
      exact absurd hr List.not_mem_nil
  · rw [ServiceStore.foreignKeysClean, htable]
    rfl

theorem settled (labels : List String) : Settled (world labels [] (by decide)) := by
  refine ⟨by simp [world, registry], fun id s hs => ?_, fun n => ?_, fun id s hs hstate => ?_,
    fun id s hs _ => ?_⟩
  · obtain ⟨rfl, rfl⟩ := found hs
    exact ⟨_, _, _, rfl, rfl, rfl⟩
  · by_cases hn : n = serviceNamespace noteId
    · have hstore : (world labels [] (by decide)).stores n = storeOf labels := if_pos hn
      exact hstore ▸ sound_storeOf
    · have hstore : (world labels [] (by decide)).stores n = {} := if_neg hn
      exact hstore ▸ ⟨fun _ _ => rfl, fun _ _ hr => absurd hr List.not_mem_nil, rfl⟩
  · obtain ⟨rfl, rfl⟩ := found hs
    exact absurd hstate (by decide)
  · obtain ⟨rfl, rfl⟩ := found hs
    refine ⟨rfl, ⟨rfl, rfl⟩, fun m hm => ?_⟩
    obtain rfl := Option.some.inj hm
    exact .refl _

/-- An engine whose checks take nothing. -/
def idleEngine : Engine String := ⟨fun _ => 0, fun _ => 0⟩

/-- The evolve is admitted. -/
theorem admission_step {labels : List String} : serve idleEngine start (world labels [] (by decide))
    (.admission evolveNotes) = (.ended (.prepared (evolveNotes.intent labelledManifest), some notes) none,
      world labels [evolveClaim] (by decide)) := rfl

/-- A run that is admitted and stalls there. -/
theorem prepared_reachable (labels : List String) : ∃ g : Interleaved (World String) Call.Reply ExecutionResult,
    (lifecycles idleEngine).Reachable g ∧ g.world = world labels [evolveClaim] (by decide) := by
  have h₀ : (lifecycles idleEngine).Reachable ⟨world labels [] (by decide), fun _ => none⟩ :=
    .init ⟨settled labels, fun _ => rfl⟩
  obtain ⟨next, hnext⟩ : ∃ next, execute evolveNotes = .call (.admission evolveNotes) next := ⟨_, rfl⟩
  have h₁ := h₀.next (l := .start 0 (execute evolveNotes)) (.start rfl ⟨evolveNotes, rfl⟩)
  rw [hnext] at h₁
  have hserves : Serves idleEngine (world labels [] (by decide)) (.admission evolveNotes) _ _ :=
    ⟨_, ⟨rfl, fun _ => .inl rfl⟩, .inl ⟨start, admission_step⟩⟩
  have hrun := @Interleaved.resume_self (World String) Call Call.Reply ExecutionResult
    ⟨world labels [] (by decide), fun _ => none⟩ 0 (some (.call (.admission evolveNotes) next))
  exact ⟨_, h₁.next (l := .call 0 _ _) (.call hrun hserves), rfl⟩

end Converging

open Converging in
/-- Convergence where an evolve of the notes is prepared. -/
theorem lifecycle_convergence_prepared :
    ∃ g : Interleaved (World String) Call.Reply ExecutionResult, (lifecycles idleEngine).Reachable g ∧
      Pending g.world.registry (evolveNotes.intent labelledManifest) ∧
      ∃ m, notes.manifest = some m ∧ ((g.world.storeOf noteId).schema.Same (layout (compileManifest m)) ∨
        ∃ i, Pending g.world.registry i ∧ i.kind = .evolve ∧ i.serviceId = noteId ∧
          i.targetManifest.schemaVersion = m.schemaVersion + 1 ∧
          (g.world.storeOf noteId).schema.Same (layout (compileManifest i.targetManifest))) := by
  obtain ⟨g, hg, hworld⟩ := prepared_reachable ["a", "b"]
  refine ⟨g, hg, ?_, (@lifecycle_convergence String _ idleEngine g hg noteId notes ?_).1 rfl⟩ <;> rw [hworld]
  · exact .inl rfl
  · rfl

end Lifecycle

end Aipcs

import Aipcs.Registry.Effects
import Aipcs.Registry.Lifecycle

/-!
# Registry — what a lifecycle operation can do

One lemma for each operation of a lifecycle claim, with everything a
proof needs of it: admission replays the stored claim or records a new
one, and a claim is ended by a saved service or by evidence that the
service is not the one admitted.
-/

namespace Aipcs

namespace Registry

open Relational

/-! ## Terminal services -/

namespace Service

/-- A terminal service is the admitted one, one revision on, active and
with the target for its manifest. -/
theorem terminal_eq_some {s u : Service} {c : Completion} (h : s.terminal c = some u) :
    u.serviceId = s.serviceId ∧ u.principalId = s.principalId ∧
      u.serviceRevision = c.intent.expectedServiceRevision + 1 ∧
      u.operationalStatus = s.operationalStatus ∧ u.domainName = s.domainName ∧
      (c.intent.kind = .materialise ∧ u.manifest = s.manifest ∧ u.designState = .materialised ∧
          u.storage = some c.storage ∨
        c.intent.kind ≠ .materialise ∧ u.manifest = some c.intent.targetManifest ∧
          u.designState = s.designState ∧ u.storage = s.storage) := by
  unfold terminal at h
  by_cases hkind : c.intent.kind = .materialise
  · rw [if_pos hkind, withMaterialised] at h
    split at h
    · obtain rfl := Option.some.inj h
      exact ⟨rfl, rfl, rfl, rfl, rfl, .inl ⟨hkind, rfl, rfl, rfl⟩⟩
    · exact absurd h (by simp)
  · rw [if_neg hkind, withTarget] at h
    split at h
    · obtain rfl := Option.some.inj h
      exact ⟨rfl, rfl, rfl, rfl, rfl, .inr ⟨hkind, rfl, rfl, rfl⟩⟩
    · exact absurd h (by simp)

end Service

/-- What a matching source says of the service. -/
theorem sourceMatches_iff {i : LifecycleIntent} {s : Service} :
    sourceMatches i s = true ↔ s.principalId = i.principalId ∧ s.serviceId = i.serviceId ∧
      s.operationalStatus = .active ∧ s.serviceRevision = i.expectedServiceRevision ∧
      s.schemaVersion = some i.expectedSchemaVersion ∧ s.manifest.isSome = true ∧
      if i.kind = .materialise then awaitsMaterialisation s = true ∧ manifestIs s i.targetManifest = true
      else isMaterialised s = true := by
  unfold sourceMatches
  by_cases hkind : i.kind = .materialise
  · simp only [hkind, if_true, Bool.and_eq_true, decide_eq_true_eq, and_assoc]
  · simp only [hkind, if_false, Bool.and_eq_true, decide_eq_true_eq, and_assoc]

namespace Database

variable {d d' : Database}

/-! ## Saving -/

/-- **A save that reports so** found the row at the expected revision and a
live identity, and wrote both. -/
theorem save_eq_saved {s : Service} {expected : ℕ} (h : d.save s expected = (d', some true)) :
    ∃ row identity, d.service s.principalId s.serviceId = some row ∧
      row.serviceRevision = expected ∧ s.serviceRevision = expected + 1 ∧
      d.identities.find? s.serviceId = some identity ∧ identity.principalId = s.principalId ∧
      (∃ name storage, identity.state = .live name storage) ∧
      d' = { d with
        services := d.services.set s
        identities := d.identities.set { identity with state := .live s.domainName s.storage } } := by
  unfold save at h
  by_cases hrev : ¬ (1 ≤ expected ∧ expected < 2 ^ 63 - 1) ∨ s.serviceRevision ≠ expected + 1
  · rw [if_pos hrev] at h
    exact absurd (Prod.mk.inj h).2 (by simp)
  rw [if_neg hrev] at h
  rw [not_or, not_not, not_not] at hrev
  cases hrow : d.service s.principalId s.serviceId with
  | none =>
    rw [hrow] at h
    exact absurd (Prod.mk.inj h).2 (by simp)
  | some row =>
    rw [hrow] at h
    dsimp only at h
    split_ifs at h with hexp
    · cases hlive : ({ d with services := d.services.set s } : Database).updateLiveIdentity s with
      | none =>
        rw [hlive] at h
        exact absurd (Prod.mk.inj h).2 (by simp)
      | some saved =>
        rw [hlive] at h
        obtain ⟨rfl, -⟩ := Prod.mk.inj h
        unfold updateLiveIdentity at hlive
        cases hid : d.identities.find? s.serviceId with
        | none => simp [hid] at hlive
        | some identity =>
          simp only [hid] at hlive
          cases hstate : identity.state with
          | live name storage =>
            simp only [hstate] at hlive
            split_ifs at hlive with hprin
            exact ⟨row, identity, rfl, hexp, hrev.2, rfl, hprin, ⟨name, storage, hstate⟩,
              (Option.some.inj hlive).symm⟩
          | importPrepared _ _ _ _ => simp [hstate] at hlive
          | tombstoned _ _ => simp [hstate] at hlive
    · exact absurd (Prod.mk.inj h).2 (by simp)

/-- A save over the row it expects does not report a stale revision. -/
theorem save_ne_stale {s row : Service} {expected : ℕ}
    (hrow : d.service s.principalId s.serviceId = some row) (hrev : row.serviceRevision = expected) :
    (d.save s expected).2 ≠ some false := by
  unfold save
  split_ifs with hguard
  · simp
  · rw [hrow]
    dsimp only
    rw [if_pos hrev]
    split <;> simp

/-! ## Ending a claim -/

variable {i : LifecycleIntent} {outcome : LifecycleOutcome}

/-- A claim found prepared is the intent's own. -/
theorem terminalOrPrepared_prepared {stored : LifecycleIntent}
    (h : d.terminalOrPrepared i = some (.prepared stored)) :
    stored = i ∧ d.claimRow i.key = some (.lifecycle i .prepared) := by
  unfold terminalOrPrepared at h
  split at h
  · rename_i stored' phase hrow
    cases phase with
    | prepared =>
      dsimp only at h
      split_ifs at h with hdiff heq
      obtain rfl := LifecycleOutcome.prepared.inj (Option.some.inj h)
      exact ⟨heq, heq ▸ hrow⟩
    | completed s =>
      dsimp only at h
      split_ifs at h
      exact absurd (Option.some.inj h) (by simp)
    | recoveryRequired =>
      dsimp only at h
      split_ifs at h
      exact absurd (Option.some.inj h) (by simp)
  · exact absurd h (by simp)

theorem terminalOrPrepared_of_prepared (h : d.claimRow i.key = some (.lifecycle i .prepared)) :
    d.terminalOrPrepared i = some (.prepared i) := by
  rw [terminalOrPrepared, h]
  simp

/-- A claim that has ended answers how it ended. -/
theorem terminalOrPrepared_ended (h : d.terminalOrPrepared i = some outcome)
    (hne : ∀ stored, outcome ≠ .prepared stored) :
    ∃ stored phase, d.claimRow i.key = some (.lifecycle stored phase) ∧
      (phase = .recoveryRequired ∧ outcome = .recoveryRequired stored ∨
        ∃ s, phase = .completed s ∧ outcome = .completed stored s) := by
  unfold terminalOrPrepared at h
  split at h
  · rename_i stored phase hrow
    cases phase with
    | prepared =>
      dsimp only at h
      split_ifs at h
      exact absurd (Option.some.inj h).symm (hne stored)
    | completed s =>
      dsimp only at h
      split_ifs at h
      exact ⟨stored, _, hrow, .inr ⟨s, rfl, (Option.some.inj h).symm⟩⟩
    | recoveryRequired =>
      dsimp only at h
      split_ifs at h
      exact ⟨stored, _, hrow, .inl ⟨rfl, (Option.some.inj h).symm⟩⟩
  · exact absurd h (by simp)

/-- The lookups after a claim was ended. -/
theorem claimRow_endLifecycle_self {phase : ClaimPhase Service} {r : ClaimRow}
    (h : d.claimRow i.key = some r) :
    (d.endLifecycle i phase).claimRow i.key = some (.lifecycle i phase) :=
  Table.find?_set_self (r := ClaimRow.lifecycle i phase) h

theorem claimRow_endLifecycle_of_ne {phase : ClaimPhase Service} {k : PrincipalId × IdempotencyKey}
    (hk : k ≠ i.key) : (d.endLifecycle i phase).claimRow k = d.claimRow k :=
  Table.find?_set_of_ne (r := ClaimRow.lifecycle i phase) hk

/-- A completion of a prepared claim whose service still is the admitted one. -/
structure Completes (d d' : Database) (c : Completion) (u : Service) : Prop where
  prepared : d.claimRow c.intent.key = some (.lifecycle c.intent .prepared)
  source : ∃ s, d.service c.intent.principalId c.intent.serviceId = some s ∧
    finalizationPreconditions s c = true ∧ s.terminal c = some u
  saved : ∃ saved, d.save u c.intent.expectedServiceRevision = (saved, some true) ∧
    d' = saved.endLifecycle c.intent (.completed u)

/-- **What a completion writes**: the service and its identity, and the
claim's end. -/
theorem Completes.effect {c : Completion} {u : Service} (h : Completes d d' c u) :
    u.serviceId = c.intent.serviceId ∧ u.principalId = c.intent.principalId ∧
      d'.services = d.services.set u ∧
      (∃ identity written : IdentityRow, d.identities.find? u.serviceId = some identity ∧
        written.serviceId = u.serviceId ∧ written.principalId = u.principalId ∧
        written.state = .live u.domainName u.storage ∧ d'.identities = d.identities.set written) ∧
      d'.claimRow c.intent.key = some (.lifecycle c.intent (.completed u)) ∧
      ∀ k, k ≠ c.intent.key → d'.claimRow k = d.claimRow k := by
  obtain ⟨hprepared, ⟨s, hs, -, hterminal⟩, saved, hsave, rfl⟩ := h
  obtain ⟨row, identity, hrow, -, -, hidentity, hprin, -, rfl⟩ := save_eq_saved hsave
  obtain ⟨hfind, howned⟩ := service_eq_some.1 hs
  obtain ⟨huid, huprin, -⟩ := Service.terminal_eq_some hterminal
  have hkey : identity.serviceId = u.serviceId := Table.key_of_find? hidentity
  exact ⟨huid.trans (Table.key_of_find? hfind), huprin.trans howned, rfl,
    ⟨identity, { identity with state := .live u.domainName u.storage }, hidentity,
      hkey, hprin, rfl, rfl⟩, claimRow_endLifecycle_self (by exact hprepared),
    fun k hk => claimRow_endLifecycle_of_ne hk⟩

/-- A prepared claim moved to recovery. -/
structure Recovers (d d' : Database) (i : LifecycleIntent) : Prop where
  prepared : d.claimRow i.key = some (.lifecycle i .prepared)
  recovered : d' = d.endLifecycle i .recoveryRequired

/-- **What `finalize_completed` can do**: answer how the claim ended,
complete it, or move it to recovery, which it does only when the service
is gone or is not the one admitted. -/
theorem finalizeCompleted_cases {c : Completion} (h : d.finalizeCompleted c = some (outcome, d')) :
    d' = d ∧ (∃ stored phase, d.claimRow c.intent.key = some (.lifecycle stored phase) ∧
        (phase = .recoveryRequired ∧ outcome = .recoveryRequired stored ∨
          ∃ s, phase = .completed s ∧ outcome = .completed stored s)) ∨
      (outcome = .recoveryRequired c.intent ∧ Recovers d d' c.intent ∧
        ∀ s, d.service c.intent.principalId c.intent.serviceId = some s →
          ¬ c.at_.before s.updatedAt ∧ finalizationPreconditions s c = false) ∨
      ∃ u, outcome = .completed c.intent u ∧ Completes d d' c u := by
  unfold finalizeCompleted at h
  cases hrow : d.terminalOrPrepared c.intent with
  | none =>
    rw [hrow] at h
    exact absurd h (by simp)
  | some recorded =>
    rw [hrow] at h
    by_cases hprepared : ∃ stored, recorded = .prepared stored
    · obtain ⟨stored, rfl⟩ := hprepared
      obtain ⟨-, hclaim⟩ := terminalOrPrepared_prepared hrow
      dsimp only at h
      cases hs : d.service c.intent.principalId c.intent.serviceId with
      | none =>
        rw [hs] at h
        obtain ⟨rfl, rfl⟩ := Prod.mk.inj (Option.some.inj h)
        exact .inr (.inl ⟨rfl, ⟨hclaim, rfl⟩, fun s h' => absurd h' (by simp)⟩)
      | some s =>
        rw [hs] at h
        dsimp only at h
        split_ifs at h with hearly hpre
        · obtain ⟨rfl, rfl⟩ := Prod.mk.inj (Option.some.inj h)
          refine .inr (.inl ⟨rfl, ⟨hclaim, rfl⟩, fun s' h' => ?_⟩)
          obtain rfl := Option.some.inj h'
          exact ⟨hearly, hpre⟩
        · obtain ⟨u, hu, h⟩ := Option.bind_eq_some_iff.1 h
          rw [Bool.not_eq_false] at hpre
          -- the row is the admitted one, so the save cannot find it stale
          have hmatch : sourceMatches c.intent s = true := by
            rw [finalizationPreconditions, Bool.and_eq_true, Bool.and_eq_true] at hpre
            exact hpre.1.1
          obtain ⟨hid, hprin, -⟩ := Service.terminal_eq_some hu
          have hsame : d.service u.principalId u.serviceId = some s := by
            rw [hid, hprin, (sourceMatches_iff.1 hmatch).1, (sourceMatches_iff.1 hmatch).2.1, hs]
          have hstale := save_ne_stale hsame (sourceMatches_iff.1 hmatch).2.2.2.1
          generalize hsave : d.save u c.intent.expectedServiceRevision = result at h hstale
          match result, h, hstale with
          | (saved, some true), h, _ =>
            obtain ⟨rfl, rfl⟩ := Prod.mk.inj (Option.some.inj h)
            exact .inr (.inr ⟨u, rfl, hclaim, ⟨s, hs, hpre, hu⟩, ⟨saved, hsave, rfl⟩⟩)
          | (_, some false), _, hstale => exact absurd rfl hstale
          | (_, none), h, _ => exact absurd h (by simp)
    · have hterminal : some (recorded, d) = some (outcome, d') := by
        rw [← h]
        cases recorded with
        | prepared stored => exact absurd ⟨stored, rfl⟩ hprepared
        | _ => rfl
      obtain ⟨rfl, rfl⟩ := Prod.mk.inj (Option.some.inj hterminal)
      exact .inl ⟨rfl, terminalOrPrepared_ended hrow fun stored hstored => hprepared ⟨stored, hstored⟩⟩

/-- **What `finalize_recovery_required` can do**: answer how the claim
ended, or move it to recovery. -/
theorem finalizeRecoveryRequired_cases (h : d.finalizeRecoveryRequired i = some (outcome, d')) :
    d' = d ∨ outcome = .recoveryRequired i ∧ Recovers d d' i := by
  unfold finalizeRecoveryRequired at h
  split at h
  · exact absurd h (by simp)
  · rename_i stored hrow
    obtain ⟨rfl, rfl⟩ := Prod.mk.inj (Option.some.inj h)
    exact .inr ⟨rfl, (terminalOrPrepared_prepared hrow).2, rfl⟩
  · exact .inl (Prod.mk.inj (Option.some.inj h)).2.symm

/-! ## Admission -/

/-- The service a lifecycle claim is admitted over. -/
structure Admitted (i : LifecycleIntent) (s : Service) : Prop where
  matches_ : sourceMatches i s = true
  room : s.serviceRevision < MAX_SERVICE_REVISION
  materialise : i.kind = .materialise → s.manifest = some i.targetManifest
  evolve : i.kind = .evolve → ∃ m t, s.manifest = some m ∧ classifyTransition m i.targetManifest = some t

theorem admitted_of_supported {c : LifecycleCommand} {s : Service} {target : Manifest.ManifestV2}
    (hs : d.service c.principalId c.serviceId = some s)
    (hrev : s.serviceRevision = c.expectedServiceRevision)
    (hversion : s.schemaVersion = some c.expectedSchemaVersion)
    (hsupported : supportedLifecycleState s c = true) (hroom : s.serviceRevision < MAX_SERVICE_REVISION)
    (htarget : lifecycleTarget s c = some target) : Admitted (c.intent target) s := by
  obtain ⟨hfind, hprin⟩ := service_eq_some.1 hs
  have hid : s.serviceId = c.serviceId := Table.key_of_find? hfind
  cases c with
  | materialise c =>
    simp only [supportedLifecycleState, Bool.and_eq_true, decide_eq_true_eq] at hsupported
    obtain ⟨⟨hactive, hsome⟩, hawaits⟩ := hsupported
    have hkind : ((LifecycleCommand.materialise c).intent target).kind = .materialise := rfl
    have hmanifest : s.manifest = some target := htarget
    refine ⟨sourceMatches_iff.2 ⟨hprin, hid, hactive, hrev, hversion, hsome, ?_⟩, hroom,
      fun _ => hmanifest, fun h => absurd (hkind.symm.trans h) (by decide)⟩
    rw [if_pos hkind, manifestIs, hmanifest]
    exact ⟨hawaits, Manifest.ManifestDocument.equal_self _⟩
  | evolve c =>
    simp only [supportedLifecycleState, Bool.and_eq_true, decide_eq_true_eq] at hsupported
    obtain ⟨⟨hactive, hsome⟩, hmaterialised⟩ := hsupported
    have hkind : ∀ target, ((LifecycleCommand.evolve c).intent target).kind = .evolve := fun _ => rfl
    obtain ⟨m, hm, htransition⟩ := Option.bind_eq_some_iff.1 htarget
    obtain ⟨t, ht, rfl⟩ := Option.map_eq_some_iff.1 htransition
    refine ⟨sourceMatches_iff.2 ⟨hprin, hid, hactive, hrev, hversion, hsome, ?_⟩, hroom,
      fun h => absurd ((hkind _).symm.trans h) (by decide), fun _ => ⟨m, t, hm, ht⟩⟩
    rw [if_neg (by rw [hkind]; decide)]
    exact hmaterialised

/-- The target of an admitted evolve is one version on. -/
theorem Admitted.version {s : Service} (h : Admitted i s) (hkind : i.kind = .evolve) :
    i.targetManifest.schemaVersion = i.expectedSchemaVersion + 1 := by
  obtain ⟨m, t, hm, ht⟩ := h.evolve hkind
  have hversion := (sourceMatches_iff.1 h.matches_).2.2.2.2.1
  rw [Service.schemaVersion, hm, Option.map_some] at hversion
  rw [(classifyTransition_eq_some ht).version, Option.some.inj hversion]

/-- An admitted service has a terminal one, at a clock that is not before it. -/
theorem Admitted.terminal {c : Completion} {s : Service} (h : Admitted c.intent s)
    (hclock : ¬ c.at_.before s.updatedAt) : ∃ u, s.terminal c = some u := by
  obtain ⟨-, -, -, hrev, -, hsome, -⟩ := sourceMatches_iff.1 h.matches_
  have hroom : c.intent.expectedServiceRevision + 1 ≤ MAX_SERVICE_REVISION := hrev ▸ h.room
  have hat : s.updatedAt.micros ≤ c.at_.micros := not_lt.1 hclock
  unfold Service.terminal
  split_ifs
  · exact ⟨_, dif_pos ⟨hat, hroom, hsome⟩⟩
  · exact ⟨_, dif_pos ⟨hat, hroom⟩⟩

/-- A service whose row is at the revision before, under a live identity, is saved. -/
theorem save_of_live {u row : Service} {expected : ℕ} {identity : IdentityRow} {name : String}
    {backend : Option StorageBackend} (hrow : d.service u.principalId u.serviceId = some row)
    (hrev : row.serviceRevision = expected) (hroom : expected < MAX_SERVICE_REVISION)
    (hu : u.serviceRevision = expected + 1) (hidentity : d.identities.find? u.serviceId = some identity)
    (howned : identity.principalId = u.principalId) (hlive : identity.state = .live name backend) :
    ∃ saved, d.save u expected = (saved, some true) := by
  have hguard : ¬ (¬ (1 ≤ expected ∧ expected < 2 ^ 63 - 1) ∨ u.serviceRevision ≠ expected + 1) := by
    rw [not_or, not_not, not_not]
    exact ⟨⟨hrev ▸ row.revision.1, hroom⟩, hu⟩
  have hupdate : ∃ saved, ({ d with services := d.services.set u } : Database).updateLiveIdentity u =
      some saved := by
    simp [updateLiveIdentity, hidentity, hlive, howned]
  obtain ⟨saved, hsaved⟩ := hupdate
  refine ⟨saved, ?_⟩
  rw [save, if_neg hguard, hrow]
  dsimp only
  rw [if_pos hrev, hsaved]

/-- **A prepared claim over the service it was admitted over is completed.** -/
theorem Admitted.completes {c : Completion} {s : Service} (h : Admitted c.intent s)
    (hrow : d.claimRow c.intent.key = some (.lifecycle c.intent .prepared))
    (hs : d.service c.intent.principalId c.intent.serviceId = some s)
    (hclock : ¬ c.at_.before s.updatedAt)
    (hlive : ∃ identity name backend, d.identities.find? s.serviceId = some identity ∧
      identity.principalId = s.principalId ∧ identity.state = .live name backend) :
    ∃ u d', d.finalizeCompleted c = some (.completed c.intent u, d') ∧ Completes d d' c u := by
  obtain ⟨u, hu⟩ := h.terminal hclock
  obtain ⟨hid, hprin, hrevision, -⟩ := Service.terminal_eq_some hu
  obtain ⟨hsprin, hsid, -, hrev, hversion, -⟩ := sourceMatches_iff.1 h.matches_
  obtain ⟨identity, name, backend, hidentity, howned, hstate⟩ := hlive
  obtain ⟨saved, hsave⟩ := @save_of_live d u s _ identity name backend (by rw [hprin, hid, hsprin, hsid, hs]) hrev
    (hrev ▸ h.room) hrevision (by rw [hid, hidentity]) (by rw [hprin, howned]) hstate
  have hpre : finalizationPreconditions s c = true := by
    have hclock' : decide (c.at_.before s.updatedAt) = false := decide_eq_false hclock
    rcases c.intent.lifecycle with hkind | hkind
    · simp [finalizationPreconditions, h.matches_, hclock', hkind]
    · simp [finalizationPreconditions, h.matches_, hclock', hversion, h.version hkind]
  refine ⟨u, saved.endLifecycle c.intent (.completed u), ?_, hrow, ⟨s, hs, hpre, hu⟩, saved, hsave, rfl⟩
  unfold finalizeCompleted
  rw [terminalOrPrepared_of_prepared hrow]
  dsimp only
  rw [hs]
  dsimp only
  rw [if_neg hclock, if_neg (by rw [hpre]; decide), hu, Option.bind_some, hsave]

/-- A claim that is replayed as prepared is on record so. -/
theorem existingLifecycleClaim_prepared {row : ClaimRow} {c : LifecycleCommand}
    (h : existingLifecycleClaim row c = some (.prepared i)) : row = .lifecycle i .prepared := by
  unfold existingLifecycleClaim at h
  split_ifs at h
  · exact absurd (Option.some.inj h) (by simp)
  · split at h
    · obtain rfl := LifecycleOutcome.prepared.inj (Option.some.inj h)
      rfl
    · exact absurd (Option.some.inj h) (by simp)
    · exact absurd (Option.some.inj h) (by simp)
    · exact absurd h (by simp)

theorem lifecycleBlocker_ne_prepared {principal : PrincipalId} {id : Uuid} :
    d.lifecycleBlocker principal id ≠ some (.prepared i) := by
  unfold lifecycleBlocker
  split <;> simp

/-- **What lifecycle admission can do**: leave the registry, or record the
command's claim over a service that supports it. A claim it answers as
prepared is on record. -/
theorem resolveOrAdmit_cases {c : LifecycleCommand} (h : d.resolveOrAdmit c = some (outcome, d')) :
    (d' = d ∧ ∀ i, outcome = .prepared i → d.claimRow i.key = some (.lifecycle i .prepared)) ∨
      ∃ target s, outcome = .prepared (c.intent target) ∧
        d.insertClaim (.lifecycle (c.intent target) .prepared) = some d' ∧
        d.service c.principalId c.serviceId = some s ∧ Admitted (c.intent target) s := by
  have hanswer : ∀ {o : LifecycleOutcome}, (∀ i, o ≠ .prepared i) → some (o, d) = some (outcome, d') →
      d' = d ∧ ∀ i, outcome = .prepared i → d.claimRow i.key = some (.lifecycle i .prepared) := by
    intro o ho heq
    obtain ⟨rfl, rfl⟩ := Prod.mk.inj (Option.some.inj heq)
    exact ⟨rfl, fun i hi => absurd hi (ho i)⟩
  unfold resolveOrAdmit at h
  cases hrow : d.claimRow c.key with
  | some row =>
    rw [hrow] at h
    obtain ⟨o, hexisting, ho⟩ := Option.map_eq_some_iff.1 h
    obtain ⟨rfl, rfl⟩ := Prod.mk.inj ho
    refine .inl ⟨rfl, fun i hi => ?_⟩
    subst hi
    obtain rfl := existingLifecycleClaim_prepared hexisting
    have hkey : (ClaimRow.lifecycle i .prepared).key = c.key := Table.key_of_find? hrow
    rw [ClaimRow.key_lifecycle] at hkey
    rw [hkey, hrow]
  | none =>
    rw [hrow] at h
    dsimp only at h
    unfold admitLifecycle at h
    cases hs : d.service c.principalId c.serviceId with
    | none =>
      rw [hs] at h
      exact .inl (hanswer (by simp) h)
    | some s =>
      rw [hs] at h
      dsimp only at h
      split_ifs at h with hstale hstate
      · exact .inl (hanswer (by simp) h)
      · exact .inl (hanswer (by simp) h)
      · rw [not_or, not_not, not_not] at hstale
        rw [not_or, not_not, not_le] at hstate
        split at h
        · rename_i blocker hblocker
          refine .inl (hanswer (fun i hi => ?_) h)
          subst hi
          exact absurd hblocker lifecycleBlocker_ne_prepared
        · split at h
          · exact .inl (hanswer (by simp) h)
          · rename_i target htarget
            obtain ⟨m, hm, heq⟩ := Option.map_eq_some_iff.1 h
            obtain ⟨rfl, rfl⟩ := Prod.mk.inj heq
            exact .inr ⟨target, s, rfl, hm, rfl,
              admitted_of_supported hs hstale.1 hstale.2 hstate.1 hstate.2 htarget⟩

end Database

end Registry

end Aipcs

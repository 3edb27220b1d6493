import Aipcs.Registry.Freeze

/-!
# Registry — what transactions write

A transaction of the registry is a few statements over its tables.
`Write` lists the statements there are, each with what is known where it
is carried out; `Request.writes` says that a transaction is a sequence of
them. What every statement keeps, every transaction keeps.
-/

namespace Aipcs

namespace Registry

open Manifest

namespace Database

/-! ## The ledger -/

/-- **The ledger agrees with the services.** A service has a live identity
of its own principal, domain and backend, and a live identity its
service; a domain name has one holder; a receipt is of a service; and a
claim is of a known identity, under a tombstone only the purge's own or
a tombstone itself. -/
structure Ledger (d : Database) : Prop where
  identity : ∀ s ∈ d.services.rows,
    d.identities.find? s.serviceId = some ⟨s.serviceId, s.principalId, .live s.domainName s.storage⟩
  service : ∀ i ∈ d.identities.rows, ∀ name backend, i.state = .live name backend →
    ∃ s ∈ d.services.rows, s.serviceId = i.serviceId
  domain : ∀ i ∈ d.identities.rows, ∀ j ∈ d.identities.rows, i.principalId = j.principalId →
    i.state.domain.isSome = true → i.state.domain = j.state.domain → i = j
  receipt : ∀ r ∈ d.receipts.rows, ∃ s, d.service r.receipt.principalId r.receipt.serviceId = some s
  claim : ∀ r ∈ d.claims.rows, ∃ i, d.identities.find? r.serviceId = some i ∧ i.principalId = r.principalId ∧
    ∀ key at_, i.state = .tombstoned key at_ →
      r.operationKind = .purge ∧ r.idempotencyKey = key ∨ ∃ t, r = .tombstoned t

/-- A claim as it is first recorded, designs at the revisions given. -/
def Opens (designs : ℕ → Prop) : ClaimRow → Prop
  | .nonLifecycle c => c.kind ≠ .legacy ∧ (c.kind = .design → designs c.result.serviceRevision ∧
      c.result.designState = .seeded ∧ c.result.operationalStatus = .active ∧ c.result.schemaVersion = some 1 ∧
      c.result.updatedAt = c.result.lastActivityAt)
  | .lifecycle _ phase => phase = .prepared
  | .authority _ phase => phase = .prepared
  | .tombstoned _ => False

/-! ## Statements -/

/-- **One statement of a transaction**, or two that a constraint keeps together. -/
inductive Write (designs : ℕ → Prop) (d : Database) : Database → Prop
  | claim {r : ClaimRow} {s : Service} {d' : Database} : d.insertClaim r = some d' → Opens designs r →
      d.service r.principalId r.serviceId = some s → Write designs d d'
  | reserve {c : ImportCommand} {m : Database} {now : Instant} {identities : Table IdentityRow.serviceId} :
      d.importCollision c = none → d.insertClaim (.authority (.import_ c) .prepared) = some m →
      m.identities.insert ⟨c.identity.serviceId, c.identity.principalId,
        .importPrepared c.identity.domainName.1 c.destinationBackend c.idempotencyKey now⟩ = some identities →
      Write designs d { m with identities }
  | add {s : Service} {d' : Database} : d.add s = some d' → Write designs d d'
  | save {s row : Service} {expected : ℕ} {d' : Database} : d.save s expected = (d', some true) →
      d.service s.principalId s.serviceId = some row → s.domainName = row.domainName → Write designs d d'
  | receipt {r : ReceiptRow} {s : Service} {d' : Database} : d.insertReceipt r = some d' →
      d.service r.receipt.principalId r.receipt.serviceId = some s → Write designs d d'
  | publish {s : Service} {m : Database} {row : IdentityRow} {backend : StorageBackend} {key : IdempotencyKey}
      {at_ : Instant} : d.insertService s = some m → m.identities.find? s.serviceId = some row →
      row.principalId = s.principalId → row.state = .importPrepared s.domainName backend key at_ →
      Write designs d { m with identities := m.identities.set { row with state := .live s.domainName s.storage } }
  | erase {c : PurgeCommand} {at_ : Instant} {d' : Database} : d.erase c at_ = some d' →
      d.claimRow (RegistryAuthorityCommand.purge c).key = some (.authority (.purge c) .prepared) → Write designs d d'
  | ended {command : RegistryAuthorityCommand} {phase : ClaimPhase AuthorityResult} {d' : Database} :
      d.endClaim command phase = some d' → phase ≠ .prepared →
      d.claimRow command.key = some (.authority command .prepared) → Write designs d d'
  | endedLifecycle {i : LifecycleIntent} {phase : ClaimPhase Service} : phase ≠ .prepared →
      d.claimRow i.key = some (.lifecycle i .prepared) → Write designs d (d.endLifecycle i phase)

/-- A sequence of statements. -/
abbrev Writes (designs : ℕ → Prop) : Database → Database → Prop := Relation.ReflTransGen (Write designs)

variable {d d' m : Database} {command : RegistryAuthorityCommand} {designs : ℕ → Prop}

/-! ## Transactions -/

/-- The claim of a held intent that is found prepared is the intent's own. -/
theorem Recorded.prepared {stored : RegistryAuthorityCommand} (h : Recorded d command)
    (hfound : d.authorityPreparedOrTerminal command = some (.prepared stored)) :
    d.claimRow command.key = some (.authority command .prepared) := by
  have hrow := authorityPreparedOrTerminal_prepared hfound
  rw [hrow, h.eq_of_prepared hrow]

theorem markAuthorityRecovery_writes {outcome : AuthorityOutcome}
    (h : d.markAuthorityRecovery command = some (outcome, d'))
    (hrow : d.claimRow command.key = some (.authority command .prepared)) : Write designs d d' := by
  obtain ⟨e, he, heq⟩ := Option.map_eq_some_iff.1 h
  obtain ⟨-, rfl⟩ := Prod.mk.inj heq
  exact .ended he (by simp) hrow

theorem completeAuthority_writes {outcome : AuthorityOutcome} {result : AuthorityResult}
    (h : d.completeAuthority command result = some (outcome, d'))
    (hrow : d.claimRow command.key = some (.authority command .prepared)) : Write designs d d' := by
  obtain ⟨e, he, heq⟩ := Option.map_eq_some_iff.1 h
  obtain ⟨-, rfl⟩ := Prod.mk.inj heq
  exact .ended he (by simp) hrow

/-- The claim that answers a request which is new. -/
theorem completed_writes {kind : NonLifecycleKind} {context : ApplicationContext} {key : IdempotencyKey}
    {fingerprint : String} {s : Service} {r : ServiceMetadata}
    (h : d.completed kind context key fingerprint s = .ok (r, d'))
    (hs : d.services.find? s.serviceId = some s)
    (hdesign : kind = .design → designs s.serviceRevision ∧ s.designState = .seeded ∧ s.operationalStatus = .active ∧
      s.schemaVersion = some 1 ∧ s.updatedAt = s.lastActivityAt) : Write designs d d' := by
  unfold completed at h
  split at h
  · rename_i left hleft
    unfold completeNonLifecycle at hleft
    split_ifs at hleft with howner
    have hd' : left = d' := by
      unfold respond at h
      split at h
      · exact (Prod.mk.inj (Except.ok.inj h)).2
      · exact absurd h (by simp)
    subst hd'
    refine .claim hleft ⟨?_, fun hkind => hdesign ?_⟩ (service_eq_some.2 ⟨hs, not_not.1 howner⟩)
    · cases kind <;> simp [NonLifecycleKind.operation]
    · cases kind
      · exact absurd hkind (by simp [NonLifecycleKind.operation])
      · rfl
  · exact absurd h (by simp)

theorem find?_of_insertService {s : Service} (h : d.insertService s = some m) :
    m.services.find? s.serviceId = some s := by
  unfold insertService at h
  split_ifs at h
  obtain ⟨services, hservices, rfl⟩ := Option.map_eq_some_iff.1 h
  exact Table.find?_insert_self hservices

/-- An inserted service leaves the other tables. -/
theorem insertService_keeps {s : Service} (h : d.insertService s = some m) :
    m.claims = d.claims ∧ m.identities = d.identities ∧ m.receipts = d.receipts := by
  unfold insertService at h
  split_ifs at h
  obtain ⟨services, -, rfl⟩ := Option.map_eq_some_iff.1 h
  exact ⟨rfl, rfl, rfl⟩

theorem find?_of_add {s : Service} (h : d.add s = some m) : m.services.find? s.serviceId = some s := by
  obtain ⟨added, hadded, hidentity⟩ := Option.bind_eq_some_iff.1 h
  rw [(insertIdentity_eq_some hidentity).2]
  exact find?_of_insertService hadded

theorem seed_writes {context : ApplicationContext} {c : SeedCommand} {id : Uuid} {now : Instant}
    {r : ServiceMetadata} (h : d.seed context c id now = .ok (r, d')) : Writes designs d d' := by
  rcases replayed_eq_ok h with ⟨rfl, -⟩ | ⟨-, h⟩
  · exact .refl
  · split at h
    · rename_i existing hfound
      exact .single (completed_writes h (Table.find?_of_mem (List.mem_of_find?_eq_some hfound)) (by simp))
    · split at h
      · exact absurd h (by simp)
      · rename_i m hadd
        exact (Relation.ReflTransGen.single (.add hadd)).tail (completed_writes h (find?_of_add hadd) (by simp))

theorem withDesign_fields {s u : Service} {manifest : ManifestV2} {now : Instant}
    (h : s.withDesign manifest now = some u) : u.designState = s.designState ∧
      u.operationalStatus = s.operationalStatus ∧ u.domainName = s.domainName ∧ u.updatedAt = u.lastActivityAt := by
  unfold Service.withDesign at h
  split at h
  · obtain rfl := Option.some.inj h
    exact ⟨rfl, rfl, rfl, rfl⟩
  · exact absurd h (by simp)

theorem find?_of_save {s : Service} {expected : ℕ} (h : d.save s expected = (m, some true)) :
    m.services.find? s.serviceId = some s := by
  obtain ⟨row, -, hrow, -, -, -, -, -, rfl⟩ := save_eq_saved h
  exact Table.find?_set_self (service_eq_some.1 hrow).1

/-- The revision a design is recorded at, if it is carried out. -/
def DesignedAt (d : Database) (context : ApplicationContext) (c : DesignCommand) (now : Instant) (n : ℕ) : Prop :=
  Designs d context c now ∧ ∃ s, d.service context.principalId c.serviceId = some s ∧ n = s.serviceRevision + 1

theorem design_writes {context : ApplicationContext} {c : DesignCommand} {now : Instant}
    {r : ServiceMetadata} (h : d.design context c now = .ok (r, d')) : Writes (d.DesignedAt context c now) d d' := by
  rcases design_saved h with ⟨rfl, -⟩ | ⟨hdesigns, u, m, s, hs, hu, hsave, hcompleted⟩
  · exact .refl
  · obtain ⟨-, t, ht, hawaits, -⟩ := id hdesigns
    obtain rfl := Option.some.inj (hs.symm.trans ht)
    obtain ⟨hid, hprin, hmanifest, hrev⟩ := Service.withDesign_eq_some hu
    obtain ⟨hdesign, hstatus, hdomain, htimes⟩ := withDesign_fields hu
    simp only [awaitsDesign, Bool.and_eq_true, decide_eq_true_eq] at hawaits
    have hrow : d.service u.principalId u.serviceId = some s := by
      rw [hid, hprin]
      exact service_eq_some.2 ⟨Table.find?_of_mem (Table.mem_of_find? (service_eq_some.1 hs).1), rfl⟩
    refine (Relation.ReflTransGen.single (.save hsave hrow hdomain)).tail
      (completed_writes hcompleted (find?_of_save hsave) fun _ => ⟨⟨hdesigns, s, hs, hrev⟩,
        hdesign.trans hawaits.1.2, hstatus.trans hawaits.1.1, ?_, htimes⟩)
    rw [Service.schemaVersion, hmanifest]
    exact congrArg some c.first

theorem finalizeCompleted_writes {c : Completion} {outcome : LifecycleOutcome}
    (h : d.finalizeCompleted c = some (outcome, d')) : Writes designs d d' := by
  rcases finalizeCompleted_cases h with ⟨rfl, -⟩ | ⟨-, ⟨hrow, rfl⟩, -⟩ | ⟨u, -, hrow, ⟨s, hs, -, hu⟩, m, hsave, rfl⟩
  · exact .refl
  · exact .single (.endedLifecycle (by simp) hrow)
  · obtain ⟨hid, hprin, -, -, hdomain, -⟩ := Service.terminal_eq_some hu
    have hfound : d.service u.principalId u.serviceId = some s := by
      rw [hid, hprin]
      exact service_eq_some.2 ⟨Table.find?_of_mem (Table.mem_of_find? (service_eq_some.1 hs).1), rfl⟩
    refine (Relation.ReflTransGen.single (.save hsave hfound hdomain)).tail (.endedLifecycle (by simp) ?_)
    obtain ⟨-, -, -, -, -, -, -, -, rfl⟩ := save_eq_saved hsave
    exact hrow

theorem finalizeRecoveryRequired_writes {i : LifecycleIntent} {outcome : LifecycleOutcome}
    (h : d.finalizeRecoveryRequired i = some (outcome, d')) : Writes designs d d' := by
  rcases finalizeRecoveryRequired_cases h with rfl | ⟨-, hrow, rfl⟩
  · exact .refl
  · exact .single (.endedLifecycle (by simp) hrow)

theorem resolveOrAdmit_writes {c : LifecycleCommand} {outcome : LifecycleOutcome}
    (h : d.resolveOrAdmit c = some (outcome, d')) : Writes designs d d' := by
  rcases resolveOrAdmit_cases h with ⟨rfl, -⟩ | ⟨target, s, -, hinsert, hs, -⟩
  · exact .refl
  · exact .single (.claim hinsert rfl hs)

theorem prepareService_writes {outcome : AuthorityOutcome}
    (h : d.prepareService command = some (outcome, d')) : Writes designs d d' := by
  rcases prepareService_admits h with ⟨rfl, -⟩ | ⟨rfl, -⟩
  · exact .refl
  · obtain ⟨-, hinsert, s, hs, -⟩ := prepareService_prepared h
    exact .single (.claim hinsert rfl hs)

theorem prepareImport_writes {c : ImportCommand} {now : Instant} {outcome : AuthorityOutcome}
    (h : d.prepareImport c now = some (outcome, d')) : Writes designs d d' := by
  unfold prepareImport at h
  split_ifs at h
  · obtain ⟨-, rfl⟩ := Prod.mk.inj (Option.some.inj h)
    exact .refl
  · split at h
    · obtain ⟨-, rfl⟩ := Prod.mk.inj (Option.some.inj h)
      exact .refl
    · rename_i hcollision
      obtain ⟨m, hm, h⟩ := Option.bind_eq_some_iff.1 h
      obtain ⟨identities, hidentities, h⟩ := Option.bind_eq_some_iff.1 h
      obtain ⟨-, rfl⟩ := Prod.mk.inj (Option.some.inj h)
      exact .single (.reserve hcollision hm hidentities)

theorem resolveOrPrepare_writes {now : Instant} {outcome : AuthorityOutcome}
    (h : d.resolveOrPrepare command now = some (outcome, d')) : Writes designs d d' := by
  unfold resolveOrPrepare at h
  split at h
  · obtain ⟨-, rfl⟩ := Prod.mk.inj (Option.some.inj h)
    exact .refl
  · split at h
    · exact prepareImport_writes h
    · exact prepareService_writes h

theorem withStatus_domainName {s u : Service} {target : OperationalStatus} {at_ : Instant}
    (h : s.withStatus target at_ = some u) : u.domainName = s.domainName := by
  unfold Service.withStatus at h
  split at h
  · obtain rfl := Option.some.inj h
    rfl
  · exact absurd h (by simp)

/-- What a purge erases: the service, its receipts and the results of its
other claims, under a live identity that becomes a tombstone. -/
theorem erase_eq_erased {c : PurgeCommand} {at_ : Instant} (h : d.erase c at_ = some m) :
    ∃ row name backend, d.identities.find? c.serviceId = some row ∧ row.state = .live name backend ∧
      row.principalId = c.principalId ∧ (∀ r ∈ d.claims.rows, otherClaim c r = true → r.operationKind ≠ .purge) ∧
      m = {
        services := d.services.keep fun s => !(s.principalId = c.principalId && s.serviceId = c.serviceId)
        claims := d.claims.update (tombstoneRow c) (key_tombstoneRow c)
        identities := d.identities.set { row with state := .tombstoned c.idempotencyKey at_ }
        receipts := d.receipts.keep fun r =>
          !(r.receipt.principalId = c.principalId && r.receipt.serviceId = c.serviceId) } := by
  unfold erase at h
  split_ifs at h with hpurge
  split at h
  · rename_i row hrow
    split at h
    · rename_i name backend hstate
      split_ifs at h with howner
      refine ⟨row, name, backend, hrow, hstate, howner, fun r hr hother hkind => hpurge ?_, (Option.some.inj h).symm⟩
      exact List.any_eq_true.2 ⟨r, hr, by simp [hother, hkind]⟩
    · exact absurd h (by simp)
  · exact absurd h (by simp)

/-- With a live identity behind it a status change is saved or not begun. -/
theorem applyOperational_saved {c : OperationalLifecycleCommand} {at_ : Instant} {changed : Option Service}
    (h : d.applyOperational c at_ = (m, changed)) (hd : d.Ledger) :
    m = d ∧ changed = none ∨ ∃ u s, changed = some u ∧ d.save u c.expectedServiceRevision.1 = (m, some true) ∧
      d.service u.principalId u.serviceId = some s ∧ u.domainName = s.domainName := by
  unfold applyOperational at h
  cases hs : d.service c.principalId c.serviceId with
  | none =>
    rw [hs] at h
    obtain ⟨rfl, rfl⟩ := Prod.mk.inj h
    exact .inl ⟨rfl, rfl⟩
  | some s =>
    rw [hs] at h
    dsimp only at h
    split_ifs at h with hstale
    · obtain ⟨rfl, rfl⟩ := Prod.mk.inj h
      exact .inl ⟨rfl, rfl⟩
    · rw [not_or, not_not] at hstale
      cases htarget : transitionTargetStatus c.kind s.designState s.operationalStatus with
      | none =>
        rw [htarget] at h
        obtain ⟨rfl, rfl⟩ := Prod.mk.inj h
        exact .inl ⟨rfl, rfl⟩
      | some target =>
        rw [htarget] at h
        dsimp only at h
        cases hu : s.withStatus target at_ with
        | none =>
          rw [hu] at h
          obtain ⟨rfl, rfl⟩ := Prod.mk.inj h
          exact .inl ⟨rfl, rfl⟩
        | some u =>
          rw [hu] at h
          dsimp only at h
          obtain ⟨hid, hprin, -, -, -, hrev⟩ := Service.withStatus_eq_some hu
          have hdomain : u.domainName = s.domainName := withStatus_domainName hu
          have hmem := Table.mem_of_find? (service_eq_some.1 hs).1
          have hrow : d.service u.principalId u.serviceId = some s := by
            rw [hid, hprin]
            exact service_eq_some.2 ⟨Table.find?_of_mem hmem, rfl⟩
          obtain ⟨saved, hsaved⟩ := @save_of_live d u s c.expectedServiceRevision.1 _ _ _ hrow hstale.1
            c.expectedServiceRevision.2.2 (by rw [hrev, hstale.1]) (by rw [hid]; exact hd.identity s hmem)
            hprin.symm rfl
          rw [hsaved] at h
          obtain ⟨rfl, rfl⟩ := Prod.mk.inj h
          exact .inr ⟨u, s, rfl, hsaved, hrow, hdomain⟩

theorem finalizeOperational_writes {c : OperationalLifecycleCommand} {at_ : Instant} {outcome : AuthorityOutcome}
    (h : d.finalizeOperational c at_ = some (outcome, d')) (hd : d.Ledger) (hrec : Recorded d (.operational c)) :
    Writes designs d d' := by
  unfold finalizeOperational at h
  split at h
  · exact absurd h (by simp)
  · rename_i hfound
    have hrow := hrec.prepared hfound
    split at h
    · rename_i saved u happly
      rcases applyOperational_saved happly hd with ⟨-, hnone⟩ | ⟨v, s, hv, hsave, hs, hdomain⟩
      · exact absurd hnone (by simp)
      · obtain rfl := Option.some.inj hv
        refine (Relation.ReflTransGen.single (.save hsave hs hdomain)).tail (completeAuthority_writes h ?_)
        obtain ⟨-, -, -, -, -, -, -, -, rfl⟩ := save_eq_saved hsave
        exact hrow
    · rename_i left happly
      rcases applyOperational_saved happly hd with ⟨rfl, -⟩ | ⟨v, s, hv, -⟩
      · exact .single (markAuthorityRecovery_writes h hrow)
      · exact absurd hv (by simp)
  · obtain ⟨-, rfl⟩ := Prod.mk.inj (Option.some.inj h)
    exact .refl

theorem completeExport_writes {c : ExportCommand} {r : TransferReceipt} {outcome : AuthorityOutcome}
    (h : d.completeExport c r = some (outcome, d')) (hrec : Recorded d (.export_ c)) : Writes designs d d' := by
  unfold completeExport at h
  split at h
  · exact absurd h (by simp)
  · rename_i hfound
    have hrow := hrec.prepared hfound
    split at h
    · exact .single (markAuthorityRecovery_writes h hrow)
    · rename_i s hs
      obtain ⟨received, hreceived, h⟩ := Option.bind_eq_some_iff.1 h
      obtain ⟨hs, hmatches⟩ := Option.filter_eq_some_iff.1 hs
      simp only [receiptMatches, Bool.and_eq_true, decide_eq_true_eq] at hmatches
      obtain ⟨⟨⟨⟨⟨⟨⟨⟨⟨-, -⟩, -⟩, -⟩, hprin⟩, hid⟩, -⟩, -⟩, -⟩, -⟩ := hmatches
      refine (Relation.ReflTransGen.single (.receipt hreceived (by rw [hprin, hid]; exact hs))).tail
        (completeAuthority_writes h ?_)
      rw [claimRow, (insertReceipt_eq_some hreceived).1]
      exact hrow
  · obtain ⟨-, rfl⟩ := Prod.mk.inj (Option.some.inj h)
    exact .refl

/-- What publishing makes live: the identity that was reserved under the claim's key. -/
theorem publishIdentity_eq_published {c : ImportCommand} {s : Service} (h : d.publishIdentity c s = some m) :
    ∃ row domain backend at_, d.identities.find? s.serviceId = some row ∧ row.principalId = s.principalId ∧
      row.state = .importPrepared domain backend c.idempotencyKey at_ ∧
      m = { d with identities := d.identities.set { row with state := .live domain s.storage } } := by
  unfold publishIdentity at h
  split at h
  · rename_i row hrow
    split at h
    · rename_i domain backend key at_ hstate
      split_ifs at h with howner
      obtain ⟨hprin, rfl⟩ := howner
      exact ⟨row, domain, backend, at_, hrow, hprin, hstate, (Option.some.inj h).symm⟩
    · exact absurd h (by simp)
  · exact absurd h (by simp)

theorem publishImport_writes {c : ImportCommand} {s : Service} {r : TransferReceipt} {outcome : AuthorityOutcome}
    (h : d.publishImport c s r = some (outcome, d')) (hrec : Recorded d (.import_ c)) : Writes designs d d' := by
  unfold publishImport at h
  split at h
  · exact absurd h (by simp)
  · rename_i hfound
    have hrow := hrec.prepared hfound
    split_ifs at h with hpublishable
    · exact .single (markAuthorityRecovery_writes h hrow)
    · obtain ⟨inserted, hinserted, h⟩ := Option.bind_eq_some_iff.1 h
      obtain ⟨published, hpublished, h⟩ := Option.bind_eq_some_iff.1 h
      obtain ⟨received, hreceived, hended⟩ := Option.bind_eq_some_iff.1 h
      rw [Bool.not_eq_false] at hpublishable
      simp only [publishable, Bool.and_eq_true, decide_eq_true_eq] at hpublishable
      obtain ⟨⟨⟨⟨⟨⟨⟨⟨⟨⟨⟨⟨⟨⟨⟨⟨hreserved, -⟩, hprin⟩, hid⟩, hdomain⟩, -⟩, -⟩, -⟩, -⟩, -⟩, hrprin⟩, hrid⟩, -⟩, -⟩, -⟩, -⟩, -⟩ :=
        hpublishable
      obtain ⟨row, domain, backend, at_, hrow', howner, hstate, rfl⟩ := publishIdentity_eq_published hpublished
      obtain ⟨-, hidentities, -⟩ := insertService_keeps hinserted
      -- the name reserved is the one the claim brings, and the service's
      rw [← hid, ← hidentities, hrow', Option.any_some, hstate] at hreserved
      simp only [Bool.and_eq_true, decide_eq_true_eq] at hreserved
      obtain rfl : domain = s.domainName := hreserved.2.1.trans hdomain.symm
      have hfind : inserted.service r.principalId r.serviceId = some s := by
        rw [service_eq_some, hrid, ← hid]
        exact ⟨find?_of_insertService hinserted, hprin.trans hrprin.symm⟩
      have hclaims : received.claims = d.claims :=
        (insertReceipt_eq_some hreceived).1.trans (insertService_eq_some hinserted).2.1
      have hpublish : Writes designs d received := (Relation.ReflTransGen.single
        (.publish hinserted hrow' howner hstate)).tail (.receipt hreceived hfind)
      exact hpublish.tail (completeAuthority_writes hended (by rw [claimRow, hclaims]; exact hrow))
  · obtain ⟨-, rfl⟩ := Prod.mk.inj (Option.some.inj h)
    exact .refl

/-- The purge's own claim is not among those it turns into tombstones. -/
theorem claimRow_of_erase {c : PurgeCommand} {at_ : Instant} (h : d.erase c at_ = some m)
    (hrow : d.claimRow (RegistryAuthorityCommand.purge c).key = some (.authority (.purge c) .prepared)) :
    m.claimRow (RegistryAuthorityCommand.purge c).key = some (.authority (.purge c) .prepared) := by
  obtain ⟨-, -, -, -, -, -, -, rfl⟩ := erase_eq_erased h
  rw [claimRow, Table.find?_update]
  rw [claimRow] at hrow
  rw [hrow, Option.map_some, tombstoneRow, if_neg]
  simp [otherClaim, ClaimRow.idempotencyKey, RegistryAuthorityCommand.idempotencyKey]

theorem finalizePurge_writes {c : PurgeCommand} {at_ : Instant} {outcome : AuthorityOutcome}
    (h : d.finalizePurge c at_ = some (outcome, d')) (hrec : Recorded d (.purge c)) : Writes designs d d' := by
  unfold finalizePurge at h
  split at h
  · exact absurd h (by simp)
  · rename_i hfound
    have hrow := hrec.prepared hfound
    split at h
    · exact .single (markAuthorityRecovery_writes h hrow)
    · obtain ⟨erased, herased, h⟩ := Option.bind_eq_some_iff.1 h
      exact (Relation.ReflTransGen.single (.erase herased hrow)).tail
        (completeAuthority_writes h (claimRow_of_erase herased hrow))
  · obtain ⟨-, rfl⟩ := Prod.mk.inj (Option.some.inj h)
    exact .refl

theorem markRecoveryRequired_writes {outcome : AuthorityOutcome}
    (h : d.markRecoveryRequired command = some (outcome, d')) (hrec : Recorded d command) : Writes designs d d' := by
  unfold markRecoveryRequired at h
  split at h
  · exact absurd h (by simp)
  · rename_i hfound
    exact .single (markAuthorityRecovery_writes h (hrec.prepared hfound))
  · obtain ⟨-, rfl⟩ := Prod.mk.inj (Option.some.inj h)
    exact .refl

end Database

/-- The revision a request records a design at, if it does. -/
def Request.DesignsAt (d : Database) : Request → ℕ → Prop
  | .design context c now, n => d.DesignedAt context c now n
  | _, _ => False

open Database in
/-- **A transaction is a sequence of statements.** -/
theorem Request.writes {d d' : Database} {q : Request} {given : Option RegistryAuthorityCommand}
    (h : q.run d = some (given, d')) (hd : d.Ledger) (hrec : ∀ c ∈ q.intent, Recorded d c) :
    Writes (q.DesignsAt d) d d' := by
  cases q with
  | seed context c id now =>
    obtain ⟨⟨r, e⟩, hr, heq⟩ := Option.map_eq_some_iff.1 h
    obtain ⟨rfl, rfl⟩ := Prod.mk.inj heq
    exact seed_writes (toOption_eq_some hr)
  | design context c now =>
    obtain ⟨⟨r, e⟩, hr, heq⟩ := Option.map_eq_some_iff.1 h
    obtain ⟨rfl, rfl⟩ := Prod.mk.inj heq
    exact design_writes (toOption_eq_some hr)
  | resolveOrAdmit c =>
    obtain ⟨⟨outcome, e⟩, hr, heq⟩ := Option.map_eq_some_iff.1 h
    obtain ⟨rfl, rfl⟩ := Prod.mk.inj heq
    exact resolveOrAdmit_writes hr
  | finalizeCompleted c =>
    obtain ⟨⟨outcome, e⟩, hr, heq⟩ := Option.map_eq_some_iff.1 h
    obtain ⟨rfl, rfl⟩ := Prod.mk.inj heq
    exact finalizeCompleted_writes hr
  | finalizeRecoveryRequired i =>
    obtain ⟨⟨outcome, e⟩, hr, heq⟩ := Option.map_eq_some_iff.1 h
    obtain ⟨rfl, rfl⟩ := Prod.mk.inj heq
    exact finalizeRecoveryRequired_writes hr
  | resolveOrPrepare c now =>
    obtain ⟨⟨outcome, e⟩, hr, heq⟩ := Option.map_eq_some_iff.1 h
    obtain ⟨-, rfl⟩ := Prod.mk.inj heq
    exact resolveOrPrepare_writes hr
  | finalizeOperational c at_ =>
    obtain ⟨⟨outcome, e⟩, hr, heq⟩ := Option.map_eq_some_iff.1 h
    obtain ⟨rfl, rfl⟩ := Prod.mk.inj heq
    exact finalizeOperational_writes hr hd (hrec _ rfl)
  | completeExport c r =>
    obtain ⟨⟨outcome, e⟩, hr, heq⟩ := Option.map_eq_some_iff.1 h
    obtain ⟨rfl, rfl⟩ := Prod.mk.inj heq
    exact completeExport_writes hr (hrec _ rfl)
  | publishImport c s r =>
    obtain ⟨⟨outcome, e⟩, hr, heq⟩ := Option.map_eq_some_iff.1 h
    obtain ⟨rfl, rfl⟩ := Prod.mk.inj heq
    exact publishImport_writes hr (hrec _ rfl)
  | finalizePurge c at_ =>
    obtain ⟨⟨outcome, e⟩, hr, heq⟩ := Option.map_eq_some_iff.1 h
    obtain ⟨rfl, rfl⟩ := Prod.mk.inj heq
    exact finalizePurge_writes hr (hrec _ rfl)
  | markRecoveryRequired c =>
    obtain ⟨⟨outcome, e⟩, hr, heq⟩ := Option.map_eq_some_iff.1 h
    obtain ⟨rfl, rfl⟩ := Prod.mk.inj heq
    exact markRecoveryRequired_writes hr (hrec _ rfl)

end Registry

end Aipcs

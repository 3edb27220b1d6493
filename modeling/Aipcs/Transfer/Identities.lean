import Aipcs.Registry.Ledger

/-!
# Transfer — identities and services

An import reserves an identity, which is live once the service is
published. What is live or purged is never reserved again
(`Writes.settled`), and a service appears in the registry by a seed or by
the publication of an import (`Request.appears`).
-/

namespace Aipcs

namespace Registry

variable {d d' m : Database} {designs : ℕ → Prop}

/-- An identity that is not reserved for an import. -/
def IdentityState.settled : IdentityState → Bool
  | .importPrepared _ _ _ _ => false
  | _ => true

/-- The id has an identity, and no import has reserved it. -/
def Settled (d : Database) (id : Uuid) : Prop := ∃ i, d.identities.find? id = some i ∧ i.state.settled = true

namespace Database

/-- **What is settled stays so.** -/
theorem Write.settled (h : Write designs d d') {id : Uuid} (hid : Settled d id) : Settled d' id := by
  obtain ⟨i, hi, hstate⟩ := hid
  -- an identity that is written to is settled by it
  have hset : ∀ {row : IdentityRow} {state : IdentityState}, d.identities.find? row.serviceId = some row →
      state.settled = true → ∃ j, (d.identities.set { row with state }).find? id = some j ∧ j.state.settled = true := by
    intro row state hrow hsettled
    by_cases heq : id = row.serviceId
    · subst heq
      exact ⟨{ row with state }, Table.find?_set_self hrow, hsettled⟩
    · refine ⟨i, Eq.trans ?_ hi, hstate⟩
      exact Table.find?_set_of_ne heq
  cases h with
  | claim hinsert _ _ =>
    obtain ⟨claims, -, rfl⟩ := insertClaim_eq_inserted hinsert
    exact ⟨i, hi, hstate⟩
  | reserve _ hclaim hinsert =>
    obtain ⟨claims, -, rfl⟩ := insertClaim_eq_inserted hclaim
    exact ⟨i, find?_of_insert hinsert hi, hstate⟩
  | add hadd =>
    obtain ⟨services, identities, -, hidentities, rfl, -⟩ := add_eq_added hadd
    exact ⟨i, find?_of_insert hidentities hi, hstate⟩
  | save hsave _ _ =>
    obtain ⟨_, identity, -, -, -, hidentity, -, -, rfl⟩ := save_eq_saved hsave
    refine hset ?_ rfl
    rw [← hidentity]
    exact congrArg _ (Table.key_of_find? hidentity)
  | receipt hinsert _ =>
    obtain ⟨receipts, -, rfl⟩ := insertReceipt_eq_inserted hinsert
    exact ⟨i, hi, hstate⟩
  | publish hinsert hrow _ _ =>
    obtain ⟨services, -, rfl⟩ := insertService_eq_inserted hinsert
    refine hset ?_ rfl
    rw [← hrow]
    exact congrArg _ (Table.key_of_find? hrow)
  | erase herase _ =>
    obtain ⟨row, name, backend, hrow, -, -, -, rfl⟩ := erase_eq_erased herase
    refine hset ?_ rfl
    rw [← hrow]
    exact congrArg _ (Table.key_of_find? hrow)
  | ended hended _ _ =>
    obtain ⟨-, rfl⟩ := endClaim_eq_some hended
    exact ⟨i, hi, hstate⟩
  | endedLifecycle _ _ => exact ⟨i, hi, hstate⟩

theorem Writes.settled (h : Writes designs d d') {id : Uuid} (hid : Settled d id) : Settled d' id := by
  induction h with
  | refl => exact hid
  | tail _ hwrite ih => exact hwrite.settled ih

/-- The id of a service is settled. -/
theorem Ledger.settled (h : d.Ledger) {id : Uuid} {s : Service} (hs : d.services.find? id = some s) : Settled d id := by
  have hlive := h.identity s (Table.mem_of_find? hs)
  rw [Table.key_of_find? hs] at hlive
  exact ⟨_, hlive, rfl⟩

/-! ## Services that appear -/

/-- No service appears. -/
def NoneAppears (d d' : Database) : Prop := ∀ id, d.services.find? id = none → d'.services.find? id = none

theorem noneAppears_of_same (h : d'.services = d.services) : NoneAppears d d' := fun _ hid => h ▸ hid

theorem NoneAppears.trans (h : NoneAppears d m) (h' : NoneAppears m d') : NoneAppears d d' := fun id hid =>
  h' id (h id hid)

theorem noneAppears_of_set {s : Service} (h : d'.services = d.services.set s) : NoneAppears d d' := by
  intro id hid
  rw [h, Table.find?_eq_none]
  intro s' hs' hkey
  rcases Table.mem_set.1 hs' with ⟨rfl, row, hrow, hsame⟩ | ⟨hold, -⟩
  · exact absurd (hsame.trans hkey) (Table.find?_eq_none.1 hid row hrow)
  · exact Table.find?_eq_none.1 hid s' hold hkey

theorem Ends.noneAppears {command : RegistryAuthorityCommand} {phase : ClaimPhase AuthorityResult}
    (h : Ends d d' command phase) : NoneAppears d d' := by
  intro id hid
  by_cases heq : id = command.serviceId
  · subst heq
    rw [Option.eq_none_iff_forall_ne_some]
    intro u hu
    obtain ⟨s, hs, -⟩ := h.service u hu
    exact absurd (hid.symm.trans hs) (by simp)
  · rw [h.elsewhere id heq, hid]

theorem insertClaim_noneAppears {r : ClaimRow} (h : d.insertClaim r = some d') : NoneAppears d d' := by
  obtain ⟨claims, -, rfl⟩ := insertClaim_eq_inserted h
  exact noneAppears_of_same rfl

/-- A request's answer leaves the services. -/
theorem completed_services {kind : NonLifecycleKind} {context : ApplicationContext} {key : IdempotencyKey}
    {fingerprint : String} {s : Service} {r : ServiceMetadata}
    (h : d.completed kind context key fingerprint s = .ok (r, d')) : d'.services = d.services := by
  unfold completed at h
  split at h
  · rename_i left hleft
    unfold completeNonLifecycle at hleft
    split_ifs at hleft
    unfold respond at h
    split at h
    · obtain ⟨-, rfl⟩ := Prod.mk.inj (Except.ok.inj h)
      obtain ⟨claims, -, rfl⟩ := insertClaim_eq_inserted hleft
      rfl
    · exact absurd h (by simp)
  · exact absurd h (by simp)

theorem prepareImport_noneAppears {c : ImportCommand} {now : Instant} {outcome : AuthorityOutcome}
    (h : d.prepareImport c now = some (outcome, d')) : NoneAppears d d' := by
  unfold prepareImport at h
  split_ifs at h
  · obtain ⟨-, rfl⟩ := Prod.mk.inj (Option.some.inj h)
    exact noneAppears_of_same rfl
  · split at h
    · obtain ⟨-, rfl⟩ := Prod.mk.inj (Option.some.inj h)
      exact noneAppears_of_same rfl
    · obtain ⟨m, hm, h⟩ := Option.bind_eq_some_iff.1 h
      obtain ⟨identities, -, h⟩ := Option.bind_eq_some_iff.1 h
      obtain ⟨-, rfl⟩ := Prod.mk.inj (Option.some.inj h)
      exact (insertClaim_noneAppears hm).trans (noneAppears_of_same rfl)

theorem prepareService_noneAppears {command : RegistryAuthorityCommand} {outcome : AuthorityOutcome}
    (h : d.prepareService command = some (outcome, d')) : NoneAppears d d' := by
  rcases prepareService_admits h with ⟨rfl, -⟩ | ⟨rfl, -⟩
  · exact noneAppears_of_same rfl
  · exact insertClaim_noneAppears (prepareService_prepared h).2.1

/-- A seed may add the service that it makes. -/
theorem seed_appears {context : ApplicationContext} {c : SeedCommand} {newId id : Uuid} {now : Instant}
    {r : ServiceMetadata} {s : Service} (h : d.seed context c newId now = .ok (r, d'))
    (hnone : d.services.find? id = none) (hs : d'.services.find? id = some s) : s.designState = .seeded := by
  rcases replayed_eq_ok h with ⟨rfl, -⟩ | ⟨-, h⟩
  · exact absurd (hnone.symm.trans hs) (by simp)
  · split at h
    · rw [completed_services h] at hs
      exact absurd (hnone.symm.trans hs) (by simp)
    · split at h
      · exact absurd h (by simp)
      · rename_i added hadd
        obtain ⟨services, identities, hservices, -, rfl, -⟩ := add_eq_added hadd
        rw [completed_services h] at hs
        rcases (Table.mem_insert hservices).1 (Table.mem_of_find? hs) with rfl | hold
        · rfl
        · exact absurd (Table.key_of_find? hs) (Table.find?_eq_none.1 hnone s hold)

theorem markAuthorityRecovery_services {command : RegistryAuthorityCommand} {outcome : AuthorityOutcome}
    (h : m.markAuthorityRecovery command = some (outcome, d')) : d'.services = m.services := by
  obtain ⟨e, he, heq⟩ := Option.map_eq_some_iff.1 h
  obtain ⟨-, rfl⟩ := Prod.mk.inj heq
  obtain ⟨-, rfl⟩ := endClaim_eq_some he
  rfl

theorem completeAuthority_services {command : RegistryAuthorityCommand} {result : AuthorityResult}
    {outcome : AuthorityOutcome} (h : m.completeAuthority command result = some (outcome, d')) :
    d'.services = m.services := by
  obtain ⟨e, he, heq⟩ := Option.map_eq_some_iff.1 h
  obtain ⟨-, rfl⟩ := Prod.mk.inj heq
  obtain ⟨-, rfl⟩ := endClaim_eq_some he
  rfl

/-- A publication may add the service that it is given, where an import
has reserved the id. -/
theorem publishImport_appears {c : ImportCommand} {u s : Service} {r : TransferReceipt} {outcome : AuthorityOutcome}
    {id : Uuid} (h : d.publishImport c u r = some (outcome, d')) (hnone : d.services.find? id = none)
    (hs : d'.services.find? id = some s) : u = s ∧ ¬ Settled d id := by
  have hnever : d'.services ≠ d.services := fun heq => absurd (hnone.symm.trans (heq ▸ hs)) (by simp)
  unfold publishImport at h
  split at h
  · exact absurd h (by simp)
  · split_ifs at h
    · exact absurd (markAuthorityRecovery_services h) hnever
    · obtain ⟨inserted, hinserted, h⟩ := Option.bind_eq_some_iff.1 h
      obtain ⟨published, hpublished, h⟩ := Option.bind_eq_some_iff.1 h
      obtain ⟨received, hreceived, hended⟩ := Option.bind_eq_some_iff.1 h
      obtain ⟨row, domain, backend, at_, hrow, -, hstate, rfl⟩ := publishIdentity_eq_published hpublished
      have hservices : d'.services = inserted.services :=
        (completeAuthority_services hended).trans (insertReceipt_eq_some hreceived).2
      rw [hservices] at hs
      -- the service that appears is the one inserted
      have hid : id = u.serviceId := by
        by_contra hne
        rw [(insertService_eq_some hinserted).2.2 id hne] at hs
        exact absurd (hnone.symm.trans hs) (by simp)
      subst hid
      refine ⟨Option.some.inj ((find?_of_insertService hinserted).symm.trans hs), fun hsettled => ?_⟩
      obtain ⟨i, hi, hisettled⟩ := hsettled
      rw [(insertService_keeps hinserted).2.1] at hrow
      obtain rfl := Option.some.inj (hrow.symm.trans hi)
      rw [hstate] at hisettled
      exact absurd hisettled (by simp [IdentityState.settled])
  · obtain ⟨-, rfl⟩ := Prod.mk.inj (Option.some.inj h)
    exact absurd rfl hnever

end Database

open Database in
/-- **A service appears** by a seed, which makes it a seeded one, or by the
publication of an import. -/
theorem Request.appears {q : Registry.Request} {given : Option RegistryAuthorityCommand} (h : q.run d = some (given, d'))
    {id : Uuid} {s : Service} (hnone : d.services.find? id = none) (hs : d'.services.find? id = some s) :
    s.designState = .seeded ∨ ∃ c u r, q = .publishImport c u r := by
  have hnever : ∀ {m : Database}, NoneAppears d m → m ≠ d' := fun hm heq =>
    absurd ((hm id hnone).symm.trans (heq ▸ hs)) (by simp)
  cases q with
  | publishImport c u r => exact .inr ⟨c, u, r, rfl⟩
  | seed context c newId now =>
    obtain ⟨⟨r, e⟩, hr, heq⟩ := Option.map_eq_some_iff.1 h
    obtain ⟨rfl, rfl⟩ := Prod.mk.inj heq
    exact .inl (seed_appears (toOption_eq_some hr) hnone hs)
  | design context c now =>
    obtain ⟨⟨r, e⟩, hr, heq⟩ := Option.map_eq_some_iff.1 h
    obtain ⟨rfl, rfl⟩ := Prod.mk.inj heq
    rcases design_saved (toOption_eq_some hr) with ⟨rfl, -⟩ | ⟨-, u, m, s', -, -, hsave, hcompleted⟩
    · exact absurd rfl (hnever (noneAppears_of_same rfl))
    · obtain ⟨_, identity, -, -, -, -, -, -, rfl⟩ := save_eq_saved hsave
      exact absurd rfl (hnever ((noneAppears_of_set rfl).trans (noneAppears_of_same (completed_services hcompleted))))
  | resolveOrAdmit c =>
    obtain ⟨⟨outcome, e⟩, hr, heq⟩ := Option.map_eq_some_iff.1 h
    obtain ⟨rfl, rfl⟩ := Prod.mk.inj heq
    rcases resolveOrAdmit_cases hr with ⟨rfl, -⟩ | ⟨target, u, -, hinsert, -⟩
    · exact absurd rfl (hnever (noneAppears_of_same rfl))
    · exact absurd rfl (hnever (insertClaim_noneAppears hinsert))
  | finalizeCompleted c =>
    obtain ⟨⟨outcome, e⟩, hr, heq⟩ := Option.map_eq_some_iff.1 h
    obtain ⟨rfl, rfl⟩ := Prod.mk.inj heq
    rcases finalizeCompleted_cases hr with ⟨rfl, -⟩ | ⟨-, ⟨-, rfl⟩, -⟩ | ⟨u, -, hcompletes⟩
    · exact absurd rfl (hnever (noneAppears_of_same rfl))
    · exact absurd rfl (hnever (noneAppears_of_same rfl))
    · exact absurd rfl (hnever (noneAppears_of_set hcompletes.effect.2.2.1))
  | finalizeRecoveryRequired i =>
    obtain ⟨⟨outcome, e⟩, hr, heq⟩ := Option.map_eq_some_iff.1 h
    obtain ⟨rfl, rfl⟩ := Prod.mk.inj heq
    rcases finalizeRecoveryRequired_cases hr with rfl | ⟨-, -, rfl⟩
    · exact absurd rfl (hnever (noneAppears_of_same rfl))
    · exact absurd rfl (hnever (noneAppears_of_same rfl))
  | resolveOrPrepare c now =>
    obtain ⟨⟨outcome, e⟩, hr, heq⟩ := Option.map_eq_some_iff.1 h
    obtain ⟨-, rfl⟩ := Prod.mk.inj heq
    unfold Database.resolveOrPrepare at hr
    split at hr
    · obtain ⟨-, rfl⟩ := Prod.mk.inj (Option.some.inj hr)
      exact absurd rfl (hnever (noneAppears_of_same rfl))
    · split at hr
      · exact absurd rfl (hnever (prepareImport_noneAppears hr))
      · exact absurd rfl (hnever (prepareService_noneAppears hr))
  | finalizeOperational c at_ =>
    obtain ⟨⟨outcome, e⟩, hr, heq⟩ := Option.map_eq_some_iff.1 h
    obtain ⟨rfl, rfl⟩ := Prod.mk.inj heq
    rcases finalizeOperational_cases hr with rfl | ⟨phase, -, hends, -⟩
    · exact absurd rfl (hnever (noneAppears_of_same rfl))
    · exact absurd rfl (hnever hends.noneAppears)
  | completeExport c r =>
    obtain ⟨⟨outcome, e⟩, hr, heq⟩ := Option.map_eq_some_iff.1 h
    obtain ⟨rfl, rfl⟩ := Prod.mk.inj heq
    rcases completeExport_cases hr with rfl | ⟨phase, -, hends, -⟩
    · exact absurd rfl (hnever (noneAppears_of_same rfl))
    · exact absurd rfl (hnever hends.noneAppears)
  | finalizePurge c at_ =>
    obtain ⟨⟨outcome, e⟩, hr, heq⟩ := Option.map_eq_some_iff.1 h
    obtain ⟨rfl, rfl⟩ := Prod.mk.inj heq
    rcases finalizePurge_cases hr with rfl | ⟨phase, -, hends, -⟩
    · exact absurd rfl (hnever (noneAppears_of_same rfl))
    · exact absurd rfl (hnever hends.noneAppears)
  | markRecoveryRequired c =>
    obtain ⟨⟨outcome, e⟩, hr, heq⟩ := Option.map_eq_some_iff.1 h
    obtain ⟨rfl, rfl⟩ := Prod.mk.inj heq
    rcases markRecoveryRequired_cases hr with rfl | hends
    · exact absurd rfl (hnever (noneAppears_of_same rfl))
    · exact absurd rfl (hnever hends.noneAppears)

end Registry

end Aipcs

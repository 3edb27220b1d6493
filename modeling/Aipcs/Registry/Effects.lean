import Aipcs.Registry.UnitOfWork

/-!
# Registry — what an authority operation can do

One lemma for each operation says everything a proof needs of it. A
terminal operation leaves the registry alone or ends one prepared claim
(`Ends`); admission returns a stored prepared claim or records a new one
(`resolveOrPrepare_prepared`). No later proof unfolds an operation.
-/

namespace Aipcs

namespace Registry

namespace Database

variable {d d' : Database} {command stored : RegistryAuthorityCommand}
variable {phase : ClaimPhase AuthorityResult} {outcome : AuthorityOutcome}

/-- **The claim of a command is ended**: it was prepared and has now the
phase given, other claims are as they were or tombstones, and of the
services only the command's own is touched, which keeps its owner and
its design state if it stays at all. -/
structure Ends (d d' : Database) (command : RegistryAuthorityCommand)
    (phase : ClaimPhase AuthorityResult) : Prop where
  prepared : ∃ stored, d.claimRow command.key = some (.authority stored .prepared)
  ended : d'.claimRow command.key = some (.authority command phase)
  others : ∀ k, k ≠ command.key → d'.claimRow k = d.claimRow k ∨
    ∃ r t, d.claimRow k = some r ∧ r.operationKind ≠ .purge ∧ r.serviceId = command.serviceId ∧
      d'.claimRow k = some (.tombstoned t)
  elsewhere : ∀ id, id ≠ command.serviceId → d'.services.find? id = d.services.find? id
  service : ∀ u, d'.services.find? command.serviceId = some u →
    ∃ s, d.services.find? command.serviceId = some s ∧ u.principalId = s.principalId ∧
      u.designState = s.designState

/-! ## Single statements -/

/-- A replayed claim is the stored one. -/
theorem existingAuthorityClaim_prepared {row : ClaimRow}
    (h : existingAuthorityClaim row command = .prepared stored) :
    row = .authority stored .prepared ∧ stored.kind = command.kind ∧
      stored.fingerprint = command.fingerprint := by
  unfold existingAuthorityClaim at h
  by_cases hearly : row.operationKind ∈ earlierKinds
  · rw [if_pos hearly] at h
    exact absurd h (by simp)
  rw [if_neg hearly] at h
  match row, h with
  | .nonLifecycle _, h => exact absurd h (by simp)
  | .lifecycle _ _, h => exact absurd h (by simp)
  | .tombstoned t, h =>
    dsimp only at h
    split at h <;> exact absurd h (by simp)
  | .authority c phase, h =>
    dsimp only at h
    by_cases hdiff : c.kind ≠ command.kind ∨ c.fingerprint ≠ command.fingerprint
    · rw [if_pos hdiff] at h
      exact absurd h (by simp)
    rw [if_neg hdiff] at h
    obtain ⟨hkind, hprint⟩ := not_or.mp hdiff
    match phase, h with
    | .prepared, h =>
      obtain rfl := AuthorityOutcome.prepared.inj h
      exact ⟨rfl, not_not.mp hkind, not_not.mp hprint⟩
    | .recoveryRequired, h => exact absurd h (by simp)
    | .completed _, h => exact absurd h (by simp)

/-- The claim of a command, prepared, is replayed to the same command. -/
theorem existingAuthorityClaim_self (h : command.kind ∉ earlierKinds) :
    existingAuthorityClaim (.authority command .prepared) command = .prepared command := by
  have hrow : (ClaimRow.authority command .prepared).operationKind ∉ earlierKinds := h
  rw [existingAuthorityClaim, if_neg hrow, if_neg (by simp)]

/-- Its row is ended by the terminal update. -/
theorem endClaim_self (h : d.claimRow command.key = some (.authority command .prepared)) :
    d.endClaim command phase = some { d with claims := d.claims.set (.authority command phase) } := by
  rw [endClaim, h]
  dsimp only
  rw [if_pos rfl]

theorem authorityPreparedOrTerminal_prepared
    (h : d.authorityPreparedOrTerminal command = some (.prepared stored)) :
    d.claimRow command.key = some (.authority stored .prepared) := by
  unfold authorityPreparedOrTerminal at h
  cases hrow : d.claimRow command.key with
  | none =>
    rw [hrow] at h
    exact absurd h (by simp)
  | some row =>
    rw [hrow] at h
    dsimp only at h
    cases hclaim : existingAuthorityClaim row command with
    | prepared c =>
      rw [hclaim] at h
      obtain rfl := AuthorityOutcome.prepared.inj (Option.some.inj h)
      rw [(existingAuthorityClaim_prepared hclaim).1]
    | completed c r => rw [hclaim] at h; exact absurd h (by simp)
    | recoveryRequired i => rw [hclaim] at h; exact absurd h (by simp)
    | conflict => rw [hclaim] at h; exact absurd h (by simp)
    | staleRevision => rw [hclaim] at h; exact absurd h (by simp)
    | unsupportedTransition => rw [hclaim] at h; exact absurd h (by simp)
    | operationInProgress i => rw [hclaim] at h; exact absurd h (by simp)
    | identityCollision k => rw [hclaim] at h; exact absurd h (by simp)
    | tombstoned t => rw [hclaim] at h; exact absurd h (by simp)

theorem endClaim_eq_some (h : d.endClaim command phase = some d') :
    (∃ stored, d.claimRow command.key = some (.authority stored .prepared)) ∧
      d' = { d with claims := d.claims.set (.authority command phase) } := by
  unfold endClaim at h
  cases hrow : d.claimRow command.key with
  | none =>
    rw [hrow] at h
    exact absurd h (by simp)
  | some row =>
    rw [hrow] at h
    match row, h with
    | .nonLifecycle _, h => exact absurd h (by simp)
    | .lifecycle _ _, h => exact absurd h (by simp)
    | .tombstoned _, h => exact absurd h (by simp)
    | .authority _ (.completed _), h => exact absurd h (by simp)
    | .authority _ .recoveryRequired, h => exact absurd h (by simp)
    | .authority stored .prepared, h =>
      dsimp only at h
      by_cases hprint : stored.fingerprint = command.fingerprint
      · rw [if_pos hprint] at h
        exact ⟨⟨stored, rfl⟩, (Option.some.inj h).symm⟩
      · rw [if_neg hprint] at h
        exact absurd h (by simp)

/-- Ending a claim where nothing but the service's own row was touched before. -/
theorem ends_of_endClaim {m : Database} (h : m.endClaim command phase = some d')
    (hclaims : ∀ k, m.claimRow k = d.claimRow k ∨
      k ≠ command.key ∧ ∃ r t, d.claimRow k = some r ∧ r.operationKind ≠ .purge ∧
        r.serviceId = command.serviceId ∧ m.claimRow k = some (.tombstoned t))
    (helse : ∀ id, id ≠ command.serviceId → m.services.find? id = d.services.find? id)
    (hsame : ∀ u, m.services.find? command.serviceId = some u →
      ∃ s, d.services.find? command.serviceId = some s ∧ u.principalId = s.principalId ∧
        u.designState = s.designState) :
    Ends d d' command phase := by
  obtain ⟨⟨stored, hstored⟩, rfl⟩ := endClaim_eq_some h
  have hd : d.claimRow command.key = some (.authority stored .prepared) := by
    rcases hclaims command.key with heq | ⟨hne, -⟩
    · rw [← heq, hstored]
    · exact absurd rfl hne
  refine ⟨⟨stored, hd⟩, ?_, fun k hk => ?_, helse, hsame⟩
  · exact Table.find?_set_self (r := ClaimRow.authority command phase) hstored
  · have hset : (m.claims.set (.authority command phase)).find? k = m.claims.find? k :=
      Table.find?_set_of_ne (r := ClaimRow.authority command phase) hk
    change (m.claims.set (.authority command phase)).find? k = _ ∨ _
    rw [hset]
    rcases hclaims k with heq | ⟨-, r, t, hr, hkind, hid, ht⟩
    · exact .inl heq
    · refine .inr ⟨r, t, hr, hkind, hid, ?_⟩
      change (m.claims.set (.authority command phase)).find? k = _
      rw [hset]
      exact ht

/-- Ending a claim and nothing else. -/
theorem ends_alone (h : d.endClaim command phase = some d') : Ends d d' command phase :=
  ends_of_endClaim h (fun _ => .inl rfl) (fun _ _ => rfl) fun u hu => ⟨u, hu, rfl, rfl⟩

theorem markAuthorityRecovery_ends
    (h : d.markAuthorityRecovery command = some (outcome, d')) :
    Ends d d' command .recoveryRequired := by
  obtain ⟨e, he, heq⟩ := Option.map_eq_some_iff.mp h
  obtain ⟨-, rfl⟩ := Prod.mk.inj heq
  exact ends_alone he

/-- **`mark_recovery_required`** leaves the registry, or ends the claim so. -/
theorem markRecoveryRequired_cases (h : d.markRecoveryRequired command = some (outcome, d')) :
    d' = d ∨ Ends d d' command .recoveryRequired := by
  unfold markRecoveryRequired at h
  split at h
  · exact absurd h (by simp)
  · exact .inr (markAuthorityRecovery_ends h)
  · exact .inl (Prod.mk.inj (Option.some.inj h)).2.symm

/-! ## The status change -/

theorem updateLiveIdentity_eq_some {s : Service} (h : d.updateLiveIdentity s = some d') :
    d'.claims = d.claims ∧ d'.services = d.services := by
  unfold updateLiveIdentity at h
  split at h
  · split at h
    · split at h
      · obtain rfl := Option.some.inj h
        exact ⟨rfl, rfl⟩
      · exact absurd h (by simp)
    · exact absurd h (by simp)
  · exact absurd h (by simp)

/-- A save leaves the claims, and writes the service or nothing; it says
`saved` only after writing. -/
theorem save_cases {s : Service} {expected : ℕ} :
    (d.save s expected).1.claims = d.claims ∧
      ((d.save s expected).1.services = d.services ∧ (d.save s expected).2 ≠ some true ∨
        (d.save s expected).1.services = d.services.set s ∧
          ∃ row, d.service s.principalId s.serviceId = some row) := by
  unfold save
  by_cases hrev : ¬ (1 ≤ expected ∧ expected < 2 ^ 63 - 1) ∨ s.serviceRevision ≠ expected + 1
  · rw [if_pos hrev]
    exact ⟨rfl, .inl ⟨rfl, by simp⟩⟩
  rw [if_neg hrev]
  cases hrow : d.service s.principalId s.serviceId with
  | none => exact ⟨rfl, .inl ⟨rfl, by simp⟩⟩
  | some row =>
    dsimp only
    by_cases hexp : row.serviceRevision = expected
    · rw [if_pos hexp]
      cases hlive : ({ d with services := d.services.set s } : Database).updateLiveIdentity s with
      | none => exact ⟨rfl, .inr ⟨rfl, row, rfl⟩⟩
      | some saved =>
        obtain ⟨hclaims, hservices⟩ := updateLiveIdentity_eq_some hlive
        exact ⟨hclaims, .inr ⟨hservices, row, rfl⟩⟩
    · rw [if_neg hexp]
      exact ⟨rfl, .inl ⟨rfl, by simp⟩⟩

/-- The status change leaves the claims; it leaves the services too, or
writes the command's service with its target status, which it does
whenever it reports a service. -/
theorem applyOperational_cases {c : OperationalLifecycleCommand} {at_ : Instant} :
    (d.applyOperational c at_).1.claims = d.claims ∧
      ((d.applyOperational c at_).1.services = d.services ∧ (d.applyOperational c at_).2 = none ∨
        ∃ s u, d.services.find? c.serviceId = some s ∧ u.serviceId = c.serviceId ∧
          u.principalId = s.principalId ∧ u.designState = s.designState ∧
          u.operationalStatus = deterministicTargetStatus c.kind ∧
          (d.applyOperational c at_).1.services = d.services.set u) := by
  unfold applyOperational
  cases hrow : d.service c.principalId c.serviceId with
  | none => exact ⟨rfl, .inl ⟨rfl, rfl⟩⟩
  | some s =>
    dsimp only
    by_cases hstale : s.serviceRevision ≠ c.expectedServiceRevision.1 ∨ at_.before s.updatedAt
    · rw [if_pos hstale]
      exact ⟨rfl, .inl ⟨rfl, rfl⟩⟩
    rw [if_neg hstale]
    cases htarget : transitionTargetStatus c.kind s.designState s.operationalStatus with
    | none => exact ⟨rfl, .inl ⟨rfl, rfl⟩⟩
    | some target =>
      dsimp only
      cases hwith : s.withStatus target at_ with
      | none => exact ⟨rfl, .inl ⟨rfl, rfl⟩⟩
      | some terminal =>
        dsimp only
        obtain ⟨hfind, -⟩ := service_eq_some.mp hrow
        obtain ⟨hid, hprin, hstatus, hdesign, -, -⟩ := Service.withStatus_eq_some hwith
        obtain ⟨hclaims, hservices⟩ :=
          @save_cases d terminal c.expectedServiceRevision.1
        have hid' : terminal.serviceId = c.serviceId := hid.trans (Table.key_of_find? hfind)
        have hstatus' : terminal.operationalStatus = deterministicTargetStatus c.kind :=
          hstatus.trans (transitionTargetStatus_eq_some htarget).2
        generalize hsave : d.save terminal c.expectedServiceRevision.1 = saved at hclaims hservices
        -- a save that wrote the row but not the identity still leaves the row
        match saved, hclaims, hservices with
        | (saved, some true), hclaims, hservices =>
          refine ⟨hclaims, .inr ⟨s, terminal, hfind, hid', hprin, hdesign, hstatus', ?_⟩⟩
          rcases hservices with ⟨-, hne⟩ | ⟨hset, -⟩
          · exact absurd rfl hne
          · exact hset
        | (saved, some false), hclaims, hservices =>
          refine ⟨hclaims, ?_⟩
          rcases hservices with ⟨hsame, -⟩ | ⟨hset, -⟩
          · exact .inl ⟨hsame, rfl⟩
          · exact .inr ⟨s, terminal, hfind, hid', hprin, hdesign, hstatus', hset⟩
        | (saved, none), hclaims, hservices =>
          refine ⟨hclaims, ?_⟩
          rcases hservices with ⟨hsame, -⟩ | ⟨hset, -⟩
          · exact .inl ⟨hsame, rfl⟩
          · exact .inr ⟨s, terminal, hfind, hid', hprin, hdesign, hstatus', hset⟩

/-- **`finalize_operational`** leaves the registry, or ends the claim; a
claim it completes leaves the service in the target status. -/
theorem finalizeOperational_cases {c : OperationalLifecycleCommand} {at_ : Instant}
    (h : d.finalizeOperational c at_ = some (outcome, d')) :
    d' = d ∨ ∃ phase, phase ≠ .prepared ∧ Ends d d' (.operational c) phase ∧
      (phase = .recoveryRequired ∨ ∀ u, d'.services.find? c.serviceId = some u →
        u.operationalStatus = deterministicTargetStatus c.kind) := by
  unfold finalizeOperational at h
  cases hterm : d.authorityPreparedOrTerminal (.operational c) with
  | none =>
    rw [hterm] at h
    exact absurd h (by simp)
  | some existing =>
    rw [hterm] at h
    by_cases hprep : ∃ stored, existing = .prepared stored
    · obtain ⟨stored, rfl⟩ := hprep
      dsimp only at h
      obtain ⟨hclaims, hservices⟩ := @applyOperational_cases d c at_
      have hrows : ∀ k, (d.applyOperational c at_).1.claimRow k = d.claimRow k := fun k => by
        rw [claimRow, hclaims, claimRow]
      have helse : ∀ id, id ≠ c.serviceId →
          (d.applyOperational c at_).1.services.find? id = d.services.find? id := fun id hid => by
        rcases hservices with ⟨hsame, -⟩ | ⟨s, u, -, hu, -, -, -, hset⟩
        · rw [hsame]
        · rw [hset, Table.find?_set_of_ne (by rw [hu]; exact hid)]
      have hown : ∀ u, (d.applyOperational c at_).1.services.find? c.serviceId = some u →
          ∃ s, d.services.find? c.serviceId = some s ∧ u.principalId = s.principalId ∧
            u.designState = s.designState := fun v hv => by
        rcases hservices with ⟨hsame, -⟩ | ⟨s, u, hs, hu, hp, hd, -, hset⟩
        · rw [hsame] at hv
          exact ⟨v, hv, rfl, rfl⟩
        · rw [hset, ← hu, Table.find?_set_self (by rw [hu]; exact hs)] at hv
          obtain rfl := Option.some.inj hv
          exact ⟨s, hs, hp, hd⟩
      generalize happly : d.applyOperational c at_ = applied at h hclaims hservices hrows helse hown
      obtain ⟨m, terminal⟩ := applied
      cases terminal with
      | none =>
        obtain ⟨e, he, heq⟩ := Option.map_eq_some_iff.mp h
        obtain ⟨-, rfl⟩ := Prod.mk.inj heq
        exact .inr ⟨.recoveryRequired, by simp,
          ends_of_endClaim he (fun k => .inl (hrows k)) helse hown, .inl rfl⟩
      | some terminal =>
        obtain ⟨e, he, heq⟩ := Option.map_eq_some_iff.mp h
        obtain ⟨-, rfl⟩ := Prod.mk.inj heq
        refine .inr ⟨.completed (.service terminal), by simp,
          ends_of_endClaim he (fun k => .inl (hrows k)) helse hown, .inr fun u hu => ?_⟩
        rcases hservices with ⟨-, hnone⟩ | ⟨s, v, hs, hv, -, -, hstatus, hset⟩
        · exact absurd hnone (by simp)
        · have hfind : e.services.find? c.serviceId = some v := by
            rw [(endClaim_eq_some he).2, ← hv]
            dsimp only at hset ⊢
            rw [hset, Table.find?_set_self (by rw [hv]; exact hs)]
          rw [hfind] at hu
          rw [← Option.some.inj hu, hstatus]
    · refine .inl ?_
      cases existing with
      | prepared stored => exact absurd ⟨stored, rfl⟩ hprep
      | _ => exact (Prod.mk.inj (Option.some.inj h)).2.symm

/-! ## Export and purge -/

/-- **`complete_export`** leaves the registry, or ends the claim without
touching a service. -/
theorem completeExport_cases {c : ExportCommand} {r : TransferReceipt}
    (h : d.completeExport c r = some (outcome, d')) :
    d' = d ∨ ∃ phase, phase ≠ .prepared ∧ Ends d d' (.export_ c) phase ∧
      d'.services = d.services := by
  unfold completeExport at h
  split at h
  · exact absurd h (by simp)
  · split at h
    · obtain ⟨e, he, heq⟩ := Option.map_eq_some_iff.mp h
      obtain ⟨-, rfl⟩ := Prod.mk.inj heq
      refine .inr ⟨.recoveryRequired, by simp, ends_alone he, ?_⟩
      rw [(endClaim_eq_some he).2]
    · obtain ⟨m, hm, h⟩ := Option.bind_eq_some_iff.mp h
      obtain ⟨e, he, heq⟩ := Option.map_eq_some_iff.mp h
      obtain ⟨-, rfl⟩ := Prod.mk.inj heq
      have hsame : m.claims = d.claims ∧ m.services = d.services := by
        unfold insertReceipt at hm
        split at hm
        · exact absurd hm (by simp)
        · obtain ⟨receipts, -, rfl⟩ := Option.map_eq_some_iff.mp hm
          exact ⟨rfl, rfl⟩
      refine .inr ⟨.completed (.receipt r), by simp, ends_of_endClaim he (fun k => .inl ?_)
        (fun id _ => by rw [hsame.2]) (fun u hu => ⟨u, by rw [← hsame.2]; exact hu, rfl, rfl⟩), ?_⟩
      · rw [claimRow, hsame.1, claimRow]
      · rw [(endClaim_eq_some he).2]
        exact hsame.2
  · exact .inl (Prod.mk.inj (Option.some.inj h)).2.symm

/-- The erasure of a purge removes the command's service, makes other
claims of it tombstones, and does no more to claims and services. -/
theorem erase_eq_some {c : PurgeCommand} {at_ : Instant} {s : Service}
    (h : d.erase c at_ = some d') (hs : d.service c.principalId c.serviceId = some s) :
    (∀ k, d'.claimRow k = d.claimRow k ∨ k ≠ (c.principalId, c.idempotencyKey) ∧
      ∃ r t, d.claimRow k = some r ∧ r.operationKind ≠ .purge ∧ r.serviceId = c.serviceId ∧
        d'.claimRow k = some (.tombstoned t)) ∧
    (∀ id, id ≠ c.serviceId → d'.services.find? id = d.services.find? id) ∧
    d'.services.find? c.serviceId = none := by
  unfold erase at h
  split at h
  · exact absurd h (by simp)
  rename_i hpurge
  split at h
  · split at h
    · split at h
      · obtain rfl := Option.some.inj h
        refine ⟨fun k => ?_, fun id hid => ?_, ?_⟩
        · simp only [claimRow, Table.find?_update]
          cases hk : d.claims.find? k with
          | none => exact .inl rfl
          | some r =>
            simp only [Option.map_some]
            by_cases hother : otherClaim c r = true
            · have hkind : r.operationKind ≠ .purge := fun hkind => hpurge
                (List.any_eq_true.mpr ⟨r, Table.mem_of_find? hk, by simp [hother, hkind]⟩)
              have hid : r.serviceId = c.serviceId := by
                simp only [otherClaim, Bool.and_eq_true, decide_eq_true_eq] at hother
                exact hother.1.2
              refine .inr ⟨fun hkey => ?_, r, _, rfl, hkind, hid, by
                rw [tombstoneRow, if_pos hother, ClaimRow.tombstone, dif_pos hkind]
                rfl⟩
              -- the claim of the purge itself is not among the others
              have : r.key = (c.principalId, c.idempotencyKey) := (Table.key_of_find? hk).trans hkey
              rw [otherClaim, (Prod.mk.inj this).2] at hother
              simp at hother
            · rw [tombstoneRow, if_neg hother]
              exact .inl rfl
        · simp only [Table.find?_keep]
          cases hf : d.services.find? id with
          | none => rfl
          | some x =>
            rw [Option.filter_some]
            have hx : x.serviceId = id := Table.key_of_find? hf
            simp [hx, hid]
        · simp only [Table.find?_keep]
          obtain ⟨hf, hp⟩ := service_eq_some.mp hs
          rw [hf, Option.filter_some]
          have hx : s.serviceId = c.serviceId := Table.key_of_find? hf
          simp [hx, hp]
      · exact absurd h (by simp)
    · exact absurd h (by simp)
  · exact absurd h (by simp)

/-- **`finalize_purge`** leaves the registry, or ends the claim; a claim
it completes leaves no service. -/
theorem finalizePurge_cases {c : PurgeCommand} {at_ : Instant}
    (h : d.finalizePurge c at_ = some (outcome, d')) :
    d' = d ∨ ∃ phase, phase ≠ .prepared ∧ Ends d d' (.purge c) phase ∧
      (phase = .recoveryRequired ∨ d'.services.find? c.serviceId = none) := by
  unfold finalizePurge at h
  split at h
  · exact absurd h (by simp)
  · split at h
    · obtain ⟨e, he, heq⟩ := Option.map_eq_some_iff.mp h
      obtain ⟨-, rfl⟩ := Prod.mk.inj heq
      exact .inr ⟨.recoveryRequired, by simp, ends_alone he, .inl rfl⟩
    · rename_i s hs
      obtain ⟨m, hm, h⟩ := Option.bind_eq_some_iff.mp h
      obtain ⟨e, he, heq⟩ := Option.map_eq_some_iff.mp h
      obtain ⟨-, rfl⟩ := Prod.mk.inj heq
      obtain ⟨hclaims, helse, hgone⟩ := erase_eq_some hm (Option.filter_eq_some_iff.mp hs).1
      refine .inr ⟨_, by simp, ends_of_endClaim he hclaims helse
        (fun u hu => absurd (hgone.symm.trans hu) (by simp)), .inr ?_⟩
      rw [(endClaim_eq_some he).2]
      exact hgone
  · exact .inl (Prod.mk.inj (Option.some.inj h)).2.symm

/-! ## Admission -/

theorem insertClaim_eq_some {r : ClaimRow} (h : d.insertClaim r = some d') :
    d.claimRow r.key = none ∧ d'.claimRow r.key = some r ∧
      (∀ k, k ≠ r.key → d'.claimRow k = d.claimRow k) ∧ d'.services = d.services := by
  unfold insertClaim at h
  split at h
  · exact absurd h (by simp)
  · obtain ⟨claims, hclaims, rfl⟩ := Option.map_eq_some_iff.mp h
    exact ⟨(Table.insert_eq_some.mp hclaims).1, Table.find?_insert_self hclaims,
      fun k hk => Table.find?_insert_of_ne hclaims hk, rfl⟩

/-- Where nothing blocks a service, no pending claim is the service's. -/
theorem authorityBlocker_eq_none {principal : PrincipalId} {id : Uuid}
    (h : d.authorityBlocker principal id = none) {k : PrincipalId × IdempotencyKey} {r : ClaimRow}
    (hr : d.claimRow k = some r) : blocks principal id r = false := by
  by_contra hblocks
  rw [Bool.not_eq_false] at hblocks
  have hsome : (d.claims.rows.find? (blocks principal id)).isSome = true :=
    List.find?_isSome.mpr ⟨r, Table.mem_of_find? hr, hblocks⟩
  obtain ⟨x, hx⟩ := Option.isSome_iff_exists.mp hsome
  have hpending : x.pending = true := (blocks_iff.mp (List.find?_some hx)).2.2
  rw [authorityBlocker, hx] at h
  cases x with
  | nonLifecycle _ => exact absurd hpending (by simp [ClaimRow.pending])
  | tombstoned _ => exact absurd hpending (by simp [ClaimRow.pending])
  | lifecycle _ phase => cases phase <;> exact absurd h (by simp)
  | authority _ phase => cases phase <;> exact absurd h (by simp)

theorem authorityBlocker_ne_prepared {principal : PrincipalId} {id : Uuid}
    {blocker : AuthorityOutcome} (h : d.authorityBlocker principal id = some blocker) :
    blocker ≠ .prepared stored := by
  unfold authorityBlocker at h
  split at h
  · obtain rfl := Option.some.inj h
    simp
  · obtain rfl := Option.some.inj h
    simp
  · obtain rfl := Option.some.inj h
    simp
  · obtain rfl := Option.some.inj h
    simp
  · exact absurd h (by simp)

theorem prepareService_prepared (h : d.prepareService command = some (.prepared stored, d')) :
    stored = command ∧ d.insertClaim (.authority command .prepared) = some d' ∧
      ∃ s, d.service command.principalId command.serviceId = some s ∧
        d.supports command s = true ∧
        d.authorityBlocker command.principalId command.serviceId = none := by
  unfold prepareService at h
  split at h
  · rename_i s expected hs _
    by_cases hrev : s.serviceRevision ≠ expected.1
    · rw [if_pos hrev] at h
      exact absurd (Prod.mk.inj (Option.some.inj h)).1 (by simp)
    rw [if_neg hrev] at h
    cases hblock : d.authorityBlocker command.principalId command.serviceId with
    | some blocker =>
      rw [hblock] at h
      exact absurd (Prod.mk.inj (Option.some.inj h)).1 (authorityBlocker_ne_prepared hblock)
    | none =>
      rw [hblock] at h
      dsimp only at h
      by_cases hsup : d.supports command s = true
      · rw [if_pos hsup] at h
        obtain ⟨m, hm, heq⟩ := Option.map_eq_some_iff.mp h
        obtain ⟨hstored, rfl⟩ := Prod.mk.inj heq
        exact ⟨(AuthorityOutcome.prepared.inj hstored).symm, hm, s, hs, hsup, rfl⟩
      · rw [if_neg hsup] at h
        exact absurd (Prod.mk.inj (Option.some.inj h)).1 (by simp)
  · exact absurd (Prod.mk.inj (Option.some.inj h)).1 (by simp)

/-- **What admission can do** for a command that names a service: replay
the stored prepared claim and leave the registry, or record the command
as the service's one pending claim. -/
theorem resolveOrPrepare_prepared {now : Instant} (hkind : command.kind ≠ .import_)
    (h : d.resolveOrPrepare command now = some (.prepared stored, d')) :
    (d' = d ∧ d.claimRow command.key = some (.authority stored .prepared) ∧
        stored.kind = command.kind) ∨
      (stored = command ∧ d.insertClaim (.authority command .prepared) = some d' ∧
        ∃ s, d.service command.principalId command.serviceId = some s ∧
          d.supports command s = true ∧
          d.authorityBlocker command.principalId command.serviceId = none) := by
  unfold resolveOrPrepare at h
  cases hrow : d.claimRow command.key with
  | some row =>
    rw [hrow] at h
    obtain ⟨hout, rfl⟩ := Prod.mk.inj (Option.some.inj h)
    obtain ⟨rfl, hkind, -⟩ := existingAuthorityClaim_prepared hout
    exact .inl ⟨rfl, rfl, hkind⟩
  | none =>
    rw [hrow] at h
    cases command with
    | import_ c => exact absurd rfl hkind
    | operational c => exact .inr (prepareService_prepared h)
    | export_ c => exact .inr (prepareService_prepared h)
    | purge c => exact .inr (prepareService_prepared h)

/-- A prepared status change that can be applied is completed. -/
theorem finalizeOperational_of_prepared {c : OperationalLifecycleCommand} {at_ : Instant}
    {terminal : Service} (h : d.claimRow (RegistryAuthorityCommand.operational c).key =
      some (.authority (.operational c) .prepared))
    (happly : d.applyOperational c at_ = (d', some terminal)) (hclaims : d'.claims = d.claims) :
    d.finalizeOperational c at_ = some (.completed (.operational c) (.service terminal),
      { d' with claims := d.claims.set (.authority (.operational c)
        (.completed (.service terminal))) }) := by
  have hkind : (RegistryAuthorityCommand.operational c).kind ∉ earlierKinds := by
    change c.kind.operation ∉ earlierKinds
    cases c.kind <;> decide
  rw [finalizeOperational, authorityPreparedOrTerminal, h]
  dsimp only
  rw [existingAuthorityClaim_self hkind]
  dsimp only
  rw [happly]
  dsimp only
  rw [completeAuthority, endClaim_self (by rw [claimRow, hclaims]; exact h), hclaims]
  rfl

/-- A prepared claim is replayed to its own command, whatever came between. -/
theorem resolveOrPrepare_replay {now : Instant} (hkind : command.kind ∉ earlierKinds)
    (h : d.claimRow command.key = some (.authority command .prepared)) :
    d.resolveOrPrepare command now = some (.prepared command, d) := by
  unfold resolveOrPrepare
  rw [h]
  dsimp only
  rw [existingAuthorityClaim_self hkind]

end Database

end Registry

end Aipcs

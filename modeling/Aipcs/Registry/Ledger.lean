import Aipcs.Registry.Evolution

/-!
# Registry — the identity ledger

The ledger of identities and the table of services are written by
different statements, each with a guard of its own. `Write.ledger` says
that no statement parts them, and `Write.tombstoned` that none brings a
purged identity back; both hold of every run from an empty registry.
-/

namespace Aipcs

namespace Registry

open Relation (ReflTransGen)

namespace Database

variable {d d' m : Database} {designs : ℕ → Prop}

/-! ## What the statements insert -/

theorem insertClaim_eq_inserted {r : ClaimRow} (h : d.insertClaim r = some d') :
    ∃ claims, d.claims.insert r = some claims ∧ d' = { d with claims } := by
  unfold insertClaim at h
  split_ifs at h
  obtain ⟨claims, hclaims, rfl⟩ := Option.map_eq_some_iff.1 h
  exact ⟨claims, hclaims, rfl⟩

theorem insertReceipt_eq_inserted {r : ReceiptRow} (h : d.insertReceipt r = some d') :
    ∃ receipts, d.receipts.insert r = some receipts ∧ d' = { d with receipts } := by
  unfold insertReceipt at h
  split_ifs at h
  obtain ⟨receipts, hreceipts, rfl⟩ := Option.map_eq_some_iff.1 h
  exact ⟨receipts, hreceipts, rfl⟩

theorem insertService_eq_inserted {s : Service} (h : d.insertService s = some d') :
    ∃ services, d.services.insert s = some services ∧ d' = { d with services } := by
  unfold insertService at h
  split_ifs at h
  obtain ⟨services, hservices, rfl⟩ := Option.map_eq_some_iff.1 h
  exact ⟨services, hservices, rfl⟩

/-- An identity is inserted where its key is free and no other holds its domain name. -/
theorem insertIdentity_eq_inserted {i : IdentityRow} (h : d.insertIdentity i = some d') :
    ∃ identities, d.identities.insert i = some identities ∧ d' = { d with identities } ∧
      ∀ j ∈ d.identities.rows, j.principalId = i.principalId → i.state.domain.isSome = true →
        j.state.domain ≠ i.state.domain := by
  unfold insertIdentity at h
  split_ifs at h with hguard
  obtain ⟨identities, hidentities, rfl⟩ := Option.map_eq_some_iff.1 h
  refine ⟨identities, hidentities, rfl, fun j hj hprin hsome heq => hguard ?_⟩
  rw [hsome, Bool.true_and]
  exact List.any_eq_true.2 ⟨j, hj, by simp [hprin, heq]⟩

theorem add_eq_added {s : Service} (h : d.add s = some d') :
    ∃ services identities, d.services.insert s = some services ∧
      d.identities.insert ⟨s.serviceId, s.principalId, .live s.domainName s.storage⟩ = some identities ∧
      d' = { d with services, identities } ∧
      ∀ j ∈ d.identities.rows, j.principalId = s.principalId → j.state.domain ≠ some s.domainName := by
  obtain ⟨added, hadded, hidentity⟩ := Option.bind_eq_some_iff.1 h
  obtain ⟨services, hservices, rfl⟩ := insertService_eq_inserted hadded
  obtain ⟨identities, hidentities, rfl, hdomain⟩ := insertIdentity_eq_inserted hidentity
  exact ⟨services, identities, hservices, hidentities, rfl, fun j hj hprin => hdomain j hj hprin rfl⟩

/-- Nothing collides with an import whose id is new and whose domain name is not held. -/
theorem importCollision_eq_none {c : ImportCommand} (h : d.importCollision c = none) :
    d.identities.find? c.identity.serviceId = none ∧ ∀ j ∈ d.identities.rows,
      j.principalId = c.identity.principalId → j.state.domain ≠ some c.identity.domainName.1 := by
  unfold importCollision at h
  split at h
  · split at h <;> exact absurd h (by simp)
  · rename_i hfree
    split_ifs at h with hany
    refine ⟨hfree, fun j hj hprin hdomain => hany ?_⟩
    exact List.any_eq_true.2 ⟨j, hj, by simp [hprin, hdomain]⟩

/-- A prepared claim of a command is found by the command. -/
theorem authorityPreparedOrTerminal_self {command : RegistryAuthorityCommand} (hkind : command.kind ∉ earlierKinds)
    (h : d.claimRow command.key = some (.authority command .prepared)) :
    d.authorityPreparedOrTerminal command = some (.prepared command) := by
  rw [authorityPreparedOrTerminal, h]
  dsimp only
  rw [existingAuthorityClaim_self hkind]

/-! ## Identities -/

/-- The identity of a service is live under it alone. -/
theorem Ledger.live (h : d.Ledger) {id : Uuid} {s : Service} {i : IdentityRow}
    (hs : d.services.find? id = some s) (hi : d.identities.find? id = some i) :
    i = ⟨s.serviceId, s.principalId, .live s.domainName s.storage⟩ := by
  have hid : s.serviceId = id := Table.key_of_find? hs
  have hlive := h.identity s (Table.mem_of_find? hs)
  rw [hid, hi] at hlive
  rw [hid]
  exact Option.some.inj hlive

/-- Holders of a domain name, after one identity of it has been written. -/
theorem domain_of_set {i old : IdentityRow} (hd : d.Ledger) (hmem : old ∈ d.identities.rows)
    (hid : old.serviceId = i.serviceId) (hprin : i.principalId = old.principalId)
    (hdomain : i.state.domain = old.state.domain ∨ i.state.domain = none) :
    ∀ x ∈ (d.identities.set i).rows, ∀ y ∈ (d.identities.set i).rows, x.principalId = y.principalId →
      x.state.domain.isSome = true → x.state.domain = y.state.domain → x = y := by
  intro x hx y hy hxy hsome heq
  rw [Table.mem_set] at hx hy
  rcases hx with ⟨rfl, -⟩ | ⟨hx, hxid⟩ <;> rcases hy with ⟨rfl, -⟩ | ⟨hy, hyid⟩
  · rfl
  · rcases hdomain with hsame | hnone
    · have hone := hd.domain old hmem y hy (hprin.symm.trans hxy) (by rw [← hsame]; exact hsome) (hsame.symm.trans heq)
      exact absurd (hone ▸ hid) hyid
    · rw [hnone] at hsome
      exact absurd hsome (by simp)
  · rcases hdomain with hsame | hnone
    · have hone := hd.domain x hx old hmem (hxy.trans hprin) hsome (heq.trans hsame)
      exact absurd (hone ▸ hid) hxid
    · rw [heq, hnone] at hsome
      exact absurd hsome (by simp)
  · exact hd.domain x hx y hy hxy hsome heq

/-- Holders of a domain name, after one more. -/
theorem domain_of_insert {i : IdentityRow} {identities : Table IdentityRow.serviceId} (hd : d.Ledger)
    (hinsert : d.identities.insert i = some identities)
    (hfree : ∀ j ∈ d.identities.rows, j.principalId = i.principalId → j.state.domain ≠ i.state.domain) :
    ∀ x ∈ identities.rows, ∀ y ∈ identities.rows, x.principalId = y.principalId →
      x.state.domain.isSome = true → x.state.domain = y.state.domain → x = y := by
  intro x hx y hy hxy hsome heq
  rw [Table.mem_insert hinsert] at hx hy
  rcases hx with rfl | hx <;> rcases hy with rfl | hy
  · rfl
  · exact absurd heq.symm (hfree y hy hxy.symm)
  · exact absurd heq (hfree x hx hxy)
  · exact hd.domain x hx y hy hxy hsome heq

/-- A claim finds its identity after one more is known. -/
theorem find?_of_insert {i j : IdentityRow} {id : Uuid} {identities : Table IdentityRow.serviceId}
    (hinsert : d.identities.insert i = some identities) (hj : d.identities.find? id = some j) :
    identities.find? id = some j := by
  rw [Table.find?_insert_of_ne hinsert, hj]
  intro heq
  rw [heq, (Table.insert_eq_some.1 hinsert).1] at hj
  exact absurd hj (by simp)

/-! ## Statements -/

/-- Claims of known identities, none of them a tombstone's, may be written. -/
theorem Ledger.withClaims (h : d.Ledger) {claims : Table ClaimRow.key}
    (hclaims : ∀ r ∈ claims.rows, r ∈ d.claims.rows ∨
      (∃ s, d.service r.principalId r.serviceId = some s) ∨
      ∃ old ∈ d.claims.rows, r.key = old.key ∧ r.operationKind = old.operationKind ∧
        r.serviceId = old.serviceId ∧ ∀ t, old ≠ .tombstoned t) : ({ d with claims } : Database).Ledger := by
  refine ⟨h.identity, h.service, h.domain, h.receipt, fun r hr => ?_⟩
  rcases hclaims r hr with hold | ⟨s, hs⟩ | ⟨old, hold, hkey, hkind, hid, hclaim⟩
  · exact h.claim r hold
  · obtain ⟨hs, hprin⟩ := service_eq_some.1 hs
    have hlive := h.identity s (Table.mem_of_find? hs)
    rw [show s.serviceId = r.serviceId from Table.key_of_find? hs] at hlive
    exact ⟨_, hlive, hprin, fun _ _ hstate => absurd hstate (by simp)⟩
  · obtain ⟨i, hi, hprin, htomb⟩ := h.claim old hold
    obtain ⟨hp, hk⟩ := Prod.mk.inj hkey
    refine ⟨i, hid ▸ hi, hprin.trans hp.symm, fun key at_ hstate => ?_⟩
    rcases htomb key at_ hstate with ⟨hpurge, hown⟩ | ⟨t, ht⟩
    · exact .inl ⟨hkind.trans hpurge, hk.trans hown⟩
    · exact absurd ht (hclaim t)

theorem Ledger.of_insertClaim (h : d.Ledger) {r : ClaimRow} {s : Service} (hinsert : d.insertClaim r = some d')
    (hs : d.service r.principalId r.serviceId = some s) : d'.Ledger := by
  obtain ⟨claims, hclaims, rfl⟩ := insertClaim_eq_inserted hinsert
  refine h.withClaims fun x hx => ?_
  rcases (Table.mem_insert hclaims).1 hx with rfl | hx
  · exact .inr (.inl ⟨s, hs⟩)
  · exact .inl hx

/-- A claim that is not a tombstone, ended. -/
theorem Ledger.of_set (h : d.Ledger) {r old : ClaimRow} (hold : d.claimRow r.key = some old)
    (hkind : r.operationKind = old.operationKind) (hid : r.serviceId = old.serviceId)
    (hclaim : ∀ t, old ≠ .tombstoned t) : ({ d with claims := d.claims.set r } : Database).Ledger := by
  refine h.withClaims fun x hx => ?_
  rcases Table.mem_set.1 hx with ⟨rfl, -⟩ | ⟨hx, -⟩
  · exact .inr (.inr ⟨old, Table.mem_of_find? hold, (Table.key_of_find? hold).symm, hkind, hid, hclaim⟩)
  · exact .inl hx

theorem Ledger.of_reserve (h : d.Ledger) {c : ImportCommand} {now : Instant}
    {identities : Table IdentityRow.serviceId} (hfree : d.importCollision c = none)
    (hclaim : d.insertClaim (.authority (.import_ c) .prepared) = some m)
    (hinsert : m.identities.insert ⟨c.identity.serviceId, c.identity.principalId,
      .importPrepared c.identity.domainName.1 c.destinationBackend c.idempotencyKey now⟩ = some identities) :
    ({ m with identities } : Database).Ledger := by
  obtain ⟨claims, hclaims, rfl⟩ := insertClaim_eq_inserted hclaim
  obtain ⟨hid, hdomain⟩ := importCollision_eq_none hfree
  refine ⟨fun s hs => find?_of_insert hinsert (h.identity s hs), fun i hi name backend hstate => ?_,
    domain_of_insert h hinsert hdomain, h.receipt, fun r hr => ?_⟩
  · rcases (Table.mem_insert hinsert).1 hi with rfl | hi
    · exact absurd hstate (by simp)
    · exact h.service i hi name backend hstate
  · rcases (Table.mem_insert hclaims).1 hr with rfl | hr
    · exact ⟨_, Table.find?_insert_self hinsert, c.owned, fun _ _ hstate => absurd hstate (by simp)⟩
    · obtain ⟨i, hi, hrest⟩ := h.claim r hr
      exact ⟨i, find?_of_insert hinsert hi, hrest⟩

theorem Ledger.of_add (h : d.Ledger) {s : Service} (hadd : d.add s = some d') : d'.Ledger := by
  obtain ⟨services, identities, hservices, hidentities, rfl, hdomain⟩ := add_eq_added hadd
  refine ⟨fun x hx => ?_, fun i hi name backend hstate => ?_, domain_of_insert h hidentities hdomain,
    fun r hr => ?_, fun r hr => ?_⟩
  · rcases (Table.mem_insert hservices).1 hx with rfl | hx
    · exact Table.find?_insert_self hidentities
    · exact find?_of_insert hidentities (h.identity x hx)
  · rcases (Table.mem_insert hidentities).1 hi with rfl | hi
    · exact ⟨s, (Table.mem_insert hservices).2 (.inl rfl), rfl⟩
    · obtain ⟨x, hx, hid⟩ := h.service i hi name backend hstate
      exact ⟨x, (Table.mem_insert hservices).2 (.inr hx), hid⟩
  · obtain ⟨x, hx⟩ := h.receipt r hr
    obtain ⟨hx, hprin⟩ := service_eq_some.1 hx
    refine ⟨x, service_eq_some.2 ⟨?_, hprin⟩⟩
    rw [Table.find?_insert_of_ne hservices, hx]
    intro heq
    rw [heq, (Table.insert_eq_some.1 hservices).1] at hx
    exact absurd hx (by simp)
  · obtain ⟨i, hi, hrest⟩ := h.claim r hr
    exact ⟨i, find?_of_insert hidentities hi, hrest⟩

/-- A service and its live identity, written together. -/
theorem Ledger.of_save (h : d.Ledger) {s row : Service} {expected : ℕ}
    (hsave : d.save s expected = (d', some true)) (hrow : d.service s.principalId s.serviceId = some row)
    (hdomain : s.domainName = row.domainName) : d'.Ledger := by
  obtain ⟨_, identity, -, -, -, hidentity, hprin, -, rfl⟩ := save_eq_saved hsave
  obtain ⟨hfind, hrprin⟩ := service_eq_some.1 hrow
  obtain rfl := h.live hfind hidentity
  have hid : row.serviceId = s.serviceId := Table.key_of_find? hfind
  have hset : (d.identities.set ⟨row.serviceId, row.principalId, .live s.domainName s.storage⟩).find? row.serviceId =
      some ⟨row.serviceId, row.principalId, .live s.domainName s.storage⟩ :=
    Table.find?_set_self (h.identity row (Table.mem_of_find? hfind))
  have hne : ∀ {id}, id ≠ row.serviceId → (d.identities.set ⟨row.serviceId, row.principalId,
      .live s.domainName s.storage⟩).find? id = d.identities.find? id := fun hid' => Table.find?_set_of_ne hid'
  refine ⟨fun x hx => ?_, fun i hi name backend hstate => ?_,
    domain_of_set h (Table.mem_of_find? hidentity) rfl rfl (.inl (congrArg some hdomain)), fun r hr => ?_, fun r hr => ?_⟩
  · rcases Table.mem_set.1 hx with ⟨rfl, -⟩ | ⟨hx, hxid⟩
    · rw [← hid, ← hrprin]
      exact hset
    · exact (hne (hid ▸ hxid)).trans (h.identity x hx)
  · rcases Table.mem_set.1 hi with ⟨rfl, -⟩ | ⟨hi, hiid⟩
    · exact ⟨s, Table.mem_set.2 (.inl ⟨rfl, row, Table.mem_of_find? hfind, hid⟩), hid.symm⟩
    · obtain ⟨x, hx, hxid⟩ := h.service i hi name backend hstate
      refine ⟨x, Table.mem_set.2 (.inr ⟨hx, fun heq => hiid ?_⟩), hxid⟩
      exact hxid.symm.trans (heq.trans hid.symm)
  · obtain ⟨x, hx⟩ := h.receipt r hr
    obtain ⟨hx, hxprin⟩ := service_eq_some.1 hx
    by_cases heq : r.receipt.serviceId = s.serviceId
    · rw [heq, hfind] at hx
      obtain rfl := Option.some.inj hx
      refine ⟨s, service_eq_some.2 ⟨?_, hrprin.symm.trans hxprin⟩⟩
      rw [heq]
      exact Table.find?_set_self hfind
    · exact ⟨x, service_eq_some.2 ⟨(Table.find?_set_of_ne heq).trans hx, hxprin⟩⟩
  · obtain ⟨i, hi, hiprin, htomb⟩ := h.claim r hr
    by_cases heq : r.serviceId = row.serviceId
    · rw [heq, hid, hidentity] at hi
      obtain rfl := Option.some.inj hi
      exact ⟨⟨row.serviceId, row.principalId, .live s.domainName s.storage⟩, by rw [heq]; exact hset, hiprin,
        fun _ _ hstate => absurd hstate (by simp)⟩
    · exact ⟨i, (hne heq).trans hi, hiprin, htomb⟩

theorem Ledger.of_receipt (h : d.Ledger) {r : ReceiptRow} {s : Service} (hinsert : d.insertReceipt r = some d')
    (hs : d.service r.receipt.principalId r.receipt.serviceId = some s) : d'.Ledger := by
  obtain ⟨receipts, hreceipts, rfl⟩ := insertReceipt_eq_inserted hinsert
  refine ⟨h.identity, h.service, h.domain, fun x hx => ?_, h.claim⟩
  rcases (Table.mem_insert hreceipts).1 hx with rfl | hx
  · exact ⟨s, hs⟩
  · exact h.receipt x hx

/-- A reserved identity made live with its service. -/
theorem Ledger.of_publish (h : d.Ledger) {s : Service} {row : IdentityRow} {backend : StorageBackend}
    {key : IdempotencyKey} {at_ : Instant} (hinsert : d.insertService s = some m)
    (hrow : m.identities.find? s.serviceId = some row) (hprin : row.principalId = s.principalId)
    (hstate : row.state = .importPrepared s.domainName backend key at_) :
    ({ m with identities := m.identities.set { row with state := .live s.domainName s.storage } } :
      Database).Ledger := by
  obtain ⟨services, hservices, rfl⟩ := insertService_eq_inserted hinsert
  have hid : row.serviceId = s.serviceId := Table.key_of_find? hrow
  have hset : (d.identities.set { row with state := .live s.domainName s.storage }).find? row.serviceId =
      some { row with state := .live s.domainName s.storage } := Table.find?_set_self (by exact hid ▸ hrow)
  have hne : ∀ {id}, id ≠ row.serviceId → (d.identities.set { row with
      state := .live s.domainName s.storage }).find? id = d.identities.find? id := fun hid' => Table.find?_set_of_ne hid'
  -- no service has a reserved identity
  have hfresh : ∀ x ∈ d.services.rows, x.serviceId ≠ row.serviceId := fun x hx heq => by
    have hlive := h.identity x hx
    rw [heq, hid, hrow] at hlive
    rw [Option.some.inj hlive] at hstate
    exact absurd hstate (by simp)
  refine ⟨fun x hx => ?_, fun i hi name b hlive => ?_,
    domain_of_set (d := d) h (Table.mem_of_find? hrow) rfl rfl (.inl (by rw [hstate]; rfl)), fun r hr => ?_, fun r hr => ?_⟩
  · rcases (Table.mem_insert hservices).1 hx with rfl | hx
    · rw [← hid, ← hprin]
      exact hset
    · exact (hne (hfresh x hx)).trans (h.identity x hx)
  · rcases Table.mem_set.1 hi with ⟨rfl, -⟩ | ⟨hi, -⟩
    · exact ⟨s, (Table.mem_insert hservices).2 (.inl rfl), hid.symm⟩
    · obtain ⟨x, hx, hxid⟩ := h.service i hi name b hlive
      exact ⟨x, (Table.mem_insert hservices).2 (.inr hx), hxid⟩
  · obtain ⟨x, hx⟩ := h.receipt r hr
    obtain ⟨hx, hxprin⟩ := service_eq_some.1 hx
    refine ⟨x, service_eq_some.2 ⟨?_, hxprin⟩⟩
    rw [Table.find?_insert_of_ne hservices, hx]
    intro heq
    exact hfresh x (Table.mem_of_find? hx) ((Table.key_of_find? hx).trans (heq.trans hid.symm))
  · obtain ⟨i, hi, hiprin, htomb⟩ := h.claim r hr
    by_cases heq : r.serviceId = row.serviceId
    · rw [heq, hid, hrow] at hi
      obtain rfl := Option.some.inj hi
      exact ⟨{ row with state := .live s.domainName s.storage }, by rw [heq]; exact hset, hiprin,
        fun _ _ hlive => absurd hlive (by simp)⟩
    · exact ⟨i, (hne heq).trans hi, hiprin, htomb⟩

/-- A service and all that is its, erased. -/
theorem Ledger.of_erase (h : d.Ledger) {c : PurgeCommand} {at_ : Instant} (herase : d.erase c at_ = some d')
    (hclaim : d.claimRow (RegistryAuthorityCommand.purge c).key = some (.authority (.purge c) .prepared)) :
    d'.Ledger := by
  obtain ⟨row, name, backend, hrow, hstate, hprin, hkinds, rfl⟩ := erase_eq_erased herase
  have hid : row.serviceId = c.serviceId := Table.key_of_find? hrow
  have hset : (d.identities.set { row with state := .tombstoned c.idempotencyKey at_ }).find? row.serviceId =
      some { row with state := .tombstoned c.idempotencyKey at_ } := Table.find?_set_self (by exact hid ▸ hrow)
  have hne : ∀ {id}, id ≠ row.serviceId → (d.identities.set { row with
      state := .tombstoned c.idempotencyKey at_ }).find? id = d.identities.find? id := fun hid' =>
    Table.find?_set_of_ne hid'
  -- a service of the identity is its owner's, and so erased
  have hgone : ∀ x ∈ d.services.rows, x.serviceId = row.serviceId → x.principalId = c.principalId := fun x hx heq => by
    have hlive := h.identity x hx
    rw [heq, hid, hrow] at hlive
    rw [← hprin, Option.some.inj hlive]
  refine ⟨fun x hx => ?_, fun i hi n b hlive => ?_, domain_of_set h (Table.mem_of_find? hrow) rfl rfl (.inr rfl), fun r hr => ?_,
    fun r hr => ?_⟩
  · obtain ⟨hx, hkeep⟩ := Table.mem_keep.1 hx
    refine (hne fun heq => ?_).trans (h.identity x hx)
    simp [hgone x hx heq, heq.trans hid] at hkeep
  · rcases Table.mem_set.1 hi with ⟨rfl, -⟩ | ⟨hi, hiid⟩
    · exact absurd hlive (by simp)
    · obtain ⟨x, hx, hxid⟩ := h.service i hi n b hlive
      have hother : x.serviceId ≠ c.serviceId := fun heq => hiid (hxid.symm.trans (heq.trans hid.symm))
      exact ⟨x, Table.mem_keep.2 ⟨hx, by simp [hother]⟩, hxid⟩
  · obtain ⟨hr, hkeep⟩ := Table.mem_keep.1 hr
    obtain ⟨x, hx⟩ := h.receipt r hr
    obtain ⟨hx, hxprin⟩ := service_eq_some.1 hx
    have hxid : x.serviceId = r.receipt.serviceId := Table.key_of_find? hx
    refine ⟨x, service_eq_some.2 ⟨?_, hxprin⟩⟩
    rw [Table.find?_keep, hx, Option.filter_some, hxprin, hxid, if_pos hkeep]
  · obtain ⟨old, hold, rfl⟩ := List.mem_map.1 hr
    obtain ⟨i, hi, hiprin, htomb⟩ := h.claim old hold
    by_cases heq : old.serviceId = row.serviceId
    · rw [heq, hid, hrow] at hi
      obtain rfl := Option.some.inj hi
      by_cases hother : otherClaim c old = true
      · obtain ⟨t, ht⟩ : ∃ t, old.tombstone = some (.tombstoned t) :=
          ⟨_, dif_pos (hkinds old hold hother)⟩
        obtain ⟨_, hsame, -, hp, -, -, hs⟩ := ClaimRow.tombstone_eq_some ht
        obtain rfl := ClaimRow.tombstoned.inj hsame
        rw [tombstoneRow, if_pos hother, ht, Option.getD_some]
        refine ⟨{ row with state := .tombstoned c.idempotencyKey at_ }, ?_, hiprin.trans hp.symm,
          fun _ _ _ => .inr ⟨t, rfl⟩⟩
        rw [show (ClaimRow.tombstoned t).serviceId = row.serviceId from hs.trans heq]
        exact hset
      · -- the one claim of the service that stays is the purge's own
        have hkey : old.idempotencyKey = c.idempotencyKey := by
          by_contra hne'
          exact hother (by simp [otherClaim, ← hiprin, hprin, heq.trans hid, hne'])
        have hpurge : old = .authority (.purge c) .prepared :=
          Table.eq_of_key hold (Table.mem_of_find? hclaim)
            ((Prod.ext (hiprin.symm.trans hprin) hkey).trans (Table.key_of_find? hclaim).symm)
        rw [tombstoneRow, if_neg hother]
        refine ⟨{ row with state := .tombstoned c.idempotencyKey at_ }, by rw [heq]; exact hset, hiprin,
          fun key _ hdead => .inl ⟨by rw [hpurge]; rfl, ?_⟩⟩
        exact hkey.trans (IdentityState.tombstoned.inj hdead).1
    · have hother : otherClaim c old = false := by
        by_contra hother
        rw [Bool.not_eq_false] at hother
        simp only [otherClaim, Bool.and_eq_true, decide_eq_true_eq] at hother
        exact heq (hother.1.2.trans hid.symm)
      rw [tombstoneRow, if_neg (by simp [hother])]
      exact ⟨i, (hne heq).trans hi, hiprin, htomb⟩

/-- **No statement parts the ledger from the services.** -/
theorem Write.ledger (h : Write designs d d') (hd : d.Ledger) : d'.Ledger := by
  cases h with
  | claim hinsert _ hs => exact hd.of_insertClaim hinsert hs
  | reserve hfree hclaim hinsert => exact hd.of_reserve hfree hclaim hinsert
  | add hadd => exact hd.of_add hadd
  | save hsave hrow hdomain => exact hd.of_save hsave hrow hdomain
  | receipt hinsert hs => exact hd.of_receipt hinsert hs
  | publish hinsert hrow hprin hstate => exact hd.of_publish hinsert hrow hprin hstate
  | erase herase hclaim => exact hd.of_erase herase hclaim
  | ended hended _ hrow =>
    obtain ⟨-, rfl⟩ := endClaim_eq_some hended
    exact Ledger.of_set (r := .authority _ _) hd hrow rfl rfl (by simp)
  | endedLifecycle _ hrow => exact Ledger.of_set (r := .lifecycle _ _) hd hrow rfl rfl (by simp)

/-- **No statement brings a purged identity back.** -/
theorem Write.tombstoned (h : Write designs d d') {id : Uuid} {i : IdentityRow} {key : IdempotencyKey} {at_ : Instant}
    (hi : d.identities.find? id = some i) (hstate : i.state = .tombstoned key at_) :
    d'.identities.find? id = some i := by
  -- an identity that is written to is not in this state
  have hset : ∀ {row : IdentityRow} {state : IdentityState}, d.identities.find? row.serviceId = some row →
      row.state ≠ .tombstoned key at_ → (d.identities.set { row with state }).find? id = some i := by
    intro row state hrow hne
    refine (Table.find?_set_of_ne fun heq => hne ?_).trans hi
    rw [heq] at hi
    obtain rfl := Option.some.inj (hrow.symm.trans hi)
    exact hstate
  cases h with
  | claim hinsert _ _ =>
    obtain ⟨claims, -, rfl⟩ := insertClaim_eq_inserted hinsert
    exact hi
  | reserve _ hclaim hinsert =>
    obtain ⟨claims, -, rfl⟩ := insertClaim_eq_inserted hclaim
    exact find?_of_insert hinsert hi
  | add hadd =>
    obtain ⟨services, identities, -, hidentities, rfl, -⟩ := add_eq_added hadd
    exact find?_of_insert hidentities hi
  | save hsave _ _ =>
    obtain ⟨_, identity, -, -, -, hidentity, -, ⟨name, storage, hlive⟩, rfl⟩ := save_eq_saved hsave
    refine hset ?_ (by rw [hlive]; simp)
    rw [← hidentity]
    exact congrArg _ (Table.key_of_find? hidentity)
  | receipt hinsert _ =>
    obtain ⟨receipts, -, rfl⟩ := insertReceipt_eq_inserted hinsert
    exact hi
  | publish hinsert hrow _ hprepared =>
    obtain ⟨services, -, rfl⟩ := insertService_eq_inserted hinsert
    refine hset ?_ (by rw [hprepared]; simp)
    rw [← hrow]
    exact congrArg _ (Table.key_of_find? hrow)
  | erase herase _ =>
    obtain ⟨row, name, backend, hrow, hlive, -, -, rfl⟩ := erase_eq_erased herase
    refine hset ?_ (by rw [hlive]; simp)
    rw [← hrow]
    exact congrArg _ (Table.key_of_find? hrow)
  | ended hended _ _ =>
    obtain ⟨-, rfl⟩ := endClaim_eq_some hended
    exact hi
  | endedLifecycle _ _ => exact hi

/-! ## Transactions -/

/-- What every transaction keeps. -/
structure Consistent (d : Database) : Prop where
  ledger : d.Ledger
  single : d.OnePending
  sound : d.Sound fun _ => True

theorem Writes.consistent (h : Writes designs d d') (hd : d.Consistent) : d'.Consistent := by
  induction h with
  | refl => exact hd
  | tail _ hwrite ih =>
    exact ⟨hwrite.ledger ih.ledger, hwrite.onePending ih.single, hwrite.sound (fun _ _ => trivial) ih.single ih.sound⟩

theorem Write.mono {designs' : ℕ → Prop} (h : Write designs d d') (hmono : ∀ n, designs n → designs' n) :
    Write designs' d d' := by
  cases h with
  | claim hinsert hopens hs => exact .claim hinsert (hopens.mono hmono) hs
  | reserve hfree hclaim hinsert => exact .reserve hfree hclaim hinsert
  | add hadd => exact .add hadd
  | save hsave hrow hdomain => exact .save hsave hrow hdomain
  | receipt hinsert hs => exact .receipt hinsert hs
  | publish hinsert hrow hprin hstate => exact .publish hinsert hrow hprin hstate
  | erase herase hclaim => exact .erase herase hclaim
  | ended hended hphase hrow => exact .ended hended hphase hrow
  | endedLifecycle hphase hrow => exact .endedLifecycle hphase hrow

theorem Writes.mono {designs' : ℕ → Prop} (h : Writes designs d d') (hmono : ∀ n, designs n → designs' n) :
    Writes designs' d d' := by
  induction h with
  | refl => exact .refl
  | tail _ hwrite ih => exact ih.tail (hwrite.mono hmono)

/-- Designs stay recorded at revisions they were carried out at. -/
theorem Writes.sound {designs' : ℕ → Prop} (h : Writes designs d d') (hmono : ∀ n, designs n → designs' n)
    (hd : d.Consistent) (hsound : d.Sound designs') : d'.Sound designs' := by
  induction h with
  | refl => exact hsound
  | tail hwrites hwrite ih => exact hwrite.sound hmono (Writes.consistent hwrites hd).single ih

theorem Writes.recorded {command : RegistryAuthorityCommand} (h : Writes designs d d') (hd : d.Consistent)
    (hrec : Recorded d command) : Recorded d' command := by
  induction h with
  | refl => exact hrec
  | tail hwrites hwrite ih => exact hwrite.recorded (Writes.consistent hwrites hd).single ih

theorem Writes.tombstoned (h : Writes designs d d') {id : Uuid} {i : IdentityRow} {key : IdempotencyKey} {at_ : Instant}
    (hi : d.identities.find? id = some i) (hstate : i.state = .tombstoned key at_) :
    d'.identities.find? id = some i := by
  induction h with
  | refl => exact hi
  | tail _ hwrite ih => exact hwrite.tombstoned ih hstate

theorem Writes.evolved (h : Writes designs d d') (hd : d.Consistent) {k : PrincipalId × IdempotencyKey} {r : ClaimRow}
    (hr : d.claimRow k = some r) : ∃ s, d'.claimRow k = some s ∧ r.Evolved s := by
  induction h with
  | refl => exact ⟨r, hr, .refl⟩
  | tail hwrites hwrite ih =>
    obtain ⟨s, hs, hmove⟩ := ih
    obtain ⟨t, ht, hnext⟩ := hwrite.evolved (Writes.consistent hwrites hd).single hs
    exact ⟨t, ht, hmove.trans hnext⟩

/-- The tables as they are created. -/
def fresh : Database := ⟨.empty, .empty, .empty, .empty⟩

theorem fresh_consistent : fresh.Consistent :=
  ⟨⟨fun _ h => absurd h List.not_mem_nil, fun _ h => absurd h List.not_mem_nil, fun _ h => absurd h List.not_mem_nil,
    fun _ h => absurd h List.not_mem_nil, fun _ h => absurd h List.not_mem_nil⟩,
    fun _ h => absurd h List.not_mem_nil, fun _ h => absurd h List.not_mem_nil⟩

/-- Where the ledger has a live identity there is its service, and conversely. -/
theorem Ledger.service_iff (h : d.Ledger) {id : Uuid} {principal : PrincipalId} {name : String}
    {backend : Option StorageBackend} : (∃ s, d.services.find? id = some s ∧ s.principalId = principal ∧
      s.domainName = name ∧ s.storage = backend) ↔
        d.identities.find? id = some ⟨id, principal, .live name backend⟩ := by
  constructor
  · rintro ⟨s, hs, rfl, rfl, rfl⟩
    rw [← show s.serviceId = id from Table.key_of_find? hs]
    exact h.identity s (Table.mem_of_find? hs)
  · intro hi
    obtain ⟨s, hs, hid⟩ := h.service _ (Table.mem_of_find? hi) name backend rfl
    have hfind : d.services.find? id = some s := by
      rw [← show s.serviceId = id from hid]
      exact Table.find?_of_mem hs
    have hlive := h.live hfind hi
    simp only [IdentityRow.mk.injEq, IdentityState.live.injEq] at hlive
    exact ⟨s, hfind, hlive.2.1.symm, hlive.2.2.1.symm, hlive.2.2.2.symm⟩

/-- Under a tombstone there is no service and no receipt, and of the
claims none but the purge's own has anything left to say. -/
theorem Ledger.purged (h : d.Ledger) {i : IdentityRow} {key : IdempotencyKey} {at_ : Instant}
    (hi : i ∈ d.identities.rows) (hstate : i.state = .tombstoned key at_) :
    d.services.find? i.serviceId = none ∧ (∀ r ∈ d.receipts.rows, r.receipt.serviceId ≠ i.serviceId) ∧
      ∀ r ∈ d.claims.rows, r.serviceId = i.serviceId →
        r.operationKind = .purge ∧ r.key = (i.principalId, key) ∨ ∃ t, r = .tombstoned t := by
  have hfind := Table.find?_of_mem hi
  have hnone : d.services.find? i.serviceId = none := by
    by_contra hsome
    obtain ⟨s, hs⟩ := Option.ne_none_iff_exists'.1 hsome
    rw [h.live hs hfind] at hstate
    exact absurd hstate (by simp)
  refine ⟨hnone, fun r hr heq => ?_, fun r hr heq => ?_⟩
  · obtain ⟨s, hs⟩ := h.receipt r hr
    rw [service_eq_some, heq, hnone] at hs
    exact absurd hs.1 (by simp)
  · obtain ⟨j, hj, hprin, htomb⟩ := h.claim r hr
    rw [heq, hfind] at hj
    obtain rfl := Option.some.inj hj
    rcases htomb key at_ hstate with ⟨hpurge, hkey⟩ | hdead
    · exact .inl ⟨hpurge, Prod.ext hprin.symm hkey⟩
    · exact .inr hdead

end Database

/-! ## Runs -/

open Database

/-- Clients at work on a registry that was empty. -/
def registryRuns : System Clients Request where
  init w := w.database = fresh ∧ w.held = []
  step := requests.step

/-- Some transactions on. -/
abbrev Later : Clients → Clients → Prop := ReflTransGen fun w w' => ∃ q, requests.step w q w'

/-- A transaction of clients that hold what it takes. -/
theorem Request.step_of_run {d d' : Database} {held : List RegistryAuthorityCommand} {q : Request}
    {given : Option RegistryAuthorityCommand} (h : q.run d = some (given, d')) (hheld : ∀ c ∈ q.intent, c ∈ held) :
    requests.step ⟨d, held⟩ q ⟨d', given.toList ++ held⟩ :=
  ⟨hheld, given, h, rfl⟩

/-- What holds of the registry and its clients in every run. -/
structure Clients.Consistent (w : Clients) : Prop where
  database : w.database.Consistent
  recorded : ∀ c ∈ w.held, w.database.Recorded c

/-- An intent that is handed out is on record. -/
theorem Request.recorded {d d' : Database} {q : Request} {given : Option RegistryAuthorityCommand}
    (h : q.run d = some (given, d')) {c : RegistryAuthorityCommand} (hc : c ∈ given) : d'.Recorded c := by
  cases q with
  | resolveOrPrepare x now =>
    obtain ⟨⟨outcome, e⟩, hr, heq⟩ := Option.map_eq_some_iff.1 h
    obtain ⟨rfl, rfl⟩ := Prod.mk.inj heq
    cases outcome with
    | prepared y =>
      obtain rfl := Option.some.inj hc
      exact (resolveOrPrepare_admits hr).recorded
    | _ => exact absurd hc (by simp [handed])
  | _ =>
    obtain ⟨_, -, heq⟩ := Option.map_eq_some_iff.1 h
    rw [← (Prod.mk.inj heq).1] at hc
    exact absurd hc (by simp)

/-- The statements of one transaction of a client. -/
theorem Clients.Consistent.writes {w w' : Clients} {q : Request} (hw : w.Consistent)
    (hstep : requests.step w q w') : Writes (q.DesignsAt w.database) w.database w'.database := by
  obtain ⟨hheld, given, hrun, -⟩ := hstep
  exact Request.writes hrun hw.database.ledger fun c hc => hw.recorded c (hheld c hc)

theorem Clients.Consistent.step {w w' : Clients} {q : Request} (hw : w.Consistent)
    (hstep : requests.step w q w') : w'.Consistent := by
  have hwrites := hw.writes hstep
  obtain ⟨-, given, hrun, hheld⟩ := hstep
  refine ⟨hwrites.consistent hw.database, fun c hc => ?_⟩
  rw [hheld, List.mem_append, Option.mem_toList] at hc
  rcases hc with hnew | hold
  · exact Request.recorded hrun hnew
  · exact hwrites.recorded hw.database (hw.recorded c hold)

theorem consistent_inductive : registryRuns.Inductive (fun _ _ => True) Clients.Consistent := by
  refine ⟨fun w hw => ⟨?_, fun c hc => ?_⟩, fun _ _ _ hw _ hstep => hw.step hstep⟩
  · rw [hw.1]
    exact fresh_consistent
  · rw [hw.2] at hc
    exact absurd hc List.not_mem_nil

theorem Clients.Consistent.later {w w' : Clients} (hw : w.Consistent) (h : Later w w') : w'.Consistent := by
  induction h with
  | refl => exact hw
  | tail _ hstep ih => exact ih.step hstep.choose_spec

/-- The transactions of a run, as statements. -/
theorem Clients.Consistent.laterWrites {w w' : Clients} (hw : w.Consistent) (h : Later w w') :
    Writes (fun _ => True) w.database w'.database := by
  induction h with
  | refl => exact .refl
  | tail hrun hstep ih =>
    exact ih.trans (Writes.mono ((hw.later hrun).writes hstep.choose_spec) fun _ _ => trivial)

/-- **The ledger and the services agree.** In every state of every run a
service is there exactly when its id has a live identity of the same
principal, domain name and backend; a principal's domain name has one
holder; and an id that was purged has no service, no receipt and no claim
but the purge's own and tombstones, and keeps its identity as it is in
every later state. -/
theorem identity_ledger_agreement {w : Clients} (h : registryRuns.Reachable w) :
    (∀ id principal name backend, (∃ s, w.database.services.find? id = some s ∧ s.principalId = principal ∧
      s.domainName = name ∧ s.storage = backend) ↔
        w.database.identities.find? id = some ⟨id, principal, .live name backend⟩) ∧
    (∀ i ∈ w.database.identities.rows, ∀ j ∈ w.database.identities.rows, i.principalId = j.principalId →
      ∀ name, i.state.domain = some name → j.state.domain = some name → i = j) ∧
    ∀ i ∈ w.database.identities.rows, ∀ key at_, i.state = .tombstoned key at_ →
      w.database.services.find? i.serviceId = none ∧
      (∀ r ∈ w.database.receipts.rows, r.receipt.serviceId ≠ i.serviceId) ∧
      (∀ r ∈ w.database.claims.rows, r.serviceId = i.serviceId →
        r.operationKind = .purge ∧ r.key = (i.principalId, key) ∨ ∃ t, r = .tombstoned t) ∧
      ∀ w', Later w w' → w'.database.identities.find? i.serviceId = some i := by
  have hw := consistent_inductive.reachable h
  have hledger := hw.database.ledger
  refine ⟨fun _ _ _ _ => hledger.service_iff, fun i hi j hj hprin name hname hjname => ?_,
    fun i hi key at_ hstate => ?_⟩
  · exact hledger.domain i hi j hj hprin (by rw [hname]; rfl) (hname.trans hjname.symm)
  · obtain ⟨hservice, hreceipt, hclaim⟩ := hledger.purged hi hstate
    exact ⟨hservice, hreceipt, hclaim, fun w' hlater =>
      (hw.laterWrites hlater).tombstoned (Table.find?_of_mem hi) hstate⟩

/-! ## A purge -/

namespace Purged

open Overtaken (memoId memoManifest context start seedMemos designMemos memos second_revision designedMemos seedClaim
  designClaim seeded)

def materialiseMemos : MaterialiseCommand :=
  ⟨context.principalId, context.createdVia, memoId, ⟨2, second_revision⟩, ⟨"materialise", by decide⟩⟩

def materialisation : LifecycleIntent := (LifecycleCommand.materialise materialiseMemos).intent memoManifest

def archiveMemos : OperationalLifecycleCommand :=
  ⟨.archive, context.principalId, context.createdVia, memoId, ⟨3, by decide⟩, ⟨"archive", by decide⟩⟩

def purgeMemos : PurgeCommand :=
  ⟨context.principalId, context.createdVia, memoId, ⟨4, by decide⟩, ⟨"purge", by decide⟩, .explicitOverride⟩

theorem third_revision : 1 ≤ 3 ∧ 3 ≤ MAX_SERVICE_REVISION := by decide

theorem fourth_revision : 1 ≤ 4 ∧ 4 ≤ MAX_SERVICE_REVISION := by decide

/-- The service as it is materialised. -/
def materialisedMemos : Service :=
  { designedMemos with
    designState := .materialised, serviceRevision := 3, materialisedAt := some start, storage := some .sqlite
    revision := third_revision, paired := rfl, during := by decide, seeded := by decide, complete := by decide }

/-- The service as it is archived. -/
def archivedMemos : Service :=
  { materialisedMemos with operationalStatus := .archived, serviceRevision := 4, revision := fourth_revision }

def purgeClaim (phase : ClaimPhase AuthorityResult) : ClaimRow := .authority (.purge purgeMemos) phase

/-- The registry of the one service, with the claims of the run so far. -/
def holding (s : Service) (claims : List ClaimRow) (h : (claims.map ClaimRow.key).Nodup) : Database where
  services := .single s
  claims := ⟨claims, h⟩
  identities := ⟨[⟨memoId, context.principalId, .live "memos" s.storage⟩], List.nodup_singleton _⟩
  receipts := .empty

def designed : Database := holding designedMemos [designClaim, seedClaim] (by decide)

def materialising : Database :=
  holding designedMemos [.lifecycle materialisation .prepared, designClaim, seedClaim] (by decide)

def materialised : Database := holding materialisedMemos
  [.lifecycle materialisation (.completed materialisedMemos), designClaim, seedClaim] (by decide)

def archiving : Database := holding materialisedMemos
  [.authority (.operational archiveMemos) .prepared, .lifecycle materialisation (.completed materialisedMemos),
    designClaim, seedClaim] (by decide)

def archived : Database := holding archivedMemos
  [.authority (.operational archiveMemos) (.completed (.service archivedMemos)),
    .lifecycle materialisation (.completed materialisedMemos), designClaim, seedClaim] (by decide)

def purging : Database := holding archivedMemos
  [purgeClaim .prepared, .authority (.operational archiveMemos) (.completed (.service archivedMemos)),
    .lifecycle materialisation (.completed materialisedMemos), designClaim, seedClaim] (by decide)

/-- What the purge leaves of the claim of a command. -/
def remnant (kind : OperationKind) (key : IdempotencyKey) (fingerprint : String) (h : kind ≠ .purge) : ClaimRow :=
  .tombstoned ⟨kind, context.principalId, key, fingerprint, memoId, h⟩

def remnants : List ClaimRow := [
  remnant .archive archiveMemos.idempotencyKey (RegistryAuthorityCommand.operational archiveMemos).fingerprint
    (by decide),
  remnant .materialise materialiseMemos.idempotencyKey materialisation.fingerprint (by decide),
  remnant .design designMemos.idempotencyKey (designFingerprint context designMemos) (by decide),
  remnant .seed seedMemos.idempotencyKey (seedFingerprint context seedMemos) (by decide)]

/-- The registry that is left, with the purge's claim. -/
def erased (phase : ClaimPhase AuthorityResult) : Database where
  services := .empty
  claims := ⟨purgeClaim phase :: remnants, (by decide : ((purgeClaim .prepared :: remnants).map ClaimRow.key).Nodup)⟩
  identities := ⟨[⟨memoId, context.principalId, .tombstoned purgeMemos.idempotencyKey start⟩],
    List.nodup_singleton _⟩
  receipts := .empty

def tombstone : AuthorityResult :=
  .tombstone ⟨context.principalId, memoId, context.createdVia, start, .explicitOverride⟩

def purged : Database := erased (.completed tombstone)

theorem seed_run : (Request.seed context seedMemos memoId start).run fresh = some (none, seeded) := rfl

theorem design_run : (Request.design context designMemos start).run seeded = some (none, designed) := rfl

theorem materialise_run : (Request.resolveOrAdmit (.materialise materialiseMemos)).run designed =
    some (none, materialising) := rfl

theorem materialised_run : (Request.finalizeCompleted ⟨materialisation, start, .sqlite⟩).run materialising =
    some (none, materialised) := by
  have h : materialising.finalizeCompleted ⟨materialisation, start, .sqlite⟩ =
      some (.completed materialisation materialisedMemos, materialised) := by
    unfold finalizeCompleted
    rw [terminalOrPrepared_of_prepared (i := materialisation) rfl]
    rfl
  rw [Request.run, h]
  rfl

theorem archive_run : (Request.resolveOrPrepare (.operational archiveMemos) start).run materialised =
    some (some (.operational archiveMemos), archiving) := rfl

theorem archived_run : (Request.finalizeOperational archiveMemos start).run archiving = some (none, archived) := by
  have h : archiving.finalizeOperational archiveMemos start =
      some (.completed (.operational archiveMemos) (.service archivedMemos), archived) :=
    @finalizeOperational_of_prepared _ (holding archivedMemos archiving.claims.rows archiving.claims.keyed)
      _ _ _ rfl rfl rfl
  rw [Request.run, h]
  rfl

theorem purge_run : (Request.resolveOrPrepare (.purge purgeMemos) start).run archived =
    some (some (.purge purgeMemos), purging) := rfl

theorem purged_run : (Request.finalizePurge purgeMemos start).run purging = some (none, purged) := by
  have hfound : purging.authorityPreparedOrTerminal (.purge purgeMemos) = some (.prepared (.purge purgeMemos)) :=
    authorityPreparedOrTerminal_self (by decide) rfl
  have herase : purging.erase purgeMemos start = some (erased .prepared) := rfl
  have hcomplete : (erased .prepared).completeAuthority (.purge purgeMemos) tombstone =
      some (.completed (.purge purgeMemos) tombstone, purged) := by
    rw [completeAuthority, endClaim_self rfl]
    rfl
  have h : purging.finalizePurge purgeMemos start = some (.completed (.purge purgeMemos) tombstone, purged) := by
    unfold finalizePurge
    rw [hfound]
    change (purging.erase purgeMemos start).bind (fun left =>
      left.completeAuthority (.purge purgeMemos) tombstone) = _
    rw [herase, Option.bind_some, hcomplete]
  rw [Request.run, h]
  rfl

def clients : Clients := ⟨purged, [.purge purgeMemos, .operational archiveMemos]⟩

/-- A service seeded, designed, materialised, archived and purged. -/
theorem reachable : registryRuns.Reachable clients := by
  have h : registryRuns.Reachable ⟨fresh, []⟩ := .init ⟨rfl, rfl⟩
  have h := h.next (Request.step_of_run seed_run (by simp [Request.intent]))
  have h := h.next (Request.step_of_run design_run (by simp [Request.intent]))
  have h := h.next (Request.step_of_run materialise_run (by simp [Request.intent]))
  have h := h.next (Request.step_of_run materialised_run (by simp [Request.intent]))
  have h := h.next (Request.step_of_run archive_run (by simp [Request.intent]))
  have h := h.next (Request.step_of_run archived_run (by simp [Request.intent]))
  have h := h.next (Request.step_of_run purge_run (by simp [Request.intent]))
  exact h.next (Request.step_of_run purged_run (by simp [Request.intent]))

end Purged

open Purged in
/-- The ledger after the purge. -/
theorem identity_ledger_agreement_purged : clients.database.services.find? Overtaken.memoId = none ∧
    ∀ w', Later clients w' → w'.database.identities.find? Overtaken.memoId =
      some ⟨Overtaken.memoId, Overtaken.context.principalId, .tombstoned purgeMemos.idempotencyKey Overtaken.start⟩ :=
  have h := (identity_ledger_agreement reachable).2.2
    ⟨Overtaken.memoId, Overtaken.context.principalId, .tombstoned purgeMemos.idempotencyKey Overtaken.start⟩
    (List.mem_singleton.2 rfl) purgeMemos.idempotencyKey Overtaken.start rfl
  ⟨h.1, h.2.2.2⟩

end Registry

end Aipcs

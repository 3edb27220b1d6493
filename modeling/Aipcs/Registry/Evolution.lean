import Aipcs.Registry.Writes

/-!
# Registry — how claims evolve

A claim is prepared, then completed or in need of recovery, and at last
perhaps a tombstone. Every statement moves the claims it finds along this
way or records one more; what a claim is for and the fingerprint it was
made under it keeps throughout.
-/

namespace Aipcs

namespace Registry

open Relation (ReflTransGen)

/-- The `phase` column. -/
inductive Phase where
  | prepared
  | completed
  | recoveryRequired
  | tombstoned
deriving DecidableEq

/-- A move of the phase. -/
inductive Phase.Moves : Phase → Phase → Prop
  | completed : Moves .prepared .completed
  | recoveryRequired : Moves .prepared .recoveryRequired
  | tombstoned : Moves .completed .tombstoned
  | recoveryTombstoned : Moves .recoveryRequired .tombstoned

theorem Phase.Moves.ne_tombstoned {p q : Phase} (h : p.Moves q) : p ≠ .tombstoned := by
  cases h <;> simp

theorem Phase.Moves.ne_prepared {p q : Phase} (h : p.Moves q) : q ≠ .prepared := by
  cases h <;> simp

theorem Phase.Moves.eq_tombstoned {p q : Phase} (h : p.Moves q) (hp : p = .completed) : q = .tombstoned := by
  cases h <;> simp_all

theorem Phase.Moves.eq_prepared {p q : Phase} (h : p.Moves q) (hq : q = .recoveryRequired) : p = .prepared := by
  cases h <;> simp_all

namespace ClaimRow

def phase : ClaimRow → Phase
  | .nonLifecycle _ => .completed
  | .lifecycle _ .prepared => .prepared
  | .lifecycle _ (.completed _) => .completed
  | .lifecycle _ .recoveryRequired => .recoveryRequired
  | .authority _ .prepared => .prepared
  | .authority _ (.completed _) => .completed
  | .authority _ .recoveryRequired => .recoveryRequired
  | .tombstoned _ => .tombstoned

/-- The result a completed claim stores. -/
def result : ClaimRow → Option AuthorityResult
  | .nonLifecycle c => some (.service c.result)
  | .lifecycle _ (.completed s) => some (.service s)
  | .authority _ (.completed r) => some r
  | _ => none

/-- One move of a claim. -/
inductive Evolves : ClaimRow → ClaimRow → Prop
  | lifecycle {i : LifecycleIntent} {p : ClaimPhase Service} : p ≠ .prepared →
      Evolves (.lifecycle i .prepared) (.lifecycle i p)
  | authority {c : RegistryAuthorityCommand} {p : ClaimPhase AuthorityResult} : p ≠ .prepared →
      Evolves (.authority c .prepared) (.authority c p)
  | tombstone {r s : ClaimRow} : r.phase = .completed ∨ r.phase = .recoveryRequired →
      r.tombstone = some s → Evolves r s

/-- Moves of a claim, if any. -/
abbrev Evolved : ClaimRow → ClaimRow → Prop := ReflTransGen Evolves

variable {r s : ClaimRow}

theorem tombstone_eq_some (h : r.tombstone = some s) :
    ∃ t, s = .tombstoned t ∧ t.operationKind = r.operationKind ∧ t.principalId = r.principalId ∧
      t.idempotencyKey = r.idempotencyKey ∧ t.fingerprint = r.fingerprint ∧ t.serviceId = r.serviceId := by
  unfold tombstone at h
  split_ifs at h
  exact ⟨_, (Option.some.inj h).symm, rfl, rfl, rfl, rfl, rfl⟩

/-- **A move keeps what a claim is for.** -/
theorem Evolves.keeps (h : Evolves r s) : s.key = r.key ∧ s.operationKind = r.operationKind ∧
    s.serviceId = r.serviceId ∧ s.fingerprint = r.fingerprint := by
  cases h with
  | lifecycle _ => exact ⟨rfl, rfl, rfl, rfl⟩
  | authority _ => exact ⟨rfl, rfl, rfl, rfl⟩
  | tombstone _ ht =>
    obtain ⟨t, rfl, hkind, hprin, hkey, hprint, hid⟩ := tombstone_eq_some ht
    exact ⟨Prod.ext hprin hkey, hkind, hid, hprint⟩

/-- **A move is onwards**: from prepared to an end, and from an end to a tombstone. -/
theorem Evolves.onwards (h : Evolves r s) : r.phase.Moves s.phase := by
  cases h with
  | @lifecycle i p hp =>
    cases p with
    | prepared => exact absurd rfl hp
    | completed _ => exact .completed
    | recoveryRequired => exact .recoveryRequired
  | @authority c p hp =>
    cases p with
    | prepared => exact absurd rfl hp
    | completed _ => exact .completed
    | recoveryRequired => exact .recoveryRequired
  | tombstone hphase ht =>
    obtain ⟨t, rfl, -⟩ := tombstone_eq_some ht
    rcases hphase with hphase | hphase <;> rw [hphase]
    · exact .tombstoned
    · exact .recoveryTombstoned

theorem Evolved.onwards (h : r.Evolved s) : ReflTransGen Phase.Moves r.phase s.phase :=
  h.lift phase fun _ _ hmove => hmove.onwards

theorem Evolved.keeps (h : r.Evolved s) : s.key = r.key ∧ s.operationKind = r.operationKind ∧
    s.serviceId = r.serviceId ∧ s.fingerprint = r.fingerprint := by
  induction h with
  | refl => exact ⟨rfl, rfl, rfl, rfl⟩
  | tail _ hmove ih =>
    obtain ⟨hkey, hkind, hid, hprint⟩ := hmove.keeps
    exact ⟨hkey.trans ih.1, hkind.trans ih.2.1, hid.trans ih.2.2.1, hprint.trans ih.2.2.2⟩

/-- A claim that is a tombstone stays it. -/
theorem Evolved.eq_of_tombstoned (h : r.Evolved s) (hr : r.phase = .tombstoned) : s = r := by
  induction h with
  | refl => rfl
  | tail _ hmove ih =>
    subst ih
    exact absurd hr hmove.onwards.ne_tombstoned

/-- **A completed claim stays as it is until it is a tombstone.** -/
theorem Evolved.of_completed (h : r.Evolved s) (hr : r.phase = .completed) : s = r ∨ s.phase = .tombstoned := by
  induction h with
  | refl => exact .inl rfl
  | @tail m s _ hmove ih =>
    rcases ih with rfl | hm
    · exact .inr (hmove.onwards.eq_tombstoned hr)
    · exact .inr (by rw [Evolved.eq_of_tombstoned (.single hmove) hm]; exact hm)

theorem pending_iff : r.pending = true ↔ r.phase = .prepared ∨ r.phase = .recoveryRequired := by
  match r with
  | .nonLifecycle _ => simp [pending, phase]
  | .tombstoned _ => simp [pending, phase]
  | .lifecycle _ .prepared => simp [pending, phase]
  | .lifecycle _ .recoveryRequired => simp [pending, phase]
  | .lifecycle _ (.completed _) => simp [pending, phase]
  | .authority _ .prepared => simp [pending, phase]
  | .authority _ .recoveryRequired => simp [pending, phase]
  | .authority _ (.completed _) => simp [pending, phase]

theorem Evolves.pending_of (h : Evolves r s) (hs : s.pending = true) : r.pending = true := by
  rw [pending_iff] at hs ⊢
  rcases hs with hs | hs
  · exact absurd hs h.onwards.ne_prepared
  · exact .inl (h.onwards.eq_prepared hs)

/-- A pending claim was pending from the start. -/
theorem Evolved.pending_of (h : r.Evolved s) (hs : s.pending = true) : r.pending = true := by
  induction h with
  | refl => exact hs
  | tail _ hmove ih => exact ih (hmove.pending_of hs)

/-- A seed or design claim has no moves but to a tombstone. -/
theorem Evolved.nonLifecycle {c : NonLifecycleClaim} (h : r.Evolved (.nonLifecycle c)) : r = .nonLifecycle c := by
  rcases ReflTransGen.cases_tail h with rfl | ⟨m, -, hmove⟩
  · rfl
  · cases hmove with
    | tombstone _ ht =>
      obtain ⟨t, ht, -⟩ := tombstone_eq_some ht
      exact absurd ht (by simp)

/-- The claim of an authority command records it, or is a tombstone. -/
theorem Evolved.authority {c : RegistryAuthorityCommand} {p : ClaimPhase AuthorityResult}
    (h : (ClaimRow.authority c p).Evolved s) : (∃ q, s = .authority c q) ∨ ∃ t, s = .tombstoned t := by
  induction h with
  | refl => exact .inl ⟨p, rfl⟩
  | tail _ hmove ih =>
    rcases ih with ⟨q, rfl⟩ | ⟨t, rfl⟩
    · cases hmove with
      | authority _ => exact .inl ⟨_, rfl⟩
      | tombstone _ ht =>
        obtain ⟨t, rfl, -⟩ := tombstone_eq_some ht
        exact .inr ⟨t, rfl⟩
    · exact .inr ⟨t, Evolved.eq_of_tombstoned (.single hmove) rfl⟩

end ClaimRow

namespace Database

variable {d d' m : Database} {command : RegistryAuthorityCommand} {designs : ℕ → Prop}

/-! ## Statements and claims -/

/-- The claims have moved, and are no more and no fewer. -/
def Evolve (d d' : Database) : Prop := ∀ k, Option.Rel ClaimRow.Evolved (d.claimRow k) (d'.claimRow k)

theorem Evolve.of_eq (h : d'.claims = d.claims) : Evolve d d' := by
  intro k
  rw [claimRow, claimRow, h]
  cases d.claims.find? k with
  | none => exact .none
  | some r => exact .some .refl

/-- One claim moved. -/
theorem Evolve.of_set {r s : ClaimRow} (hr : d.claimRow s.key = some r) (hmove : r.Evolves s)
    (hd' : d'.claims = d.claims.set s) : Evolve d d' := by
  intro k
  rw [claimRow, claimRow, hd']
  by_cases hk : k = s.key
  · subst hk
    rw [Table.find?_set_self hr]
    rw [claimRow] at hr
    rw [hr]
    exact .some (.single hmove)
  · rw [Table.find?_set_of_ne hk]
    cases d.claims.find? k with
    | none => exact .none
    | some r => exact .some .refl

/-- What a purge does to a claim of which no other pending one is known. -/
theorem evolved_tombstoneRow {c : PurgeCommand} {r : ClaimRow} (hpending : otherClaim c r = true → r.pending = false)
    (hkind : otherClaim c r = true → r.operationKind ≠ .purge) : r.Evolved (tombstoneRow c r) := by
  unfold tombstoneRow
  by_cases hother : otherClaim c r = true
  case neg =>
    rw [if_neg hother]
  rw [if_pos hother]
  have hidle := hpending hother
  cases hphase : r.phase with
  | prepared => exact absurd (ClaimRow.pending_iff.2 (.inl hphase)) (by simp [hidle])
  | recoveryRequired => exact absurd (ClaimRow.pending_iff.2 (.inr hphase)) (by simp [hidle])
  | completed =>
    cases ht : r.tombstone with
    | none => exact .refl
    | some s => exact .single (.tombstone (.inl hphase) ht)
  | tombstoned =>
    cases r with
    | tombstoned t =>
      have hsame : (ClaimRow.tombstoned t).tombstone = some (.tombstoned t) := dif_pos (hkind hother)
      rw [hsame]
      exact .refl
    | nonLifecycle _ => exact absurd hphase (by simp [ClaimRow.phase])
    | lifecycle _ p => cases p <;> exact absurd hphase (by simp [ClaimRow.phase])
    | authority _ p => cases p <;> exact absurd hphase (by simp [ClaimRow.phase])

theorem evolve_of_erase {c : PurgeCommand} {at_ : Instant} (h : d.erase c at_ = some d') (hd : d.OnePending)
    (hrow : d.claimRow (RegistryAuthorityCommand.purge c).key = some (.authority (.purge c) .prepared)) :
    Evolve d d' := by
  obtain ⟨-, -, -, -, -, -, hkind, rfl⟩ := erase_eq_erased h
  intro k
  rw [claimRow, claimRow, Table.find?_update]
  cases hk : d.claims.find? k with
  | none => exact .none
  | some r =>
    have hr := Table.mem_of_find? hk
    refine .some (evolved_tombstoneRow (fun hother => ?_) (hkind r hr))
    -- the purge's claim is the one pending claim of the service
    by_contra hpending
    rw [Bool.not_eq_false] at hpending
    simp only [otherClaim, Bool.and_eq_true, decide_eq_true_eq] at hother
    have hone := hd r hr _ (Table.mem_of_find? hrow) hpending rfl hother.1.1 hother.1.2
    rw [hone] at hother
    exact hother.2 rfl

/-- **A statement records a claim or moves the claims there are.** -/
theorem Write.claims (h : Write designs d d') (hd : d.OnePending) :
    (∃ r m, d.insertClaim r = some m ∧ Opens designs r ∧ d'.claims = m.claims) ∨ Evolve d d' := by
  cases h with
  | claim hinsert hopens _ => exact .inl ⟨_, _, hinsert, hopens, rfl⟩
  | reserve _ hinsert _ => exact .inl ⟨_, _, hinsert, rfl, rfl⟩
  | add hadd =>
    obtain ⟨added, hadded, hidentity⟩ := Option.bind_eq_some_iff.1 hadd
    exact .inr (.of_eq ((insertIdentity_eq_some hidentity).1.trans (insertService_keeps hadded).1))
  | save hsave _ _ =>
    obtain ⟨-, -, -, -, -, -, -, -, rfl⟩ := save_eq_saved hsave
    exact .inr (.of_eq rfl)
  | receipt hinsert _ => exact .inr (.of_eq (insertReceipt_eq_some hinsert).1)
  | publish hinsert _ _ _ => exact .inr (.of_eq (insertService_keeps hinsert).1)
  | erase herase hrow => exact .inr (evolve_of_erase herase hd hrow)
  | ended hended hphase hrow =>
    obtain ⟨-, rfl⟩ := endClaim_eq_some hended
    exact .inr (.of_set (by exact hrow) (.authority hphase) rfl)
  | endedLifecycle hphase hrow => exact .inr (.of_set (by exact hrow) (.lifecycle hphase) rfl)

/-- What a claim becomes, a recorded one included. -/
theorem Write.evolved (h : Write designs d d') (hd : d.OnePending) {k : PrincipalId × IdempotencyKey} {r : ClaimRow}
    (hr : d.claimRow k = some r) : ∃ s, d'.claimRow k = some s ∧ r.Evolved s := by
  rcases h.claims hd with ⟨x, m, hinsert, -, hclaims⟩ | hevolve
  · obtain ⟨hfresh, -, hothers, -⟩ := insertClaim_eq_some hinsert
    have hk : k ≠ x.key := fun hk => by
      rw [← hk, hr] at hfresh
      exact absurd hfresh (by simp)
    refine ⟨r, ?_, .refl⟩
    rw [claimRow, hclaims]
    exact (hothers k hk).trans hr
  · have hrel := hevolve k
    rw [hr] at hrel
    cases hrow : d'.claimRow k with
    | none =>
      rw [hrow] at hrel
      exact absurd hrel (by simp)
    | some s =>
      rw [hrow] at hrel
      cases hrel with
      | some hmove => exact ⟨s, rfl, hmove⟩

/-- Where a claim comes from. -/
theorem Write.origin (h : Write designs d d') (hd : d.OnePending) {k : PrincipalId × IdempotencyKey} {s : ClaimRow}
    (hs : d'.claimRow k = some s) : (∃ r, d.claimRow k = some r ∧ r.Evolved s) ∨ Opens designs s := by
  rcases h.claims hd with ⟨x, m, hinsert, hopens, hclaims⟩ | hevolve
  · obtain ⟨-, hself, hothers, -⟩ := insertClaim_eq_some hinsert
    rw [claimRow, hclaims] at hs
    by_cases hk : k = x.key
    · subst hk
      obtain rfl := Option.some.inj (hself.symm.trans hs)
      exact .inr hopens
    · exact .inl ⟨s, (hothers k hk).symm.trans hs, .refl⟩
  · have hrel := hevolve k
    rw [hs] at hrel
    cases hrow : d.claimRow k with
    | none =>
      rw [hrow] at hrel
      exact absurd hrel (by simp)
    | some r =>
      rw [hrow] at hrel
      cases hrel with
      | some hmove => exact .inl ⟨r, rfl, hmove⟩

theorem Opens.mono {designs' : ℕ → Prop} (hmono : ∀ n, designs n → designs' n) {r : ClaimRow} (h : Opens designs r) :
    Opens designs' r := by
  cases r with
  | nonLifecycle c => exact ⟨h.1, fun hkind => ⟨hmono _ (h.2 hkind).1, (h.2 hkind).2⟩⟩
  | lifecycle _ _ => exact h
  | authority _ _ => exact h
  | tombstoned _ => exact h

/-- Seed and design claims are as they were recorded, designs at the revisions given. -/
def Sound (designs : ℕ → Prop) (d : Database) : Prop :=
  ∀ c, .nonLifecycle c ∈ d.claims.rows → Opens designs (.nonLifecycle c)

theorem Write.sound {designs' : ℕ → Prop} (h : Write designs d d') (hmono : ∀ n, designs n → designs' n)
    (hd : d.OnePending) (hsound : d.Sound designs') : d'.Sound designs' := by
  intro c hc
  rcases h.origin hd (Table.find?_of_mem hc) with ⟨r, hr, hmove⟩ | hopens
  · obtain rfl := hmove.nonLifecycle
    exact hsound c (Table.mem_of_find? hr)
  · exact hopens.mono hmono

/-- The index on pending claims holds after an insert. -/
theorem onePending_of_insertClaim {r : ClaimRow} (h : d.insertClaim r = some d') (hd : d.OnePending) :
    d'.OnePending := by
  unfold insertClaim at h
  split_ifs at h with hguard
  obtain ⟨claims, hclaims, rfl⟩ := Option.map_eq_some_iff.1 h
  have hfree : r.pending = true → ∀ x ∈ d.claims.rows, x.pending = true → x.principalId = r.principalId →
      x.serviceId = r.serviceId → False := fun hp x hx hxp hprin hid =>
    hguard (by
      rw [hp, Bool.true_and]
      exact List.any_eq_true.2 ⟨x, hx, blocks_iff.2 ⟨hprin, hid, hxp⟩⟩)
  intro x hx y hy hxp hyp hprin hid
  rw [Table.mem_insert hclaims] at hx hy
  rcases hx with rfl | hx <;> rcases hy with rfl | hy
  · rfl
  · exact (hfree hxp y hy hyp hprin.symm hid.symm).elim
  · exact (hfree hyp x hx hxp hprin hid).elim
  · exact hd x hx y hy hxp hyp hprin hid

theorem Evolve.onePending (h : Evolve d d') (hd : d.OnePending) : d'.OnePending := by
  have hback : ∀ s ∈ d'.claims.rows, ∃ r ∈ d.claims.rows, r.Evolved s := by
    intro s hs
    have hrel := h s.key
    rw [claimRow, claimRow, Table.find?_of_mem hs] at hrel
    cases hrow : d.claims.find? s.key with
    | none =>
      rw [hrow] at hrel
      exact absurd hrel (by simp)
    | some r =>
      rw [hrow] at hrel
      cases hrel with
      | some hmove => exact ⟨r, Table.mem_of_find? hrow, hmove⟩
  intro x hx y hy hxp hyp hprin hid
  obtain ⟨u, hu, hux⟩ := hback x hx
  obtain ⟨v, hv, hvy⟩ := hback y hy
  have hux' := hux.keeps
  have hvy' := hvy.keeps
  have huv : u = v := hd u hu v hv (hux.pending_of hxp) (hvy.pending_of hyp)
    ((Prod.mk.inj hux'.1).1.symm.trans (hprin.trans (Prod.mk.inj hvy'.1).1))
    (hux'.2.2.1.symm.trans (hid.trans hvy'.2.2.1))
  refine Table.eq_of_key hx hy ?_
  rw [hux'.1, hvy'.1, huv]

theorem Write.onePending (h : Write designs d d') (hd : d.OnePending) : d'.OnePending := by
  rcases h.claims hd with ⟨r, m, hinsert, -, hclaims⟩ | hevolve
  · have hm := onePending_of_insertClaim hinsert hd
    rw [OnePending, hclaims]
    exact hm
  · exact hevolve.onePending hd

/-- The intent a client holds stays on record. -/
theorem Write.recorded (h : Write designs d d') (hd : d.OnePending) (hrec : Recorded d command) : Recorded d' command := by
  rcases hrec with ⟨p, hp⟩ | ⟨t, ht⟩
  · obtain ⟨s, hs, hmove⟩ := h.evolved hd hp
    rcases hmove.authority with ⟨q, rfl⟩ | ⟨t, rfl⟩
    · exact .inl ⟨q, hs⟩
    · exact .inr ⟨t, hs⟩
  · obtain ⟨s, hs, hmove⟩ := h.evolved hd ht
    obtain rfl := hmove.eq_of_tombstoned rfl
    exact .inr ⟨t, hs⟩

end Database

end Registry

end Aipcs

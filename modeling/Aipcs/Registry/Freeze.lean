import Aipcs.Common.System
import Aipcs.Registry.LifecycleEffects
import Aipcs.Registry.Requests
import Mathlib.Logic.Relation

/-!
# Registry — the freeze of a service under a prepared claim

The registry as clients drive it: every request and every operation of a
unit of work, in any order and with any arguments, an authority claim
being ended only by the intent that was handed out for it. A prepared
claim that expects a revision finds the service at it, in every run in
which no design is carried out over such a claim.
-/

namespace Aipcs

namespace Registry

open Manifest

/-! ## Requests of clients -/

/-- A transaction a client may ask for, with the readings of the clock
and of the id provider. -/
inductive Request where
  | seed (context : ApplicationContext) (c : SeedCommand) (id : Uuid) (now : Instant)
  | design (context : ApplicationContext) (c : DesignCommand) (now : Instant)
  | resolveOrAdmit (c : LifecycleCommand)
  | finalizeCompleted (c : Completion)
  | finalizeRecoveryRequired (i : LifecycleIntent)
  | resolveOrPrepare (c : RegistryAuthorityCommand) (now : Instant)
  | finalizeOperational (c : OperationalLifecycleCommand) (at_ : Instant)
  | completeExport (c : ExportCommand) (r : TransferReceipt)
  | publishImport (c : ImportCommand) (s : Service) (r : TransferReceipt)
  | finalizePurge (c : PurgeCommand) (at_ : Instant)
  | markRecoveryRequired (c : RegistryAuthorityCommand)

namespace Request

/-- The prepared intent a request is made with. -/
def intent : Request → Option RegistryAuthorityCommand
  | .finalizeOperational c _ => some (.operational c)
  | .completeExport c _ => some (.export_ c)
  | .publishImport c _ _ => some (.import_ c)
  | .finalizePurge c _ => some (.purge c)
  | .markRecoveryRequired c => some c
  | _ => none

/-- The prepared intent an outcome hands out. -/
def handed : AuthorityOutcome → Option RegistryAuthorityCommand
  | .prepared c => some c
  | _ => none

/-- The database a request commits, with the intent it hands out; nothing
when it fails and is rolled back. -/
def run (d : Database) : Request → Option (Option RegistryAuthorityCommand × Database)
  | .seed context c id now => (d.seed context c id now).toOption.map fun r => (none, r.2)
  | .design context c now => (d.design context c now).toOption.map fun r => (none, r.2)
  | .resolveOrAdmit c => (d.resolveOrAdmit c).map fun r => (none, r.2)
  | .finalizeCompleted c => (d.finalizeCompleted c).map fun r => (none, r.2)
  | .finalizeRecoveryRequired i => (d.finalizeRecoveryRequired i).map fun r => (none, r.2)
  | .resolveOrPrepare c now => (d.resolveOrPrepare c now).map fun r => (handed r.1, r.2)
  | .finalizeOperational c at_ => (d.finalizeOperational c at_).map fun r => (none, r.2)
  | .completeExport c r => (d.completeExport c r).map fun r => (none, r.2)
  | .publishImport c s r => (d.publishImport c s r).map fun r => (none, r.2)
  | .finalizePurge c at_ => (d.finalizePurge c at_).map fun r => (none, r.2)
  | .markRecoveryRequired c => (d.markRecoveryRequired c).map fun r => (none, r.2)

end Request

/-- The registry and the authority intents its clients hold. -/
structure Clients where
  database : Database
  held : List RegistryAuthorityCommand

/-- No claim is pending, and no client holds an intent. -/
def Clients.Initial (w : Clients) : Prop :=
  (∀ r ∈ w.database.claims.rows, r.pending = false) ∧ w.held = []

/-- Clients at work on one registry. -/
def requests : System Clients Request where
  init := Clients.Initial
  step w q w' := (∀ c ∈ q.intent, c ∈ w.held) ∧
    ∃ given, q.run w.database = some (given, w'.database) ∧ w'.held = given.toList ++ w.held

/-! ## Claims that expect a revision -/

/-- The revision a prepared claim expects of its service. -/
def ClaimRow.expectation : ClaimRow → Option ℕ
  | .lifecycle i .prepared => some i.expectedServiceRevision
  | .authority c .prepared => c.expectedServiceRevision.map (·.1)
  | _ => none

theorem ClaimRow.pending_of_expectation {r : ClaimRow} {n : ℕ} (h : r.expectation = some n) :
    r.pending = true := by
  match r with
  | .nonLifecycle _ => exact absurd h (by simp [expectation])
  | .tombstoned _ => exact absurd h (by simp [expectation])
  | .lifecycle _ .prepared => rfl
  | .lifecycle _ .recoveryRequired => rfl
  | .lifecycle _ (.completed _) => exact absurd h (by simp [expectation])
  | .authority _ .prepared => rfl
  | .authority _ .recoveryRequired => rfl
  | .authority _ (.completed _) => exact absurd h (by simp [expectation])

theorem operation_ne_import (kind : OperationalLifecycleKind) : kind.operation ≠ .import_ := by
  cases kind <;> simp [OperationalLifecycleKind.operation]

/-- A command that is no import names a revision. -/
theorem expectation_prepared {command : RegistryAuthorityCommand} (h : command.kind ≠ .import_) :
    ∃ n, (ClaimRow.authority command .prepared).expectation = some n := by
  cases command with
  | import_ c => exact absurd rfl h
  | operational c => exact ⟨_, rfl⟩
  | export_ c => exact ⟨_, rfl⟩
  | purge c => exact ⟨_, rfl⟩

namespace Database

/-- A service has at most one pending claim. -/
def OnePending (d : Database) : Prop :=
  ∀ r ∈ d.claims.rows, ∀ s ∈ d.claims.rows, r.pending = true → s.pending = true →
    r.principalId = s.principalId → r.serviceId = s.serviceId → r = s

/-- The services of prepared claims are at the revisions these expect. -/
def Current (d : Database) : Prop :=
  ∀ r ∈ d.claims.rows, ∀ n, r.expectation = some n →
    ∃ s, d.service r.principalId r.serviceId = some s ∧ s.serviceRevision = n

/-- What holds of the registry in every run. -/
structure Frozen (d : Database) : Prop where
  single : d.OnePending
  current : d.Current

variable {d d' : Database} {command : RegistryAuthorityCommand}
variable {k k₀ : PrincipalId × IdempotencyKey}

/-- Of the prepared claims that expect a revision a service id has one. -/
theorem Frozen.alone (h : d.Frozen) {r s : ClaimRow} {m n : ℕ} (hr : r ∈ d.claims.rows)
    (hs : s ∈ d.claims.rows) (hm : r.expectation = some m) (hn : s.expectation = some n)
    (hid : r.serviceId = s.serviceId) : r = s := by
  obtain ⟨u, hu, -⟩ := h.current r hr m hm
  obtain ⟨v, hv, -⟩ := h.current s hs n hn
  obtain ⟨hu, hup⟩ := service_eq_some.1 hu
  obtain ⟨hv, hvp⟩ := service_eq_some.1 hv
  rw [hid, hv] at hu
  obtain rfl := Option.some.inj hu
  exact h.single r hr s hs (ClaimRow.pending_of_expectation hm) (ClaimRow.pending_of_expectation hn)
    (hup.symm.trans hvp) hid

/-- The claim of an intent a client holds records it, or is a tombstone. -/
def Recorded (d : Database) (c : RegistryAuthorityCommand) : Prop :=
  (∃ phase, d.claimRow c.key = some (.authority c phase)) ∨
    ∃ t, d.claimRow c.key = some (.tombstoned t)

/-- **What a transaction does to claims and services.** Under one key it
may end a prepared claim, record one that has just been admitted or store
a completed one; the claims under other keys stay or become tombstones,
and the service of a prepared claim that stays is left as it is. -/
structure Moves (d d' : Database) (k₀ : PrincipalId × IdempotencyKey) : Prop where
  others : ∀ k, k ≠ k₀ → d'.claimRow k = d.claimRow k ∨ ∃ t, d'.claimRow k = some (.tombstoned t)
  own : ∀ r, d'.claimRow k₀ = some r → r.pending = true → d.claimRow k₀ = some r ∨
    (∃ x, d.claimRow k₀ = some x ∧ x.pending = true ∧ x.principalId = r.principalId ∧
      x.serviceId = r.serviceId ∧ r.expectation = none) ∨
    ((∀ x ∈ d.claims.rows, blocks r.principalId r.serviceId x = false) ∧ d'.services = d.services ∧
      ∀ n, r.expectation = some n → ∃ s, d.service r.principalId r.serviceId = some s ∧
        s.serviceRevision = n)
  kept : ∀ k r n, d.claimRow k = some r → d'.claimRow k = some r → r.expectation = some n →
    d'.service r.principalId r.serviceId = d.service r.principalId r.serviceId
  recorded : ∀ c, c.key = k₀ → Recorded d c → Recorded d' c

theorem Moves.refl (d : Database) (k₀ : PrincipalId × IdempotencyKey) : Moves d d k₀ :=
  ⟨fun _ _ => .inl rfl, fun _ h _ => .inl h, fun _ _ _ _ _ _ => rfl, fun _ _ h => h⟩

/-- The other two tables play no part. -/
theorem Moves.congr {m : Database} (h : Moves d m k₀) (hclaims : d'.claims = m.claims)
    (hservices : d'.services = m.services) : Moves d d' k₀ := by
  have hrow : ∀ k, d'.claimRow k = m.claimRow k := fun k => by rw [claimRow, hclaims, claimRow]
  refine ⟨fun k hk => ?_, fun r hr hp => ?_, fun k r n hold hnew hn => ?_, fun c hc hrec => ?_⟩
  · rw [hrow]
    exact h.others k hk
  · rw [hrow] at hr
    rw [hservices]
    exact h.own r hr hp
  · rw [hrow] at hnew
    rw [service, hservices]
    exact h.kept k r n hold hnew hn
  · rw [Recorded, hrow]
    exact h.recorded c hc hrec

/-- A recorded intent stays recorded. -/
theorem Moves.recorded_of (h : Moves d d' k₀) (hrec : Recorded d command) : Recorded d' command := by
  by_cases hk : command.key = k₀
  · exact h.recorded command hk hrec
  · rcases h.others command.key hk with heq | ⟨t, ht⟩
    · rw [Recorded, heq]
      exact hrec
    · exact .inr ⟨t, ht⟩

/-- A pending claim under another key is an old one. -/
theorem Moves.old (h : Moves d d' k₀) {r : ClaimRow} (hr : d'.claimRow k = some r)
    (hp : r.pending = true) (hk : k ≠ k₀) : d.claimRow k = some r := by
  rcases h.others k hk with heq | ⟨t, ht⟩
  · rw [← heq, hr]
  · rw [hr] at ht
    obtain rfl := Option.some.inj ht
    exact absurd hp (by simp [ClaimRow.pending])

/-- What the claim under the transaction's key says of an old claim of its
service: they are one. -/
theorem Moves.own_eq (h : Moves d d' k₀) (hd : d.OnePending) {r s : ClaimRow}
    (hr : d'.claimRow k₀ = some r) (hs : d.claimRow k = some s) (hrp : r.pending = true)
    (hsp : s.pending = true) (hprin : r.principalId = s.principalId)
    (hid : r.serviceId = s.serviceId) : k = k₀ := by
  have hkey : ∀ {j x}, d.claimRow j = some x → x.key = j := fun hx => Table.key_of_find? hx
  rcases h.own r hr hrp with hold | ⟨x, hx, hxp, hxprin, hxid, -⟩ | ⟨hfree, -⟩
  · have : r = s := hd r (Table.mem_of_find? hold) s (Table.mem_of_find? hs) hrp hsp hprin hid
    rw [← hkey hold, ← hkey hs, this]
  · have : x = s := hd x (Table.mem_of_find? hx) s (Table.mem_of_find? hs) hxp hsp
      (hxprin.trans hprin) (hxid.trans hid)
    rw [← hkey hx, ← hkey hs, this]
  · have hfalse := hfree s (Table.mem_of_find? hs)
    rw [blocks_iff.2 ⟨hprin.symm, hid.symm, hsp⟩] at hfalse
    exact absurd hfalse (by simp)

/-- **The freeze is kept by every transaction.** -/
theorem Moves.frozen (h : Moves d d' k₀) (hd : d.Frozen) : d'.Frozen := by
  have hfind : ∀ {r}, r ∈ d'.claims.rows → d'.claimRow r.key = some r := fun hr =>
    Table.find?_of_mem hr
  constructor
  · intro r hr s hs hrp hsp hprin hid
    have hr' := hfind hr
    have hs' := hfind hs
    have hkeys : r.key = s.key := by
      by_cases hrk : r.key = k₀
      · by_cases hsk : s.key = k₀
        · rw [hrk, hsk]
        · rw [hrk] at hr' ⊢
          exact (h.own_eq hd.single hr' (h.old hs' hsp hsk) hrp hsp hprin hid).symm
      · by_cases hsk : s.key = k₀
        · rw [hsk] at hs' ⊢
          exact h.own_eq hd.single hs' (h.old hr' hrp hrk) hsp hrp hprin.symm hid.symm
        · have : r = s := hd.single r (Table.mem_of_find? (h.old hr' hrp hrk)) s
            (Table.mem_of_find? (h.old hs' hsp hsk)) hrp hsp hprin hid
          rw [this]
    exact Table.eq_of_key hr hs hkeys
  · intro r hr n hn
    have hr' := hfind hr
    have hp := ClaimRow.pending_of_expectation hn
    have hkeep : d.claimRow r.key = some r →
        ∃ s, d'.service r.principalId r.serviceId = some s ∧ s.serviceRevision = n := fun hold => by
      rw [h.kept r.key r n hold hr' hn]
      exact hd.current r (Table.mem_of_find? hold) n hn
    by_cases hk : r.key = k₀
    · rcases h.own r (hk ▸ hr') hp with hold | ⟨-, -, -, -, -, hnone⟩ | ⟨-, hsame, hcurrent⟩
      · exact hkeep (hk ▸ hold)
      · exact absurd (hnone.symm.trans hn) (by simp)
      · rw [service, hsame]
        exact hcurrent n hn
    · exact hkeep (h.old hr' hp hk)

/-! ## Transactions on claims -/

theorem Recorded.eq_of_prepared {stored : RegistryAuthorityCommand} (h : Recorded d command)
    (hrow : d.claimRow command.key = some (.authority stored .prepared)) : stored = command := by
  rcases h with ⟨phase, hphase⟩ | ⟨t, ht⟩
  · rw [hphase] at hrow
    exact (ClaimRow.authority.inj (Option.some.inj hrow)).1.symm
  · rw [ht] at hrow
    exact absurd (Option.some.inj hrow) (by simp)

/-- Ending the claim of a held intent, which was prepared and is it no more. -/
theorem moves_of_ended {phase : ClaimPhase AuthorityResult} (hrec : Recorded d command)
    (hprepared : ∃ stored, d.claimRow command.key = some (.authority stored .prepared))
    (hended : d'.claimRow command.key = some (.authority command phase)) (hphase : phase ≠ .prepared)
    (hothers : ∀ k, k ≠ command.key →
      d'.claimRow k = d.claimRow k ∨ ∃ t, d'.claimRow k = some (.tombstoned t))
    (hkept : ∀ k r n, k ≠ command.key → d.claimRow k = some r → r.expectation = some n →
      d'.service r.principalId r.serviceId = d.service r.principalId r.serviceId) :
    Moves d d' command.key := by
  obtain ⟨stored, hstored⟩ := hprepared
  obtain rfl := hrec.eq_of_prepared hstored
  refine ⟨hothers, fun r hr hp => ?_, fun k r n hold hnew hn => ?_, fun c hc hold => ?_⟩
  · obtain rfl := Option.some.inj (hended.symm.trans hr)
    refine .inr (.inl ⟨_, hstored, rfl, rfl, rfl, ?_⟩)
    cases phase with
    | prepared => exact absurd rfl hphase
    | recoveryRequired => rfl
    | completed _ => rfl
  · refine hkept k r n (fun hk => ?_) hold hn
    subst hk
    obtain rfl := Option.some.inj (hstored.symm.trans hold)
    have hsame := ClaimRow.authority.inj (Option.some.inj (hended.symm.trans hnew))
    exact absurd hsame.2 hphase
  · rw [← hc] at hstored
    obtain rfl := hold.eq_of_prepared hstored
    exact .inl ⟨phase, hended⟩

/-- A claim with a revision, ended. -/
theorem Ends.moves {phase : ClaimPhase AuthorityResult} (h : Ends d d' command phase)
    (hd : d.Frozen) (hrec : Recorded d command) (hphase : phase ≠ .prepared)
    (hkind : command.kind ≠ .import_) : Moves d d' command.key := by
  refine moves_of_ended hrec h.prepared h.ended hphase (fun k hk => ?_) fun k r n hk hold hn => ?_
  · rcases h.others k hk with heq | ⟨-, t, -, -, -, ht⟩
    · exact .inl heq
    · exact .inr ⟨t, ht⟩
  · obtain ⟨stored, hstored⟩ := h.prepared
    obtain rfl := hrec.eq_of_prepared hstored
    obtain ⟨m, hm⟩ := expectation_prepared hkind
    by_cases hid : r.serviceId = stored.serviceId
    · have hone := hd.alone (Table.mem_of_find? hold) (Table.mem_of_find? hstored) hn hm hid
      have hkey : r.key = k := Table.key_of_find? hold
      exact absurd (hkey.symm.trans (by rw [hone]; rfl)) hk
    · rw [Database.service, Database.service, h.elsewhere _ hid]

/-- Recording a claim, after services were perhaps written. -/
theorem moves_insertClaim {m : Database} {r : ClaimRow} (h : m.insertClaim r = some d')
    (hclaims : m.claims = d.claims)
    (hr : r.pending = false ∨ m.services = d.services ∧ ∀ n, r.expectation = some n →
      ∃ s, d.service r.principalId r.serviceId = some s ∧ s.serviceRevision = n)
    (hkept : ∀ x ∈ d.claims.rows, ∀ n, x.expectation = some n →
      m.service x.principalId x.serviceId = d.service x.principalId x.serviceId) :
    Moves d d' r.key := by
  obtain ⟨hfresh, hself, hothers, hservices⟩ := insertClaim_eq_some h
  have hrow : ∀ k, m.claimRow k = d.claimRow k := fun k => by rw [claimRow, hclaims, claimRow]
  refine ⟨fun k hk => .inl ((hothers k hk).trans (hrow k)), fun x hx hp => ?_,
    fun k x n hold _ hn => ?_, fun c hc hold => ?_⟩
  · obtain rfl := Option.some.inj (hself.symm.trans hx)
    rcases hr with hfalse | ⟨hsame, hcurrent⟩
    · rw [hfalse] at hp
      exact absurd hp (by simp)
    · refine .inr (.inr ⟨fun y hy => ?_, hservices.trans hsame, hcurrent⟩)
      -- the index on pending claims has let the new one in
      by_contra hblocks
      rw [Bool.not_eq_false] at hblocks
      have hany : m.claims.rows.any (blocks r.principalId r.serviceId) = true :=
        List.any_eq_true.2 ⟨y, by rw [hclaims]; exact hy, hblocks⟩
      rw [insertClaim, if_pos (by rw [hp, hany]; rfl)] at h
      exact absurd h (by simp)
  · have hsame : d'.service x.principalId x.serviceId = m.service x.principalId x.serviceId := by
      rw [service, hservices, service]
    rw [hsame, hkept x (Table.mem_of_find? hold) n hn]
  · rw [hrow, ← hc] at hfresh
    rcases hold with ⟨phase, hphase⟩ | ⟨t, ht⟩
    · exact absurd (hfresh.symm.trans hphase) (by simp)
    · exact absurd (hfresh.symm.trans ht) (by simp)

/-- No authority intent is recorded under the key of a lifecycle claim. -/
theorem Recorded.not_lifecycle {i : LifecycleIntent} {phase : ClaimPhase Service}
    (h : Recorded d command) : d.claimRow command.key ≠ some (.lifecycle i phase) := by
  rcases h with ⟨phase, hphase⟩ | ⟨t, ht⟩
  · rw [hphase]
    simp
  · rw [ht]
    simp

/-- A written service that is no prepared claim's leaves theirs. -/
theorem service_set_of_ne {u : Service} {principal : PrincipalId} {id : Uuid} {m : Database}
    (hset : m.services = d.services.set u) (hid : id ≠ u.serviceId) :
    m.service principal id = d.service principal id := by
  rw [service, service, hset, Table.find?_set_of_ne hid]

/-- A completed lifecycle claim. -/
theorem Completes.moves {c : Completion} {u : Service} (h : Completes d d' c u) (hd : d.Frozen) :
    Moves d d' c.intent.key := by
  obtain ⟨hprepared, ⟨s, hs, -, hterminal⟩, saved, hsave, rfl⟩ := h
  obtain ⟨_, _, -, -, -, -, -, -, rfl⟩ := save_eq_saved hsave
  refine ⟨fun k hk => .inl (claimRow_endLifecycle_of_ne hk), fun r hr hp => ?_,
    fun k r n hold hnew hn => ?_, fun x hx hold => absurd (hx ▸ hprepared) hold.not_lifecycle⟩
  · rw [claimRow_endLifecycle_self (by exact hprepared)] at hr
    obtain rfl := Option.some.inj hr
    exact absurd hp (by simp [ClaimRow.pending])
  · have hk : k ≠ c.intent.key := fun hk => by
      rw [hk, claimRow_endLifecycle_self (by exact hprepared)] at hnew
      obtain rfl := Option.some.inj hnew
      exact absurd hn (by simp [ClaimRow.expectation])
    refine service_set_of_ne rfl fun hid => hk ?_
    have huid : u.serviceId = c.intent.serviceId :=
      (Service.terminal_eq_some hterminal).1.trans (Table.key_of_find? (service_eq_some.1 hs).1)
    have hone := hd.alone (Table.mem_of_find? hold) (Table.mem_of_find? hprepared) hn rfl
      (hid.trans huid)
    have hkey : r.key = k := Table.key_of_find? hold
    rw [← hkey, hone]
    rfl

/-- A lifecycle claim moved to recovery. -/
theorem Recovers.moves {i : LifecycleIntent} (h : Recovers d d' i) : Moves d d' i.key := by
  obtain ⟨hprepared, rfl⟩ := h
  refine ⟨fun k hk => .inl (claimRow_endLifecycle_of_ne hk), fun r hr _ => ?_, fun _ _ _ _ _ _ => rfl,
    fun x hx hold => absurd (hx ▸ hprepared) hold.not_lifecycle⟩
  rw [claimRow_endLifecycle_self hprepared] at hr
  obtain rfl := Option.some.inj hr
  exact .inr (.inl ⟨_, hprepared, rfl, rfl, rfl, rfl⟩)

/-! ## Admission -/

/-- **What authority admission can do**: leave the registry, or record the
command's claim, over a service at the revision it expects if it expects
one. An intent it hands out is on record. -/
def Admits (d d' : Database) (command : RegistryAuthorityCommand) (outcome : AuthorityOutcome) :
    Prop :=
  (d' = d ∧ ∀ c, outcome = .prepared c → d.claimRow c.key = some (.authority c .prepared)) ∨
    (outcome = .prepared command ∧ ∃ m, d.insertClaim (.authority command .prepared) = some m ∧
      d'.claims = m.claims ∧ d'.services = m.services ∧
      ∀ n, (ClaimRow.authority command .prepared).expectation = some n →
        ∃ s, d.service command.principalId command.serviceId = some s ∧ s.serviceRevision = n)

variable {outcome : AuthorityOutcome}

/-- An answer that hands out nothing. -/
theorem Admits.answered {o : AuthorityOutcome} (h : some (outcome, d) = some (o, d')) (hne : ∀ c, outcome ≠ .prepared c) :
    Admits d d' command o := by
  obtain ⟨rfl, rfl⟩ := Prod.mk.inj (Option.some.inj h)
  exact .inl ⟨rfl, fun c hc => absurd hc (hne c)⟩

theorem prepareService_admits (h : d.prepareService command = some (outcome, d')) :
    Admits d d' command outcome := by
  unfold prepareService at h
  split at h
  · rename_i s expected hs hexpected
    by_cases hrev : s.serviceRevision ≠ expected.1
    · rw [if_pos hrev] at h
      exact .answered h (by simp)
    rw [if_neg hrev] at h
    cases hblock : d.authorityBlocker command.principalId command.serviceId with
    | some blocker =>
      rw [hblock] at h
      exact .answered h fun c => authorityBlocker_ne_prepared hblock
    | none =>
      rw [hblock] at h
      dsimp only at h
      split_ifs at h with hsupported
      · obtain ⟨m, hm, heq⟩ := Option.map_eq_some_iff.1 h
        obtain ⟨rfl, rfl⟩ := Prod.mk.inj heq
        refine .inr ⟨rfl, m, hm, rfl, rfl, fun n hn => ⟨s, hs, ?_⟩⟩
        rw [ClaimRow.expectation, hexpected] at hn
        rw [not_not.1 hrev]
        exact Option.some.inj hn
      · exact .answered h (by simp)
  · exact .answered h (by simp)

theorem prepareImport_admits {c : ImportCommand} {now : Instant}
    (h : d.prepareImport c now = some (outcome, d')) : Admits d d' (.import_ c) outcome := by
  unfold prepareImport at h
  split_ifs at h with hbackend
  · exact .answered h (by simp)
  · split at h
    · exact .answered h (by simp)
    · obtain ⟨m, hm, h⟩ := Option.bind_eq_some_iff.1 h
      obtain ⟨identities, -, h⟩ := Option.bind_eq_some_iff.1 h
      obtain ⟨rfl, rfl⟩ := Prod.mk.inj (Option.some.inj h)
      refine .inr ⟨rfl, m, hm, rfl, rfl, fun n hn => absurd hn ?_⟩
      simp [ClaimRow.expectation, RegistryAuthorityCommand.expectedServiceRevision]

theorem resolveOrPrepare_admits {now : Instant}
    (h : d.resolveOrPrepare command now = some (outcome, d')) : Admits d d' command outcome := by
  unfold resolveOrPrepare at h
  cases hrow : d.claimRow command.key with
  | some row =>
    rw [hrow] at h
    obtain ⟨hout, rfl⟩ := Prod.mk.inj (Option.some.inj h)
    refine .inl ⟨rfl, fun c hc => ?_⟩
    obtain ⟨rfl, -, -⟩ := existingAuthorityClaim_prepared (hout.trans hc)
    have hkey : (ClaimRow.authority c .prepared).key = command.key := Table.key_of_find? hrow
    rw [ClaimRow.key_authority] at hkey
    rw [hkey, hrow]
  | none =>
    rw [hrow] at h
    cases command with
    | operational c => exact prepareService_admits h
    | export_ c => exact prepareService_admits h
    | purge c => exact prepareService_admits h
    | import_ c => exact prepareImport_admits h

theorem Admits.moves (h : Admits d d' command outcome) : Moves d d' command.key := by
  rcases h with ⟨rfl, -⟩ | ⟨-, m, hm, hclaims, hservices, hcurrent⟩
  · exact .refl d' _
  · have hmoves : Moves d m (ClaimRow.authority command .prepared).key :=
      moves_insertClaim hm rfl (.inr ⟨rfl, hcurrent⟩) fun _ _ _ _ => rfl
    exact hmoves.congr hclaims hservices

/-- An intent that is handed out is on record. -/
theorem Admits.recorded {c : RegistryAuthorityCommand} (h : Admits d d' command (.prepared c)) :
    Recorded d' c := by
  rcases h with ⟨rfl, hstored⟩ | ⟨heq, m, hm, hclaims, -, -⟩
  · exact .inl ⟨_, hstored c rfl⟩
  · obtain rfl := AuthorityOutcome.prepared.inj heq
    refine .inl ⟨.prepared, ?_⟩
    rw [claimRow, hclaims]
    exact (insertClaim_eq_some hm).2.1

/-! ## Requests of the service application -/

theorem toOption_eq_some {ε α : Type} {x : Except ε α} {a : α} (h : x.toOption = some a) :
    x = .ok a := by
  cases x with
  | error e => exact absurd h (by simp [Except.toOption])
  | ok b => rw [Option.some.inj h]

theorem completed_eq_ok {kind : NonLifecycleKind} {context : ApplicationContext}
    {key : IdempotencyKey} {fingerprint : String} {s : Service} {r : ServiceMetadata}
    (h : d.completed kind context key fingerprint s = .ok (r, d')) :
    ∃ row, row.key = (context.principalId, key) ∧ row.pending = false ∧
      d.insertClaim row = some d' := by
  unfold completed at h
  split at h
  · rename_i left hleft
    unfold completeNonLifecycle at hleft
    split_ifs at hleft
    refine ⟨_, rfl, rfl, hleft.trans ?_⟩
    unfold respond at h
    split at h
    · rw [(Prod.mk.inj (Except.ok.inj h)).2]
    · exact absurd h (by simp)
  · exact absurd h (by simp)

theorem replayed_eq_ok {kind : NonLifecycleKind} {context : ApplicationContext}
    {key : IdempotencyKey} {fingerprint : String} {r : ServiceMetadata}
    {onNew : Except ApplicationError (ServiceMetadata × Database)}
    (h : d.replayed kind context key fingerprint onNew = .ok (r, d')) :
    d' = d ∧ d.claimRow (context.principalId, key) ≠ none ∨
      d.claimRow (context.principalId, key) = none ∧ onNew = .ok (r, d') := by
  unfold replayed at h
  split at h
  · exact absurd h (by simp)
  · exact absurd h (by simp)
  · rename_i hstored
    split_ifs at h
    unfold respond at h
    split at h
    · refine .inl ⟨(Prod.mk.inj (Except.ok.inj h)).2.symm, fun hnone => ?_⟩
      rw [resolveNonLifecycle, hnone] at hstored
      exact absurd (Option.some.inj hstored) (by simp)
    · exact absurd h (by simp)
  · rename_i hnew
    refine .inr ⟨?_, h⟩
    unfold resolveNonLifecycle at hnew
    split at hnew
    · assumption
    · split_ifs at hnew
      · exact absurd (Option.some.inj hnew) (by simp)
      · split at hnew
        · split_ifs at hnew
          · exact absurd (Option.some.inj hnew) (by simp)
          · exact absurd (Option.some.inj hnew) (by simp)
        · exact absurd (Option.some.inj hnew) (by simp)

theorem insertService_eq_some {s : Service} (h : d.insertService s = some d') :
    d.services.find? s.serviceId = none ∧ d'.claims = d.claims ∧
      ∀ id, id ≠ s.serviceId → d'.services.find? id = d.services.find? id := by
  unfold insertService at h
  split_ifs at h
  obtain ⟨services, hservices, rfl⟩ := Option.map_eq_some_iff.1 h
  exact ⟨(Table.insert_eq_some.1 hservices).1, rfl, fun id hid => Table.find?_insert_of_ne hservices hid⟩

/-- An inserted service is no prepared claim's. -/
theorem insertService_kept {m : Database} {s : Service} (h : d.insertService s = some m)
    (hd : d.Frozen) : ∀ x ∈ d.claims.rows, ∀ n, x.expectation = some n →
      m.service x.principalId x.serviceId = d.service x.principalId x.serviceId := by
  intro x hx n hn
  obtain ⟨hfree, -, helse⟩ := insertService_eq_some h
  obtain ⟨u, hu, -⟩ := hd.current x hx n hn
  have hid : x.serviceId ≠ s.serviceId := fun hid => by
    rw [← hid, (service_eq_some.1 hu).1] at hfree
    exact absurd hfree (by simp)
  rw [service, service, helse _ hid]

theorem insertIdentity_eq_some {i : IdentityRow} (h : d.insertIdentity i = some d') :
    d'.claims = d.claims ∧ d'.services = d.services := by
  unfold insertIdentity at h
  split_ifs at h
  obtain ⟨identities, -, rfl⟩ := Option.map_eq_some_iff.1 h
  exact ⟨rfl, rfl⟩

theorem seed_moves {context : ApplicationContext} {c : SeedCommand} {id : Uuid} {now : Instant}
    {r : ServiceMetadata} (h : d.seed context c id now = .ok (r, d')) (hd : d.Frozen) :
    Moves d d' (context.principalId, c.idempotencyKey) := by
  rcases replayed_eq_ok h with ⟨rfl, -⟩ | ⟨-, h⟩
  · exact .refl d' _
  · split at h
    · obtain ⟨row, hkey, hpending, hinsert⟩ := completed_eq_ok h
      rw [← hkey]
      exact moves_insertClaim hinsert rfl (.inl hpending) fun _ _ _ _ => rfl
    · split at h
      · exact absurd h (by simp)
      · rename_i m hadd
        obtain ⟨added, hadded, hidentity⟩ := Option.bind_eq_some_iff.1 hadd
        obtain ⟨hclaims, hservices⟩ := insertIdentity_eq_some hidentity
        obtain ⟨row, hkey, hpending, hinsert⟩ := completed_eq_ok h
        rw [← hkey]
        refine moves_insertClaim hinsert (hclaims.trans (insertService_eq_some hadded).2.1)
          (.inl hpending) fun x hx n hn => ?_
        rw [← insertService_kept hadded hd x hx n hn, service, hservices, service]

/-- The design is one the application carries out: its key is new, and
the service awaits a design. -/
def Designs (d : Database) (context : ApplicationContext) (c : DesignCommand) (now : Instant) :
    Prop :=
  d.claimRow (context.principalId, c.idempotencyKey) = none ∧
    ∃ s, d.service context.principalId c.serviceId = some s ∧ awaitsDesign s = true ∧
      s.serviceRevision < MAX_SERVICE_REVISION ∧ ¬ now.before s.updatedAt

/-- A design that is carried out saves the designed service and records it. -/
theorem design_saved {context : ApplicationContext} {c : DesignCommand} {now : Instant}
    {r : ServiceMetadata} (h : d.design context c now = .ok (r, d')) :
    d' = d ∧ d.claimRow (context.principalId, c.idempotencyKey) ≠ none ∨
      Designs d context c now ∧ ∃ u m s, d.service context.principalId c.serviceId = some s ∧
        s.withDesign c.manifest now = some u ∧ d.save u s.serviceRevision = (m, some true) ∧
        m.completed .design context c.idempotencyKey (designFingerprint context c) u = .ok (r, d') := by
  replace h := replayed_eq_ok h
  rcases h with hreplay | ⟨hnew, h⟩
  · exact .inl hreplay
  · cases hs : d.service context.principalId c.serviceId with
    | none =>
      rw [hs] at h
      exact absurd h (by simp)
    | some s =>
      rw [hs] at h
      dsimp only at h
      unfold designService at h
      by_cases hstate : awaitsDesign s = true
      case neg =>
        rw [if_pos hstate] at h
        exact absurd h (by simp)
      rw [if_neg (not_not.2 hstate)] at h
      by_cases hmax : MAX_SERVICE_REVISION ≤ s.serviceRevision
      case pos =>
        rw [if_pos hmax] at h
        exact absurd h (by simp)
      rw [if_neg hmax] at h
      by_cases hearly : now.before s.updatedAt
      case pos =>
        rw [if_pos hearly] at h
        exact absurd h (by simp)
      rw [if_neg hearly] at h
      have hdesigns : Designs d context c now := ⟨hnew, s, hs, hstate, not_le.1 hmax, hearly⟩
      cases hchanged : s.withDesign c.manifest now with
      | none =>
        rw [hchanged] at h
        exact absurd h (by simp)
      | some u =>
        rw [hchanged] at h
        dsimp only at h
        split at h
        · rename_i m hsave
          exact .inr ⟨hdesigns, u, m, s, rfl, hchanged, hsave, h⟩
        · split_ifs at h
        · exact absurd h (by simp)

/-- **What a design can do**: replay, or save the designed service one
revision on and record its claim, which it does without a look at the
pending claims. -/
theorem design_cases {context : ApplicationContext} {c : DesignCommand} {now : Instant}
    {r : ServiceMetadata} (h : d.design context c now = .ok (r, d')) :
    d' = d ∧ d.claimRow (context.principalId, c.idempotencyKey) ≠ none ∨
      Designs d context c now ∧ ∃ (s u : Service) (m : Database) (row : ClaimRow),
      d.service context.principalId c.serviceId = some s ∧
      u.serviceId = c.serviceId ∧ u.principalId = context.principalId ∧
      u.manifest = some c.manifest ∧ u.serviceRevision = s.serviceRevision + 1 ∧
      m.claims = d.claims ∧ m.services = d.services.set u ∧
      row.key = (context.principalId, c.idempotencyKey) ∧ row.pending = false ∧
      m.insertClaim row = some d' := by
  rcases design_saved h with hreplay | ⟨hdesigns, u, m, s, hs, hu, hsave, hcompleted⟩
  · exact .inl hreplay
  · obtain ⟨hid, hprin, hmanifest, hrev⟩ := Service.withDesign_eq_some hu
    obtain ⟨hfind, howner⟩ := service_eq_some.1 hs
    obtain ⟨_, _, -, -, -, -, -, -, hsaved⟩ := save_eq_saved hsave
    obtain ⟨row, hkey, hpending, hinsert⟩ := completed_eq_ok hcompleted
    exact .inr ⟨hdesigns, s, u, m, row, hs, hid.trans (Table.key_of_find? hfind), hprin.trans howner, hmanifest,
      hrev, by rw [hsaved], by rw [hsaved], hkey, hpending, hinsert⟩

/-- A prepared claim of the service. -/
def preparedClaim (principal : PrincipalId) (id : Uuid) (r : ClaimRow) : Prop :=
  r.principalId = principal ∧ r.serviceId = id ∧ r.expectation.isSome = true

theorem design_moves {context : ApplicationContext} {c : DesignCommand} {now : Instant}
    {r : ServiceMetadata} (h : d.design context c now = .ok (r, d')) (hd : d.Frozen)
    (hheeds : Designs d context c now →
      ∀ x ∈ d.claims.rows, ¬ preparedClaim context.principalId c.serviceId x) :
    Moves d d' (context.principalId, c.idempotencyKey) := by
  rcases design_cases h with ⟨rfl, -⟩ | ⟨hdesigns, s, u, m, row, hs, hid, hprin, -, -, hclaims, hservices,
    hkey, hpending, hinsert⟩
  · exact .refl d' _
  · rw [← hkey]
    refine moves_insertClaim hinsert hclaims (.inl hpending) fun x hx n hn => ?_
    refine service_set_of_ne hservices fun hx' => ?_
    -- the service is the one that is designed, so the claim is prepared over a design
    obtain ⟨v, hv, -⟩ := hd.current x hx n hn
    obtain ⟨hv, howner⟩ := service_eq_some.1 hv
    obtain ⟨hs, hsowner⟩ := service_eq_some.1 hs
    rw [hx', hid, hs] at hv
    obtain rfl := Option.some.inj hv
    exact hheeds hdesigns x hx ⟨howner.symm.trans hsowner, hx'.trans hid, by rw [hn]; rfl⟩

/-- **A design carried out over a prepared claim breaks the freeze**, so the
condition on designs leaves out no run it need not. -/
theorem design_overtakes {context : ApplicationContext} {c : DesignCommand} {now : Instant}
    {r : ServiceMetadata} (h : d.design context c now = .ok (r, d')) (hd : d.Current)
    (hdesigns : Designs d context c now) {x : ClaimRow} (hx : x ∈ d.claims.rows)
    (hprepared : preparedClaim context.principalId c.serviceId x) : ¬ d'.Current := by
  rcases design_cases h with ⟨-, hold⟩ | ⟨-, s, u, m, row, hs, hid, hprin, -, hrev, hclaims, hservices,
    hkey, -, hinsert⟩
  · exact absurd hdesigns.1 hold
  · intro hcurrent
    obtain ⟨hxprin, hxid, hexp⟩ := hprepared
    obtain ⟨n, hn⟩ := Option.isSome_iff_exists.1 hexp
    obtain ⟨v, hv, hvn⟩ := hd x hx n hn
    rw [hxprin, hxid, hs] at hv
    obtain rfl := Option.some.inj hv
    obtain ⟨hfresh, -, hothers, hsame⟩ := insertClaim_eq_some hinsert
    have hrow : m.claimRow x.key = some x := by
      rw [claimRow, hclaims]
      exact Table.find?_of_mem hx
    have hne : x.key ≠ row.key := fun heq => by
      rw [← heq, hrow] at hfresh
      exact absurd hfresh (by simp)
    obtain ⟨w, hw, hwn⟩ := hcurrent x (Table.mem_of_find? ((hothers _ hne).trans hrow)) n hn
    have hu : d'.services.find? x.serviceId = some u := by
      rw [hsame, hservices, hxid, ← hid]
      exact Table.find?_set_self (by rw [hid]; exact (service_eq_some.1 hs).1)
    obtain rfl := Option.some.inj (hu.symm.trans (service_eq_some.1 hw).1)
    omega

/-! ## Publishing an import -/

theorem publishIdentity_eq_some {c : ImportCommand} {s : Service} (h : d.publishIdentity c s = some d') :
    d'.claims = d.claims ∧ d'.services = d.services := by
  unfold publishIdentity at h
  split at h
  · split at h
    · split_ifs at h
      obtain rfl := Option.some.inj h
      exact ⟨rfl, rfl⟩
    · exact absurd h (by simp)
  · exact absurd h (by simp)

theorem insertReceipt_eq_some {r : ReceiptRow} (h : d.insertReceipt r = some d') :
    d'.claims = d.claims ∧ d'.services = d.services := by
  unfold insertReceipt at h
  split_ifs at h
  obtain ⟨receipts, -, rfl⟩ := Option.map_eq_some_iff.1 h
  exact ⟨rfl, rfl⟩

/-- A claim ended after services were perhaps written. -/
theorem moves_endClaim {m : Database} {phase : ClaimPhase AuthorityResult}
    (h : m.endClaim command phase = some d') (hclaims : m.claims = d.claims)
    (hrec : Recorded d command) (hphase : phase ≠ .prepared)
    (hkept : ∀ x ∈ d.claims.rows, ∀ n, x.expectation = some n →
      m.service x.principalId x.serviceId = d.service x.principalId x.serviceId) :
    Moves d d' command.key := by
  obtain ⟨⟨stored, hstored⟩, rfl⟩ := endClaim_eq_some h
  refine moves_of_ended hrec ⟨stored, by rw [claimRow, ← hclaims]; exact hstored⟩
    (Table.find?_set_self (r := ClaimRow.authority command phase) hstored) hphase
    (fun k hk => .inl ?_) fun k r n _ hold hn => hkept r (Table.mem_of_find? hold) n hn
  rw [claimRow, claimRow, ← hclaims]
  exact Table.find?_set_of_ne (r := ClaimRow.authority command phase) hk

theorem publishImport_moves {c : ImportCommand} {s : Service} {r : TransferReceipt}
    {outcome : AuthorityOutcome} (h : d.publishImport c s r = some (outcome, d')) (hd : d.Frozen)
    (hrec : Recorded d (.import_ c)) : Moves d d' (RegistryAuthorityCommand.import_ c).key := by
  unfold publishImport at h
  split at h
  · exact absurd h (by simp)
  · split_ifs at h
    · obtain ⟨e, he, heq⟩ := Option.map_eq_some_iff.1 h
      obtain ⟨-, rfl⟩ := Prod.mk.inj heq
      exact moves_endClaim he rfl hrec (by simp) fun _ _ _ _ => rfl
    · obtain ⟨m, hm, h⟩ := Option.bind_eq_some_iff.1 h
      obtain ⟨p, hp, h⟩ := Option.bind_eq_some_iff.1 h
      obtain ⟨q, hq, h⟩ := Option.bind_eq_some_iff.1 h
      obtain ⟨e, he, heq⟩ := Option.map_eq_some_iff.1 h
      obtain ⟨-, rfl⟩ := Prod.mk.inj heq
      obtain ⟨hpclaims, hpservices⟩ := publishIdentity_eq_some hp
      obtain ⟨hqclaims, hqservices⟩ := insertReceipt_eq_some hq
      refine moves_endClaim he ((hqclaims.trans hpclaims).trans (insertService_eq_some hm).2.1) hrec
        (by simp) fun x hx n hn => ?_
      rw [← insertService_kept hm hd x hx n hn, service, hqservices, hpservices, service]
  · obtain ⟨-, rfl⟩ := Prod.mk.inj (Option.some.inj h)
    exact .refl d _

theorem markRecoveryRequired_moves {outcome : AuthorityOutcome}
    (h : d.markRecoveryRequired command = some (outcome, d')) (hrec : Recorded d command) :
    Moves d d' command.key := by
  unfold markRecoveryRequired at h
  split at h
  · exact absurd h (by simp)
  · obtain ⟨e, he, heq⟩ := Option.map_eq_some_iff.1 h
    obtain ⟨-, rfl⟩ := Prod.mk.inj heq
    exact moves_endClaim he rfl hrec (by simp) fun _ _ _ _ => rfl
  · obtain ⟨-, rfl⟩ := Prod.mk.inj (Option.some.inj h)
    exact .refl d _

end Database

/-! ## Runs -/

/-- The request is no design that the application carries out over a
prepared claim of the service. -/
def Heeds (w : Clients) : Request → Prop
  | .design context c now => w.database.Designs context c now →
      ∀ r ∈ w.database.claims.rows, ¬ Database.preparedClaim context.principalId c.serviceId r
  | _ => True

/-- What holds of the registry and its clients in every run. -/
structure Clients.Orderly (w : Clients) : Prop where
  frozen : w.database.Frozen
  recorded : ∀ c ∈ w.held, w.database.Recorded c

open Database in
/-- One transaction, whatever it is. -/
theorem Request.moves {w : Clients} {q : Request} {given : Option RegistryAuthorityCommand}
    {d' : Database} (h : q.run w.database = some (given, d')) (hw : w.Orderly) (hheeds : Heeds w q)
    (hheld : ∀ c ∈ q.intent, c ∈ w.held) :
    (∃ k, Moves w.database d' k) ∧ ∀ c ∈ given, d'.Recorded c := by
  have hrec : ∀ {c}, q.intent = some c → w.database.Recorded c := fun hc =>
    hw.recorded _ (hheld _ hc)
  cases q with
  | seed context c id now =>
    obtain ⟨⟨r, e⟩, hr, heq⟩ := Option.map_eq_some_iff.1 h
    obtain ⟨rfl, rfl⟩ := Prod.mk.inj heq
    exact ⟨⟨_, seed_moves (toOption_eq_some hr) hw.frozen⟩, fun c hc => absurd hc (by simp)⟩
  | design context c now =>
    obtain ⟨⟨r, e⟩, hr, heq⟩ := Option.map_eq_some_iff.1 h
    obtain ⟨rfl, rfl⟩ := Prod.mk.inj heq
    exact ⟨⟨_, design_moves (toOption_eq_some hr) hw.frozen hheeds⟩, fun c hc => absurd hc (by simp)⟩
  | resolveOrAdmit c =>
    obtain ⟨⟨outcome, e⟩, hr, heq⟩ := Option.map_eq_some_iff.1 h
    obtain ⟨rfl, rfl⟩ := Prod.mk.inj heq
    refine ⟨?_, fun c hc => absurd hc (by simp)⟩
    rcases resolveOrAdmit_cases hr with ⟨rfl, -⟩ | ⟨target, s, -, hinsert, hs, hadmitted⟩
    · exact ⟨c.key, .refl _ _⟩
    · refine ⟨_, moves_insertClaim hinsert rfl (.inr ⟨rfl, fun n hn => ⟨s, hs, ?_⟩⟩)
        fun _ _ _ _ => rfl⟩
      exact (sourceMatches_iff.1 hadmitted.matches_).2.2.2.1.trans (Option.some.inj hn)
  | finalizeCompleted c =>
    obtain ⟨⟨outcome, e⟩, hr, heq⟩ := Option.map_eq_some_iff.1 h
    obtain ⟨rfl, rfl⟩ := Prod.mk.inj heq
    refine ⟨⟨c.intent.key, ?_⟩, fun c hc => absurd hc (by simp)⟩
    rcases finalizeCompleted_cases hr with ⟨rfl, -⟩ | ⟨-, hrecovers, -⟩ | ⟨u, -, hcompletes⟩
    · exact .refl _ _
    · exact hrecovers.moves
    · exact hcompletes.moves hw.frozen
  | finalizeRecoveryRequired i =>
    obtain ⟨⟨outcome, e⟩, hr, heq⟩ := Option.map_eq_some_iff.1 h
    obtain ⟨rfl, rfl⟩ := Prod.mk.inj heq
    refine ⟨⟨i.key, ?_⟩, fun c hc => absurd hc (by simp)⟩
    rcases finalizeRecoveryRequired_cases hr with rfl | ⟨-, hrecovers⟩
    · exact .refl _ _
    · exact hrecovers.moves
  | resolveOrPrepare c now =>
    obtain ⟨⟨outcome, e⟩, hr, heq⟩ := Option.map_eq_some_iff.1 h
    obtain ⟨rfl, rfl⟩ := Prod.mk.inj heq
    have hadmits := resolveOrPrepare_admits hr
    refine ⟨⟨_, hadmits.moves⟩, fun x hx => ?_⟩
    cases outcome with
    | prepared y =>
      obtain rfl := Option.some.inj hx
      exact hadmits.recorded
    | _ => exact absurd hx (by simp [handed])
  | finalizeOperational c at_ =>
    obtain ⟨⟨outcome, e⟩, hr, heq⟩ := Option.map_eq_some_iff.1 h
    obtain ⟨rfl, rfl⟩ := Prod.mk.inj heq
    refine ⟨⟨(RegistryAuthorityCommand.operational c).key, ?_⟩, fun c hc => absurd hc (by simp)⟩
    rcases finalizeOperational_cases hr with rfl | ⟨phase, hphase, hends, -⟩
    · exact .refl _ _
    · exact hends.moves hw.frozen (hrec rfl) hphase (operation_ne_import c.kind)
  | completeExport c r =>
    obtain ⟨⟨outcome, e⟩, hr, heq⟩ := Option.map_eq_some_iff.1 h
    obtain ⟨rfl, rfl⟩ := Prod.mk.inj heq
    refine ⟨⟨(RegistryAuthorityCommand.export_ c).key, ?_⟩, fun c hc => absurd hc (by simp)⟩
    rcases completeExport_cases hr with rfl | ⟨phase, hphase, hends, -⟩
    · exact .refl _ _
    · exact hends.moves hw.frozen (hrec rfl) hphase (by simp [RegistryAuthorityCommand.kind])
  | publishImport c s r =>
    obtain ⟨⟨outcome, e⟩, hr, heq⟩ := Option.map_eq_some_iff.1 h
    obtain ⟨rfl, rfl⟩ := Prod.mk.inj heq
    exact ⟨⟨_, publishImport_moves hr hw.frozen (hrec rfl)⟩, fun c hc => absurd hc (by simp)⟩
  | finalizePurge c at_ =>
    obtain ⟨⟨outcome, e⟩, hr, heq⟩ := Option.map_eq_some_iff.1 h
    obtain ⟨rfl, rfl⟩ := Prod.mk.inj heq
    refine ⟨⟨(RegistryAuthorityCommand.purge c).key, ?_⟩, fun c hc => absurd hc (by simp)⟩
    rcases finalizePurge_cases hr with rfl | ⟨phase, hphase, hends, -⟩
    · exact .refl _ _
    · exact hends.moves hw.frozen (hrec rfl) hphase (by simp [RegistryAuthorityCommand.kind])
  | markRecoveryRequired c =>
    obtain ⟨⟨outcome, e⟩, hr, heq⟩ := Option.map_eq_some_iff.1 h
    obtain ⟨rfl, rfl⟩ := Prod.mk.inj heq
    exact ⟨⟨_, markRecoveryRequired_moves hr (hrec rfl)⟩, fun c hc => absurd hc (by simp)⟩

theorem Clients.Initial.orderly {w : Clients} (h : w.Initial) : w.Orderly := by
  obtain ⟨hidle, hheld⟩ := h
  refine ⟨⟨fun r hr _ _ hp => ?_, fun r hr n hn => ?_⟩, fun c hc => ?_⟩
  · rw [hidle r hr] at hp
    exact absurd hp (by simp)
  · have hp := ClaimRow.pending_of_expectation hn
    rw [hidle r hr] at hp
    exact absurd hp (by simp)
  · rw [hheld] at hc
    exact absurd hc (by simp)

/-- A step that heeds the prepared claims keeps the registry orderly. -/
theorem Clients.Orderly.step {w w' : Clients} {q : Request} (hw : w.Orderly) (hheeds : Heeds w q)
    (hstep : requests.step w q w') : w'.Orderly := by
  obtain ⟨hheld, given, hrun, hgiven⟩ := hstep
  obtain ⟨⟨k, hmoves⟩, hrecorded⟩ := Request.moves hrun hw hheeds hheld
  refine ⟨hmoves.frozen hw.frozen, fun c hc => ?_⟩
  rw [hgiven, List.mem_append, Option.mem_toList] at hc
  rcases hc with hnew | hold
  · exact hrecorded c hnew
  · exact hmoves.recorded_of (hw.recorded c hold)

theorem orderly_inductive : requests.Inductive Heeds Clients.Orderly :=
  ⟨fun _ h => h.orderly, fun _ _ _ hw hheeds hstep => hw.step hheeds hstep⟩

/-- A step that heeds the prepared claims and leaves one as it is. -/
def Holding (r : ClaimRow) (w w' : Clients) : Prop :=
  r ∈ w.database.claims.rows ∧ r ∈ w'.database.claims.rows ∧
    ∃ q, Heeds w q ∧ requests.step w q w'

/-- **The freeze of a prepared claim.** In every run in which no design
is carried out over a prepared claim a service has at most one pending
claim, a prepared claim finds its service at the revision it expects, and
the service stays as it is, its revision and its manifest with it, for as
long as the claim stays prepared. -/
theorem prepared_claim_freeze {w : Clients} (h : requests.ReachableUnder Heeds w) :
    w.database.OnePending ∧ w.database.Current ∧
      ∀ r ∈ w.database.claims.rows, ∀ n, r.expectation = some n →
        ∀ w', Relation.ReflTransGen (Holding r) w w' →
          w'.database.service r.principalId r.serviceId =
            w.database.service r.principalId r.serviceId := by
  have hw : w.Orderly := orderly_inductive.reachable h
  refine ⟨hw.frozen.single, hw.frozen.current, fun r _ n hn w' hrun => ?_⟩
  -- along the run the registry stays orderly, and each step keeps the service
  suffices hall : w'.Orderly ∧ w'.database.service r.principalId r.serviceId =
      w.database.service r.principalId r.serviceId from hall.2
  induction hrun with
  | refl => exact ⟨hw, rfl⟩
  | tail _ hstep ih =>
    obtain ⟨hbefore, hafter, q, hheeds, hq⟩ := hstep
    obtain ⟨hmid, hsame⟩ := ih
    have hnext := hmid.step hheeds hq
    obtain ⟨hheld, given, hgiven, -⟩ := hq
    obtain ⟨⟨k, hmoves⟩, -⟩ := Request.moves hgiven hmid hheeds hheld
    refine ⟨hnext, ?_⟩
    rw [← hsame]
    exact hmoves.kept r.key r n (Table.find?_of_mem hbefore) (Table.find?_of_mem hafter) hn

/-! ## A design over a prepared claim -/

namespace Overtaken

/-- A manifest of one entity without fields of its own. -/
def memoManifest : ManifestV2 where
  schemaVersion := 1
  entities := [{ name := "memo", attributes := SERVER_MANAGED_FIELDS }]
  valid := by decide

def memoId : Uuid := ⟨7, by decide, by decide⟩

def start : Instant := default

def context : ApplicationContext := ⟨⟨"bob", by decide⟩, ⟨"mcp", by decide⟩⟩

def seedMemos : SeedCommand :=
  ⟨⟨"memos", by decide⟩, ⟨"memos", by decide⟩, ⟨"memos", by decide⟩, ⟨"seed", by decide⟩⟩

def suspendMemos : OperationalLifecycleCommand :=
  ⟨.suspend, context.principalId, context.createdVia, memoId, ⟨1, by decide⟩, ⟨"suspend", by decide⟩⟩

def designMemos : DesignCommand := ⟨memoId, memoManifest, ⟨"design", by decide⟩, rfl, rfl⟩

/-- The service as it is seeded. -/
def memos : Service := .ofSeed context seedMemos memoId start

theorem second_revision : 1 ≤ 2 ∧ 2 ≤ MAX_SERVICE_REVISION := by decide

/-- The service as it is designed. -/
def designedMemos : Service :=
  { memos with manifest := some memoManifest, serviceRevision := 2, revision := second_revision, complete := by decide }

def seedClaim : ClaimRow :=
  .nonLifecycle ⟨.seed, context.principalId, seedMemos.idempotencyKey,
    seedFingerprint context seedMemos, memos, .inr (.inl rfl)⟩

theorem design_kind : OperationKind.design = .legacy ∨ OperationKind.design = .seed ∨ OperationKind.design = .design :=
  .inr (.inr rfl)

def suspendClaim (phase : ClaimPhase AuthorityResult) : ClaimRow :=
  .authority (.operational suspendMemos) phase

def designClaim : ClaimRow :=
  .nonLifecycle ⟨.design, context.principalId, designMemos.idempotencyKey,
    designFingerprint context designMemos, designedMemos, design_kind⟩

def empty : Database := ⟨.empty, .empty, .empty, .empty⟩

/-- The registry of the one service, with its claims. -/
def registry (s : Service) (claims : List ClaimRow) (h : (claims.map ClaimRow.key).Nodup) :
    Database where
  services := .single s
  claims := ⟨claims, h⟩
  identities := ⟨[⟨memoId, context.principalId, .live "memos" none⟩], List.nodup_singleton _⟩
  receipts := .empty

def seeded : Database := registry memos [seedClaim] (by decide)

def suspending : Database :=
  registry memos [suspendClaim .prepared, seedClaim] (by decide)

def overtaken : Database :=
  registry designedMemos [designClaim, suspendClaim .prepared, seedClaim] (by decide)

theorem seed_step : empty.seed context seedMemos memoId start = .ok (⟨memos, .clear⟩, seeded) := rfl

theorem suspend_step : seeded.resolveOrPrepare (.operational suspendMemos) start =
    some (.prepared (.operational suspendMemos), suspending) := rfl

theorem design_step : suspending.design context designMemos start =
    .ok (⟨designedMemos, .pending⟩, overtaken) := rfl

/-- The clients after each of the three requests. -/
def w₀ : Clients := ⟨empty, []⟩
def w₁ : Clients := ⟨seeded, []⟩
def w₂ : Clients := ⟨suspending, [.operational suspendMemos]⟩
def w₃ : Clients := ⟨overtaken, [.operational suspendMemos]⟩

/-- Requests up to the prepared claim. -/
theorem prepared_reachable : requests.ReachableUnder Heeds w₂ := by
  have h₀ : requests.ReachableUnder Heeds w₀ := .init ⟨by simp [w₀, empty, Table.empty], rfl⟩
  have h₁ : requests.ReachableUnder Heeds w₁ :=
    .step (l := .seed context seedMemos memoId start) h₀ trivial
      ⟨by simp [Request.intent], none, by rw [w₀, Request.run, seed_step]; rfl, rfl⟩
  exact .step (l := .resolveOrPrepare (.operational suspendMemos) start) h₁ trivial
    ⟨by simp [Request.intent], some (.operational suspendMemos),
      by rw [w₁, Request.run, suspend_step]; rfl, rfl⟩

/-- The design that is carried out over it. -/
theorem design_request : requests.step w₂ (.design context designMemos start) w₃ :=
  ⟨by simp [Request.intent], none, by rw [w₂, Request.run, design_step]; rfl, rfl⟩

end Overtaken

open Overtaken in
/-- The freeze where a suspension is prepared. -/
theorem prepared_claim_freeze_suspending :
    w₂.database.OnePending ∧ w₂.database.Current ∧
      w₂.database.service context.principalId memoId = some memos :=
  have h := prepared_claim_freeze prepared_reachable
  ⟨h.1, h.2.1, rfl⟩

open Overtaken in
/-- A design is carried out over a prepared claim, whose service then is
not at the revision the claim expects. -/
theorem design_overtakes_claim :
    ¬ ∀ w, requests.Reachable w → w.database.Current := by
  intro h
  have hreach : requests.Reachable w₃ := prepared_reachable.reachable.next design_request
  obtain ⟨s, hs, hrev⟩ := h w₃ hreach (suspendClaim .prepared)
    (by simp [w₃, overtaken, registry]) 1 rfl
  have hfound : w₃.database.service context.principalId memoId = some designedMemos := rfl
  obtain rfl := Option.some.inj (hfound.symm.trans hs)
  exact absurd hrev (by decide)

end Registry

end Aipcs

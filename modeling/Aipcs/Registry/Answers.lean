import Aipcs.Registry.Ledger

/-!
# Registry — what a claim answers

The first thing a command does is to ask for its claim. In every run the
answer is one of the typed outcomes, and the result that was stored is
the result that is answered, but for two kinds of row: a design recorded
of a service past its second revision, which is no design snapshot, and
the tombstone of a materialise or evolve claim asked for by its own
command, which has no intent to decode.
-/

namespace Aipcs

namespace Registry

open Relation (ReflTransGen)

/-! ## Commands and answers -/

/-- A command of any kind, with the context a seed or design is made in. -/
inductive Command where
  | seed (context : ApplicationContext) (c : SeedCommand)
  | design (context : ApplicationContext) (c : DesignCommand)
  | lifecycle (c : LifecycleCommand)
  | authority (c : RegistryAuthorityCommand)

/-- An outcome of any kind. -/
inductive Answer where
  | nonLifecycle (o : NonLifecycleOutcome)
  | lifecycle (o : LifecycleOutcome)
  | authority (o : AuthorityOutcome)

namespace Answer

/-- The stored result an outcome hands back. -/
def result : Answer → Option AuthorityResult
  | .nonLifecycle (.completed s) => some (.service s)
  | .lifecycle (.completed _ s) => some (.service s)
  | .authority (.completed _ r) => some r
  | _ => none

/-- The key is another command's. -/
def refused : Answer → Bool
  | .nonLifecycle .conflict | .lifecycle .conflict | .authority .conflict => true
  | _ => false

end Answer

namespace Command

def key : Command → PrincipalId × IdempotencyKey
  | .seed context c => (context.principalId, c.idempotencyKey)
  | .design context c => (context.principalId, c.idempotencyKey)
  | .lifecycle c => c.key
  | .authority c => c.key

def kind : Command → OperationKind
  | .seed _ _ => .seed
  | .design _ _ => .design
  | .lifecycle c => c.kind
  | .authority c => c.kind

def fingerprint : Command → String
  | .seed context c => seedFingerprint context c
  | .design context c => designFingerprint context c
  | .lifecycle c => c.fingerprint
  | .authority c => c.fingerprint

/-- The resolve step of a command: its answer and the database it leaves. -/
def resolve (d : Database) (now : Instant) : Command → Option (Answer × Database)
  | .seed context c =>
    (d.resolveNonLifecycle .seed context.principalId c.idempotencyKey (seedFingerprint context c)).map
      fun o => (.nonLifecycle o, d)
  | .design context c =>
    (d.resolveNonLifecycle .design context.principalId c.idempotencyKey (designFingerprint context c)).map
      fun o => (.nonLifecycle o, d)
  | .lifecycle c => (d.resolveOrAdmit c).map fun r => (.lifecycle r.1, r.2)
  | .authority c => (d.resolveOrPrepare c now).map fun r => (.authority r.1, r.2)

end Command

namespace ClaimRow

/-- A design recorded of a service at another revision than the second. -/
def outgrown : ClaimRow → Bool
  | .nonLifecycle c => c.kind = .design && c.result.serviceRevision ≠ 2
  | _ => false

end ClaimRow

/-- No authority command is of a kind of the earlier claim table. -/
theorem RegistryAuthorityCommand.kind_notMem_earlierKinds (c : RegistryAuthorityCommand) : c.kind ∉ earlierKinds := by
  cases c with
  | operational c => cases h : c.kind <;> simp [kind, h, OperationalLifecycleKind.operation, earlierKinds]
  | export_ _ => simp [kind, earlierKinds]
  | import_ _ => simp [kind, earlierKinds]
  | purge _ => simp [kind, earlierKinds]

namespace Database

variable {d d' : Database}

/-! ## Stored claims -/

/-- Of a recorded design the snapshot lacks nothing but perhaps its revision. -/
theorem Consistent.designSnapshot (h : d.Consistent) {c : NonLifecycleClaim} (hc : .nonLifecycle c ∈ d.claims.rows)
    (hkind : c.kind = .design) : designSnapshot c.result = decide (c.result.serviceRevision = 2) := by
  obtain ⟨-, hseeded, hactive, hversion, htimes⟩ := (h.sound c hc).2 hkind
  have hmanifest : c.result.manifest.isSome = true := by
    rw [Service.schemaVersion, Option.map_eq_some_iff] at hversion
    obtain ⟨m, hm, -⟩ := hversion
    rw [hm]
    rfl
  simp [Registry.designSnapshot, hseeded, hactive, hversion, htimes, hmanifest]

variable {kind : NonLifecycleKind} {principal : PrincipalId} {key : IdempotencyKey} {fingerprint : String} {r : ClaimRow}

/-- A seed or design is refused where the row is another command's. -/
theorem resolveNonLifecycle_refused (h : d.Consistent) (hr : d.claimRow (principal, key) = some r)
    (hother : r.fingerprint ≠ fingerprint ∨ r.operationKind ≠ kind.operation) :
    d.resolveNonLifecycle kind principal key fingerprint = some .conflict := by
  rw [resolveNonLifecycle, hr]
  dsimp only
  by_cases hprint : r.fingerprint ≠ fingerprint
  · rw [if_pos hprint]
  · rw [if_neg hprint]
    have hkind := hother.resolve_left hprint
    cases r with
    | lifecycle _ _ => rfl
    | authority _ _ => rfl
    | tombstoned _ => rfl
    | nonLifecycle c => exact if_pos ⟨(h.sound c (Table.mem_of_find? hr)).1, hkind⟩

/-- Its own row answers with the stored service, if it is a snapshot of one. -/
theorem resolveNonLifecycle_own (h : d.Consistent) {c : NonLifecycleClaim}
    (hr : d.claimRow (principal, key) = some (.nonLifecycle c)) (hprint : c.fingerprint = fingerprint)
    (hkind : c.kind = kind.operation) : d.resolveNonLifecycle kind principal key fingerprint =
      if (ClaimRow.nonLifecycle c).outgrown then none else some (.completed c.result) := by
  have hgate : ¬ (c.kind ≠ .legacy ∧ c.kind ≠ kind.operation) := fun hne => hne.2 hkind
  have hsame : ¬ (ClaimRow.nonLifecycle c).fingerprint ≠ fingerprint := not_not.2 hprint
  rw [resolveNonLifecycle, hr]
  dsimp only
  rw [if_neg hsame, if_neg hgate]
  by_cases hdesign : c.kind = .design
  · rw [h.designSnapshot (Table.mem_of_find? hr) hdesign]
    by_cases hrev : c.result.serviceRevision = 2 <;> simp [ClaimRow.outgrown, hrev, hdesign]
  · simp [ClaimRow.outgrown, hdesign]

/-- A tombstone answers a seed or design as a conflict. -/
theorem resolveNonLifecycle_tombstoned {t : TombstonedClaim}
    (hr : d.claimRow (principal, key) = some (.tombstoned t)) :
    d.resolveNonLifecycle kind principal key fingerprint = some .conflict := by
  rw [resolveNonLifecycle, hr]
  dsimp only
  split_ifs <;> rfl

/-- A seed or design fails on an outgrown row of its own, and on no other. -/
theorem resolveNonLifecycle_isSome (h : d.Consistent) :
    (d.resolveNonLifecycle kind principal key fingerprint).isSome = true ↔
      ∀ r, d.claimRow (principal, key) = some r → r.fingerprint = fingerprint →
        r.operationKind = kind.operation → r.outgrown = false := by
  cases hr : d.claimRow (principal, key) with
  | none => simp [resolveNonLifecycle, hr]
  | some r =>
    by_cases hother : r.fingerprint ≠ fingerprint ∨ r.operationKind ≠ kind.operation
    · rw [resolveNonLifecycle_refused h hr hother]
      refine iff_of_true rfl fun x hx hprint hkind => ?_
      obtain rfl := Option.some.inj hx
      rcases hother with hne | hne
      · exact absurd hprint hne
      · exact absurd hkind hne
    · obtain ⟨hprint, hkind⟩ := not_or.1 hother
      rw [not_not] at hprint hkind
      have hforall : (∀ x, some r = some x → x.fingerprint = fingerprint → x.operationKind = kind.operation →
          x.outgrown = false) ↔ r.outgrown = false :=
        ⟨fun hall => hall r rfl hprint hkind, fun hout x hx _ _ => Option.some.inj hx ▸ hout⟩
      rw [hforall]
      cases r with
      | nonLifecycle c =>
        rw [resolveNonLifecycle_own h hr hprint hkind]
        cases (ClaimRow.nonLifecycle c).outgrown <;> simp
      | tombstoned t =>
        rw [resolveNonLifecycle_tombstoned hr]
        exact iff_of_true rfl rfl
      | lifecycle i _ =>
        have hi : i.kind = kind.operation := hkind
        rcases i.lifecycle with hl | hl <;> cases kind <;> exact absurd (hl.symm.trans hi) (by decide)
      | authority a _ =>
        refine absurd ?_ a.kind_notMem_earlierKinds
        rw [show a.kind = kind.operation from hkind]
        cases kind <;> decide

/-- What a materialise or evolve command gets of a row. -/
theorem existingLifecycleClaim_isSome {c : LifecycleCommand} :
    (existingLifecycleClaim r c).isSome = true ↔
      (r.fingerprint = c.fingerprint → r.operationKind = c.kind → r.phase ≠ .tombstoned) := by
  unfold existingLifecycleClaim
  by_cases hgate : r.fingerprint ≠ c.fingerprint ∨ r.operationKind ≠ c.kind
  · rw [if_pos hgate]
    refine iff_of_true rfl fun hprint hkind => ?_
    rcases hgate with hne | hne
    · exact absurd hprint hne
    · exact absurd hkind hne
  · rw [if_neg hgate]
    obtain ⟨hprint, hkind⟩ := not_or.1 hgate
    rw [not_not] at hprint hkind
    match r with
    | .lifecycle i .prepared => simp [ClaimRow.phase]
    | .lifecycle i .recoveryRequired => simp [ClaimRow.phase]
    | .lifecycle i (.completed s) => simp [ClaimRow.phase]
    | .tombstoned t => simp [ClaimRow.phase, hprint, hkind]
    | .nonLifecycle n =>
      have hn : n.kind = c.kind := hkind
      rcases n.nonLifecycle with h | h | h <;> rcases c.kind_lifecycle with hc | hc <;>
        exact absurd ((h.symm.trans hn).trans hc) (by simp)
    | .authority a _ =>
      refine absurd ?_ a.kind_notMem_earlierKinds
      rw [show a.kind = c.kind from hkind]
      rcases c.kind_lifecycle with hc | hc <;> rw [hc] <;> decide

/-- A materialise or evolve command is refused where the row is another's. -/
theorem existingLifecycleClaim_refused {c : LifecycleCommand}
    (hother : r.fingerprint ≠ c.fingerprint ∨ r.operationKind ≠ c.kind) :
    existingLifecycleClaim r c = some .conflict := if_pos hother

/-- An authority command is refused where the row is another's. -/
theorem existingAuthorityClaim_refused {c : RegistryAuthorityCommand}
    (hother : r.fingerprint ≠ c.fingerprint ∨ r.operationKind ≠ c.kind) : existingAuthorityClaim r c = .conflict := by
  unfold existingAuthorityClaim
  by_cases hearly : r.operationKind ∈ earlierKinds
  · rw [if_pos hearly]
  · rw [if_neg hearly]
    cases r with
    | nonLifecycle _ => rfl
    | lifecycle _ _ => rfl
    | tombstoned t =>
      refine if_neg fun hsame => ?_
      rcases hother with hne | hne
      · exact hne hsame.1
      · exact hne hsame.2.1
    | authority stored phase => exact if_pos hother.symm

/-- Its own completed row answers with the stored result. -/
theorem existingAuthorityClaim_completed {c stored : RegistryAuthorityCommand} {result : AuthorityResult}
    (hprint : stored.fingerprint = c.fingerprint) (hkind : stored.kind = c.kind) :
    existingAuthorityClaim (.authority stored (.completed result)) c = .completed stored result := by
  have hlate : (ClaimRow.authority stored (.completed result)).operationKind ∉ earlierKinds :=
    stored.kind_notMem_earlierKinds
  rw [existingAuthorityClaim, if_neg hlate]
  exact if_neg fun hne => hne.elim (fun h => h hkind) fun h => h hprint

/-- A stored claim is answered and nothing is written. -/
theorem resolveOrAdmit_of_row {c : LifecycleCommand} (hr : d.claimRow c.key = some r) :
    d.resolveOrAdmit c = (existingLifecycleClaim r c).map fun outcome => (outcome, d) := by
  rw [resolveOrAdmit, hr]

theorem resolveOrPrepare_of_row {c : RegistryAuthorityCommand} {now : Instant} (hr : d.claimRow c.key = some r) :
    d.resolveOrPrepare c now = some (existingAuthorityClaim r c, d) := by
  unfold resolveOrPrepare
  rw [hr]

/-! ## New claims -/

/-- A claim is recorded where its key is free and nothing is pending. -/
theorem insertClaim_isSome (hfree : d.claimRow r.key = none)
    (hidle : ∀ x ∈ d.claims.rows, blocks r.principalId r.serviceId x = false) : (d.insertClaim r).isSome = true := by
  have hany : d.claims.rows.any (blocks r.principalId r.serviceId) = false :=
    List.any_eq_false.2 fun x hx => by simp [hidle x hx]
  obtain ⟨claims, hclaims⟩ : ∃ claims, d.claims.insert r = some claims := Table.insert_isSome hfree
  rw [insertClaim, hany, Bool.and_false, hclaims]
  rfl

/-- Nothing pending where nothing blocks a lifecycle command. -/
theorem lifecycleBlocker_eq_none {id : Uuid} (h : d.lifecycleBlocker principal id = none) :
    ∀ x ∈ d.claims.rows, blocks principal id x = false := by
  intro x hx
  by_contra hblocks
  rw [Bool.not_eq_false] at hblocks
  have hsome : (d.claims.rows.find? (blocks principal id)).isSome = true := List.find?_isSome.2 ⟨x, hx, hblocks⟩
  rw [lifecycleBlocker] at h
  split at h
  · exact absurd h (by simp)
  · exact absurd h (by simp)
  · rename_i hnone
    rw [hnone] at hsome
    exact absurd hsome (by simp)

theorem admitLifecycle_isSome {c : LifecycleCommand} (hfree : d.claimRow c.key = none) :
    (d.admitLifecycle c).isSome = true := by
  unfold admitLifecycle
  split
  · rfl
  · split_ifs
    · rfl
    · rfl
    · split
      · rfl
      · rename_i hblocker
        split
        · rfl
        · rw [Option.isSome_map]
          exact insertClaim_isSome hfree (lifecycleBlocker_eq_none hblocker)

theorem resolveOrAdmit_isSome {c : LifecycleCommand} : (d.resolveOrAdmit c).isSome = true ↔
    ∀ r, d.claimRow c.key = some r → r.fingerprint = c.fingerprint → r.operationKind = c.kind →
      r.phase ≠ .tombstoned := by
  unfold resolveOrAdmit
  cases hr : d.claimRow c.key with
  | some r =>
    dsimp only
    rw [Option.isSome_map, existingLifecycleClaim_isSome]
    exact ⟨fun h x hx => Option.some.inj hx ▸ h, fun h => h r rfl⟩
  | none => exact iff_of_true (admitLifecycle_isSome hr) fun x hx => absurd hx (by simp)

theorem prepareService_isSome {c : RegistryAuthorityCommand} (hfree : d.claimRow c.key = none) :
    (d.prepareService c).isSome = true := by
  unfold prepareService
  split
  · split_ifs
    · rfl
    · split
      · rfl
      · rename_i hblocker
        rw [Option.isSome_map]
        exact insertClaim_isSome hfree fun x hx => authorityBlocker_eq_none hblocker (Table.find?_of_mem hx)
    · split <;> rfl
  · rfl

theorem prepareImport_isSome {c : ImportCommand} {now : Instant} (h : d.Consistent)
    (hfree : d.claimRow (RegistryAuthorityCommand.import_ c).key = none) : (d.prepareImport c now).isSome = true := by
  unfold prepareImport
  split_ifs
  · rfl
  · split
    · rfl
    · rename_i hcollision
      have hid := (importCollision_eq_none hcollision).1
      obtain ⟨m, hm⟩ := Option.isSome_iff_exists.1 (insertClaim_isSome (r := .authority (.import_ c) .prepared) hfree
        fun x hx => by
          -- a claim of the id would have an identity
          by_contra hblocks
          rw [Bool.not_eq_false, blocks_iff] at hblocks
          obtain ⟨i, hi, -⟩ := h.ledger.claim x hx
          rw [hblocks.2.1] at hi
          exact absurd (hid.symm.trans hi) (by simp))
      obtain ⟨claims, -, rfl⟩ := insertClaim_eq_inserted hm
      obtain ⟨identities, hidentities⟩ := Table.insert_isSome (t := d.identities) (r := ⟨c.identity.serviceId,
        c.identity.principalId, .importPrepared c.identity.domainName.1 c.destinationBackend c.idempotencyKey now⟩) hid
      simp only [hm, hidentities, Option.bind_eq_bind, Option.bind_some, Option.isSome_some]

theorem resolveOrPrepare_isSome {c : RegistryAuthorityCommand} {now : Instant} (h : d.Consistent) :
    (d.resolveOrPrepare c now).isSome = true := by
  unfold resolveOrPrepare
  cases hr : d.claimRow c.key with
  | some row => rfl
  | none =>
    cases c with
    | import_ c => exact prepareImport_isSome h hr
    | operational c => exact prepareService_isSome hr
    | export_ c => exact prepareService_isSome hr
    | purge c => exact prepareService_isSome hr

end Database

/-! ## Runs -/

open Database

variable {d : Database} {r : ClaimRow}

theorem ClaimRow.result_isSome_iff : r.result.isSome = true ↔ r.phase = .completed := by
  match r with
  | .nonLifecycle _ => simp [result, phase]
  | .tombstoned _ => simp [result, phase]
  | .lifecycle _ .prepared => simp [result, phase]
  | .lifecycle _ .recoveryRequired => simp [result, phase]
  | .lifecycle _ (.completed _) => simp [result, phase]
  | .authority _ .prepared => simp [result, phase]
  | .authority _ .recoveryRequired => simp [result, phase]
  | .authority _ (.completed _) => simp [result, phase]

/-- Only a design's row is outgrown. -/
theorem ClaimRow.design_of_outgrown (h : r.outgrown = true) : r.operationKind = .design := by
  cases r with
  | nonLifecycle c =>
    simp only [outgrown, Bool.and_eq_true, decide_eq_true_eq] at h
    exact h.1
  | lifecycle _ _ => exact absurd h (by simp [outgrown])
  | authority _ _ => exact absurd h (by simp [outgrown])
  | tombstoned _ => exact absurd h (by simp [outgrown])

/-- **When a command is answered.** -/
theorem Command.resolve_isSome (h : d.Consistent) (q : Command) (now : Instant) :
    (q.resolve d now).isSome = true ↔ ∀ r, d.claimRow q.key = some r → r.fingerprint = q.fingerprint →
      r.operationKind = q.kind → r.outgrown = false ∧ ((∃ c, q = .lifecycle c) → r.phase ≠ .tombstoned) := by
  have hkept : q.kind ≠ .design → ∀ x : ClaimRow, x.operationKind = q.kind → x.outgrown = false :=
    fun hq x hkind => by
      by_contra hout
      rw [Bool.not_eq_false] at hout
      exact hq (hkind.symm.trans (ClaimRow.design_of_outgrown hout))
  cases q with
  | seed context c =>
    rw [resolve, Option.isSome_map, resolveNonLifecycle_isSome h]
    exact forall₄_congr fun _ _ _ _ => (and_iff_left (by simp)).symm
  | design context c =>
    rw [resolve, Option.isSome_map, resolveNonLifecycle_isSome h]
    exact forall₄_congr fun _ _ _ _ => (and_iff_left (by simp)).symm
  | lifecycle c =>
    have hc : c.kind ≠ .design := by rcases c.kind_lifecycle with hc | hc <;> simp [hc]
    rw [resolve, Option.isSome_map, resolveOrAdmit_isSome]
    refine forall₄_congr fun x _ _ hkind => ?_
    rw [and_iff_right (hkept hc x hkind)]
    exact ⟨fun hne _ => hne, fun hne => hne ⟨c, rfl⟩⟩
  | authority c =>
    have hc : c.kind ≠ .design := fun hc => c.kind_notMem_earlierKinds (by rw [hc]; decide)
    rw [resolve, Option.isSome_map]
    refine iff_of_true (resolveOrPrepare_isSome h) fun x _ _ hkind => ⟨hkept hc x hkind, by simp⟩

/-- **A completed claim of another command refuses.** -/
theorem Command.resolve_refused (h : d.Consistent) (q : Command) (now : Instant) (hr : d.claimRow q.key = some r)
    (hother : r.fingerprint ≠ q.fingerprint ∨ r.operationKind ≠ q.kind) :
    ∃ a, q.resolve d now = some (a, d) ∧ a.refused = true := by
  cases q with
  | seed context c =>
    exact ⟨.nonLifecycle .conflict, by rw [resolve, resolveNonLifecycle_refused h hr hother]; rfl, rfl⟩
  | design context c =>
    exact ⟨.nonLifecycle .conflict, by rw [resolve, resolveNonLifecycle_refused h hr hother]; rfl, rfl⟩
  | lifecycle c =>
    refine ⟨.lifecycle .conflict, ?_, rfl⟩
    rw [resolve, resolveOrAdmit_of_row hr, existingLifecycleClaim_refused hother]
    rfl
  | authority c =>
    refine ⟨.authority .conflict, ?_, rfl⟩
    rw [resolve, resolveOrPrepare_of_row hr, existingAuthorityClaim_refused hother]
    rfl

/-- **A completed claim answers its own command with what it stores**, unless it is outgrown. -/
theorem Command.resolve_completed (h : d.Consistent) (q : Command) (now : Instant) {result : AuthorityResult}
    (hr : d.claimRow q.key = some r) (hresult : r.result = some result) (hprint : r.fingerprint = q.fingerprint)
    (hkind : r.operationKind = q.kind) :
    (∃ a, q.resolve d now = some (a, d) ∧ a.result = some result) ↔ r.outgrown = false := by
  have hnon : ∀ {kind : NonLifecycleKind} {principal : PrincipalId} {key : IdempotencyKey} {c : NonLifecycleClaim},
      d.claimRow (principal, key) = some (.nonLifecycle c) → c.fingerprint = q.fingerprint →
      c.kind = kind.operation → result = .service c.result →
      ((∃ a, (d.resolveNonLifecycle kind principal key q.fingerprint).map (fun o => (Answer.nonLifecycle o, d)) =
        some (a, d) ∧ a.result = some result) ↔ (ClaimRow.nonLifecycle c).outgrown = false) := by
    rintro kind principal key c hc hcprint hckind rfl
    rw [resolveNonLifecycle_own h hc hcprint hckind]
    cases (ClaimRow.nonLifecycle c).outgrown with
    | true => simp
    | false => exact iff_of_true ⟨_, rfl, rfl⟩ rfl
  match r, hresult with
  | .nonLifecycle c, hresult =>
    have hc : c.kind = q.kind := hkind
    have hsame : result = .service c.result := (Option.some.inj hresult).symm
    cases q with
    | seed context x => exact hnon hr hprint hc hsame
    | design context x => exact hnon hr hprint hc hsame
    | lifecycle x =>
      rcases c.nonLifecycle with hn | hn | hn <;> rcases x.kind_lifecycle with hx | hx <;>
        exact absurd ((hn.symm.trans hc).trans hx) (by simp)
    | authority x =>
      refine absurd ?_ x.kind_notMem_earlierKinds
      rw [← show c.kind = x.kind from hc]
      rcases c.nonLifecycle with hn | hn | hn <;> rw [hn] <;> decide
  | .lifecycle i (.completed s), hresult =>
    have hi : i.kind = q.kind := hkind
    obtain rfl := Option.some.inj hresult
    refine iff_of_true ?_ rfl
    cases q with
    | lifecycle x =>
      have hown : existingLifecycleClaim (.lifecycle i (.completed s)) x = some (.completed i s) :=
        if_neg fun hne => hne.elim (fun hne => hne hprint) fun hne => hne hkind
      refine ⟨.lifecycle (.completed i s), ?_, rfl⟩
      rw [resolve, resolveOrAdmit_of_row hr, hown]
      rfl
    | seed _ _ => rcases i.lifecycle with hl | hl <;> exact absurd (hl.symm.trans hi) (by simp [kind])
    | design _ _ => rcases i.lifecycle with hl | hl <;> exact absurd (hl.symm.trans hi) (by simp [kind])
    | authority x =>
      refine absurd ?_ x.kind_notMem_earlierKinds
      rw [← show i.kind = x.kind from hi]
      rcases i.lifecycle with hl | hl <;> rw [hl] <;> decide
  | .authority stored (.completed answer), hresult =>
    have hstored : stored.kind = q.kind := hkind
    obtain rfl := Option.some.inj hresult
    refine iff_of_true ?_ rfl
    have hlate := stored.kind_notMem_earlierKinds
    cases q with
    | authority x =>
      refine ⟨.authority (.completed stored answer), ?_, rfl⟩
      rw [resolve, resolveOrPrepare_of_row hr, existingAuthorityClaim_completed hprint hkind]
      rfl
    | seed _ _ => exact absurd (by simp [hstored, kind, earlierKinds]) hlate
    | design _ _ => exact absurd (by simp [hstored, kind, earlierKinds]) hlate
    | lifecycle x =>
      refine absurd ?_ hlate
      rw [hstored]
      rcases x.kind_lifecycle with hx | hx <;> rw [kind, hx] <;> decide

/-- No design is carried out of a service past its first revision. -/
def FirstDesign (w : Clients) (q : Request) : Prop := ∀ n, q.DesignsAt w.database n → n = 2

/-- In runs of first designs no row is outgrown. -/
theorem not_outgrown_of_firstDesign {w : Clients} (h : registryRuns.ReachableUnder FirstDesign w) :
    ∀ r ∈ w.database.claims.rows, r.outgrown = false := by
  have hkept : w.Consistent ∧ w.database.Sound (· = 2) := by
    have hinductive : registryRuns.Inductive FirstDesign
        fun w => w.Consistent ∧ w.database.Sound (· = 2) := by
      refine ⟨fun w hw => ⟨consistent_inductive.init w hw, fun c hc => ?_⟩, fun w q w' hw hfirst hstep =>
        ⟨hw.1.step hstep, (hw.1.writes hstep).sound hfirst hw.1.database hw.2⟩⟩
      rw [hw.1] at hc
      exact absurd hc List.not_mem_nil
    exact hinductive.reachable h
  intro r hr
  cases r with
  | nonLifecycle c =>
    by_cases hkind : c.kind = .design
    · have hrev : c.result.serviceRevision = 2 := ((hkept.2 c hr).2 hkind).1
      simp [ClaimRow.outgrown, hrev]
    · simp [ClaimRow.outgrown, hkind]
  | lifecycle _ _ => rfl
  | authority _ _ => rfl
  | tombstoned _ => rfl

/-- **Claims evolve monotonically.** From every state of every run the
phase of a claim moves on only, its kind, service id and fingerprint stay,
and a completed claim stays as it is until it is a tombstone. Until then
a command of another kind or fingerprint is refused and changes nothing,
and a command of the claim's own gets the stored result exactly when the
claim is not outgrown, which it never is in a run of first designs. -/
theorem claims_monotone {w : Clients} (h : registryRuns.Reachable w) :
    (∀ w', Later w w' → ∀ k r, w.database.claimRow k = some r → ∃ s, w'.database.claimRow k = some s ∧
      ReflTransGen Phase.Moves r.phase s.phase ∧ s.operationKind = r.operationKind ∧ s.serviceId = r.serviceId ∧
      s.fingerprint = r.fingerprint ∧ (r.phase = .completed → s = r ∨ s.phase = .tombstoned)) ∧
    (∀ (q : Command) now r result, w.database.claimRow q.key = some r → r.result = some result →
      (r.fingerprint ≠ q.fingerprint ∨ r.operationKind ≠ q.kind →
        ∃ a, q.resolve w.database now = some (a, w.database) ∧ a.refused = true) ∧
      (r.fingerprint = q.fingerprint → r.operationKind = q.kind →
        ((∃ a, q.resolve w.database now = some (a, w.database) ∧ a.result = some result) ↔ r.outgrown = false))) ∧
    (registryRuns.ReachableUnder FirstDesign w → ∀ r ∈ w.database.claims.rows, r.outgrown = false) := by
  have hw := consistent_inductive.reachable h
  refine ⟨fun w' hlater k r hr => ?_, fun q now r result hr hresult => ⟨fun hother => ?_, fun hprint hkind => ?_⟩,
    not_outgrown_of_firstDesign⟩
  · obtain ⟨s, hs, hmove⟩ := (hw.laterWrites hlater).evolved hw.database hr
    obtain ⟨-, hkind, hid, hprint⟩ := hmove.keeps
    exact ⟨s, hs, hmove.onwards, hkind, hid, hprint, hmove.of_completed⟩
  · exact q.resolve_refused hw.database now hr hother
  · exact q.resolve_completed hw.database now hr hresult hprint hkind

/-! ## A design of a service that was suspended before -/

namespace Resumed

open Overtaken (memoId memoManifest context start designMemos memos second_revision design_kind suspendMemos seedClaim
  suspendClaim seeded suspending)
open Purged (third_revision fourth_revision holding seed_run)

def resumeMemos : OperationalLifecycleCommand :=
  ⟨.resume, context.principalId, context.createdVia, memoId, ⟨2, by decide⟩, ⟨"resume", by decide⟩⟩

/-- The service as it is suspended. -/
def suspendedMemos : Service :=
  { memos with operationalStatus := .suspended, serviceRevision := 2, revision := second_revision }

/-- The service as it is resumed. -/
def resumedMemos : Service := { memos with serviceRevision := 3, revision := third_revision }

/-- The service as it is designed, at its fourth revision. -/
def designedMemos : Service :=
  { Overtaken.designedMemos with serviceRevision := 4, revision := fourth_revision }

def resumeClaim (phase : ClaimPhase AuthorityResult) : ClaimRow := .authority (.operational resumeMemos) phase

def designClaim : ClaimRow :=
  .nonLifecycle ⟨.design, context.principalId, designMemos.idempotencyKey,
    designFingerprint context designMemos, designedMemos, design_kind⟩

def suspended : Database :=
  holding suspendedMemos [suspendClaim (.completed (.service suspendedMemos)), seedClaim] (by decide)

def resuming : Database := holding suspendedMemos
  [resumeClaim .prepared, suspendClaim (.completed (.service suspendedMemos)), seedClaim] (by decide)

def resumed : Database := holding resumedMemos
  [resumeClaim (.completed (.service resumedMemos)), suspendClaim (.completed (.service suspendedMemos)),
    seedClaim] (by decide)

def designed : Database := holding designedMemos
  [designClaim, resumeClaim (.completed (.service resumedMemos)),
    suspendClaim (.completed (.service suspendedMemos)), seedClaim] (by decide)

theorem suspend_run : (Request.resolveOrPrepare (.operational suspendMemos) start).run seeded =
    some (some (.operational suspendMemos), suspending) := rfl

theorem suspended_run : (Request.finalizeOperational suspendMemos start).run suspending = some (none, suspended) := by
  have h : suspending.finalizeOperational suspendMemos start =
      some (.completed (.operational suspendMemos) (.service suspendedMemos), suspended) :=
    @finalizeOperational_of_prepared _ (holding suspendedMemos suspending.claims.rows suspending.claims.keyed)
      _ _ _ rfl rfl rfl
  rw [Request.run, h]
  rfl

theorem resume_run : (Request.resolveOrPrepare (.operational resumeMemos) start).run suspended =
    some (some (.operational resumeMemos), resuming) := rfl

theorem resumed_run : (Request.finalizeOperational resumeMemos start).run resuming = some (none, resumed) := by
  have h : resuming.finalizeOperational resumeMemos start =
      some (.completed (.operational resumeMemos) (.service resumedMemos), resumed) :=
    @finalizeOperational_of_prepared _ (holding resumedMemos resuming.claims.rows resuming.claims.keyed)
      _ _ _ rfl rfl rfl
  rw [Request.run, h]
  rfl

theorem design_run : (Request.design context designMemos start).run resumed = some (none, designed) := rfl

def clients : Clients := ⟨designed, [.operational resumeMemos, .operational suspendMemos]⟩

/-- A service seeded, suspended, resumed and then designed. -/
theorem reachable : registryRuns.Reachable clients := by
  have h : registryRuns.Reachable ⟨fresh, []⟩ := .init ⟨rfl, rfl⟩
  have h := h.next (Request.step_of_run seed_run (by simp [Request.intent]))
  have h := h.next (Request.step_of_run suspend_run (by simp [Request.intent]))
  have h := h.next (Request.step_of_run suspended_run (by simp [Request.intent]))
  have h := h.next (Request.step_of_run resume_run (by simp [Request.intent]))
  have h := h.next (Request.step_of_run resumed_run (by simp [Request.intent]))
  exact h.next (Request.step_of_run design_run (by simp [Request.intent]))

end Resumed

open Resumed in
/-- What the claims of such a service become. -/
theorem claims_monotone_resumed : registryRuns.Reachable clients ∧ ∀ w', Later clients w' →
    ∃ s, w'.database.claimRow designClaim.key = some s ∧ (s = designClaim ∨ s.phase = .tombstoned) := by
  refine ⟨reachable, fun w' hlater => ?_⟩
  obtain ⟨s, hs, -, -, -, -, hstays⟩ := (claims_monotone reachable).1 w' hlater designClaim.key designClaim rfl
  exact ⟨s, hs, hstays rfl⟩

open Resumed in
/-- Its design is not answered with the result that was stored. -/
theorem resumed_design_unanswered : ¬ ∀ w, registryRuns.Reachable w → ∀ (q : Command) now r result,
    w.database.claimRow q.key = some r → r.result = some result → r.fingerprint = q.fingerprint →
      r.operationKind = q.kind →
        ∃ a, q.resolve w.database now = some (a, w.database) ∧ a.result = some result := by
  intro h
  have hconsistent := (consistent_inductive.reachable reachable).database
  have hanswer := h clients reachable (.design Overtaken.context Overtaken.designMemos) Overtaken.start designClaim
    (.service designedMemos) rfl rfl rfl rfl
  rw [Command.resolve_completed hconsistent _ _ rfl rfl rfl rfl] at hanswer
  exact absurd hanswer (by decide)

end Registry

end Aipcs

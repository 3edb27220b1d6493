import Aipcs.Coordinator.Agreement
import Aipcs.Transfer.Identities
import Aipcs.Transfer.Import

/-!
# Transfer — what is published has been observed

A service is published after its store has been observed, in another
transaction. Until then its identity is reserved, so no run of the
coordinator acts on the store; its fence is closed, so no data command
does; and it holds logical state, so no other import does. What is there
when the service appears is what the import has observed
(`published_observed`).
-/

namespace Aipcs

namespace Transfer

open Manifest Records Registry Store Coordinator Data

/-! ## The coordinator's other runs -/

/-- The intent that a run acts on. -/
def runIntent : RunState → Option RegistryAuthorityCommand
  | .outside => none
  | .observing c _ _ | .changing c _ _ _ | .rereading c _ _ | .finalizing c => some (.operational c)
  | .recovering command => some command
  | .exportReading _ c _ | .exportSnapshot _ c _ _ | .exportEncoding _ c _ | .exportVerifying _ c _ _ _ _
  | .exportRechecking _ c _ _ _ | .exportCompleting c _ _ _ => some (.export_ c)
  | .purging c _ | .removing c _ | .checkingAbsent c _ | .confirming c _ | .finalizingPurge c => some (.purge c)

/-- The service whose store a run acts on. -/
def runService : RunState → Option Service
  | .observing _ s _ | .changing _ s _ _ | .rereading _ s _ | .purging _ s | .removing _ s | .checkingAbsent _ s
  | .confirming _ s => some s
  | _ => none

/-- What a step of a run can do: one request of the registry, on the run's
own intent or for a new one, and a change of the store of its service. -/
structure Advances (g : Coordinator.Shared) (r : RunState) (granted : Option RegistryAuthorityCommand)
    (g' : Coordinator.Shared) (r' : RunState) : Prop where
  registry : g'.registry = g.registry ∧ granted = none ∨ ∃ q : Registry.Request,
    q.run g.registry = some (granted, g'.registry) ∧ (∀ c ∈ q.intent, c ∈ runIntent r) ∧
      ∀ c s receipt, q ≠ .publishImport c s receipt
  stores : ∀ id, g'.stores id ≠ g.stores id → ∃ s ∈ runService r, s.serviceId = id
  intent : ∀ c ∈ runIntent r', c ∈ runIntent r ∨ c ∈ granted
  service : ∀ s ∈ runService r', s ∈ runService r ∨ g'.registry.services.find? s.serviceId = some s

section advances

variable {g g' : Coordinator.Shared} {r r' : RunState} {e : Event}

/-- A step that leaves the registry and the stores. -/
theorem Advances.move (hintent : ∀ c ∈ runIntent r', c ∈ runIntent r)
    (hservice : ∀ s ∈ runService r', s ∈ runService r) : Advances g r none g r' where
  registry := .inl ⟨rfl, rfl⟩
  stores _ h := absurd rfl h
  intent c hc := .inl (hintent c hc)
  service s hs := .inl (hservice s hs)

theorem Advances.stop : Advances g r none g .outside :=
  .move (fun _ h => absurd h (Option.not_mem_none _)) fun _ h => absurd h (Option.not_mem_none _)

/-- A run's last transaction. -/
theorem Advances.terminal {operation : Option (AuthorityOutcome × Database)} {fate : Fate} {q : Registry.Request}
    (hop : ∀ outcome left, operation = some (outcome, left) → q.run g.registry = some (none, left))
    (hintent : ∀ c ∈ q.intent, c ∈ runIntent r) (hq : ∀ c s receipt, q ≠ .publishImport c s receipt) :
    Advances g r none (Coordinator.terminal g operation fate) .outside := by
  rcases terminal_cases g operation fate with heq | ⟨outcome, left, hsome, heq⟩
  · rw [heq]
    exact .stop
  · rw [heq]
    exact ⟨.inr ⟨q, hop outcome left hsome, hintent, hq⟩, fun _ h => absurd rfl h,
      fun _ h => absurd h (Option.not_mem_none _), fun _ h => absurd h (Option.not_mem_none _)⟩

/-- A call on the store of the run's service. -/
theorem Advances.call {s : Service} {left : Option WriteAdmissionFence} {fate : Fate} (hs : s ∈ runService r)
    (hintent : ∀ c ∈ runIntent r', c ∈ runIntent r) (hservice : ∀ s ∈ runService r', s ∈ runService r) :
    Advances g r none (storeCall g s.serviceId left fate) r' where
  registry := .inl ⟨storeCall_registry, rfl⟩
  stores id h := by
    by_contra hne
    exact h (storeCall_elsewhere fun heq => hne ⟨s, hs, heq⟩)
  intent c hc := .inl (hintent c hc)
  service s hs := .inl (hservice s hs)

/-- A run begins with its intent, and on the service that the intent names. -/
theorem runIntent_firstStep {backend : StorageBackend} {request c : RegistryAuthorityCommand} {s : Service} :
    (∀ c' ∈ runIntent (Coordinator.firstStep backend request c s), c' = c) ∧
      ∀ s' ∈ runService (Coordinator.firstStep backend request c s), s' = s := by
  unfold Coordinator.firstStep
  split
  · split
    · simp [runIntent, runService]
    · split_ifs <;> simp [runIntent, runService]
  · split_ifs <;> simp [runIntent, runService]
  · split_ifs <;> simp [runIntent, runService]
  · simp [runIntent, runService]

/-- The transaction of `_admit`. -/
theorem run_of_admitted {d prepared : Database} {request c : RegistryAuthorityCommand} {now : Instant} {s : Service}
    (h : Coordinator.admitted d request now = some (c, s, prepared)) :
    (Registry.Request.resolveOrPrepare request now).run d = some (some c, prepared) := by
  unfold Coordinator.admitted at h
  split at h
  · rename_i c' prepared' hres
    obtain ⟨u, -, heq⟩ := Option.map_eq_some_iff.1 h
    obtain ⟨rfl, hpair⟩ := Prod.mk.inj heq
    obtain ⟨-, rfl⟩ := Prod.mk.inj hpair
    rw [Request.run, hres]
    rfl
  · exact absurd h (by simp)

/-- A run that is admitted goes on with its intent, on a service of the registry. -/
theorem Advances.admitted {request c : RegistryAuthorityCommand} {now : Instant} {s : Service} {prepared : Database}
    (hkind : request.kind ≠ .import_) (hadm : Coordinator.admitted g.registry request now = some (c, s, prepared))
    (hintent : ∀ c' ∈ runIntent r', c' = c) (hservice : ∀ s' ∈ runService r', s' = s) :
    Advances g .outside (some c) { g with registry := prepared } r' := by
  obtain ⟨-, -, hs, -⟩ := admitted_cases hkind hadm
  have hfind : prepared.services.find? s.serviceId = some s := by
    have hrow := (Database.service_eq_some.1 hs).1
    rwa [Table.key_of_find? hrow]
  refine ⟨.inr ⟨_, run_of_admitted hadm, fun _ hc => absurd hc (Option.not_mem_none _), by simp⟩,
    fun _ hne => absurd rfl hne, fun c' hc' => .inr ?_, fun s' hs' => .inr ?_⟩
  · rw [hintent c' hc']
    exact rfl
  · rw [hservice s' hs']
    exact hfind

/-- **What a step of a run can do.** -/
theorem advances_of_advance {backend : StorageBackend} (h : advance backend g r e = some (g', r')) :
    Advances g r (grantedRun g.registry r e) g' r' := by
  unfold advance at h
  split at h
  -- crash
  · obtain ⟨rfl, rfl⟩ := Prod.mk.inj (Option.some.inj h)
    have hnone : grantedRun g.registry r .crash = none := by cases r <;> rfl
    rw [hnone]
    exact .stop
  -- admission
  · rename_i request now fate
    split_ifs at h with hkind
    rw [grantedRun]
    split at h
    · rename_i c s prepared hadm
      rw [hadm]
      split at h <;> obtain ⟨rfl, rfl⟩ := Prod.mk.inj (Option.some.inj h)
      · exact .admitted hkind hadm runIntent_firstStep.1 runIntent_firstStep.2
      · exact .admitted hkind hadm (fun _ hc => absurd hc (Option.not_mem_none _))
          fun _ hs => absurd hs (Option.not_mem_none _)
      · exact .stop
    · rename_i hadm
      obtain ⟨rfl, rfl⟩ := Prod.mk.inj (Option.some.inj h)
      rw [hadm]
      split <;> exact .stop
  -- `transition`
  · split at h <;> obtain ⟨rfl, rfl⟩ := Prod.mk.inj (Option.some.inj h)
    · split
      · exact .move (fun _ => id) fun _ => id
      · exact .stop
    · exact .stop
  · split at h <;> obtain ⟨rfl, rfl⟩ := Prod.mk.inj (Option.some.inj h)
    · split_ifs
      · exact .call rfl (fun _ => id) fun _ => id
      · exact .call rfl (fun _ => id) fun _ hs => absurd hs (Option.not_mem_none _)
      · exact .call rfl (fun _ => id) fun _ hs => absurd hs (Option.not_mem_none _)
    · exact .move (fun _ => id) fun _ => id
  · split at h <;> obtain ⟨rfl, rfl⟩ := Prod.mk.inj (Option.some.inj h)
    · split
      · exact .move (fun _ => id) fun _ hs => absurd hs (Option.not_mem_none _)
      · exact .stop
    · exact .stop
  · rename_i c at_ fate
    obtain ⟨rfl, rfl⟩ := Prod.mk.inj (Option.some.inj h)
    exact .terminal (q := .finalizeOperational c at_) (fun outcome left hop => by rw [Request.run, hop]; rfl)
      (fun _ => id) (by simp)
  · rename_i command at_ fate
    obtain ⟨rfl, rfl⟩ := Prod.mk.inj (Option.some.inj h)
    exact .terminal (q := .markRecoveryRequired command) (fun outcome left hop => by rw [Request.run, hop]; rfl)
      (fun _ => id) (by simp)
  -- `export`
  · split at h <;> obtain ⟨rfl, rfl⟩ := Prod.mk.inj (Option.some.inj h)
    · split_ifs
      · exact .move (fun _ => id) fun _ => id
      · exact .move (fun _ => id) fun _ => id
      · exact .stop
    · exact .stop
  · split at h
    · obtain ⟨rfl, rfl⟩ := Prod.mk.inj (Option.some.inj h)
      exact .stop
    · split at h <;> obtain ⟨rfl, rfl⟩ := Prod.mk.inj (Option.some.inj h)
      · exact .move (fun _ => id) fun _ => id
      · exact .move (fun _ => id) fun _ => id
      · exact .stop
  · split at h <;> obtain ⟨rfl, rfl⟩ := Prod.mk.inj (Option.some.inj h)
    · exact .move (fun _ => id) fun _ => id
    · exact .move (fun _ => id) fun _ => id
    · exact .stop
  · split at h <;> obtain ⟨rfl, rfl⟩ := Prod.mk.inj (Option.some.inj h)
    · split_ifs
      · exact .move (fun _ => id) fun _ => id
      · exact .move (fun _ => id) fun _ => id
      · exact .stop
    · exact .stop
  · split at h <;> obtain ⟨rfl, rfl⟩ := Prod.mk.inj (Option.some.inj h)
    · split_ifs
      · exact .move (fun _ => id) fun _ => id
      · exact .move (fun _ => id) fun _ => id
      · exact .stop
    · exact .stop
  · rename_i c s root at_ receiptId fate
    split at h <;> obtain ⟨rfl, rfl⟩ := Prod.mk.inj (Option.some.inj h)
    · exact .terminal (q := .completeExport c _) (fun outcome left hop => by rw [Request.run, hop]; rfl)
        (fun _ => id) (by simp)
    · exact .move (fun _ => id) fun _ => id
  -- `purge`
  · split at h <;> obtain ⟨rfl, rfl⟩ := Prod.mk.inj (Option.some.inj h) <;> split <;>
      exact .move (fun _ => id) fun _ => id
  · obtain ⟨rfl, rfl⟩ := Prod.mk.inj (Option.some.inj h)
    split <;> exact .call rfl (fun _ => id) fun _ => id
  · obtain ⟨rfl, rfl⟩ := Prod.mk.inj (Option.some.inj h)
    split
    · exact .move (fun _ => id) fun _ => id
    · exact .stop
  · obtain ⟨rfl, rfl⟩ := Prod.mk.inj (Option.some.inj h)
    split
    · exact .move (fun _ => id) fun _ hs => absurd hs (Option.not_mem_none _)
    · exact .stop
  · rename_i c at_ fate
    obtain ⟨rfl, rfl⟩ := Prod.mk.inj (Option.some.inj h)
    exact .terminal (q := .finalizePurge c at_) (fun outcome left hop => by rw [Request.run, hop]; rfl)
      (fun _ => id) (by simp)
  · exact absurd h (by simp)

end advances

/-! ## Imports -/

/-- The intent that an import acts on. -/
def importIntent : ImportState → Option ImportCommand
  | .outside => none
  | .migrating c _ | .inserting c _ | .comparing c _ | .excusing c _ | .observing c _ | .publishing c _
  | .recovering c => some c

/-- What a store holds of a bundle once it is there: the fence of the
export, which is closed, and the members. -/
structure Holds (content : PortableBundleContent) (x : StoreRows) : Prop where
  fence : x.fence = content.exportFence
  closed : x.found.state = .closed
  members : ∃ m read, content.service.manifest = some m ∧
    snapshotMembers .sqlite (compileRecordSpecification m) (fun g h => g ≤ h) content.service.principalId.1 x.content =
      some read ∧ List.Forall₂ (fun a b => equalMembers a b = true) read content.members

theorem holds_of_observed {content : PortableBundleContent} {store : Option StoreRows}
    (h : observed content store = true) : ∃ x, store = some x ∧ Holds content x := by
  unfold observed at h
  split at h
  · rename_i m fence x hm hfence
    simp only [Bool.and_eq_true, decide_eq_true_eq] at h
    obtain ⟨⟨hclosed, hfound⟩, hobserve⟩ := h
    have hmanifest : content.service.manifest = some m := by
      unfold source at hm
      split_ifs at hm
      exact hm
    rw [observeMembers, Bool.and_eq_true, Option.any_eq_true] at hobserve
    obtain ⟨-, read, hread, hequal⟩ := hobserve
    refine ⟨x, rfl, ?_, by rw [hfound, hclosed], m, read, hmanifest, hread, listEqual_iff.1 hequal⟩
    -- a store without a fence of its own has an open one
    rw [hfence]
    unfold StoreRows.found at hfound
    cases hrow : x.fence with
    | none =>
      rw [hrow, Option.getD_none] at hfound
      rw [← hfound] at hclosed
      exact absurd hclosed (by decide)
    | some f =>
      rw [hrow, Option.getD_some] at hfound
      rw [hfound]
  · exact absurd h (by simp)

/-- No import takes a store that holds a bundle for an empty one. -/
theorem Holds.logical {content : PortableBundleContent} {x : StoreRows} (h : Holds content x) :
    x.hasLogicalState = true := by
  have hsome : x.fence.isSome = true := by
    cases hrow : x.fence with
    | none =>
      have hclosed := h.closed
      rw [StoreRows.found, hrow] at hclosed
      exact absurd hclosed (by decide)
    | some f => rfl
  rw [StoreRows.hasLogicalState, hsome]
  simp

/-- What a step of an import can do. -/
structure Imports (g : Shared) (r : ImportState) (granted : Option RegistryAuthorityCommand) (g' : Shared)
    (r' : ImportState) : Prop where
  registry : g'.registry = g.registry ∧ granted = none ∨ ∃ q : Registry.Request,
    q.run g.registry = some (granted, g'.registry) ∧ (∀ c ∈ q.intent, ∃ i ∈ importIntent r, c = .import_ i) ∧
    ∀ c s receipt, q = .publishImport c s receipt → ∃ content, r = .publishing c content ∧ s = content.service ∧
      g'.stores = g.stores
  stores : ∀ id x, g.stores id = some x → x.hasLogicalState = true → g'.stores id = some x
  intent : ∀ c ∈ importIntent r', c ∈ importIntent r ∨ .import_ c ∈ granted
  publishing : ∀ c content, r' = .publishing c content → content.service.designState = .materialised →
    observed content (g'.stores content.service.serviceId) = true

section imports

variable {g g' : Shared} {r r' : ImportState} {e : ImportEvent}

/-- A step that leaves the registry and the stores. -/
theorem Imports.move (hintent : ∀ c ∈ importIntent r', c ∈ importIntent r)
    (hpublishing : ∀ c content, r' = .publishing c content → content.service.designState = .materialised →
      observed content (g.stores content.service.serviceId) = true) : Imports g r none g r' where
  registry := .inl ⟨rfl, rfl⟩
  stores _ _ h _ := h
  intent c hc := .inl (hintent c hc)
  publishing := hpublishing

theorem Imports.stop : Imports g r none g .outside := .move (fun _ h => absurd h (Option.not_mem_none _)) (by simp)

/-- A call on a store that has no logical state, or that leaves the store. -/
theorem Imports.call {id : Uuid} {left : StoreRows} {fate : Fate}
    (hstore : ∀ x, g.stores id = some x → x.hasLogicalState = true → left = x)
    (hintent : ∀ c ∈ importIntent r', c ∈ importIntent r) (hpublishing : ∀ c content, r' ≠ .publishing c content) :
    Imports g r none (g.call id left fate) r' := by
  refine ⟨.inl ⟨?_, rfl⟩, fun other x hx hlogical => ?_, fun c hc => .inl (hintent c hc),
    fun c content heq => absurd heq (hpublishing c content)⟩
  · unfold Shared.call
    split_ifs <;> rfl
  · unfold Shared.call
    split_ifs
    · by_cases heq : other = id
      · subst heq
        exact (Function.update_self _ _ _).trans (congrArg some (hstore x hx hlogical))
      · exact (Function.update_of_ne heq _ _).trans hx
    · exact hx

/-- An import's last transaction. -/
theorem Imports.terminal {operation : Option (AuthorityOutcome × Database)} {fate : Fate} {q : Registry.Request}
    (hop : ∀ outcome left, operation = some (outcome, left) → q.run g.registry = some (none, left))
    (hintent : ∀ c ∈ q.intent, ∃ i ∈ importIntent r, c = .import_ i)
    (hpublishing : ∀ c s receipt, q = .publishImport c s receipt → ∃ content, r = .publishing c content ∧
      s = content.service) :
    Imports g r none { g with registry := ended g.registry operation fate } .outside := by
  unfold ended
  split
  · rename_i outcome left
    split
    · refine ⟨.inr ⟨q, hop outcome left rfl, hintent, fun c s receipt heq => ?_⟩, fun _ _ h _ => h,
        fun _ h => absurd h (Option.not_mem_none _), by simp⟩
      obtain ⟨content, hr, hs⟩ := hpublishing c s receipt heq
      exact ⟨content, hr, hs, rfl⟩
    · exact .stop
  · exact .stop

/-- The transaction of an import's `_admit`. -/
theorem run_of_admittedImport {d prepared : Database} {c stored : ImportCommand} {now : Instant}
    (h : admittedImport d c now = some (stored, prepared)) :
    (Registry.Request.resolveOrPrepare (.import_ c) now).run d = some (some (.import_ stored), prepared) := by
  unfold admittedImport at h
  split at h
  · rename_i stored' prepared' hres
    obtain ⟨rfl, rfl⟩ := Prod.mk.inj (Option.some.inj h)
    rw [Request.run, hres]
    rfl
  · exact absurd h (by simp)

/-- An import that is admitted goes on with the intent it is handed. -/
theorem Imports.admitted {c stored : ImportCommand} {now : Instant} {prepared : Database}
    (hadm : admittedImport g.registry c now = some (stored, prepared)) (hintent : ∀ c' ∈ importIntent r', c' = stored)
    (hpublishing : ∀ c' content, r' = .publishing c' content → content.service.designState ≠ .materialised) :
    Imports g .outside (some (.import_ stored)) { g with registry := prepared } r' := by
  refine ⟨.inr ⟨_, run_of_admittedImport hadm, fun _ hc => absurd hc (Option.not_mem_none _), by simp⟩,
    fun _ _ h _ => h, fun c' hc' => .inr ?_, fun c' content heq hmat => absurd hmat (hpublishing c' content heq)⟩
  rw [hintent c' hc']
  exact rfl

/-- **What a step of an import can do.** -/
theorem imports_of_advanceImport (h : advanceImport g r e = some (g', r')) :
    Imports g r (grantedImport g.registry r e) g' r' := by
  unfold advanceImport at h
  split at h
  -- crash
  · obtain ⟨rfl, rfl⟩ := Prod.mk.inj (Option.some.inj h)
    have hnone : grantedImport g.registry r .crash = none := by cases r <;> rfl
    rw [hnone]
    exact .stop
  -- admission
  · rename_i principalId createdVia content root key now fate
    obtain ⟨c, hc, h⟩ := Option.bind_eq_some_iff.1 h
    rw [grantedImport, hc, Option.bind_some]
    split at h
    · rename_i stored prepared hadm
      rw [hadm]
      split at h <;> obtain ⟨rfl, rfl⟩ := Prod.mk.inj (Option.some.inj h)
      · refine .admitted hadm (fun c' hc' => ?_) fun c' content' heq => ?_
        · unfold firstStep at hc'
          split_ifs at hc' <;> exact (Option.some.inj hc').symm
        · unfold firstStep at heq
          split_ifs at heq with hmat
          obtain ⟨-, rfl⟩ := ImportState.publishing.inj heq
          exact hmat
      · exact .admitted hadm (fun _ hc' => absurd hc' (Option.not_mem_none _)) (by simp)
      · exact .stop
    · rename_i hadm
      obtain ⟨rfl, rfl⟩ := Prod.mk.inj (Option.some.inj h)
      rw [hadm]
      split <;> exact .stop
  -- the store is migrated, and filled if it has no logical state
  · split at h <;> obtain ⟨rfl, rfl⟩ := Prod.mk.inj (Option.some.inj h)
    · exact .move (fun _ => id) (by simp)
    · refine .call (fun x hx _ => ?_) ?_ ?_
      · rw [hx, Option.getD_some]
      · split_ifs <;> exact fun _ => id
      · split_ifs <;> simp
  · split at h
    · rename_i x hx
      split at h
      · obtain ⟨rfl, rfl⟩ := Prod.mk.inj (Option.some.inj h)
        refine .move ?_ ?_
        · split_ifs <;> exact fun _ => id
        · split_ifs <;> simp
      · rename_i hlogical
        split at h <;> obtain ⟨rfl, rfl⟩ := Prod.mk.inj (Option.some.inj h)
        · refine .call (fun x' hx' hlogical' => ?_) ?_ ?_
          · obtain rfl := Option.some.inj (hx.symm.trans hx')
            exact absurd hlogical' hlogical
          · split_ifs <;> exact fun _ => id
          · split_ifs <;> simp
        · exact .move (fun _ => id) (by simp)
    · obtain ⟨rfl, rfl⟩ := Prod.mk.inj (Option.some.inj h)
      exact .move (fun _ => id) (by simp)
  · obtain ⟨rfl, rfl⟩ := Prod.mk.inj (Option.some.inj h)
    refine .move ?_ ?_
    · split_ifs <;> exact fun _ => id
    · split_ifs <;> simp
  -- what is about to be published has just been observed
  · obtain ⟨rfl, rfl⟩ := Prod.mk.inj (Option.some.inj h)
    refine .move ?_ ?_
    · split_ifs
      · exact fun _ => id
      · exact fun _ hc => absurd hc (Option.not_mem_none _)
    · split_ifs <;> simp
  · obtain ⟨rfl, rfl⟩ := Prod.mk.inj (Option.some.inj h)
    refine .move ?_ fun c content heq _ => ?_
    · split_ifs
      · exact fun _ => id
      · exact fun _ hc => absurd hc (Option.not_mem_none _)
    · split_ifs at heq with hseen
      obtain ⟨-, rfl⟩ := ImportState.publishing.inj heq
      exact (Bool.and_eq_true_iff.1 hseen).2
  · rename_i c content receiptId at_ fate
    split at h <;> obtain ⟨rfl, rfl⟩ := Prod.mk.inj (Option.some.inj h)
    · refine .terminal (q := .publishImport c content.service _) (fun outcome left hop => by rw [Request.run, hop]; rfl)
        (fun i hi => ⟨c, rfl, (Option.some.inj hi).symm⟩) fun c' s' receipt' heq => ?_
      obtain ⟨rfl, rfl, -⟩ := Request.publishImport.inj heq
      exact ⟨content, rfl, rfl⟩
    · exact .move (fun _ => id) (by simp)
  · rename_i c fate
    obtain ⟨rfl, rfl⟩ := Prod.mk.inj (Option.some.inj h)
    exact .terminal (q := .markRecoveryRequired (.import_ c)) (fun outcome left hop => by rw [Request.run, hop]; rfl)
      (fun i hi => ⟨c, rfl, (Option.some.inj hi).symm⟩) (by simp)
  · exact absurd h (by simp)

end imports

/-! ## Every run -/

/-- What a bundle brings is in its service's store, or its id is settled. -/
def InPlace (d : Database) (store : Option StoreRows) (content : PortableBundleContent) : Prop :=
  Settled d content.service.serviceId ∨ observed content store = true

theorem inPlace_of_same {d : Database} {store store' : Option StoreRows} {content : PortableBundleContent}
    (h : store' = store) (hobserved : observed content store = true) : InPlace d store' content := by
  subst h
  exact .inr hobserved

/-- The invariant of an installation: runs and imports act on intents that
they hold, runs on services of the registry only, and what is about to be
published is in its store. -/
structure Installation.Inv (w : Installation) : Prop where
  registry : registryRuns.Reachable w.clients
  runs : ∀ run, ∀ c ∈ runIntent (w.runs run), c ∈ w.clients.held
  services : ∀ run, ∀ s ∈ runService (w.runs run), Settled w.registry s.serviceId
  imports : ∀ run, ∀ c ∈ importIntent (w.imports run), .import_ c ∈ w.clients.held
  publishing : ∀ run c content, w.imports run = .publishing c content → content.service.designState = .materialised →
    InPlace w.registry (w.stores content.service.serviceId) content

section steps

variable {w w' : Installation} {d' : Database} {granted : Option RegistryAuthorityCommand}

/-- What a step does to the registry: one request of a client, or nothing. -/
def Requested (clients : Clients) (granted : Option RegistryAuthorityCommand) (d' : Database) : Prop :=
  d' = clients.database ∧ granted = none ∨
    ∃ q, requests.step clients q ⟨d', granted.toList ++ clients.held⟩

theorem Requested.reachable {clients : Clients} (h : Requested clients granted d')
    (hreach : registryRuns.Reachable clients) : registryRuns.Reachable ⟨d', granted.toList ++ clients.held⟩ := by
  rcases h with ⟨rfl, rfl⟩ | ⟨q, hq⟩
  · exact hreach
  · exact hreach.next hq

theorem Requested.settled {clients : Clients} (h : Requested clients granted d')
    (hreach : registryRuns.Reachable clients) {id : Uuid} (hid : Settled clients.database id) : Settled d' id := by
  rcases h with ⟨rfl, -⟩ | ⟨q, hq⟩
  · exact hid
  · exact ((consistent_inductive.reachable hreach).writes hq).settled hid

/-- A step of the installation that leaves what each import is about to publish. -/
theorem Installation.Inv.step_of (hw : w.Inv) (hreq : Requested w.clients granted w'.registry)
    (hheld : w'.clients.held = granted.toList ++ w.clients.held)
    (hruns : ∀ run, w'.runs run = w.runs run ∨ (∀ c ∈ runIntent (w'.runs run), c ∈ w'.clients.held) ∧
      ∀ s ∈ runService (w'.runs run), Settled w'.registry s.serviceId)
    (himports : ∀ run, w'.imports run = w.imports run ∨
      (∀ c ∈ importIntent (w'.imports run), .import_ c ∈ w'.clients.held) ∧
      ∀ c content, w'.imports run = .publishing c content → content.service.designState = .materialised →
        InPlace w'.registry (w'.stores content.service.serviceId) content)
    (hstores : ∀ content, observed content (w.stores content.service.serviceId) = true →
      InPlace w'.registry (w'.stores content.service.serviceId) content) : w'.Inv := by
  have hkept : ∀ c ∈ w.clients.held, c ∈ w'.clients.held := fun c hc => by
    rw [hheld]
    exact List.mem_append_right _ hc
  have hsettled : ∀ {id}, Settled w.registry id → Settled w'.registry id := fun hid => hreq.settled hw.registry hid
  refine ⟨?_, fun run c hc => ?_, fun run s hs => ?_, fun run c hc => ?_, fun run c content hpub hmat => ?_⟩
  · have hreach := hreq.reachable hw.registry
    rw [← hheld] at hreach
    exact hreach
  · rcases hruns run with heq | ⟨hnew, -⟩
    · exact hkept c (hw.runs run c (heq ▸ hc))
    · exact hnew c hc
  · rcases hruns run with heq | ⟨-, hnew⟩
    · exact hsettled (hw.services run s (heq ▸ hs))
    · exact hnew s hs
  · rcases himports run with heq | ⟨hnew, -⟩
    · exact hkept _ (hw.imports run c (heq ▸ hc))
    · exact hnew c hc
  · rcases himports run with heq | ⟨-, hnew⟩
    · rcases hw.publishing run c content (heq ▸ hpub) hmat with hold | hold
      · exact .inl (hsettled hold)
      · exact hstores content hold
    · exact hnew c content hpub hmat

/-- A run's step is at most one request. -/
theorem Advances.requested {g : Coordinator.Shared} {r r' : RunState} (h : Advances w.fences r granted g r')
    (hheld : ∀ c ∈ runIntent r, c ∈ w.clients.held) : Requested w.clients granted g.registry := by
  rcases h.registry with ⟨hsame, hnone⟩ | ⟨q, hrun, hintent, -⟩
  · exact .inl ⟨hsame, hnone⟩
  · exact .inr ⟨q, Request.step_of_run hrun fun c hc => hheld c (hintent c hc)⟩

/-- So is an import's. -/
theorem Imports.requested {g : Shared} {r r' : ImportState} (h : Imports w.shared r granted g r')
    (hheld : ∀ c ∈ importIntent r, .import_ c ∈ w.clients.held) : Requested w.clients granted g.registry := by
  rcases h.registry with ⟨hsame, hnone⟩ | ⟨q, hrun, hintent, -⟩
  · exact .inl ⟨hsame, hnone⟩
  · refine .inr ⟨q, Request.step_of_run hrun fun c hc => ?_⟩
    obtain ⟨i, hi, rfl⟩ := hintent c hc
    exact hheld i hi

/-- A store that no run touches is as it was. -/
theorem refence_same {store : Option StoreRows} {fence : Option WriteAdmissionFence} (h : fence = store.map (·.found)) :
    Installation.refence store fence = store := by
  subst h
  cases store with
  | none => rfl
  | some x => simp only [Option.map_some, Installation.refence, if_true]

theorem inv_portable {run : ℕ} {g : Coordinator.Shared} {r : RunState} (hw : w.Inv)
    (hadv : Advances w.fences (w.runs run) granted g r) :
    Installation.Inv
      { w with
        clients := ⟨g.registry, granted.toList ++ w.clients.held⟩
        stores := fun id => Installation.refence (w.stores id) (g.stores id)
        runs := Function.update w.runs run r } := by
  have hreq := hadv.requested (hw.runs run)
  have hledger := (consistent_inductive.reachable (hreq.reachable hw.registry)).database.ledger
  have hservice : ∀ s ∈ runService (w.runs run), Settled g.registry s.serviceId := fun s hs =>
    hreq.settled hw.registry (hw.services run s hs)
  refine hw.step_of hreq rfl (fun other => ?_) (fun _ => .inl rfl) fun content hobserved => ?_
  · by_cases heq : other = run
    · subst heq
      refine .inr ⟨fun c hc => ?_, fun s hs => ?_⟩
      · rcases hadv.intent c ((Function.update_self other r w.runs) ▸ hc) with hold | hnew
        · exact List.mem_append_right _ (hw.runs other c hold)
        · exact List.mem_append_left _ (Option.mem_toList.2 hnew)
      · rcases hadv.service s ((Function.update_self other r w.runs) ▸ hs) with hold | hnew
        · exact hservice s hold
        · exact hledger.settled hnew
    · exact .inl (Function.update_of_ne heq _ _)
  · -- a run touches the store of its own service only
    by_cases hsame : g.stores content.service.serviceId = w.fences.stores content.service.serviceId
    · exact inPlace_of_same (refence_same hsame) hobserved
    · obtain ⟨s, hs, hid⟩ := hadv.stores _ hsame
      exact .inl (hid ▸ hservice s hs)

theorem inv_import {run : ℕ} {g : Shared} {r : ImportState} (hw : w.Inv)
    (hadv : Imports w.shared (w.imports run) granted g r) :
    Installation.Inv
      { w with
        clients := ⟨g.registry, granted.toList ++ w.clients.held⟩
        stores := g.stores
        imports := Function.update w.imports run r } := by
  refine hw.step_of (hadv.requested (hw.imports run)) rfl (fun _ => .inl rfl) (fun other => ?_) fun content hobserved => ?_
  · by_cases heq : other = run
    · subst heq
      refine .inr ⟨fun c hc => ?_, fun c content hpub hmat => .inr ?_⟩
      · rcases hadv.intent c ((Function.update_self other r w.imports) ▸ hc) with hold | hnew
        · exact List.mem_append_right _ (hw.imports other c hold)
        · exact List.mem_append_left _ (Option.mem_toList.2 hnew)
      · exact hadv.publishing c content ((Function.update_self other r w.imports) ▸ hpub) hmat
    · exact .inl (Function.update_of_ne heq _ _)
  · -- an import leaves a store that has logical state
    obtain ⟨x, hx, hholds⟩ := holds_of_observed hobserved
    exact inPlace_of_same ((hadv.stores _ x hx hholds.logical).trans hx.symm) hobserved

/-- **The invariant is preserved** by every step. -/
theorem inv_step {mv : Move} (hw : w.Inv) (h : Step w mv w') : w'.Inv := by
  cases h with
  | @client q clients hintent hstep =>
    obtain ⟨hown, given, hrun, hheld⟩ := hstep
    exact hw.step_of (.inr ⟨q, Request.step_of_run hrun hown⟩) hheld (fun _ => .inl rfl) (fun _ => .inl rfl) fun _ => .inr
  | portable hadv => exact inv_portable hw (advances_of_advance hadv)
  | import_ hadv => exact inv_import hw (imports_of_advanceImport hadv)
  | @found id hnone =>
    refine hw.step_of (.inl ⟨rfl, rfl⟩) rfl (fun _ => .inl rfl) (fun _ => .inl rfl) fun content hobserved => ?_
    obtain ⟨x, hx, -⟩ := holds_of_observed hobserved
    have hne : content.service.serviceId ≠ id := fun heq => absurd ((heq ▸ hx).symm.trans hnone) (by simp)
    exact inPlace_of_same (Function.update_of_ne hne _ _) hobserved
  | @operate id x left hx hopen =>
    refine hw.step_of (.inl ⟨rfl, rfl⟩) rfl (fun _ => .inl rfl) (fun _ => .inl rfl) fun content hobserved => ?_
    obtain ⟨y, hy, hholds⟩ := holds_of_observed hobserved
    -- no command is let through a closed fence
    have hne : content.service.serviceId ≠ id := fun heq => by
      obtain rfl := Option.some.inj ((heq ▸ hy).symm.trans hx)
      exact absurd (hholds.closed.symm.trans hopen) (by decide)
    exact inPlace_of_same (Function.update_of_ne hne _ _) hobserved

end steps

theorem inv_init {w : Installation} (h : w.Initial) : w.Inv where
  registry := h.registry
  runs run c hc := absurd hc (by rw [h.runs]; exact Option.not_mem_none _)
  services run s hs := absurd hs (by rw [h.runs]; exact Option.not_mem_none _)
  imports run c hc := absurd hc (by rw [h.imports]; exact Option.not_mem_none _)
  publishing run c content hpub := absurd hpub (by rw [h.imports]; simp)

theorem inv_inductive : installation.Inductive (fun _ _ => True) Installation.Inv where
  init _ h := inv_init h
  step _ _ _ hw _ h := inv_step hw h

/-- **What is published has been observed.** In every run of an installation,
whatever its clients, runs, imports and data commands do in between, a
materialised service that appears is published by an import whose bundle
brings it, and its store holds the bundle's members behind the closed
fence of the export. -/
theorem published_observed {w w' : Installation} (hreach : installation.Reachable w) {mv : Move} (h : Step w mv w')
    {id : Uuid} {s : Service} (hnone : w.registry.services.find? id = none) (hs : w'.registry.services.find? id = some s)
    (hmat : s.designState = .materialised) : ∃ run e c content x, mv = .import_ run e ∧
      w.imports run = .publishing c content ∧ content.service = s ∧ w'.stores id = some x ∧ Holds content x ∧
        Agrees s (w'.fences.stores id) := by
  have hw := inv_inductive.reachable hreach
  obtain rfl : s.serviceId = id := Table.key_of_find? hs
  have hseeded : s.designState ≠ .seeded := by
    rw [hmat]
    decide
  have hgone : w'.registry ≠ w.registry := fun heq => absurd (hnone.symm.trans (heq ▸ hs)) (by simp)
  cases h with
  | @client q clients hintent hstep =>
    obtain ⟨-, given, hrun, -⟩ := hstep
    rcases Request.appears hrun hnone hs with hseed | ⟨c, u, r, rfl⟩
    · exact absurd hseed hseeded
    · exact absurd hintent (by simp [Request.intent])
  | portable hadv =>
    rcases (advances_of_advance hadv).registry with ⟨hsame, -⟩ | ⟨q, hrun, -, hq⟩
    · exact absurd hsame hgone
    · rcases Request.appears hrun hnone hs with hseed | ⟨c, u, r, rfl⟩
      · exact absurd hseed hseeded
      · exact absurd rfl (hq c u r)
  | found _ => exact absurd rfl hgone
  | operate _ _ => exact absurd rfl hgone
  | @import_ run e g r hadv =>
    rcases (imports_of_advanceImport hadv).registry with ⟨hsame, -⟩ | ⟨q, hrun, -, hq⟩
    · exact absurd hsame hgone
    · rcases Request.appears hrun hnone hs with hseed | ⟨c, u, receipt, rfl⟩
      · exact absurd hseed hseeded
      · obtain ⟨content, hpub, rfl, hstores⟩ := hq c u receipt rfl
        obtain ⟨⟨outcome, d'⟩, hr, heq⟩ := Option.map_eq_some_iff.1 hrun
        obtain ⟨-, rfl⟩ := Prod.mk.inj heq
        obtain ⟨rfl, hunsettled⟩ := Database.publishImport_appears hr hnone hs
        rcases hw.publishing run c content hpub hmat with hsettled | hobserved
        · exact absurd hsettled hunsettled
        · obtain ⟨x, hx, hholds⟩ := holds_of_observed hobserved
          have hstore : g.stores content.service.serviceId = some x := (congrFun hstores _).trans hx
          refine ⟨run, e, c, content, x, rfl, hpub, rfl, hstore, hholds, x.found, congrArg (Option.map _) hstore, ?_⟩
          rw [hholds.closed]
          exact iff_of_false (by decide) (content.quiesced hmat)

/-! ## Calls that return -/

section returns

variable {g : Shared} {c : ImportCommand} {content : PortableBundleContent} {m : ManifestV2} {fence : WriteAdmissionFence}
  {x y : StoreRows} {z : Content}

theorem staged_of_stage (hsource : source content.service = some m) (hfence : content.exportFence = some fence)
    (h : stage .sqlite m content.service.principalId.1 content.service.updatedAt content.members = some z) :
    staged content = some ⟨z, some fence, 0⟩ := by
  simp only [staged, hsource, hfence, h, Option.bind_eq_bind, Option.bind_some, Option.pure_def]

theorem advanceImport_migrate (hsource : source content.service = some m) :
    advanceImport g (.migrating c content) (.migrate .done) =
      some (g.call content.service.serviceId ((g.stores content.service.serviceId).getD .created) .done,
        .inserting c content) := by
  rw [advanceImport, hsource]
  rfl

theorem advanceImport_insert (hstore : g.stores content.service.serviceId = some x)
    (hlogical : x.hasLogicalState = false) (hstaged : staged content = some y) :
    advanceImport g (.inserting c content) (.insert .done) =
      some (g.call content.service.serviceId y .done, .observing c content) := by
  rw [advanceImport, hstore]
  simp only [hlogical, hstaged, Bool.false_eq_true, if_false, if_true]

theorem advanceImport_observe (h : observed content (g.stores content.service.serviceId) = true) :
    advanceImport g (.observing c content) (.observe true) = some (g, .publishing c content) := by
  rw [advanceImport, h]
  rfl

theorem observed_of_members (hsource : source content.service = some m) (hfence : content.exportFence = some fence)
    (hclosed : fence.state = .closed) (hfound : x.found = fence)
    (h : observeMembers .sqlite m (fun g h => g ≤ h) content.service.principalId.1 content.members x.content = true) :
    observed content (some x) = true := by
  unfold observed
  rw [hsource, hfence]
  simp only [hclosed, hfound, h, decide_true, Bool.and_self]

theorem advanceImport_publish {id : Uuid} {at_ : Instant} {left : Database} {result : AuthorityResult}
    (h : g.registry.publishImport c content.service (importReceipt c content.service at_ id) =
      some (.completed (.import_ c) result, left)) :
    advanceImport g (.publishing c content) (.publish (some id) at_ .done) =
      some ({ g with registry := left }, .outside) := by
  rw [advanceImport, h]
  rfl

end returns

/-! ## A service that is imported -/

namespace Imported

open Data.Noted

def serviceId : Uuid := ⟨71, by decide, by decide⟩

theorem principal_valid : validText "alice" MAX_PRINCIPAL_LENGTH = true := by decide

def principal : PrincipalId := ⟨"alice", principal_valid⟩

def exportFence : WriteAdmissionFence := ⟨6, .closed, by decide⟩

theorem not_seeded : DesignState.materialised = .seeded → some StorageBackend.sqlite = none := by simp

def suspended : Service where
  serviceId := serviceId
  principalId := principal
  domainName := "notes"
  domainClass := "notes"
  intentDescription := "notes"
  createdAt := default
  updatedAt := default
  lastActivityAt := default
  manifest := some noteManifest
  designState := .materialised
  operationalStatus := .suspended
  serviceRevision := 2
  materialisedAt := some default
  storage := some .sqlite
  updated := Nat.le_refl _
  active := Nat.le_refl _
  revision := by decide
  paired := rfl
  during := by decide
  seeded := not_seeded
  complete := by simp

/-- The members are valid, and are observed where they have been staged. -/
theorem members_observed : validatePortableMembers noteMembers noteSpecification = true ∧
    observeMembers .sqlite noteManifest (fun g h => g ≤ h) "alice" noteMembers moved = true := by decide +kernel

def bundle : PortableBundleContent where
  service := suspended
  members := noteMembers
  exportFence := some exportFence
  seeded h := absurd h (by decide)
  quiesced _ := by decide
  fenced _ := ⟨exportFence, rfl, rfl⟩
  checked _ m hm := by
    obtain rfl := Option.some.inj hm
    exact members_observed.1

def root : Root := ⟨"0000000000000000000000000000000000000000000000000000000000000000", by decide⟩

def importNotes : ImportCommand where
  principalId := principal
  createdVia := ⟨"portable", by decide⟩
  identity := ⟨principal, serviceId, ⟨"notes", by decide⟩⟩
  destinationBackend := .sqlite
  bundleRootSha256 := root
  idempotencyKey := ⟨"arrive", by decide⟩
  owned := rfl

/-- The registry, where the import has reserved the id. -/
def reserved : Database where
  services := .empty
  claims := .single (.authority (.import_ importNotes) .prepared)
  identities := .single ⟨serviceId, principal, .importPrepared "notes" .sqlite importNotes.idempotencyKey default⟩
  receipts := .empty

def receiptId : Uuid := ⟨72, by decide, by decide⟩

def receipt : TransferReceipt := importReceipt importNotes suspended default receiptId

/-- The registry, where it has published the service. -/
def published : Database where
  services := .single suspended
  claims := .single (.authority (.import_ importNotes) (.completed (.service suspended)))
  identities := .single ⟨serviceId, principal, .live "notes" (some .sqlite)⟩
  receipts := .single ⟨importNotes.idempotencyKey, receipt⟩

/-- The installation of one import. -/
def during (clients : Clients) (store : Option StoreRows) (r : ImportState) : Installation where
  clients := clients
  stores := Function.update (fun _ => none) bundle.service.serviceId store
  runs _ := .outside
  imports := Function.update (fun _ => .outside) 0 r

theorem during_import {clients : Clients} {store : Option StoreRows} {r : ImportState} :
    (during clients store r).imports 0 = r := by simp [during]

theorem during_store {clients : Clients} {store : Option StoreRows} {r : ImportState} :
    (during clients store r).shared.stores bundle.service.serviceId = store := by simp [during, Installation.shared]

theorem during_call {clients : Clients} {store : Option StoreRows} {r : ImportState} {y : StoreRows} :
    (during clients store r).shared.call bundle.service.serviceId y .done =
      ⟨clients.database, Function.update (fun _ => none) bundle.service.serviceId (some y)⟩ := by
  simp [during, Installation.shared, Shared.call, Fate.effective]

theorem step_during {clients : Clients} {d' : Database} {store store' : Option StoreRows} {r r' : ImportState}
    {e : ImportEvent} (h : advanceImport (during clients store r).shared r e =
      some (⟨d', Function.update (fun _ => none) bundle.service.serviceId store'⟩, r')) :
    Step (during clients store r) (.import_ 0 e)
      (during ⟨d', (grantedImport clients.database r e).toList ++ clients.held⟩ store' r') := by
  have hstep := @Step.import_ (during clients store r) 0 e _ r' (by
    rw [during_import]
    exact h)
  simp only [during, Function.update_self, Function.update_idem] at hstep ⊢
  exact hstep

theorem admitted : admittedImport Database.fresh importNotes default = some (importNotes, reserved) := rfl


/-! The import is admitted, stages its members in a store that it makes,
observes them there and publishes the service. -/

def empty : Clients := ⟨Database.fresh, []⟩

def holding : Clients := ⟨reserved, [.import_ importNotes]⟩

def arrived : StoreRows := ⟨moved, some exportFence, 0⟩

theorem admission : Step (during empty none .outside)
    (.import_ 0 (.admission principal importNotes.createdVia bundle root importNotes.idempotencyKey default .done))
    (during holding none (.migrating importNotes bundle)) :=
  step_during rfl

theorem bundle_staged : staged bundle = some arrived := by
  refine staged_of_stage rfl rfl ?_
  simp only [bundle]
  exact note_staged

theorem migrate : Step (during holding none (.migrating importNotes bundle)) (.import_ 0 (.migrate .done))
    (during holding (some .created) (.inserting importNotes bundle)) := by
  refine step_during ?_
  rw [advanceImport_migrate (m := noteManifest) rfl, during_store, during_call]
  rfl

theorem insert : Step (during holding (some .created) (.inserting importNotes bundle)) (.import_ 0 (.insert .done))
    (during holding (some arrived) (.observing importNotes bundle)) := by
  refine step_during ?_
  rw [advanceImport_insert during_store rfl bundle_staged, during_call]
  rfl

theorem observe : Step (during holding (some arrived) (.observing importNotes bundle)) (.import_ 0 (.observe true))
    (during holding (some arrived) (.publishing importNotes bundle)) := by
  refine step_during ?_
  have hobserved : observed bundle (some arrived) = true := by
    refine observed_of_members rfl rfl rfl rfl ?_
    simp only [bundle, arrived]
    exact members_observed.2
  rw [advanceImport_observe (by rw [during_store]; exact hobserved)]
  rfl

theorem published_run : reserved.publishImport importNotes suspended receipt =
    some (.completed (.import_ importNotes) (.service suspended), published) := by
  have hfound : reserved.authorityPreparedOrTerminal (.import_ importNotes) = some (.prepared (.import_ importNotes)) :=
    Database.authorityPreparedOrTerminal_self (by decide) rfl
  have hpublishable : reserved.publishable importNotes suspended receipt = true := by decide
  have hcomplete : ({ published with claims := reserved.claims } : Database).completeAuthority (.import_ importNotes)
      (.service suspended) = some (.completed (.import_ importNotes) (.service suspended), published) := by
    rw [Database.completeAuthority, Database.endClaim_self rfl]
    rfl
  rw [Database.publishImport, hfound]
  dsimp only
  rw [hpublishable, if_neg (by simp)]
  exact hcomplete

theorem publish : Step (during holding (some arrived) (.publishing importNotes bundle))
    (.import_ 0 (.publish (some receiptId) default .done))
    (during ⟨published, [.import_ importNotes]⟩ (some arrived) .outside) := by
  refine step_during ?_
  rw [advanceImport_publish published_run]
  rfl

theorem reachable : installation.Reachable (during holding (some arrived) (.publishing importNotes bundle)) := by
  have h : installation.Reachable (during empty none .outside) := .init ⟨.init ⟨rfl, rfl⟩, fun _ => rfl, fun run => by
    simp [during]⟩
  have h := h.next admission
  have h := h.next migrate
  have h := h.next insert
  exact h.next observe

end Imported

open Imported in
theorem published_observed_notes : ∃ content x, content.service = suspended ∧
    (during ⟨published, [.import_ importNotes]⟩ (some arrived) .outside).stores serviceId = some x ∧ Holds content x := by
  obtain ⟨run, e, c, content, x, -, -, hs, hx, hholds, -⟩ :=
    @published_observed _ _ reachable _ publish serviceId suspended rfl rfl rfl
  exact ⟨content, x, hs, hx, hholds⟩

end Transfer

end Aipcs

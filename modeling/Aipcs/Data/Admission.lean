import Aipcs.Data.Runs
import Aipcs.Store.Admission

/-!
# Data — the fence among a service's mutations

A service's store: its tables, and the table of mutations, in which its
commands leave their replays and the fence has its row. A command finds the
fence open or does nothing; what it finds and leaves under its own key is no
row of the fence's, and `transition_fence` alone moves the fence.
-/

namespace Aipcs

namespace Data

open Manifest Portable Relational Records Registry Store Store.Mutating

/-! ## The store -/

/-- The key of a command. -/
abbrev CommandKey : Type := { s : String // requireIdempotencyKey s = true }

/-- A service's store. -/
structure ServiceStore where
  content : Content
  mutations : MutationTable

/-- `operation_kind`, as the store spells it. -/
def kindText : MutationKind → String
  | .createRecord => "create_record"
  | .updateRecord => "update_record"
  | .deleteRecord => "delete_record"
  | .createBranch => "create_branch"
  | .updateBranch => "update_branch"
  | .assignBranchRecords => "assign_branch_records"

/-- A command as it is given: by whom, under which key, against which
specification, with what its request is known by and how results are kept. -/
structure Request where
  specification : RecordSpecification
  caller : Caller
  key : CommandKey
  command : Command
  fingerprint : String
  encode : Result → String
  decodes : String → Bool

/-- What is answered to a command whose key has a row. -/
def replay (q : Request) (row : MutationRow) : Outcome :=
  if row.operationKind = kindText q.command.kind ∧ row.fingerprint = q.fingerprint then
    if q.decodes row.resultJson then .success row.resultJson true else .failure .storageUnavailable
  else .failure .changedFingerprint

/-- The operation of a command, and the row it leaves. -/
def completed (b : StorageBackend) (q : Request) (t : Readings) (x : ServiceStore) : ServiceStore × Outcome :=
  match operate b q.specification q.caller t x.content q.command with
  | .error code => (x, .failure code)
  | .ok (content, r) =>
    match x.mutations.insert
      ⟨q.caller.principalId, q.key.1, kindText q.command.kind, q.fingerprint, q.encode r⟩ with
    | some mutations => (⟨content, mutations⟩, .success (q.encode r) false)
    | none => (x, .failure .constraintViolation)

/-- `_mutate_once`, of a store that is ready. -/
def mutateOnce (b : StorageBackend) (q : Request) (t : Readings) (x : ServiceStore) : ServiceStore × Outcome :=
  match writeAdmissionOpen b x.mutations with
  | none => (x, .failure .storageMigrationRequired)
  | some false => (x, .failure .writeAdmissionClosed)
  | some true =>
    match Store.mutationRow x.mutations q.caller.principalId q.key.1 with
    | some row => (x, replay q row)
    | none => completed b q t x

/-- `_observe_completed`: what the row of a command's key is taken for. -/
def observe (q : Request) (x : ServiceStore) : Option Outcome :=
  (Store.mutationRow x.mutations q.caller.principalId q.key.1).map (replay q)

/-- What is done to a store. -/
inductive Action where
  | mutate (q : Request) (t : Readings)
  | observe (q : Request)
  | transition (expected : WriteAdmissionFence) (target : FenceState)

/-- The store that an action leaves, of the service of a principal. -/
def act (b : StorageBackend) (p : String) (x : ServiceStore) : Action → ServiceStore
  | .mutate q t => (mutateOnce b q t x).1
  | .observe _ => x
  | .transition expected target =>
    match transitionFenceRow b p expected target x.mutations with
    | some (mutations, _) => { x with mutations }
    | none => x

/-! ## Keys -/

section keys

theorem kindText_ne (k : MutationKind) : kindText k ≠ FENCE_OPERATION_KIND := by
  cases k <;> decide +kernel

/-- No command has the fence's key. -/
theorem commandKey_ne (k : CommandKey) : k.1 ≠ FENCE_IDEMPOTENCY_KEY := by
  intro h
  have hreserved : requireIdempotencyKey FENCE_IDEMPOTENCY_KEY = false := by decide +kernel
  have hk := k.2
  rw [h, hreserved] at hk
  exact absurd hk (by simp)

/-- No entity has the name of the table of mutations. -/
theorem identifier_ne {e : String} (h : isIdentifier e = true) : e ≠ R3_MUTATION_TABLE := by
  rintro rfl
  exact absurd h (by decide +kernel)

end keys

/-! ## What each action does -/

section actions

variable {b : StorageBackend} {p : String} {x : ServiceStore} {q : Request} {t : Readings} {f : WriteAdmissionFence}

/-- The stores that actions come to, from one that is empty or imported. -/
inductive Reached (b : StorageBackend) (p : String) : ServiceStore → Prop
  | materialised : Reached b p ⟨.empty, .empty⟩
  | staged (content : Content) (f : WriteAdmissionFence) : Reached b p ⟨content, writeFence .empty p f⟩
  | acted {x : ServiceStore} (a : Action) : Reached b p x → Reached b p (act b p x a)

/-- What a command does to the table of mutations: nothing, or a row of its own. -/
theorem mutateOnce_mutations : (mutateOnce b q t x).1.mutations = x.mutations ∨
    ∃ r : MutationRow, r.idempotencyKey = q.key.1 ∧ r.operationKind = kindText q.command.kind ∧
      x.mutations.insert r = some (mutateOnce b q t x).1.mutations := by
  unfold mutateOnce
  split
  · exact .inl rfl
  · exact .inl rfl
  · split
    · exact .inl rfl
    · unfold completed
      split
      · exact .inl rfl
      · split
        · rename_i hinsert
          exact .inr ⟨_, rfl, rfl, hinsert⟩
        · exact .inl rfl

/-- **A command leaves the fence's row as it was.** -/
theorem mutateOnce_fenceRows : fenceRows (mutateOnce b q t x).1.mutations = fenceRows x.mutations := by
  rcases mutateOnce_mutations (b := b) (q := q) (t := t) (x := x) with h | ⟨r, -, hkind, hinsert⟩
  · rw [h]
  · rw [fenceRows, (Table.insert_eq_some.1 hinsert).2, List.filter_cons_of_neg]
    · rfl
    · rw [decide_eq_true_eq, hkind]
      exact kindText_ne _

theorem mutateOnce_fenced (h : Fenced p x.mutations) : Fenced p (mutateOnce b q t x).1.mutations := by
  rcases mutateOnce_mutations (b := b) (q := q) (t := t) (x := x) with hsame | ⟨r, hkey, hkind, hinsert⟩
  · rwa [hsame]
  · refine ⟨fun r' hr' hkind' => ?_, fun r' hr' hkey' => ?_⟩
    · rcases (Table.mem_insert hinsert).1 hr' with rfl | hr'
      · exact absurd (hkind.symm.trans hkind') (kindText_ne _)
      · exact h.kind r' hr' hkind'
    · rcases (Table.mem_insert hinsert).1 hr' with rfl | hr'
      · exact absurd (hkey.symm.trans hkey') (commandKey_ne _)
      · exact h.reserved r' hr' hkey'

/-- What a transition does to the table of mutations: nothing, or the fence moved on. -/
theorem transitionFenceRow_eq_some {expected : WriteAdmissionFence} {target : FenceState}
    {mutations mutations' : MutationTable} {r : FenceTransitionResult}
    (h : transitionFenceRow b p expected target mutations = some (mutations', r)) :
    ∃ f, readFence b mutations p = some f ∧
      (mutations' = mutations ∨ f = expected ∧ f.state ≠ target ∧ r.fence.state = target ∧
        r.fence.generation = f.generation + 1 ∧ mutations' = writeFence mutations p r.fence) := by
  unfold transitionFenceRow at h
  obtain ⟨f, hf, h⟩ := Option.bind_eq_some_iff.1 h
  obtain ⟨r', hr, h⟩ := Option.bind_eq_some_iff.1 h
  obtain ⟨rfl, rfl⟩ := Prod.mk.inj (Option.some.inj h)
  refine ⟨f, hf, ?_⟩
  rcases transitionFence_cases hr with ⟨-, hstatus⟩ | ⟨hstatus, hexpected, hne, hstate, hgeneration⟩
  · rw [if_neg]
    · exact .inl rfl
    · rcases hstatus with hstatus | ⟨hstatus, -⟩ <;> simp [hstatus]
  · rw [if_pos hstatus]
    exact .inr ⟨hexpected, hne, hstate, hgeneration, rfl⟩

theorem act_transition {expected : WriteAdmissionFence} {target : FenceState} :
    act b p x (.transition expected target) =
      match transitionFenceRow b p expected target x.mutations with
      | some (mutations, _) => { x with mutations }
      | none => x := rfl

theorem act_fenced (h : Fenced p x.mutations) (a : Action) : Fenced p (act b p x a).mutations := by
  cases a with
  | mutate q t => exact mutateOnce_fenced h
  | observe q => exact h
  | transition expected target =>
    rw [act_transition]
    split
    · rename_i mutations r htransition
      obtain ⟨f, -, hsame | ⟨-, -, -, -, hwrite⟩⟩ := transitionFenceRow_eq_some htransition
      · rw [hsame]
        exact h
      · rw [hwrite]
        exact h.writeFence _
    · exact h

/-- **The fence has its row to itself** in every store that actions come to. -/
theorem Reached.fenced (hx : Reached b p x) : Fenced p x.mutations := by
  induction hx with
  | materialised => exact fenced_empty p
  | staged content f => exact (fenced_empty p).writeFence f
  | acted a _ ih => exact act_fenced ih a

/-! ## What commands find -/

/-- The rows that are not of the fence's kind. -/
def unfenced (t : MutationTable) : MutationTable := t.keep fun r => r.operationKind ≠ FENCE_OPERATION_KIND

/-- **What a command finds under its key is no row of the fence's.** -/
theorem mutationRow_unfenced (h : Fenced p x.mutations) (principalId : String) (k : CommandKey) :
    Store.mutationRow (unfenced x.mutations) principalId k.1 = Store.mutationRow x.mutations principalId k.1 := by
  rw [Store.mutationRow, unfenced, Table.find?_keep]
  cases hrow : x.mutations.find? (principalId, k.1) with
  | none => exact hrow.symm
  | some r =>
    have hkind : r.operationKind ≠ FENCE_OPERATION_KIND := by
      intro hkind
      obtain ⟨f, rfl⟩ := h.kind r (Table.mem_of_find? hrow) hkind
      have hkey : (fenceRow p f).key = (principalId, k.1) := Table.key_of_find? hrow
      exact commandKey_ne k (Prod.mk.inj hkey).2.symm
    rw [Option.filter_some, if_pos (by simpa using hkind)]
    exact hrow.symm

theorem unfenced_fenceRows (t : MutationTable) : fenceRows (unfenced t) = [] := by
  rw [List.eq_nil_iff_forall_not_mem]
  intro r hr
  obtain ⟨hmem, hkind⟩ := mem_fenceRows.1 hr
  exact absurd hkind (by simpa using (Table.mem_keep.1 hmem).2)

theorem unfenced_open (t : MutationTable) : writeAdmissionOpen b (unfenced t) = some true := by
  rw [writeAdmissionOpen, unfenced_fenceRows]
  rfl

/-- A row of a command's is refused where another command's has its key. -/
theorem insert_unfenced (h : Fenced p x.mutations) {r : MutationRow} {k : CommandKey} (hr : r.idempotencyKey = k.1) :
    ((unfenced x.mutations).insert r).isSome = (x.mutations.insert r).isSome := by
  have hfind : (unfenced x.mutations).find? r.key = x.mutations.find? r.key := by
    rw [MutationRow.key, hr]
    exact mutationRow_unfenced h r.principalId k
  have hiff : ∀ t : MutationTable, (t.insert r).isSome = true ↔ t.find? r.key = none := fun t =>
    ⟨fun hsome => by
      obtain ⟨u, hu⟩ := Option.isSome_iff_exists.1 hsome
      exact (Table.insert_eq_some.1 hu).1, fun hnone => Option.isSome_iff_exists.2 (Table.insert_isSome hnone)⟩
  rw [Bool.eq_iff_iff, hiff, hiff, hfind]

theorem completed_unfenced (h : Fenced p x.mutations) :
    (completed b q t ⟨x.content, unfenced x.mutations⟩).2 = (completed b q t x).2 := by
  unfold completed
  dsimp only
  cases operate b q.specification q.caller t x.content q.command with
  | error code => rfl
  | ok result =>
    obtain ⟨content, r⟩ := result
    have hinsert := insert_unfenced h (k := q.key)
      (r := ⟨q.caller.principalId, q.key.1, kindText q.command.kind, q.fingerprint, q.encode r⟩) rfl
    dsimp only
    split
    · rename_i u hu
      rw [hu, Option.isSome_some] at hinsert
      obtain ⟨u', hu'⟩ := Option.isSome_iff_exists.1 hinsert.symm
      rw [hu']
    · rename_i hu
      rw [hu, Option.isSome_none] at hinsert
      have hnone := Option.not_isSome_iff_eq_none.1 (by rw [← hinsert]; exact Bool.false_ne_true)
      rw [hnone]

/-- **A command is answered as if there were no row of the fence's**, where the fence is open. -/
theorem mutateOnce_unfenced (h : Fenced p x.mutations) (hf : readFence b x.mutations p = some f) :
    (mutateOnce b q t x).2 =
      if f.state = .open_ then (mutateOnce b q t ⟨x.content, unfenced x.mutations⟩).2
      else .failure .writeAdmissionClosed := by
  obtain ⟨f', hf', hopen⟩ := h.readable (b := b)
  obtain rfl := Option.some.inj (hf'.symm.trans hf)
  unfold mutateOnce
  rw [hopen]
  by_cases hstate : f'.state = .open_
  · rw [decide_eq_true hstate, if_pos hstate, unfenced_open]
    dsimp only
    rw [mutationRow_unfenced h]
    split
    · rfl
    · exact (completed_unfenced h).symm
  · rw [decide_eq_false hstate, if_neg hstate]

/-! ## The law of the fence -/

/-- What actions do to the fence, where it has been read, and what they see of it. -/
structure FenceLaw (b : StorageBackend) (p : String) (x : ServiceStore) (f : WriteAdmissionFence) : Prop where
  /-- A command leaves the fence's row, and its key has another row or none. -/
  untouched : ∀ q t, fenceRows (act b p x (.mutate q t)).mutations = fenceRows x.mutations
  unread : ∀ (q : Request) row, Store.mutationRow x.mutations q.caller.principalId q.key.1 = some row →
    row.operationKind ≠ FENCE_OPERATION_KIND
  /-- A command is answered by the fence's state, and else as if it had no row. -/
  answered : ∀ q t, (mutateOnce b q t x).2 =
    if f.state = .open_ then (mutateOnce b q t ⟨x.content, unfenced x.mutations⟩).2 else .failure .writeAdmissionClosed
  /-- A transition counts the changes of state, and changes nothing where another fence is expected. -/
  moved : ∀ expected target, ∃ f', readFence b (act b p x (.transition expected target)).mutations p = some f' ∧
    (f'.state = f.state → f' = f) ∧ (f'.state ≠ f.state → f'.state = target ∧ f'.generation = f.generation + 1)
  stale : ∀ expected target, expected ≠ f → act b p x (.transition expected target) = x
  /-- It changes no row of a command's. -/
  apart : ∀ expected target, (act b p x (.transition expected target)).content = x.content ∧
    ∀ principalId (k : CommandKey), Store.mutationRow (act b p x (.transition expected target)).mutations principalId k.1 =
      Store.mutationRow x.mutations principalId k.1

theorem writeFence_mutationRow (f : WriteAdmissionFence) (mutations : MutationTable) (principalId : String)
    (k : CommandKey) : Store.mutationRow (writeFence mutations p f) principalId k.1 =
      Store.mutationRow mutations principalId k.1 := by
  have hne : (principalId, k.1) ≠ (p, FENCE_IDEMPOTENCY_KEY) := fun heq => commandKey_ne k (Prod.mk.inj heq).2
  refine Option.ext fun r => ?_
  rw [Store.mutationRow, Store.mutationRow, Table.find?_eq_some, Table.find?_eq_some, mem_writeFence]
  constructor
  · rintro ⟨rfl | ⟨hr, -⟩, hkey⟩
    · exact absurd hkey.symm hne
    · exact ⟨hr, hkey⟩
  · rintro ⟨hr, hkey⟩
    exact ⟨.inr ⟨hr, by rwa [hkey]⟩, hkey⟩

theorem fenceLaw_of_fenced (h : Fenced p x.mutations) (hf : readFence b x.mutations p = some f) : FenceLaw b p x f where
  untouched q t := mutateOnce_fenceRows
  unread q row hrow hkind := by
    obtain ⟨f', rfl⟩ := h.kind row (Table.mem_of_find? hrow) hkind
    have hkey : (fenceRow p f').key = (q.caller.principalId, q.key.1) := Table.key_of_find? hrow
    exact commandKey_ne q.key (Prod.mk.inj hkey).2.symm
  answered q t := mutateOnce_unfenced h hf
  moved expected target := by
    rw [act_transition]
    split
    · rename_i mutations r htransition
      obtain ⟨f', hf', hsame | ⟨-, hne, hstate, hgeneration, hwrite⟩⟩ := transitionFenceRow_eq_some htransition
      · exact ⟨f, by rw [hsame]; exact hf, fun _ => rfl, fun hne => absurd rfl hne⟩
      · obtain rfl := Option.some.inj (hf'.symm.trans hf)
        refine ⟨r.fence, by rw [hwrite]; exact readFence_writeFence h _, fun heq => ?_, fun _ => ⟨hstate, hgeneration⟩⟩
        exact absurd (heq.symm.trans hstate) hne
    · exact ⟨f, hf, fun _ => rfl, fun hne => absurd rfl hne⟩
  stale expected target hne := by
    rw [act_transition]
    split
    · rename_i mutations r htransition
      obtain ⟨f', hf', rfl | ⟨hexpected, -⟩⟩ := transitionFenceRow_eq_some htransition
      · rfl
      · exact absurd (hexpected.symm.trans (Option.some.inj (hf'.symm.trans hf))) hne
    · rfl
  apart expected target := by
    rw [act_transition]
    split
    · rename_i mutations r htransition
      obtain ⟨f', -, rfl | ⟨-, -, -, -, rfl⟩⟩ := transitionFenceRow_eq_some htransition
      · exact ⟨rfl, fun _ _ => rfl⟩
      · exact ⟨rfl, fun _ _ => writeFence_mutationRow _ _ _ _⟩
    · exact ⟨rfl, fun _ _ => rfl⟩

/-- **The law of the fence.** In every store that commands, observations and
transitions come to, the fence is to be read; no command touches its row or
finds it under its key, nor is any name of an entity that of its table; a
transition counts one for a change of state and nothing else, and changes
nothing where another fence is expected; and the texts that are fences are
those that fences are encoded as. -/
theorem fence_law (hx : Reached b p x) : (∃ f, readFence b x.mutations p = some f ∧ FenceLaw b p x f) ∧
    (∀ e, isIdentifier e = true → e ≠ R3_MUTATION_TABLE) ∧
    ∀ text f, decodeFenceText text = some f ↔ text = encodeFence f := by
  obtain ⟨f, hf, -⟩ := hx.fenced.readable (b := b)
  exact ⟨⟨f, hf, fenceLaw_of_fenced hx.fenced hf⟩, fun _ he => identifier_ne he, fun _ _ => decodeFenceText_eq_some⟩

end actions

/-! ## A store that is closed -/

namespace Closed

/-- A store that has been closed once. -/
def closed : ServiceStore := act .sqlite "alice" ⟨.empty, .empty⟩ (.transition INITIAL_FENCE .closed)

theorem closed_reached : Reached .sqlite "alice" closed := Reached.materialised.acted _

end Closed

open Closed in
/-- The closed store's fence is its second. -/
theorem fence_law_closed : ∃ f, readFence .sqlite closed.mutations "alice" = some f ∧ f.generation = 2 ∧
    f.state = .closed ∧ FenceLaw .sqlite "alice" closed f := by
  obtain ⟨⟨f, hf, hlaw⟩, -⟩ := fence_law closed_reached
  have hwritten : readFence .sqlite closed.mutations "alice" = some ⟨2, .closed, by decide⟩ :=
    readFence_writeFence (fenced_empty "alice") _
  obtain rfl := Option.some.inj (hf.symm.trans hwritten)
  exact ⟨_, hf, rfl, rfl, hlaw⟩

end Data

end Aipcs

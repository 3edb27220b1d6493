import Aipcs.Common.System
import Aipcs.Registry.Service
import Aipcs.Store.Fence
import Mathlib.Logic.Function.Basic
import Mathlib.Logic.Relation

/-!
# Service store — mutations and the write-admission fence

The transactions of one service's store: record and topology mutations
(`_mutate_once`) and fence transitions (`transition_fence`), in both
adapters, step by step. A step is one statement of one transaction.

SQLite runs them one at a time: `BEGIN IMMEDIATE` takes the writer slot
and the transaction holds it to its end. PostgreSQL, at READ COMMITTED,
runs them together, so a statement sees what is committed and only the
locks that the code takes make a transaction wait. A mutation locks its
idempotency identity; a transition locks the service and the fence's row.
-/

namespace Aipcs

namespace Store

namespace Barrier

open Registry

/-- What tells a mutation from the others of its service. -/
structure MutationIdentity where
  principalId : String
  idempotencyKey : String
deriving DecidableEq

/-- The text of `_lock_idempotency`. -/
def idempotencyLockText (namespace_ : String) (m : MutationIdentity) : String :=
  "aipcs:" ++ namespace_ ++ "\x1f" ++ m.principalId ++ "\x1f" ++ m.idempotencyKey

/-- The text of `_acquire_advisory_lock`. -/
def serviceLockText (namespace_ : String) : String := "aipcs:service_store:" ++ namespace_

/-- Where a transaction stands. One that has not begun, or has ended, is
`outside`. -/
inductive Txn (Content : Type*) where
  | outside
  | mutationBegun (m : MutationIdentity)
  | mutationAdmitted (m : MutationIdentity)
  | mutationLocked (m : MutationIdentity)
  | mutationDone (m : MutationIdentity) (change : Content → Content)
  | transitionBegun (expected : WriteAdmissionFence) (target : FenceState)
  | transitionLocked (expected : WriteAdmissionFence) (target : FenceState)
  | transitionWritten (changed : WriteAdmissionFence)

variable {Content : Type*}

namespace Txn

/-- A mutation that has read the fence open and has not ended. -/
inductive IsAdmitted : Txn Content → Prop
  | admitted (m : MutationIdentity) : IsAdmitted (.mutationAdmitted m)
  | locked (m : MutationIdentity) : IsAdmitted (.mutationLocked m)
  | done (m : MutationIdentity) (change : Content → Content) : IsAdmitted (.mutationDone m change)

/-- The advisory lock a transaction holds, with the text's hash. -/
def advisoryLock (hash : String → ℤ) (namespace_ : String) : Txn Content → Option ℤ
  | mutationLocked m => some (hash (idempotencyLockText namespace_ m))
  | mutationDone m _ => some (hash (idempotencyLockText namespace_ m))
  | transitionLocked _ _ => some (hash (serviceLockText namespace_))
  | transitionWritten _ => some (hash (serviceLockText namespace_))
  | _ => none

/-- Does the transaction hold the lock of the fence's row? -/
def locksFence : Txn Content → Bool
  | transitionWritten _ => true
  | _ => false

end Txn

/-- The committed content and fence of a store, its transactions, and
SQLite's writer slot. The fence is absent until it is first changed. -/
structure World (Content : Type*) where
  content : Content
  fence : Option WriteAdmissionFence
  txns : ℕ → Txn Content
  writer : Option ℕ

namespace World

/-- The fence a reader finds. -/
def found (w : World Content) : WriteAdmissionFence := w.fence.getD INITIAL_FENCE

/-- A transaction moves on. -/
def move (w : World Content) (i : ℕ) (t : Txn Content) : World Content :=
  { w with txns := Function.update w.txns i t }

/-- A transaction ends, and gives back what it holds. -/
def finish (w : World Content) (i : ℕ) : World Content :=
  { w.move i .outside with writer := if w.writer = some i then none else w.writer }

end World

/-- One statement of a transaction, with what the caller, or the
operation's own outcome, decides about it. -/
inductive Event (Content : Type*) where
  | beginMutation (m : MutationIdentity)
  | beginTransition (expected : WriteAdmissionFence) (target : FenceState)
  | readFence
  | lock
  | operate (change : Option (Content → Content))
  | compare
  | commit
  | rollback

/-- `BEGIN IMMEDIATE` waits for the writer slot; `BEGIN` does not wait. -/
def Begins (adapter : StorageBackend) (w : World Content) (i : ℕ) : Prop :=
  w.txns i = .outside ∧ (adapter = .sqlite → w.writer = none)

/-- The transaction begins. -/
def World.begins (w : World Content) (adapter : StorageBackend) (i : ℕ) (t : Txn Content) :
    World Content :=
  { w.move i t with writer := if adapter = .sqlite then some i else w.writer }

/-- `pg_advisory_xact_lock` waits until no other transaction holds the key. -/
def LockFree (hash : String → ℤ) (namespace_ : String) (w : World Content) (i : ℕ) (text : String) :
    Prop :=
  ∀ j, j ≠ i → (w.txns j).advisoryLock hash namespace_ ≠ some (hash text)

/-- `FOR UPDATE` waits until no other transaction holds the row, if there is one. -/
def RowFree (w : World Content) (i : ℕ) : Prop :=
  w.fence.isSome → ∀ j, j ≠ i → (w.txns j).locksFence = false

/-- **One step of one transaction.** -/
inductive Step (adapter : StorageBackend) (hash : String → ℤ) (namespace_ : String) :
    World Content → ℕ × Event Content → World Content → Prop
  -- `_mutate_once`
  | beginMutation {w : World Content} {i : ℕ} (m : MutationIdentity) :
      Begins adapter w i →
      Step adapter hash namespace_ w (i, .beginMutation m) (w.begins adapter i (.mutationBegun m))
  | admitted {w : World Content} {i : ℕ} {m : MutationIdentity} :
      w.txns i = .mutationBegun m → w.found.state = .open_ →
      Step adapter hash namespace_ w (i, .readFence) (w.move i (.mutationAdmitted m))
  | refused {w : World Content} {i : ℕ} {m : MutationIdentity} :
      w.txns i = .mutationBegun m → w.found.state ≠ .open_ →
      Step adapter hash namespace_ w (i, .readFence) (w.finish i)
  | lockIdentity {w : World Content} {i : ℕ} {m : MutationIdentity} :
      adapter = .postgresql → w.txns i = .mutationAdmitted m →
      LockFree hash namespace_ w i (idempotencyLockText namespace_ m) →
      Step adapter hash namespace_ w (i, .lock) (w.move i (.mutationLocked m))
  | operated {w : World Content} {i : ℕ} {m : MutationIdentity} (change : Content → Content) :
      w.txns i = (if adapter = .sqlite then .mutationAdmitted m else .mutationLocked m) →
      Step adapter hash namespace_ w (i, .operate (some change)) (w.move i (.mutationDone m change))
  | failed {w : World Content} {i : ℕ} {m : MutationIdentity} :
      w.txns i = (if adapter = .sqlite then .mutationAdmitted m else .mutationLocked m) →
      Step adapter hash namespace_ w (i, .operate none) (w.finish i)
  | commitMutation {w : World Content} {i : ℕ} {m : MutationIdentity} {change : Content → Content} :
      w.txns i = .mutationDone m change →
      Step adapter hash namespace_ w (i, .commit)
        { w.finish i with content := change w.content }
  -- `transition_fence`
  | beginTransition {w : World Content} {i : ℕ} (expected : WriteAdmissionFence)
      (target : FenceState) :
      Begins adapter w i →
      Step adapter hash namespace_ w (i, .beginTransition expected target)
        (w.begins adapter i (.transitionBegun expected target))
  | lockService {w : World Content} {i : ℕ} {expected : WriteAdmissionFence} {target : FenceState} :
      adapter = .postgresql → w.txns i = .transitionBegun expected target →
      LockFree hash namespace_ w i (serviceLockText namespace_) →
      Step adapter hash namespace_ w (i, .lock) (w.move i (.transitionLocked expected target))
  | compared {w : World Content} {i : ℕ} {expected : WriteAdmissionFence} {target : FenceState} :
      w.txns i =
        (if adapter = .sqlite then .transitionBegun expected target
          else .transitionLocked expected target) →
      (adapter = .postgresql → RowFree w i) →
      Step adapter hash namespace_ w (i, .compare)
        -- stale, current and the last generation roll back
        (match transitionFence w.found expected target with
        | some ⟨.applied, changed⟩ => w.move i (.transitionWritten changed)
        | _ => w.finish i)
  | commitTransition {w : World Content} {i : ℕ} {changed : WriteAdmissionFence} :
      w.txns i = .transitionWritten changed →
      Step adapter hash namespace_ w (i, .commit) { w.finish i with fence := some changed }
  -- any statement, and any commit, may fail
  | rollback {w : World Content} {i : ℕ} :
      Step adapter hash namespace_ w (i, .rollback) (w.finish i)

/-- The transactions of a store, from one with none under way. -/
def store (adapter : StorageBackend) (hash : String → ℤ) (namespace_ : String) (Content : Type*) :
    System (World Content) (ℕ × Event Content) where
  init w := (∀ i, w.txns i = .outside) ∧ w.writer = none
  step := Step adapter hash namespace_

/-! ## What holds in every state of a run -/

/-- **The condition on a run.** Where PostgreSQL commits a close, no
mutation that has read the fence open is still under way. -/
def Drained (adapter : StorageBackend) (w : World Content) (l : ℕ × Event Content) : Prop :=
  adapter = .postgresql → ∀ changed, w.txns l.1 = .transitionWritten changed → l.2 = .commit →
    changed.state = .closed → ∀ j, ¬ (w.txns j).IsAdmitted

/-- No mutation that the fence admitted is under way while it is closed;
and with SQLite the one transaction under way has the writer slot. -/
structure Inv (adapter : StorageBackend) (w : World Content) : Prop where
  barrier : w.found.state = .closed → ∀ j, ¬ (w.txns j).IsAdmitted
  slot : adapter = .sqlite → ∀ j, w.txns j ≠ .outside → w.writer = some j

variable {adapter : StorageBackend} {hash : String → ℤ} {namespace_ : String}
  {w w' : World Content} {i j : ℕ} {t : Txn Content}

theorem not_isAdmitted_outside : ¬ (Txn.outside : Txn Content).IsAdmitted := nofun

theorem move_self : (w.move i t).txns i = t := Function.update_self ..

theorem move_of_ne (h : j ≠ i) : (w.move i t).txns j = w.txns j := Function.update_of_ne h ..

theorem finish_txns : (w.finish i).txns = (w.move i .outside).txns := rfl

theorem begins_txns : (w.begins adapter i t).txns = (w.move i t).txns := rfl

/-- A transaction under way moves on. -/
theorem Inv.move (hI : Inv adapter w) (hi : w.txns i ≠ .outside)
    (ht : t.IsAdmitted → w.found.state ≠ .closed) : Inv adapter (w.move i t) where
  barrier hclosed j hj := by
    by_cases hij : j = i
    · subst hij
      rw [move_self] at hj
      exact ht hj hclosed
    · rw [move_of_ne hij] at hj
      exact hI.barrier hclosed j hj
  slot hsql j hj := by
    by_cases hij : j = i
    · subst hij
      exact hI.slot hsql j hi
    · rw [move_of_ne hij] at hj
      exact hI.slot hsql j hj

/-- A transaction ends without effect. -/
theorem Inv.finish (hI : Inv adapter w) : Inv adapter (w.finish i) where
  barrier hclosed j hj := by
    rw [finish_txns] at hj
    by_cases hij : j = i
    · subst hij
      rw [move_self] at hj
      exact not_isAdmitted_outside hj
    · rw [move_of_ne hij] at hj
      exact hI.barrier hclosed j hj
  slot hsql j hj := by
    rw [finish_txns] at hj
    have hij : j ≠ i := by
      rintro rfl
      exact hj move_self
    rw [move_of_ne hij] at hj
    have hslot := hI.slot hsql j hj
    have hother : w.writer ≠ some i := by
      rw [hslot]
      exact fun h => hij (Option.some.inj h)
    exact (if_neg hother).trans hslot

/-- A transaction begins. -/
theorem Inv.begins (hI : Inv adapter w) (hi : Begins adapter w i) (ht : ¬ t.IsAdmitted) :
    Inv adapter (w.begins adapter i t) where
  barrier hclosed j hj := by
    rw [begins_txns] at hj
    by_cases hij : j = i
    · subst hij
      rw [move_self] at hj
      exact ht hj
    · rw [move_of_ne hij] at hj
      exact hI.barrier hclosed j hj
  slot hsql j hj := by
    have hslot : (w.begins adapter i t).writer = some i := if_pos hsql
    rw [hslot]
    rw [begins_txns] at hj
    by_cases hij : j = i
    · rw [hij]
    · -- no other transaction is under way: it would have the slot
      rw [move_of_ne hij] at hj
      exact absurd ((hI.slot hsql j hj).symm.trans (hi.2 hsql)) (by simp)

/-- With SQLite a transaction under way is the only one. -/
theorem Inv.alone (hI : Inv .sqlite w) (hi : w.txns i ≠ .outside) (hj : w.txns j ≠ .outside) :
    j = i :=
  Option.some.inj ((hI.slot rfl j hj).symm.trans (hI.slot rfl i hi))

/-- **A step keeps the invariant.** -/
theorem inv_step {l : ℕ × Event Content} (hI : Inv adapter w) (hok : Drained adapter w l)
    (h : Step adapter hash namespace_ w l w') : Inv adapter w' := by
  cases h with
  | beginMutation m hi => exact hI.begins hi nofun
  | beginTransition expected target hi => exact hI.begins hi nofun
  | admitted hi hopen =>
    refine hI.move (by rw [hi]; nofun) fun _ hclosed => ?_
    exact absurd (hopen.symm.trans hclosed) (by simp)
  | refused => exact hI.finish
  | failed => exact hI.finish
  | rollback => exact hI.finish
  | @lockIdentity i m _ hi _ =>
    refine hI.move (by rw [hi]; nofun) fun _ hclosed => hI.barrier hclosed i ?_
    rw [hi]
    exact .admitted m
  | @operated i m change hi =>
    -- the operation's transaction was admitted, in either adapter
    have hadm : (w.txns i).IsAdmitted := by
      rw [hi]
      split
      · exact .admitted m
      · exact .locked m
    refine hI.move (fun hout => ?_) fun _ hclosed => hI.barrier hclosed i hadm
    rw [hout] at hadm
    exact not_isAdmitted_outside hadm
  | commitMutation hi => exact ⟨hI.finish.barrier, hI.finish.slot⟩
  | lockService _ hi _ => exact hI.move (by rw [hi]; nofun) nofun
  | @compared i expected target hi _ =>
    split
    · refine hI.move (fun hout => ?_) nofun
      rw [hout] at hi
      split at hi <;> exact absurd hi (by simp)
    · exact hI.finish
  | @commitTransition i changed hi =>
    refine ⟨fun hclosed j hj => ?_, hI.finish.slot⟩
    change ((w.move i .outside).txns j).IsAdmitted at hj
    have hij : j ≠ i := by
      rintro rfl
      rw [move_self] at hj
      exact not_isAdmitted_outside hj
    rw [move_of_ne hij] at hj
    cases adapter with
    | postgresql => exact hok rfl changed hi rfl hclosed j hj
    | sqlite =>
      refine hij (hI.alone (by rw [hi]; nofun) fun hout => ?_)
      rw [hout] at hj
      exact not_isAdmitted_outside hj

theorem inv_inductive : (store adapter hash namespace_ Content).Inductive (Drained adapter)
    (Inv adapter) where
  init _ hw := ⟨fun _ j hj => not_isAdmitted_outside (hw.1 j ▸ hj),
    fun _ j hj => absurd (hw.1 j) hj⟩
  step _ _ _ hI hok h := inv_step hI hok h

/-- Only the commit of a mutation changes the content. -/
theorem content_of_step {l : ℕ × Event Content} (h : Step adapter hash namespace_ w l w')
    (hnone : ∀ j, ¬ (w.txns j).IsAdmitted) : w'.content = w.content := by
  cases h with
  | @commitMutation i m change hi =>
    exact absurd (hi ▸ Txn.IsAdmitted.done m change) (hnone i)
  | compared => split <;> rfl
  | _ => rfl

/-! ## The barrier -/

/-- A step that meets the condition, taken while the fence is closed. -/
def ClosedStep (adapter : StorageBackend) (hash : String → ℤ) (namespace_ : String)
    (w w' : World Content) : Prop :=
  w.found.state = .closed ∧ ∃ l, Drained adapter w l ∧ Step adapter hash namespace_ w l w'

/-- While the fence stays closed the content stays what it is. -/
theorem content_of_closedSteps (hI : Inv adapter w)
    (h : Relation.ReflTransGen (ClosedStep adapter hash namespace_) w w') :
    Inv adapter w' ∧ w'.content = w.content := by
  induction h with
  | refl => exact ⟨hI, rfl⟩
  | tail _ hstep ih =>
    obtain ⟨hclosed, l, hok, hl⟩ := hstep
    obtain ⟨hI', hsame⟩ := ih
    exact ⟨inv_step hI' hok hl, (content_of_step hl (hI'.barrier hclosed)).trans hsame⟩

/-! ### What a mutation that outlives a close can do -/

/-- No two transactions hold one advisory key. -/
def Exclusive (hash : String → ℤ) (namespace_ : String) (w : World Content) : Prop :=
  ∀ i j key, (w.txns i).advisoryLock hash namespace_ = some key →
    (w.txns j).advisoryLock hash namespace_ = some key → i = j

theorem Exclusive.move (hE : Exclusive hash namespace_ w)
    (ht : ∀ key, t.advisoryLock hash namespace_ = some key →
      ∀ j, j ≠ i → (w.txns j).advisoryLock hash namespace_ ≠ some key) :
    Exclusive hash namespace_ (w.move i t) := by
  intro a b key ha hb
  by_cases hai : a = i
  · by_cases hbi : b = i
    · rw [hai, hbi]
    · subst hai
      rw [move_self] at ha
      rw [move_of_ne hbi] at hb
      exact absurd hb (ht key ha b hbi)
  · rw [move_of_ne hai] at ha
    by_cases hbi : b = i
    · subst hbi
      rw [move_self] at hb
      exact absurd ha (ht key hb a hai)
    · rw [move_of_ne hbi] at hb
      exact hE a b key ha hb

theorem Exclusive.finish (hE : Exclusive hash namespace_ w) :
    Exclusive hash namespace_ (w.finish i) :=
  Exclusive.move (t := .outside) hE nofun

/-- A transaction that keeps its lock keeps the others out. -/
theorem Exclusive.keep (hE : Exclusive hash namespace_ w)
    (ht : t.advisoryLock hash namespace_ = (w.txns i).advisoryLock hash namespace_) :
    Exclusive hash namespace_ (w.move i t) :=
  hE.move fun key hkey j hji hj => hji (hE j i key hj (ht ▸ hkey))

/-- PostgreSQL's advisory locks stay exclusive. -/
theorem exclusive_step {l : ℕ × Event Content} (hE : Exclusive hash namespace_ w)
    (h : Step .postgresql hash namespace_ w l w') : Exclusive hash namespace_ w' := by
  cases h with
  | beginMutation m hi => exact hE.move nofun
  | beginTransition expected target hi => exact hE.move nofun
  | admitted hi hopen => exact hE.move nofun
  | refused | failed | rollback | commitMutation | commitTransition => exact hE.finish
  | lockIdentity _ _ hfree =>
    refine hE.move fun key hkey j hji => ?_
    rw [← Option.some.inj hkey]
    exact hfree j hji
  | lockService _ _ hfree =>
    refine hE.move fun key hkey j hji => ?_
    rw [← Option.some.inj hkey]
    exact hfree j hji
  | operated change hi =>
    refine hE.keep ?_
    rw [hi, if_neg (by simp)]
    rfl
  | compared hi _ =>
    split
    · refine hE.keep ?_
      rw [hi, if_neg (by simp)]
      rfl
    · exact hE.finish

theorem exclusive_reachable (h : (store .postgresql hash namespace_ Content).Reachable w) :
    Exclusive hash namespace_ w := by
  induction h with
  | init h0 =>
    intro i j key hi
    rw [h0.1 i] at hi
    exact absurd hi (by simp [Txn.advisoryLock])
  | step _ _ hstep ih => exact exclusive_step ih hstep

/-- A step of PostgreSQL's transactions while the fence is closed. -/
def PostgresClosedStep (hash : String → ℤ) (namespace_ : String) (w w' : World Content) : Prop :=
  w.found.state = .closed ∧ ∃ l, Step .postgresql hash namespace_ w l w'

/-- A mutation that holds its lock reaches its commit under the closed fence. -/
theorem locked_crosses (hash : String → ℤ) (namespace_ : String) {m : MutationIdentity}
    (hclosed : w.found.state = .closed) (hj : w.txns j = .mutationLocked m) :
    ∃ w' change, Relation.ReflTransGen (PostgresClosedStep hash namespace_) w w' ∧
      w'.found.state = .closed ∧ w'.txns j = .mutationDone m change :=
  ⟨w.move j (.mutationDone m id), id, .single ⟨hclosed, _, .operated id hj⟩, hclosed, move_self⟩

/-- **An admitted mutation can cross.** Whatever it still has to do, a
mutation that was admitted can reach its commit under the closed fence. -/
theorem admitted_crosses (hE : Exclusive hash namespace_ w) (hclosed : w.found.state = .closed)
    (hj : (w.txns j).IsAdmitted) :
    ∃ w' m change, Relation.ReflTransGen (PostgresClosedStep hash namespace_) w w' ∧
      w'.found.state = .closed ∧ w'.txns j = .mutationDone m change := by
  generalize hstate : w.txns j = state at hj
  cases hj with
  | done m change => exact ⟨w, m, change, .refl, hclosed, hstate⟩
  | locked m =>
    obtain ⟨w', change, hpath, h⟩ := locked_crosses hash namespace_ hclosed hstate
    exact ⟨w', m, change, hpath, h⟩
  | admitted m =>
    -- the one transaction that may hold the mutation's key rolls back
    obtain ⟨k, hkj, hfree⟩ : ∃ k, k ≠ j ∧ LockFree hash namespace_ (w.finish k) j
        (idempotencyLockText namespace_ m) := by
      by_cases hheld : ∃ k, k ≠ j ∧
          (w.txns k).advisoryLock hash namespace_ = some (hash (idempotencyLockText namespace_ m))
      · obtain ⟨k, hkj, hk⟩ := hheld
        refine ⟨k, hkj, fun a haj ha => ?_⟩
        rw [finish_txns] at ha
        by_cases hak : a = k
        · rw [hak, move_self] at ha
          exact absurd ha (by simp [Txn.advisoryLock])
        · rw [move_of_ne hak] at ha
          exact hak (hE a k _ ha hk)
      · refine ⟨j + 1, by omega, fun a haj ha => hheld ⟨a, haj, ?_⟩⟩
        rw [finish_txns] at ha
        by_cases hak : a = j + 1
        · rw [hak, move_self] at ha
          exact absurd ha (by simp [Txn.advisoryLock])
        · rwa [move_of_ne hak] at ha
    have hstate' : (w.finish k).txns j = .mutationAdmitted m := by
      rw [finish_txns, move_of_ne (Ne.symm hkj), hstate]
    obtain ⟨w', change, hpath, h⟩ :=
      locked_crosses (w := (w.finish k).move j (.mutationLocked m)) hash namespace_ hclosed
        move_self
    refine ⟨w', m, change, ?_, h⟩
    exact .head ⟨hclosed, _, .rollback (i := k)⟩
      (.head ⟨hclosed, _, .lockIdentity rfl hstate' hfree⟩ hpath)

/-! ### The result -/

/-- **The write-admission barrier.** In a run in which PostgreSQL closes
the fence only where no admitted mutation is under way, a closed fence
admits none, and the content stays what it is until the fence is opened
again: a snapshot read under the fence has every mutation that commits
before then. SQLite's runs need no condition. Where PostgreSQL does
close the fence over an admitted mutation, that mutation can still
commit under the closed fence. -/
theorem write_admission_barrier (adapter : StorageBackend) (hash : String → ℤ)
    (namespace_ : String) {w : World Content} :
    ((store adapter hash namespace_ Content).ReachableUnder (Drained adapter) w →
      (w.found.state = .closed → ∀ j, ¬ (w.txns j).IsAdmitted) ∧
        ∀ w', Relation.ReflTransGen (ClosedStep adapter hash namespace_) w w' →
          w'.content = w.content) ∧
    (∀ l w₁, (store adapter hash namespace_ Content).Reachable w → ¬ Drained adapter w l →
      Step adapter hash namespace_ w l w₁ →
      ∃ w' j m change, Relation.ReflTransGen (PostgresClosedStep hash namespace_) w₁ w' ∧
        w'.found.state = .closed ∧ w'.txns j = .mutationDone m change) := by
  constructor
  · intro h
    have hI := inv_inductive.reachable h
    exact ⟨hI.barrier, fun w' hpath => (content_of_closedSteps hI hpath).2⟩
  · intro l w₁ h hundrained hstep
    simp only [Drained, not_forall, not_not] at hundrained
    obtain ⟨rfl, changed, hi, hcommit, hstate, j, hj⟩ := hundrained
    have hE := exclusive_step (exclusive_reachable h) hstep
    obtain ⟨i, e⟩ := l
    obtain rfl : e = .commit := hcommit
    cases hstep with
    | commitMutation hm => exact absurd (hm.symm.trans hi) (by simp)
    | commitTransition ht =>
      obtain rfl : _ = changed := Txn.transitionWritten.inj (ht.symm.trans hi)
      have hji : j ≠ i := by
        rintro rfl
        rw [ht] at hj
        exact nomatch hj
      have hj' : ((w.finish i).txns j).IsAdmitted := by
        rwa [finish_txns, move_of_ne hji]
      obtain ⟨w', m, change, h⟩ := admitted_crosses hE hstate hj'
      exact ⟨w', j, m, change, h⟩

/-! ### Runs -/

/-- A store with the fence as it is before its first change. -/
def idle (content : List String) : World (List String) := ⟨content, none, fun _ => .outside, none⟩

theorem second_generation : 1 ≤ 2 ∧ 2 ≤ MAX_FENCE_GENERATION := by decide

def firstClosed : WriteAdmissionFence := ⟨2, .closed, second_generation⟩

theorem close_initial : transitionFence INITIAL_FENCE INITIAL_FENCE .closed =
    some ⟨.applied, firstClosed⟩ := rfl

/-- A caller's first mutation. -/
def firstMutation : MutationIdentity := ⟨"owner", "first"⟩

/-- A transition by transaction 0 has begun. -/
def closingBegun (w : World Content) : World Content :=
  w.move 0 (.transitionBegun INITIAL_FENCE .closed)

/-- It holds the service's lock. -/
def closingLocked (w : World Content) : World Content :=
  (closingBegun w).move 0 (.transitionLocked INITIAL_FENCE .closed)

/-- It is about to commit the store's first close. -/
def closing (w : World Content) : World Content :=
  (closingLocked w).move 0 (.transitionWritten firstClosed)

/-- The first close is committed. -/
def closedAfter (w : World Content) : World Content :=
  { (closing w).finish 0 with fence := some firstClosed }

theorem closing_of_ne (hj : j ≠ 0) : (closing w).txns j = w.txns j := by
  rw [closing, move_of_ne hj, closingLocked, move_of_ne hj, closingBegun, move_of_ne hj]

/-- PostgreSQL's first close runs to its commit where no lock is held. -/
theorem closing_reachable {ok : World Content → ℕ × Event Content → Prop}
    (hok : ∀ w l, l.2 ≠ .commit → ok w l)
    (h : (store .postgresql hash namespace_ Content).ReachableUnder ok w)
    (hout : w.txns 0 = .outside) (hfence : w.fence = none)
    (hfree : ∀ j, (w.txns j).advisoryLock hash namespace_ = none) :
    (store .postgresql hash namespace_ Content).ReachableUnder ok (closing w) := by
  have hbegin : Step .postgresql hash namespace_ w
      (0, .beginTransition INITIAL_FENCE .closed) (closingBegun w) :=
    .beginTransition _ _ ⟨hout, nofun⟩
  have hlock : Step .postgresql hash namespace_ (closingBegun w) (0, .lock) (closingLocked w) := by
    refine .lockService rfl move_self fun j hj => ?_
    rw [closingBegun, move_of_ne hj, hfree]
    simp
  have hfound : (closingLocked w).found = INITIAL_FENCE := by
    change w.fence.getD INITIAL_FENCE = INITIAL_FENCE
    rw [hfence]
    rfl
  have hcompare : Step .postgresql hash namespace_ (closingLocked w) (0, .compare) (closing w) := by
    have hrow : RowFree (closingLocked w) 0 := fun hsome => by
      change w.fence.isSome at hsome
      simp [hfence] at hsome
    have hc := @Step.compared Content .postgresql hash namespace_ (closingLocked w) 0 INITIAL_FENCE
      .closed move_self fun _ => hrow
    rwa [hfound, close_initial] at hc
  exact ((h.step (hok _ _ (by simp)) hbegin).step (hok _ _ (by simp)) hlock).step
    (hok _ _ (by simp)) hcompare

/-- It commits. -/
theorem close_step : Step .postgresql hash namespace_ (closing w) (0, .commit) (closedAfter w) :=
  .commitTransition move_self

/-- A mutation by transaction 1 has read the open fence. -/
def admittedIdle (content : List String) : World (List String) :=
  ((idle content).move 1 (.mutationBegun firstMutation)).move 1 (.mutationAdmitted firstMutation)

theorem idle_reachable {ok : World (List String) → ℕ × Event (List String) → Prop}
    (content : List String) :
    (store .postgresql hash namespace_ (List String)).ReachableUnder ok (idle content) :=
  .init ⟨fun _ => rfl, rfl⟩

theorem admittedIdle_reachable (content : List String) :
    (store .postgresql hash namespace_ (List String)).Reachable (admittedIdle content) := by
  have hbegin : Step .postgresql hash namespace_ (idle content) (1, .beginMutation firstMutation)
      ((idle content).move 1 (.mutationBegun firstMutation)) :=
    .beginMutation _ ⟨rfl, nofun⟩
  exact (System.Reachable.next (idle_reachable content) hbegin).next (.admitted move_self rfl)

theorem idle_unlocked (content : List String) (j : ℕ) :
    ((idle content).txns j).advisoryLock hash namespace_ = none := rfl

theorem admittedIdle_unlocked (content : List String) (j : ℕ) :
    ((admittedIdle content).txns j).advisoryLock hash namespace_ = none := by
  by_cases hj : j = 1
  · rw [hj, admittedIdle, move_self]
    rfl
  · rw [admittedIdle, move_of_ne hj, move_of_ne hj]
    rfl

/-- The store is about to close the fence over an admitted mutation. -/
theorem closing_admitted_reachable (content : List String) :
    (store .postgresql hash namespace_ (List String)).Reachable (closing (admittedIdle content)) :=
  closing_reachable (fun _ _ _ => trivial) (admittedIdle_reachable content) rfl rfl
    (admittedIdle_unlocked content)

theorem drained_of_ne_commit (w : World Content) (l : ℕ × Event Content) (h : l.2 ≠ .commit) :
    Drained adapter w l :=
  fun _ _ _ hcommit => absurd hcommit h

/-- A close that no mutation overlaps. -/
theorem closedAfter_idle_reachable (content : List String) :
    (store .postgresql hash namespace_ (List String)).ReachableUnder (Drained .postgresql)
      (closedAfter (idle content)) := by
  refine .step (closing_reachable drained_of_ne_commit (idle_reachable content) rfl rfl
    (idle_unlocked content)) (fun _ _ _ _ _ j hj => ?_) close_step
  by_cases hj0 : j = 0
  · rw [hj0, closing, move_self] at hj
    exact nomatch hj
  · rw [closing_of_ne hj0] at hj
    exact not_isAdmitted_outside hj

theorem closing_admitted_one (content : List String) :
    (closing (admittedIdle content)).txns 1 = .mutationAdmitted firstMutation := rfl

/-- A key for the texts, for the runs below. -/
def lengthKey (text : String) : ℤ := text.length

/-- The barrier at a close that nothing overlaps, and at one over an admitted mutation. -/
theorem write_admission_barrier_first_close :
    (∀ w', Relation.ReflTransGen (ClosedStep .postgresql lengthKey "notes")
        (closedAfter (idle ["note"])) w' → w'.content = ["note"]) ∧
      ∃ w' j m change, Relation.ReflTransGen (PostgresClosedStep lengthKey "notes")
        (closedAfter (admittedIdle ["note"])) w' ∧
        w'.found.state = .closed ∧ w'.txns j = .mutationDone m change :=
  ⟨((write_admission_barrier .postgresql lengthKey "notes").1
      (closedAfter_idle_reachable ["note"])).2,
    (write_admission_barrier .postgresql lengthKey "notes").2 (0, .commit) _
      (closing_admitted_reachable ["note"])
      (fun h => h rfl firstClosed rfl rfl rfl 1 (closing_admitted_one ["note"] ▸ .admitted _))
      close_step⟩

/-- The admitted mutation, which writes a note, has committed. -/
def crossed : World (List String) :=
  { (((closedAfter (admittedIdle [])).move 1 (.mutationLocked firstMutation)).move 1
      (.mutationDone firstMutation (List.cons "note"))).finish 1 with content := ["note"] }

/-- **The barrier can be crossed in PostgreSQL.** A mutation reads the
open fence; a transition then closes it, and commits; the mutation locks
its identity, writes a note and commits. -/
theorem closed_fence_crossed :
    ¬ ∀ w w' : World (List String),
      (store .postgresql lengthKey "notes" (List String)).Reachable w →
      Relation.ReflTransGen (PostgresClosedStep lengthKey "notes") w w' →
      w'.content = w.content := by
  intro h
  have hclosed : (store .postgresql lengthKey "notes" (List String)).Reachable
      (closedAfter (admittedIdle [])) :=
    (closing_admitted_reachable []).next close_step
  have hlock : Step .postgresql lengthKey "notes" (closedAfter (admittedIdle [])) (1, .lock)
      ((closedAfter (admittedIdle [])).move 1 (.mutationLocked firstMutation)) := by
    refine .lockIdentity rfl rfl fun j hj => ?_
    have hnone : ((closedAfter (admittedIdle [])).txns j).advisoryLock lengthKey "notes" = none := by
      change (((closing (admittedIdle [])).move 0 .outside).txns j).advisoryLock _ _ = none
      by_cases hj0 : j = 0
      · rw [hj0, move_self]
        rfl
      · rw [move_of_ne hj0, closing_of_ne hj0, admittedIdle_unlocked]
    rw [hnone]
    exact nofun
  have hpath : Relation.ReflTransGen (PostgresClosedStep lengthKey "notes")
      (closedAfter (admittedIdle [])) crossed :=
    .head ⟨rfl, _, hlock⟩ (.head ⟨rfl, _, .operated (List.cons "note") move_self⟩
      (.single ⟨rfl, _, .commitMutation move_self⟩))
  have hsame : ["note"] = [] := h _ _ hclosed hpath
  exact absurd hsame (by simp)

end Barrier

end Store

end Aipcs

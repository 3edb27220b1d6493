import Aipcs.Common.System
import Aipcs.Data.BranchForest

/-!
# Data — branches created and moved at once

`create_branch` and `update_branch` of the PostgreSQL topology, statement by
statement: each `_branch(..., lock=True)` waits for the row, reads it as it
is committed by then and keeps it locked to the end of the transaction. A
transaction may fail anywhere, a deadlock being one reason. `update_branch`
looks for its new parent's ancestors before it looks for the parent.
-/

namespace Aipcs

namespace Data

open Manifest Portable Relational Records Registry Store.Mutating Links

/-! ## Transactions -/

/-- Where a transaction of the topology stands. -/
inductive BranchTxn where
  | ended
  | creates (caller : Caller) (t : Readings) (c : CreateBranchCommand)
  | creating (caller : Caller) (t : Readings) (c : CreateBranchCommand)
  | updates (caller : Caller) (t : Readings) (c : UpdateBranchCommand)
  | walking (caller : Caller) (t : Readings) (c : UpdateBranchCommand) (current : BranchValue) (parent : Option Uuid)
      (seen : List Uuid) (next : Option Uuid)
  | walked (caller : Caller) (t : Readings) (c : UpdateBranchCommand) (current : BranchValue) (parent : Option Uuid)
  | checked (caller : Caller) (t : Readings) (c : UpdateBranchCommand) (current : BranchValue) (parent : Option Uuid)
  | inserted (row : BranchRow)
  | updated (row : BranchRow)

/-- What a transaction's next statement does: it locks a row and reads it,
goes on, fails, or commits. -/
inductive Next where
  | locks (i : Uuid) (txn : BranchTxn)
  | goes (txn : BranchTxn)
  | fails
  | commits (x : Content)

/-- The branch that an update makes of the current one. -/
def updateCandidate (t : Readings) (c : UpdateBranchCommand) (current : BranchValue) (parent : Option Uuid) :
    Option BranchValue :=
  buildBranch current.branchId current.slug (c.updates.title.getD current.title) (c.updates.intent.getD current.intent)
    (c.updates.branchType.getD current.branchType) parent (c.updates.status.getD current.status)
    (c.updates.retrievalSummary.getD current.retrievalSummary) current.createdAt t.now
    ⟨current.branchRevision.1 + 1, Nat.le_add_left ..⟩

/-- `_same_branch`. -/
def sameBranch (left right : BranchValue) : Bool :=
  left.title = right.title ∧ left.intent = right.intent ∧ left.branchType = right.branchType ∧
    left.parentBranchId = right.parentBranchId ∧ left.status = right.status ∧
    left.retrievalSummary = right.retrievalSummary

/-- The next statement of a transaction, over what is committed. -/
def BranchTxn.next (x : Content) : BranchTxn → Next
  | .ended => .fails
  | .creates caller t c =>
    match c.parentBranchId with
    | none => .goes (.creating caller t c)
    | some i => if (branchRow caller.principalId i x).isSome then .locks i (.creating caller t c) else .fails
  | .creating caller t c =>
    match buildBranch t.newId c.slug c.title c.intent c.branchType c.parentBranchId .active c.retrievalSummary t.now
      t.now .first with
    | none => .fails
    | some branch =>
      if x.branches.rows.all fun r => r.principalId ≠ caller.principalId || r.value.slug ≠ branch.slug then
        .goes (.inserted ⟨caller.principalId, branch⟩)
      else .fails
  | .updates caller t c =>
    match branchRow caller.principalId c.branchId x with
    | none => .fails
    | some row =>
      if c.expectedBranchRevision.1 < MAX_REVISION ∧ row.value.branchRevision.1 = c.expectedBranchRevision.1 then
        let parent := c.updates.parentBranchId.getD row.value.parentBranchId
        if parent = some row.value.branchId then .fails
        else .locks c.branchId (.walking caller t c row.value parent [] parent)
      else .fails
  | .walking caller t c current parent seen next =>
    match next with
    | none => .goes (.walked caller t c current parent)
    | some i =>
      if i = current.branchId ∨ i ∈ seen then .fails
      else
        match branchRow caller.principalId i x with
        | none => .goes (.walked caller t c current parent)
        | some row => .locks i (.walking caller t c current parent (i :: seen) row.value.parentBranchId)
  | .walked caller t c current parent =>
    match parent with
    | none => .goes (.checked caller t c current parent)
    | some i =>
      if (branchRow caller.principalId i x).isSome then .locks i (.checked caller t c current parent) else .fails
  | .checked caller t c current parent =>
    match updateCandidate t c current parent with
    | none => .fails
    | some next => if sameBranch current next then .commits x else .goes (.updated ⟨caller.principalId, next⟩)
  | .inserted row =>
    match x.branches.insert row with
    | some branches => .commits { x with branches }
    | none => .fails
  | .updated row => .commits { x with branches := x.branches.set row }

-- its equations are made here, once, for all the theorems that unfold it
attribute [local grind =] BranchTxn.next

/-! ## Runs -/

/-- What is committed, which transaction has which row locked, and where each stands. -/
structure BranchWorld where
  content : Content
  locks : Uuid → Option ℕ
  txns : ℕ → BranchTxn

namespace BranchWorld

variable (w : BranchWorld) (n : ℕ)

/-- A transaction is elsewhere. -/
def put (txn : BranchTxn) : BranchWorld := { w with txns := Function.update w.txns n txn }

/-- A transaction has a row locked, and is elsewhere. -/
def lock (i : Uuid) (txn : BranchTxn) : BranchWorld :=
  { w with locks := Function.update w.locks i (some n), txns := Function.update w.txns n txn }

/-- A transaction is over, and its locks with it. -/
def finish (x : Content) : BranchWorld where
  content := x
  locks i := if w.locks i = some n then none else w.locks i
  txns := Function.update w.txns n .ended

/-- The next statement of a transaction, unless it waits. -/
def advance : Option BranchWorld :=
  match (w.txns n).next w.content with
  | .locks i txn => if w.locks i = none ∨ w.locks i = some n then some (w.lock n i txn) else none
  | .goes txn => some (w.put n txn)
  | .fails => some (w.finish n w.content)
  | .commits x => some (w.finish n x)

end BranchWorld

/-- What may happen next. -/
inductive BranchEvent where
  | creates (n : ℕ) (caller : Caller) (t : Readings) (c : CreateBranchCommand)
  | updates (n : ℕ) (caller : Caller) (t : Readings) (c : UpdateBranchCommand)
  | advances (n : ℕ)
  | aborts (n : ℕ)

/-- No transaction has this number. -/
def BranchTxn.isOver : BranchTxn → Bool
  | .ended => true
  | _ => false

/-- What comes of an event, where it may happen. -/
def BranchWorld.after (w : BranchWorld) : BranchEvent → Option BranchWorld
  | .creates n caller t c => if (w.txns n).isOver then some (w.put n (.creates caller t c)) else none
  | .updates n caller t c => if (w.txns n).isOver then some (w.put n (.updates caller t c)) else none
  | .advances n => w.advance n
  | .aborts n => some (w.finish n w.content)

/-- The transactions of the topology, over branches that are a forest. -/
def branchTransactions : System BranchWorld BranchEvent where
  init w := w.content.BranchForest ∧ (∀ i, w.locks i = none) ∧ ∀ n, w.txns n = .ended
  step w e w' := w.after e = some w'

/-- A branch is committed that a transaction has looked for as its new
parent, and not found: it has walked no ancestors of it. -/
def Surprise (w : BranchWorld) (n : ℕ) : Prop :=
  ∃ row m caller t c current, w.txns n = .inserted row ∧ w.txns m = .walked caller t c current (some row.key) ∧
    caller.principalId = row.principalId ∧ branchRow row.principalId row.key w.content = none

/-- No such branch is committed. -/
def Unsurprising (w : BranchWorld) : BranchEvent → Prop
  | .advances n => ¬ Surprise w n
  | _ => True

/-! ## What a transaction knows -/

namespace Reparenting

section invariant

variable {w w' : BranchWorld} {n m : ℕ} {p : String} {a i : Uuid} {parent : Option Uuid} {x : Content}

/-- The rows are the transaction's, to its end. -/
def Holds (w : BranchWorld) (n : ℕ) (l : List Uuid) : Prop := ∀ i ∈ l, w.locks i = some n

/-- The ancestors from a parent on are the transaction's, and the branch is none of them. -/
def Cleared (w : BranchWorld) (n : ℕ) (p : String) (a : Uuid) (parent : Option Uuid) : Prop :=
  ∃ seen, Holds w n seen ∧ Trail (w.content.links p) parent seen none ∧ a ∉ seen

/-- A parent is there. -/
def Present (p : String) (parent : Option Uuid) (x : Content) : Prop :=
  ∀ i, parent = some i → (branchRow p i x).isSome

/-- What holds of what a transaction has found. -/
def Knows (w : BranchWorld) (n : ℕ) : BranchTxn → Prop
  | .ended | .creates .. | .updates .. => True
  | .creating caller _ c => Present caller.principalId c.parentBranchId w.content
  | .walking caller _ _ current parent seen next =>
    w.locks current.branchId = some n ∧ branchRow caller.principalId current.branchId w.content = some ⟨caller.principalId, current⟩ ∧
      Holds w n seen ∧ Trail (w.content.links caller.principalId) parent seen next ∧ current.branchId ∉ seen
  | .walked caller _ _ current parent =>
    w.locks current.branchId = some n ∧ branchRow caller.principalId current.branchId w.content = some ⟨caller.principalId, current⟩ ∧
      (Cleared w n caller.principalId current.branchId parent ∨
        ∃ i, parent = some i ∧ branchRow caller.principalId i w.content = none)
  | .checked caller _ _ current parent =>
    w.locks current.branchId = some n ∧ branchRow caller.principalId current.branchId w.content = some ⟨caller.principalId, current⟩ ∧
      Cleared w n caller.principalId current.branchId parent
  | .inserted row => Present row.principalId row.value.parentBranchId w.content
  | .updated row =>
    w.locks row.key = some n ∧ (branchRow row.principalId row.key w.content).isSome ∧
      Cleared w n row.principalId row.key row.value.parentBranchId

/-- What is committed is a forest, and what transactions know holds. -/
structure Sound (w : BranchWorld) : Prop where
  forest : w.content.BranchForest
  knows : ∀ n, Knows w n (w.txns n)

/-- What becomes of the world, as a transaction beside sees it: it keeps its
locks, the rows under them are as they were, no row goes, and none comes
that it has missed. -/
structure Beside (m : ℕ) (w w' : BranchWorld) : Prop where
  locks : ∀ i, w.locks i = some m → w'.locks i = some m
  rows : ∀ p i, w.locks i = some m → (branchRow p i w.content).isSome →
    branchRow p i w'.content = branchRow p i w.content
  present : ∀ p i, (branchRow p i w.content).isSome → (branchRow p i w'.content).isSome
  missed : ∀ caller t c current i, w.txns m = .walked caller t c current (some i) →
    branchRow caller.principalId i w.content = none → branchRow caller.principalId i w'.content = none

theorem Holds.beside {l : List Uuid} (h : Holds w m l) (hb : Beside m w w') : Holds w' m l := fun i hi => hb.locks i (h i hi)

theorem Trail.beside {seen : List Uuid} {next : Option Uuid} (h : Trail (w.content.links p) parent seen next)
    (hseen : Holds w m seen) (hb : Beside m w w') : Trail (w'.content.links p) parent seen next :=
  h.congr fun i hi hsome => congrArg (Option.map _) (hb.rows p i (hseen i hi) (by rwa [links_isSome] at hsome))

theorem Cleared.beside (h : Cleared w m p a parent) (hb : Beside m w w') : Cleared w' m p a parent := by
  obtain ⟨seen, hseen, htrail, ha⟩ := h
  exact ⟨seen, hseen.beside hb, Trail.beside htrail hseen hb, ha⟩

/-- **What a transaction knows stands** whatever the others do. -/
theorem Knows.beside (h : Knows w m (w.txns m)) (hb : Beside m w w') : Knows w' m (w.txns m) := by
  cases htxn : w.txns m with
  | ended => trivial
  | creates caller t c => trivial
  | updates caller t c => trivial
  | creating caller t c =>
    rw [htxn] at h
    exact fun i hi => hb.present _ _ (h i hi)
  | walking caller t c current parent seen next =>
    rw [htxn] at h
    obtain ⟨hlock, hrow, hseen, htrail, ha⟩ := h
    exact ⟨hb.locks _ hlock, (hb.rows _ _ hlock (by rw [hrow]; rfl)).trans hrow, hseen.beside hb, Trail.beside htrail hseen hb, ha⟩
  | walked caller t c current parent =>
    rw [htxn] at h
    obtain ⟨hlock, hrow, hparent⟩ := h
    refine ⟨hb.locks _ hlock, (hb.rows _ _ hlock (by rw [hrow]; rfl)).trans hrow, hparent.imp (Cleared.beside · hb) ?_⟩
    rintro ⟨i, rfl, hmissing⟩
    exact ⟨i, rfl, hb.missed _ _ _ _ i htxn hmissing⟩
  | checked caller t c current parent =>
    rw [htxn] at h
    obtain ⟨hlock, hrow, hcleared⟩ := h
    exact ⟨hb.locks _ hlock, (hb.rows _ _ hlock (by rw [hrow]; rfl)).trans hrow, hcleared.beside hb⟩
  | inserted row =>
    rw [htxn] at h
    exact fun i hi => hb.present _ _ (h i hi)
  | updated row =>
    rw [htxn] at h
    obtain ⟨hlock, hrow, hcleared⟩ := h
    exact ⟨hb.locks _ hlock, hb.present _ _ hrow, hcleared.beside hb⟩

/-! ## What its next statement makes of that -/

theorem beside_put (txn : BranchTxn) : Beside m w (w.put n txn) :=
  ⟨fun _ h => h, fun _ _ _ _ => rfl, fun _ _ h => h, fun _ _ _ _ _ _ h => h⟩

theorem beside_lock {txn : BranchTxn} (hfree : w.locks i = none ∨ w.locks i = some n) (hm : m ≠ n) :
    Beside m w (w.lock n i txn) where
  locks j hj := by
    have hne : j ≠ i := by
      rintro rfl
      rcases hfree with hfree | hfree <;> rw [hfree] at hj
      · exact absurd hj (by simp)
      · exact hm (Option.some.inj hj).symm
    exact (Function.update_of_ne hne _ _).trans hj
  rows _ _ _ _ := rfl
  present _ _ h := h
  missed _ _ _ _ _ _ h := h

theorem beside_finish (hm : m ≠ n) (hrows : ∀ p i, w.locks i = some m → (branchRow p i w.content).isSome → branchRow p i x = branchRow p i w.content)
    (hpresent : ∀ p i, (branchRow p i w.content).isSome → (branchRow p i x).isSome)
    (hmissed : ∀ caller t c current i, w.txns m = .walked caller t c current (some i) →
      branchRow caller.principalId i w.content = none → branchRow caller.principalId i x = none) :
    Beside m w (w.finish n x) where
  locks i hi := by
    refine (if_neg fun hn => hm ?_).trans hi
    exact Option.some.inj (hi.symm.trans hn)
  rows := hrows
  present := hpresent
  missed := hmissed

/-- What the others know stands, and so it is enough that the transaction does. -/
theorem Sound.next (h : Sound w) (hforest : w'.content.BranchForest) {txn : BranchTxn}
    (htxns : w'.txns = Function.update w.txns n txn) (hbeside : ∀ m, m ≠ n → Beside m w w') (hmine : Knows w' n txn) :
    Sound w' := by
  refine ⟨hforest, fun m => ?_⟩
  rw [htxns]
  by_cases hm : m = n
  · subst hm
    rw [Function.update_self]
    exact hmine
  · rw [Function.update_of_ne hm]
    exact (h.knows m).beside (hbeside m hm)

theorem Sound.put (h : Sound w) {txn : BranchTxn} (hmine : Knows (w.put n txn) n txn) : Sound (w.put n txn) :=
  h.next h.forest rfl (fun _ _ => beside_put txn) hmine

theorem Sound.lock (h : Sound w) {txn : BranchTxn} (hfree : w.locks i = none ∨ w.locks i = some n)
    (hmine : Knows (w.lock n i txn) n txn) : Sound (w.lock n i txn) :=
  h.next h.forest rfl (fun _ hm => beside_lock hfree hm) hmine

/-- A transaction that fails leaves what the others know. -/
theorem Sound.abort (h : Sound w) : Sound (w.finish n w.content) :=
  h.next h.forest rfl (fun _ hm => beside_finish hm (fun _ _ _ _ => rfl) (fun _ _ h => h) fun _ _ _ _ _ _ h => h) trivial

/-! ## Its own statements -/

theorem lock_self {txn : BranchTxn} : (w.lock n i txn).locks i = some n := Function.update_self ..

theorem lock_mine {txn : BranchTxn} {j : Uuid} (h : w.locks j = some n) : (w.lock n i txn).locks j = some n := by
  by_cases hj : j = i
  · rw [hj]
    exact lock_self
  · exact (Function.update_of_ne hj _ _).trans h

theorem Holds.lock {txn : BranchTxn} {l : List Uuid} (h : Holds w n l) : Holds (w.lock n i txn) n l :=
  fun j hj => lock_mine (h j hj)

/-- What a next statement comes to, for the transaction and for what is committed. -/
def NextSpec (w : BranchWorld) (n : ℕ) : Next → Prop
  | .locks i txn => Knows (w.lock n i txn) n txn
  | .goes txn => Knows (w.put n txn) n txn
  | .fails => True
  | .commits x => x = w.content ∨
      (∃ row branches, w.txns n = .inserted row ∧ w.content.branches.insert row = some branches ∧
        x = { w.content with branches }) ∨
      ∃ row, w.txns n = .updated row ∧ x = { w.content with branches := w.content.branches.set row }

/-- **A transaction knows what it goes on with.** The ancestors are walked
one by one, and the walk ends at a root; or at its first row, which is not
there. -/
theorem next_walking (h : Sound w) {caller : Caller} {t : Readings} {c : UpdateBranchCommand} {current : BranchValue}
    {seen : List Uuid} {next : Option Uuid} (hn : w.txns n = .walking caller t c current parent seen next) :
    NextSpec w n ((w.txns n).next w.content) := by
  have hk := h.knows n
  rw [hn] at hk ⊢
  obtain ⟨hlock, hrow, hseen, htrail, ha⟩ := hk
  cases next with
  | none => exact ⟨hlock, hrow, .inl ⟨seen, hseen, htrail, ha⟩⟩
  | some i =>
    rw [BranchTxn.next]
    split_ifs with hmet
    · trivial
    · rw [not_or] at hmet
      split
      · rename_i hmissing
        refine ⟨hlock, hrow, .inr ?_⟩
        -- only the parent itself may be missing: the parents of branches are there
        cases htrail with
        | here => exact ⟨i, rfl, hmissing⟩
        | pass _ hj =>
          have hpresent := (h.forest caller.principalId).parent hj
          rw [links_isSome, hmissing] at hpresent
          exact absurd hpresent (by simp)
      · rename_i row hfound
        refine ⟨lock_mine hlock, hrow, ?_, .pass htrail (congrArg (Option.map _) hfound), ?_⟩
        · intro j hj
          rcases List.mem_cons.1 hj with rfl | hj
          · exact lock_self
          · exact lock_mine (hseen j hj)
        · intro hmem
          exact (List.mem_cons.1 hmem).elim (fun heq => hmet.1 heq.symm) ha

theorem next_walked (h : Sound w) {caller : Caller} {t : Readings} {c : UpdateBranchCommand} {current : BranchValue}
    (hn : w.txns n = .walked caller t c current parent) : NextSpec w n ((w.txns n).next w.content) := by
  have hk := h.knows n
  rw [hn] at hk ⊢
  obtain ⟨hlock, hrow, hparent⟩ := hk
  cases parent with
  | none => exact ⟨hlock, hrow, [], fun _ hi => absurd hi List.not_mem_nil, .here, List.not_mem_nil⟩
  | some i =>
    rw [BranchTxn.next]
    split_ifs with hfound
    · rcases hparent with ⟨seen, hseen, htrail, ha⟩ | ⟨j, hj, hmissing⟩
      · exact ⟨lock_mine hlock, hrow, seen, hseen.lock, htrail, ha⟩
      · obtain rfl := Option.some.inj hj
        rw [hmissing] at hfound
        exact absurd hfound (by simp)
    · trivial

theorem next_updates {caller : Caller} {t : Readings} {c : UpdateBranchCommand}
    (hn : w.txns n = .updates caller t c) : NextSpec w n ((w.txns n).next w.content) := by
  rw [hn, BranchTxn.next]
  split
  · trivial
  · rename_i row hrow
    obtain ⟨-, hkey, howner⟩ := branchRow_eq_some.1 hrow
    obtain ⟨principalId, value⟩ := row
    obtain rfl : principalId = caller.principalId := howner
    have hkey : value.branchId = c.branchId := hkey
    split_ifs
    · dsimp only
      split_ifs
      · trivial
      · refine ⟨?_, ?_, fun _ hi => absurd hi List.not_mem_nil, .here, List.not_mem_nil⟩
        · rw [hkey]
          exact lock_self
        · rw [hkey]
          exact hrow
    · trivial

theorem next_create {caller : Caller} {t : Readings} {c : CreateBranchCommand}
    (hn : w.txns n = .creates caller t c) : NextSpec w n ((w.txns n).next w.content) := by
  rw [hn, BranchTxn.next]
  split
  · rename_i hnone
    intro i hi
    rw [hnone] at hi
    exact absurd hi (by simp)
  · rename_i i hparent
    split_ifs with hfound
    · intro j hj
      obtain rfl := Option.some.inj (hparent.symm.trans hj)
      exact hfound
    · trivial

theorem next_creating (h : Sound w) {caller : Caller} {t : Readings} {c : CreateBranchCommand}
    (hn : w.txns n = .creating caller t c) : NextSpec w n ((w.txns n).next w.content) := by
  have hk := h.knows n
  rw [hn] at hk ⊢
  rw [BranchTxn.next]
  split
  · trivial
  · rename_i branch hbranch
    split_ifs
    · rw [buildBranch] at hbranch
      split_ifs at hbranch
      obtain rfl := Option.some.inj hbranch
      exact hk
    · trivial

theorem next_checked (h : Sound w) {caller : Caller} {t : Readings} {c : UpdateBranchCommand} {current : BranchValue}
    (hn : w.txns n = .checked caller t c current parent) : NextSpec w n ((w.txns n).next w.content) := by
  have hk := h.knows n
  rw [hn] at hk ⊢
  obtain ⟨hlock, hrow, hcleared⟩ := hk
  rw [BranchTxn.next]
  split
  · trivial
  · rename_i next hnext
    split_ifs
    · exact .inl rfl
    · rw [updateCandidate, buildBranch] at hnext
      split_ifs at hnext
      obtain rfl := Option.some.inj hnext
      refine ⟨hlock, ?_, hcleared⟩
      exact Option.isSome_iff_exists.2 ⟨_, hrow⟩

theorem next_spec (h : Sound w) : NextSpec w n ((w.txns n).next w.content) := by
  cases hn : w.txns n with
  | ended => trivial
  | creates caller t c => exact hn ▸ next_create hn
  | creating caller t c => exact hn ▸ next_creating h hn
  | updates caller t c => exact hn ▸ next_updates hn
  | walking caller t c current parent seen next => exact hn ▸ next_walking h hn
  | walked caller t c current parent => exact hn ▸ next_walked h hn
  | checked caller t c current parent => exact hn ▸ next_checked h hn
  | inserted row =>
    rw [BranchTxn.next]
    split
    · rename_i branches hinsert
      exact .inr (.inl ⟨row, branches, hn, hinsert, rfl⟩)
    · trivial
  | updated row => exact .inr (.inr ⟨row, hn, rfl⟩)

/-! ## Commits -/

/-- **A branch created**, unless some transaction has missed it. -/
theorem Sound.insert (h : Sound w) {row : BranchRow} {branches : Table BranchRow.key} (hn : w.txns n = .inserted row)
    (hinsert : w.content.branches.insert row = some branches) (hcalm : ¬ Surprise w n) :
    Sound (w.finish n { w.content with branches }) := by
  have hk := h.knows n
  rw [hn] at hk
  have hfree : ∀ p, branchRow p row.key w.content = none := fun p => by
    rw [branchRow, (Table.insert_eq_some.1 hinsert).1]
    rfl
  have hkept : ∀ p i, (branchRow p i w.content).isSome → branchRow p i { w.content with branches } = branchRow p i w.content :=
    fun p i hi => (branchRow_insert hinsert).trans (if_neg fun hsame => by
      rw [show i = row.key from hsame.2, hfree] at hi
      exact absurd hi (by simp))
  refine h.next (h.forest.insert hinsert hk) rfl (fun m hm => beside_finish hm ?_ ?_ ?_) trivial
  · exact fun p i _ hi => hkept p i hi
  · intro p i hi
    rw [hkept p i hi]
    exact hi
  · intro caller t c current i hwalked hmissing
    rw [branchRow_insert hinsert, if_neg]
    · exact hmissing
    · rintro ⟨hp, rfl⟩
      exact hcalm ⟨row, m, caller, t, c, current, hn, hwalked, hp, hfree _⟩

/-- **A branch moved**: the ancestors of its parent are as they were walked, for they are locked. -/
theorem Sound.update (h : Sound w) {row : BranchRow} (hn : w.txns n = .updated row) :
    Sound (w.finish n { w.content with branches := w.content.branches.set row }) := by
  have hk := h.knows n
  rw [hn] at hk
  obtain ⟨hlock, hrow, seen, hseen, htrail, ha⟩ := hk
  obtain ⟨r, hr⟩ := Option.isSome_iff_exists.1 hrow
  have hr : branchRow row.principalId row.value.branchId w.content = some r := hr
  have hother : ∀ p i, i ≠ row.key →
      branchRow p i { w.content with branches := w.content.branches.set row } = branchRow p i w.content := fun p i hi =>
    (branchRow_set hr).trans (if_neg fun heq => hi heq.2)
  have hforest := h.forest.set hr (htrail.walk .root) (by
    rw [List.append_nil, List.mem_reverse]
    exact ha)
  refine h.next hforest rfl (fun m hm => beside_finish hm ?_ ?_ ?_) trivial
  · intro p i hi _
    refine hother p i ?_
    rintro rfl
    exact hm (Option.some.inj (hi.symm.trans hlock))
  · intro p i hi
    by_cases hself : p = row.principalId ∧ i = row.key
    · rw [(branchRow_set hr).trans (if_pos hself)]
      rfl
    · rw [(branchRow_set hr).trans (if_neg hself)]
      exact hi
  · intro caller t c current i _ hmissing
    rw [branchRow_set hr, if_neg]
    · exact hmissing
    · rintro ⟨hp, hi⟩
      rw [hp, hi, hr] at hmissing
      exact absurd hmissing (by simp)

/-- **What an event leaves is sound**, where no missed branch is committed. -/
theorem Sound.after (h : Sound w) {e : BranchEvent} (hcalm : Unsurprising w e) (hw : w.after e = some w') : Sound w' := by
  cases e with
  | creates n caller t c =>
    rw [BranchWorld.after] at hw
    split_ifs at hw
    obtain rfl := Option.some.inj hw
    exact h.put trivial
  | updates n caller t c =>
    rw [BranchWorld.after] at hw
    split_ifs at hw
    obtain rfl := Option.some.inj hw
    exact h.put trivial
  | aborts n =>
    obtain rfl := Option.some.inj hw
    exact h.abort
  | advances n =>
    have hspec := next_spec (n := n) h
    rw [BranchWorld.after, BranchWorld.advance] at hw
    split at hw
    · rename_i i txn hnext
      rw [hnext] at hspec
      split_ifs at hw with hfree
      obtain rfl := Option.some.inj hw
      exact h.lock hfree hspec
    · rename_i txn hnext
      rw [hnext] at hspec
      obtain rfl := Option.some.inj hw
      exact h.put hspec
    · obtain rfl := Option.some.inj hw
      exact h.abort
    · rename_i x hnext
      rw [hnext] at hspec
      obtain rfl := Option.some.inj hw
      rcases hspec with rfl | ⟨row, branches, hn, hinsert, rfl⟩ | ⟨row, hn, rfl⟩
      · exact h.abort
      · exact h.insert hn hinsert hcalm
      · exact h.update hn

end invariant

end Reparenting

namespace Looped

open Noted (alice)

def first : Uuid := ⟨11, by decide, by decide⟩

def second : Uuid := ⟨12, by decide, by decide⟩

def third : Uuid := ⟨13, by decide, by decide⟩

def readings (i : Uuid) : Readings := ⟨default, i⟩

def create (slug : { s : String // requireSlug s = true }) (parent : Option Uuid) : CreateBranchCommand :=
  ⟨slug, ⟨"Loop", by decide +kernel⟩, ⟨"What goes round", by decide +kernel⟩, none, parent, none⟩

/-- The first branch is to be below the third. -/
def move : UpdateBranchCommand := ⟨first, ⟨none, none, none, some (some third), none, none⟩, .first⟩

/-- While the first branch is being moved, the third is created below the
second, which is below the first. -/
def events : List BranchEvent :=
  [.creates 0 alice (readings first) (create ⟨"first", by decide +kernel⟩ none), .advances 0, .advances 0, .advances 0,
    .creates 1 alice (readings second) (create ⟨"second", by decide +kernel⟩ (some first)), .advances 1, .advances 1,
    .advances 1, .updates 2 alice (readings first) move, .advances 2, .advances 2,
    .creates 3 alice (readings third) (create ⟨"third", by decide +kernel⟩ (some second)), .advances 3, .advances 3,
    .advances 3, .advances 2, .advances 2, .advances 2]

def begun : BranchWorld := ⟨.empty, fun _ => none, fun _ => .ended⟩

def looped : Option BranchWorld := events.foldlM BranchWorld.after begun

theorem reachable_of_events : ∀ {es : List BranchEvent} {w w' : BranchWorld}, branchTransactions.Reachable w →
    es.foldlM BranchWorld.after w = some w' → branchTransactions.Reachable w'
  | [], w, w', hw, h => by
    obtain rfl := Option.some.inj h
    exact hw
  | e :: es, w, w', hw, h => by
    rw [List.foldlM_cons] at h
    obtain ⟨u, hu, h⟩ := Option.bind_eq_some_iff.1 h
    exact reachable_of_events (hw.next (l := e) hu) h

theorem looped_links : (looped.map fun w => [first, second, third].map (w.content.links "alice")) =
    some [some (some third), some (some first), some (some second)] := by
  decide +kernel

theorem loops : ∃ w, branchTransactions.Reachable w ∧ ¬ w.content.BranchForest := by
  obtain ⟨w, hw, hlinks⟩ := Option.map_eq_some_iff.1 looped_links
  have hbegun : branchTransactions.Reachable begun := .init ⟨branchForest_empty, fun _ => rfl, fun _ => rfl⟩
  refine ⟨w, reachable_of_events hbegun hw, fun hforest => ?_⟩
  obtain ⟨hfirst, hsecond, hthird⟩ : w.content.links "alice" first = some (some third) ∧
      w.content.links "alice" second = some (some first) ∧ w.content.links "alice" third = some (some second) := by
    simpa using hlinks
  obtain ⟨l, hl, hnodup⟩ := hforest "alice" first (by rw [hfirst]; rfl)
  -- from the first branch the links lead to the third, the second and the first
  cases hl with
  | step h₁ hl₁ =>
    obtain rfl := Option.some.inj (hfirst.symm.trans h₁)
    cases hl₁ with
    | step h₂ hl₂ =>
      obtain rfl := Option.some.inj (hthird.symm.trans h₂)
      cases hl₂ with
      | step h₃ hl₃ =>
        obtain rfl := Option.some.inj (hsecond.symm.trans h₃)
        cases hl₃ with
        | step _ _ => exact (List.nodup_cons.1 hnodup).1 (by simp)

end Looped

end Data

end Aipcs

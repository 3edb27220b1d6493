import Aipcs.Common.ParentFirst
import Aipcs.Data.BranchForest
import Aipcs.Data.Statements

/-!
# Data — branches in the order of a restore

`_parent_first`, which the two stores have in the same words: the branches
of a restore are swept until none is pending, and each sweep takes those
whose parents it has taken before. It takes all of them exactly where every
parent is among them and none is its own ancestor (`parentFirst_spec`); and
in its order they can be inserted.
-/

namespace Aipcs

namespace Data

open Records Registry Links

/-- `StorageContractError`, which a restore raises. -/
inductive StorageContractError where
  | raised
deriving DecidableEq

/-- Is there a branch of the id? -/
def inside (i : Uuid) (l : List BranchValue) : Bool := l.any fun b => b.branchId = i

/-- An entry of a dictionary by id: in the place of the one there is. -/
def put (pending : List BranchValue) (branch : BranchValue) : List BranchValue :=
  if inside branch.branchId pending then pending.map fun b => if b.branchId = branch.branchId then branch else b
  else pending ++ [branch]

/-- `{branch.branch_id: branch for branch in branches}`. -/
def pendingOf (branches : List BranchValue) : List BranchValue := branches.foldl put []

/-- The state of `_parent_first`. -/
structure Sweep where
  pending : List BranchValue
  ordered : List BranchValue

/-- Is the branch a root, or has its parent been taken? -/
def Sweep.isReady (s : Sweep) (branch : BranchValue) : Bool :=
  match branch.parentBranchId with
  | none => true
  | some parent => !inside parent s.pending && inside parent s.ordered

/-- The branches that are ready, by their ids. -/
def Sweep.ready (s : Sweep) : List BranchValue :=
  (s.pending.filter s.isReady).insertionSort fun a b => a.branchId.hex ≤ b.branchId.hex

/-- The inner loop: it takes one ready branch after the other. -/
def Sweep.take : List BranchValue → Sweep → Except StorageContractError Sweep
  | [], s => .ok s
  | branch :: ready, s =>
    if branch.parentBranchId.any fun parent => !inside parent s.ordered then .error .raised
    else Sweep.take ready ⟨s.pending.filter fun b => b.branchId ≠ branch.branchId, s.ordered ++ [branch]⟩

/-- One turn of the outer loop. -/
def Sweep.next (s : Sweep) : Except StorageContractError Sweep :=
  match s.ready with
  | [] => .error .raised
  | branch :: ready => Sweep.take (branch :: ready) s

theorem Sweep.length_take {ready : List BranchValue} {s s' : Sweep} (h : Sweep.take ready s = .ok s') :
    s'.pending.length ≤ s.pending.length := by
  induction ready generalizing s with
  | nil =>
    obtain rfl := Except.ok.inj h
    exact le_rfl
  | cons branch ready ih =>
    rw [Sweep.take] at h
    split_ifs at h
    exact (ih h).trans (List.length_filter_le _ _)

/-- A turn takes a branch at least. -/
theorem Sweep.length_next {s s' : Sweep} (h : s.next = .ok s') : s'.pending.length < s.pending.length := by
  rw [Sweep.next] at h
  split at h
  · exact absurd h (by simp)
  · rename_i branch ready hready
    rw [Sweep.take] at h
    split_ifs at h
    refine (length_take h).trans_lt (List.length_filter_lt_length_iff_exists.2 ⟨branch, ?_, by simp⟩)
    have hmem : branch ∈ s.ready := hready ▸ List.mem_cons_self
    exact (List.mem_filter.1 ((List.mem_insertionSort _).1 hmem)).1

/-- The outer loop, which goes on while a branch is pending. -/
def Sweep.run (s : Sweep) : Except StorageContractError (List BranchValue) :=
  if s.pending.isEmpty then .ok s.ordered
  else
    match _hnext : s.next with
    | .error e => .error e
    | .ok s' => s'.run
termination_by s.pending.length
decreasing_by exact Sweep.length_next _hnext

/-- `_parent_first`. -/
def parentFirst (branches : List BranchValue) : Except StorageContractError (List BranchValue) :=
  Sweep.run ⟨pendingOf branches, []⟩

/-! ## What is pending -/

variable {branches ready ordered : List BranchValue} {s : Sweep} {i : Uuid}

theorem inside_iff {l : List BranchValue} : inside i l = true ↔ ∃ b ∈ l, b.branchId = i := by
  rw [inside, List.any_eq_true]
  exact ⟨fun ⟨b, hb, h⟩ => ⟨b, hb, of_decide_eq_true h⟩, fun ⟨b, hb, h⟩ => ⟨b, hb, decide_eq_true h⟩⟩

theorem foldl_put (pending : List BranchValue) (h : ((pending ++ branches).map (·.branchId)).Nodup) :
    branches.foldl put pending = pending ++ branches := by
  induction branches generalizing pending with
  | nil => rw [List.append_nil, List.foldl_nil]
  | cons branch branches ih =>
    have hnew : ¬ inside branch.branchId pending = true := by
      rw [inside_iff]
      rintro ⟨b, hb, heq⟩
      rw [List.map_append, List.map_cons] at h
      exact (List.nodup_append.1 h).2.2 _ (List.mem_map_of_mem hb) _ List.mem_cons_self heq
    rw [List.foldl_cons, put, if_neg hnew, ih _ (by simpa using h), List.append_assoc, List.singleton_append]

/-- Branches of distinct ids are the entries of their dictionary. -/
theorem pendingOf_eq (h : (branches.map (·.branchId)).Nodup) : pendingOf branches = branches :=
  foldl_put [] h

/-! ## A turn -/

/-- Ready branches are all taken. -/
theorem Sweep.take_eq (hparents : ∀ b ∈ ready, ∀ j, b.parentBranchId = some j → inside j s.ordered = true) :
    Sweep.take ready s =
      .ok ⟨s.pending.filter fun b => b.branchId ∉ ready.map (·.branchId), s.ordered ++ ready⟩ := by
  induction ready generalizing s with
  | nil => simp [Sweep.take]
  | cons branch ready ih =>
    have hnot : ¬ (branch.parentBranchId.any fun parent => !inside parent s.ordered) = true := by
      rw [Option.any_eq_true]
      rintro ⟨j, hj, hmissing⟩
      rw [hparents branch List.mem_cons_self j hj] at hmissing
      exact absurd hmissing (by decide)
    rw [Sweep.take, if_neg hnot, ih fun b hb j hj => ?_]
    · simp only [List.filter_filter, List.append_assoc, List.singleton_append, List.map_cons, List.mem_cons, not_or]
      congr 2
      refine List.filter_congr fun b _ => ?_
      by_cases hb : b.branchId = branch.branchId <;> simp [hb]
    · rw [inside_iff]
      obtain ⟨b', hb', heq⟩ := inside_iff.1 (hparents b (List.mem_cons_of_mem _ hb) j hj)
      exact ⟨b', List.mem_append_left _ hb', heq⟩

theorem Sweep.mem_ready {b : BranchValue} : b ∈ s.ready ↔ b ∈ s.pending ∧
    ∀ j, b.parentBranchId = some j → inside j s.pending = false ∧ inside j s.ordered = true := by
  rw [Sweep.ready, List.mem_insertionSort, List.mem_filter, Sweep.isReady]
  cases b.parentBranchId <;> simp

theorem Sweep.next_eq (h : s.ready ≠ []) : s.next =
    .ok ⟨s.pending.filter fun b => b.branchId ∉ s.ready.map (·.branchId), s.ordered ++ s.ready⟩ := by
  rw [Sweep.next]
  split
  · rename_i hnone
    exact absurd hnone h
  · rename_i branch ready hready
    rw [← hready]
    exact Sweep.take_eq fun b hb j hj => ((Sweep.mem_ready.1 hb).2 j hj).2

/-- **What a turn keeps**: the branches are those taken and those pending,
and the ones taken come after their parents. -/
structure Sweep.Sound (branches : List BranchValue) (s : Sweep) : Prop where
  perm : (s.ordered ++ s.pending).Perm branches
  parentFirst : ParentFirst (·.branchId) (·.parentBranchId) s.ordered

/-- What a turn takes and what it leaves are what was pending. -/
theorem Sweep.perm_ready (h : (s.pending.map (·.branchId)).Nodup) :
    (s.ready ++ s.pending.filter fun b => b.branchId ∉ s.ready.map (·.branchId)).Perm s.pending := by
  have hleft : (s.pending.filter fun b => b.branchId ∉ s.ready.map (·.branchId)) =
      s.pending.filter fun b => !s.isReady b := by
    refine List.filter_congr fun b hb => ?_
    rw [Bool.eq_iff_iff, decide_eq_true_eq, Bool.not_eq_true', ← Bool.not_eq_true, not_iff_not]
    constructor
    · intro hmem
      obtain ⟨b', hb', heq⟩ := List.mem_map.1 hmem
      obtain ⟨hpending, hready⟩ := List.mem_filter.1 ((List.mem_insertionSort _).1 hb')
      rwa [← List.inj_on_of_nodup_map h hpending hb heq]
    · intro hready
      exact List.mem_map_of_mem ((List.mem_insertionSort _).2 (List.mem_filter.2 ⟨hb, hready⟩))
  rw [hleft]
  exact ((List.perm_insertionSort _ _).append_right _).trans (List.filter_append_perm _ _)

theorem Sweep.Sound.next {s' : Sweep} (hs : s.Sound branches) (hdistinct : (branches.map (·.branchId)).Nodup)
    (hnext : s.next = .ok s') : s'.Sound branches := by
  have hready : s.ready ≠ [] := by
    intro hnone
    rw [Sweep.next, hnone] at hnext
    exact absurd hnext (by simp)
  have hpending : (s.pending.map (·.branchId)).Nodup := by
    have hall := (hs.perm.map (·.branchId)).nodup_iff.2 hdistinct
    rw [List.map_append] at hall
    exact (List.nodup_append.1 hall).2.1
  rw [Sweep.next_eq hready] at hnext
  obtain rfl := Except.ok.inj hnext
  refine ⟨?_, hs.parentFirst.append fun b hb j hj => ?_⟩
  · rw [List.append_assoc]
    exact ((Sweep.perm_ready hpending).append_left _).trans hs.perm
  · exact inside_iff.1 ((Sweep.mem_ready.1 hb).2 j hj).2

/-- **There is a branch to take** as long as one is pending, where every
parent is there and no branch is its own ancestor. -/
theorem Sweep.Sound.ready_ne_nil (hs : s.Sound branches) (hne : s.pending ≠ [])
    (hclosed : Closed (·.branchId) (·.parentBranchId) branches)
    (hacyclic : Acyclic (·.branchId) (·.parentBranchId) branches) : s.ready ≠ [] := by
  have hsub : s.pending ⊆ branches := fun b hb => hs.perm.subset (List.mem_append_right _ hb)
  obtain ⟨b, hb, hfirst⟩ := hacyclic.exists_first hsub hne
  refine List.ne_nil_of_mem (Sweep.mem_ready.2 ⟨hb, fun j hj => ?_⟩)
  have hnot : ¬ inside j s.pending = true := fun hin => by
    obtain ⟨c, hc, heq⟩ := inside_iff.1 hin
    exact hfirst j hj c hc heq
  refine ⟨Bool.not_eq_true _ ▸ hnot, ?_⟩
  obtain ⟨c, hc, heq⟩ := hclosed b (hsub hb) j hj
  rcases List.mem_append.1 (hs.perm.mem_iff.2 hc) with hc | hc
  · exact inside_iff.2 ⟨c, hc, heq⟩
  · exact absurd (inside_iff.2 ⟨c, hc, heq⟩) hnot

/-! ## A run -/

/-- **The outer loop**, by induction on what is pending. -/
theorem Sweep.Sound.run (hdistinct : (branches.map (·.branchId)).Nodup) (n : ℕ) :
    ∀ s : Sweep, s.pending.length = n → s.Sound branches →
      (∀ ordered, s.run = .ok ordered →
        ordered.Perm branches ∧ ParentFirst (·.branchId) (·.parentBranchId) ordered) ∧
      (Closed (·.branchId) (·.parentBranchId) branches → Acyclic (·.branchId) (·.parentBranchId) branches →
        ∃ ordered, s.run = .ok ordered) := by
  induction n using Nat.strong_induction_on with
  | _ n ih =>
    intro s hn hs
    rw [Sweep.run]
    split_ifs with hempty
    · rw [List.isEmpty_iff] at hempty
      have hperm := hs.perm
      rw [hempty, List.append_nil] at hperm
      refine ⟨fun ordered h => ?_, fun _ _ => ⟨_, rfl⟩⟩
      obtain rfl := Except.ok.inj h
      exact ⟨hperm, hs.parentFirst⟩
    · rw [List.isEmpty_iff] at hempty
      split
      · rename_i e hnext
        refine ⟨fun ordered h => absurd h (by simp), fun hclosed hacyclic => ?_⟩
        rw [Sweep.next_eq (hs.ready_ne_nil hempty hclosed hacyclic)] at hnext
        exact absurd hnext (by simp)
      · rename_i s' hnext
        exact ih _ (hn ▸ Sweep.length_next hnext) s' rfl (hs.next hdistinct hnext)

theorem sound_pendingOf (hdistinct : (branches.map (·.branchId)).Nodup) :
    Sweep.Sound branches ⟨pendingOf branches, []⟩ := by
  rw [pendingOf_eq hdistinct]
  exact ⟨List.Perm.refl _, parentFirst_nil⟩

theorem parentFirst_ok (hdistinct : (branches.map (·.branchId)).Nodup) (h : parentFirst branches = .ok ordered) :
    ordered.Perm branches ∧ ParentFirst (·.branchId) (·.parentBranchId) ordered :=
  (Sweep.Sound.run hdistinct _ _ rfl (sound_pendingOf hdistinct)).1 ordered h

theorem exists_parentFirst (hdistinct : (branches.map (·.branchId)).Nodup)
    (hclosed : Closed (·.branchId) (·.parentBranchId) branches)
    (hacyclic : Acyclic (·.branchId) (·.parentBranchId) branches) : ∃ ordered, parentFirst branches = .ok ordered :=
  (Sweep.Sound.run hdistinct _ _ rfl (sound_pendingOf hdistinct)).2 hclosed hacyclic

/-- **Branches are put in order** where every parent is among them and no
branch is its own ancestor, each once and after its parent; otherwise the
error is raised, and nothing is returned. -/
theorem parentFirst_spec (branches : List BranchValue) (hdistinct : (branches.map (·.branchId)).Nodup) :
    (Closed (·.branchId) (·.parentBranchId) branches ∧ Acyclic (·.branchId) (·.parentBranchId) branches →
      ∃ ordered, parentFirst branches = .ok ordered ∧ ordered.Perm branches ∧
        ParentFirst (·.branchId) (·.parentBranchId) ordered) ∧
    (¬ (Closed (·.branchId) (·.parentBranchId) branches ∧ Acyclic (·.branchId) (·.parentBranchId) branches) →
      parentFirst branches = .error .raised) := by
  constructor
  · rintro ⟨hclosed, hacyclic⟩
    obtain ⟨ordered, h⟩ := exists_parentFirst hdistinct hclosed hacyclic
    exact ⟨ordered, h, parentFirst_ok hdistinct h⟩
  · intro hnot
    cases h : parentFirst branches with
    | error e => rfl
    | ok ordered =>
      obtain ⟨hperm, horder⟩ := parentFirst_ok hdistinct h
      have hordered : (ordered.map (·.branchId)).Nodup := (hperm.map _).nodup_iff.2 hdistinct
      exact absurd ⟨horder.closed.perm hperm, (horder.acyclic hordered).perm hperm⟩ hnot

namespace Lineage

/-- A branch of a number, below another or none. -/
def branch (n : ℕ) (h : 0 < n ∧ n < 2 ^ 128) (parent : Option Uuid) : BranchValue where
  branchId := ⟨n, h.1, h.2⟩
  slug := ⟨"lineage", by decide +kernel⟩
  title := ⟨"Lineage", by decide +kernel⟩
  intent := ⟨"What descends", by decide +kernel⟩
  branchType := none
  parentBranchId := parent
  status := .active
  retrievalSummary := none
  createdAt := default
  updatedAt := default
  branchRevision := .first
  ordered := by decide

def root : BranchValue := branch 2 (by decide) none

def child : BranchValue := branch 1 (by decide) (some root.branchId)

/-- A branch below itself. -/
def loop : BranchValue := branch 3 (by decide) (some ⟨3, by decide, by decide⟩)

theorem order : ParentFirst (·.branchId) (·.parentBranchId) ([root] ++ [child]) := by
  have hroot : ParentFirst BranchValue.branchId (·.parentBranchId) ([] ++ [root]) :=
    parentFirst_nil.append fun b hb j hj => by
      obtain rfl := List.mem_singleton.1 hb
      exact absurd hj (Option.some_ne_none j).symm
  refine hroot.append fun b hb j hj => ?_
  obtain rfl := List.mem_singleton.1 hb
  exact ⟨root, List.mem_singleton_self _, Option.some.inj hj⟩

end Lineage

open Lineage in
theorem parentFirst_spec_lineage :
    (∃ ordered, parentFirst [child, root] = .ok ordered ∧ ordered.Perm [child, root] ∧
      ParentFirst (·.branchId) (·.parentBranchId) ordered) ∧
    parentFirst [root, loop] = .error .raised :=
  ⟨(parentFirst_spec [child, root] (by decide)).1
      ⟨order.closed.perm (.swap ..), (order.acyclic (by decide)).perm (.swap ..)⟩,
    (parentFirst_spec [root, loop] (by decide)).2 fun h =>
      h.2 loop.branchId (.single ⟨loop, by simp, rfl, rfl⟩)⟩

/-! ## Restores -/

variable {x y : Content} {p : String} {b : StorageBackend}

/-- The branches of a restore, inserted one after the other. -/
def insertBranches (p : String) (x : Content) (ordered : List BranchValue) : Option Content :=
  ordered.foldlM (fun x v => (x.branches.insert ⟨p, v⟩).map fun t => { x with branches := t }) x

/-- **Inserts in the order of `_parent_first`** leave a forest: none is
below a branch that is not there. -/
theorem insertBranches_forest (taken : List BranchValue) (hx : x.BranchForest)
    (htaken : ∀ v ∈ taken, (branchRow p v.branchId x).isSome)
    (horder : ParentFirst (·.branchId) (·.parentBranchId) (taken ++ ordered))
    (h : insertBranches p x ordered = some y) : y.BranchForest := by
  induction ordered generalizing x taken with
  | nil =>
    obtain rfl := Option.some.inj h
    exact hx
  | cons v ordered ih =>
    rw [insertBranches, List.foldlM_cons, Option.bind_eq_bind, Option.bind_eq_some_iff] at h
    obtain ⟨z, hz, h⟩ := h
    obtain ⟨t, ht, rfl⟩ := Option.map_eq_some_iff.1 hz
    refine ih (taken ++ [v]) (hx.insert ht fun j hj => ?_) (fun w hw => ?_) (by simpa using horder) h
    · obtain ⟨w, hw, rfl⟩ := horder taken v ordered rfl j hj
      exact htaken w hw
    · rw [branchRow_insert ht]
      split_ifs with hself
      · rfl
      · rcases List.mem_append.1 hw with hw | hw
        · exact htaken w hw
        · obtain rfl := List.mem_singleton.1 hw
          exact absurd ⟨rfl, rfl⟩ hself

/-- **What a store holds a restore puts in order**, where the store's
commands came one after the other. -/
theorem Stored.parentFirst (hx : Stored b x) :
    ∃ ordered, parentFirst ((x.branchRows p).map (·.value)) = .ok ordered := by
  have hrow : ∀ r, r ∈ x.branchRows p ↔ r ∈ x.branches.rows ∧ r.principalId = p := fun r => by
    rw [Content.branchRows, List.mem_insertionSort, List.mem_filter, decide_eq_true_eq]
  have hlinks : ∀ v ∈ (x.branchRows p).map (·.value), x.links p v.branchId = some v.parentBranchId := fun v hv => by
    obtain ⟨r, hr, rfl⟩ := List.mem_map.1 hv
    obtain ⟨hmem, howner⟩ := (hrow r).1 hr
    have hfound : branchRow p r.value.branchId x = some r := branchRow_eq_some.2 ⟨hmem, rfl, howner⟩
    rw [Content.links, hfound]
    rfl
  refine exists_parentFirst ?_ ((hx.forest p).closed hlinks fun i hi => ?_) ((hx.forest p).acyclic hlinks)
  · rw [List.map_map]
    exact ((List.perm_insertionSort _ _).map _).nodup_iff.2 (x.branches.keyed.sublist (List.filter_sublist.map _))
  · obtain ⟨r, hr⟩ := Option.isSome_iff_exists.1 (links_isSome ▸ hi)
    obtain ⟨hmem, hkey, howner⟩ := branchRow_eq_some.1 hr
    exact ⟨r.value, List.mem_map_of_mem ((hrow r).2 ⟨hmem, howner⟩), hkey⟩

end Data

end Aipcs

import Aipcs.Common.ParentLinks
import Aipcs.Data.Assignments

/-!
# Data — branches are a forest

The parent links of a principal's branches. A branch is created below one
that is there, and moved below one whose ancestors have been walked without
meeting it; so in a store whose commands come one after the other every
branch has a way to a root.
-/

namespace Aipcs

namespace Data

open Manifest Portable Relational Records Registry Store.Mutating Links

/-- The parent links of a principal's branches. -/
def Content.links (p : String) (x : Content) : Links Uuid := fun i => (branchRow p i x).map fun r => r.value.parentBranchId

/-- **From every branch the parent links lead to a root**, and meet no branch twice. -/
def Content.BranchForest (x : Content) : Prop := ∀ p, (x.links p).Forest

section statements

variable {x : Content} {p p' : String} {v : BranchValue} {t : Table BranchRow.key} {r : BranchRow} {i : Uuid}

theorem branchRow_eq_some : branchRow p i x = some r ↔ r ∈ x.branches.rows ∧ r.key = i ∧ r.principalId = p := by
  rw [branchRow, Option.filter_eq_some_iff, Table.find?_eq_some, decide_eq_true_eq, and_assoc]

theorem links_isSome : (x.links p i).isSome = (branchRow p i x).isSome := Option.isSome_map

/-- The links past an insert: the new branch is a leaf. -/
theorem branchRow_insert (h : x.branches.insert ⟨p', v⟩ = some t) :
    branchRow p i { x with branches := t } =
      if p = p' ∧ i = v.branchId then some ⟨p', v⟩ else branchRow p i x := by
  by_cases hi : i = v.branchId
  · subst hi
    have hself : t.find? v.branchId = some ⟨p', v⟩ := Table.find?_insert_self h
    have hnone : x.branches.find? v.branchId = none := (Table.insert_eq_some.1 h).1
    rw [branchRow, branchRow, hself, hnone, Option.filter_some, Option.filter_none]
    by_cases hp : p = p' <;> simp [hp, eq_comm]
  · have hother : t.find? i = x.branches.find? i := Table.find?_insert_of_ne h hi
    rw [branchRow, branchRow, hother, if_neg fun h => hi h.2]

/-- The links past an update: the branch has its new parent. -/
theorem branchRow_set (h : branchRow p' v.branchId x = some r) :
    branchRow p i { x with branches := x.branches.set ⟨p', v⟩ } =
      if p = p' ∧ i = v.branchId then some ⟨p', v⟩ else branchRow p i x := by
  by_cases hi : i = v.branchId
  · subst hi
    obtain ⟨hfind, howner⟩ := Option.filter_eq_some_iff.1 h
    have hself : (x.branches.set ⟨p', v⟩).find? v.branchId = some ⟨p', v⟩ := Table.find?_set_self hfind
    rw [branchRow, branchRow, hself, hfind, Option.filter_some, Option.filter_some]
    have howner : r.principalId = p' := by simpa using howner
    by_cases hp : p = p'
    · simp [hp]
    · simp [hp, howner, Ne.symm hp]
  · have hother : (x.branches.set ⟨p', v⟩).find? i = x.branches.find? i := Table.find?_set_of_ne hi
    rw [branchRow, branchRow, hother, if_neg fun h => hi h.2]

theorem links_of_branchRow {y : Content}
    (h : ∀ p i, branchRow p i y = if p = p' ∧ i = v.branchId then some ⟨p', v⟩ else branchRow p i x) :
    y.links p = if p = p' then Function.update (x.links p) v.branchId (some v.parentBranchId) else x.links p := by
  funext i
  rw [Content.links, h]
  by_cases hp : p = p'
  · by_cases hi : i = v.branchId
    · rw [if_pos ⟨hp, hi⟩, if_pos hp, hi, Function.update_self]
      rfl
    · rw [if_neg fun h => hi h.2, if_pos hp, Function.update_of_ne hi]
      rfl
  · rw [if_neg fun h => hp h.1, if_neg hp]
    rfl

/-- **A branch inserted** below one that is there. -/
theorem Content.BranchForest.insert (hx : x.BranchForest) (h : x.branches.insert ⟨p', v⟩ = some t)
    (hparent : ∀ j, v.parentBranchId = some j → (branchRow p' j x).isSome) :
    ({ x with branches := t } : Content).BranchForest := by
  intro p
  rw [links_of_branchRow fun p i => branchRow_insert h]
  split_ifs with hp
  · subst hp
    have hnone : x.branches.find? v.branchId = none := (Table.insert_eq_some.1 h).1
    refine (hx p).graft ?_ fun j hj => by rw [links_isSome]; exact hparent j hj
    rw [Content.links, branchRow, hnone]
    rfl
  · exact hx p

/-- **A branch moved** below one whose ancestors do not meet it. -/
theorem Content.BranchForest.set (hx : x.BranchForest) (h : branchRow p' v.branchId x = some r) {l : List Uuid}
    (hwalk : Walk (x.links p') v.parentBranchId l) (hl : v.branchId ∉ l) :
    ({ x with branches := x.branches.set ⟨p', v⟩ } : Content).BranchForest := by
  intro p
  rw [links_of_branchRow fun p i => branchRow_set h]
  split_ifs with hp
  · subst hp
    exact (hx p).move hwalk hl
  · exact hx p

end statements

/-! ## One command after the other -/

section sequences

variable {b : StorageBackend} {s : RecordSpecification} {caller : Caller} {t : Readings} {x y : Content} {r : Result}

/-- **Where the walk has not met the branch**, it is a walk to a root without it. -/
theorem hasAncestor_eq_false {p : String} {sought : Uuid} (hx : (x.links p).Forest) : ∀ {fuel : ℕ} {seen : List Uuid}
    {next : Option Uuid}, (∀ j, next = some j → (branchRow p j x).isSome) →
    hasAncestor p sought x fuel seen next = false → ∃ l, Walk (x.links p) next l ∧ sought ∉ l
  | _, _, none, _, _ => ⟨[], .root, List.not_mem_nil⟩
  | 0, _, some _, _, h => absurd h (by simp [hasAncestor])
  | fuel + 1, seen, some current, hnext, h => by
    obtain ⟨row, hrow⟩ := Option.isSome_iff_exists.1 (hnext current rfl)
    have hlink : x.links p current = some row.value.parentBranchId := by rw [Content.links, hrow]; rfl
    rw [hasAncestor] at h
    split_ifs at h with hmet
    rw [hrow] at h
    obtain ⟨l, hl, hmem⟩ := hasAncestor_eq_false hx
      (fun j hj => by rw [← links_isSome]; exact hx.parent (hlink.trans (congrArg some hj))) h
    exact ⟨current :: l, .step hlink hl, fun hin => (List.mem_cons.1 hin).elim (fun heq => hmet (.inl heq.symm)) hmem⟩

theorem createBranch_forest {c : CreateBranchCommand} (hx : x.BranchForest)
    (hop : createBranch caller t c x = .ok (y, r)) : y.BranchForest := by
  simp only [createBranch, bind_eq_ok, require_eq_ok, check_eq_ok, pure, Except.pure, Except.ok.injEq,
    Prod.mk.injEq] at hop
  obtain ⟨_, hparent, branch, hbranch, _, -, branches, hinsert, rfl, -⟩ := hop
  refine hx.insert hinsert fun j hj => ?_
  rw [buildBranch] at hbranch
  split_ifs at hbranch
  obtain rfl := Option.some.inj hbranch
  rw [show c.parentBranchId = some j from hj, Option.all_some] at hparent
  exact hparent

theorem updateBranch_forest {c : UpdateBranchCommand} (hx : x.BranchForest)
    (hop : updateBranch caller t c x = .ok (y, r)) : y.BranchForest := by
  simp only [updateBranch, bind_eq_ok, require_eq_ok, check_eq_ok] at hop
  obtain ⟨_, -, row, hrow, _, -, _, -, _, hparent, _, hwalk, hop⟩ := hop
  split_ifs at hop
  · obtain ⟨rfl, -⟩ := Prod.mk.inj (Except.ok.inj hop)
    exact hx
  · simp only [bind_eq_ok, require_eq_ok, pure, Except.pure, Except.ok.injEq, Prod.mk.injEq] at hop
    obtain ⟨next, hnext, rfl, -⟩ := hop
    rw [buildBranch] at hnext
    split_ifs at hnext
    obtain rfl := Option.some.inj hnext
    rw [Bool.not_eq_true'] at hwalk
    obtain ⟨l, hl, hmem⟩ := hasAncestor_eq_false (hx caller.principalId)
      (fun j hj => by rw [hj, Option.all_some] at hparent; exact hparent) hwalk
    have hkey : row.value.branchId = c.branchId := (branchRow_eq_some.1 hrow).2.1
    refine hx.set (r := row) ?_ hl hmem
    rw [hkey]
    exact hrow

theorem Content.BranchForest.of_same (hx : x.BranchForest) (h : y.branches = x.branches) : y.BranchForest := by
  intro p
  have hlinks : y.links p = x.links p := by
    funext i
    rw [Content.links, Content.links, branchRow, branchRow, h]
  rw [hlinks]
  exact hx p

/-- What leaves the branches as they are. -/
theorem insertRow_branches {row : RecordRow} (h : x.insertRow row = some y) : y.branches = x.branches := by
  obtain ⟨_, -, rfl⟩ := Option.map_eq_some_iff.1 h
  rfl

theorem updateRow_branches {p e : String} {id : Uuid} {expected version : ℕ} {now : Instant}
    {cells : Option (List (String × SqlValue))} (h : x.updateRow p e id expected version now cells = some y) :
    y.branches = x.branches := by
  obtain ⟨_, -, rfl⟩ := Option.map_eq_some_iff.1 h
  rfl

theorem deleteRow_branches {p e : String} {id : Uuid} {expected : ℕ} (h : x.deleteRow p e id expected = some y) :
    y.branches = x.branches := by
  obtain ⟨_, -, rfl⟩ := Option.map_eq_some_iff.1 h
  rfl

theorem appendHistory_branches {h : HistoryRow} (hy : x.appendHistory h = some y) : y.branches = x.branches := by
  unfold Content.appendHistory at hy
  split_ifs at hy
  obtain rfl := Option.some.inj hy
  rfl

theorem insertMembership_branches {m : MembershipRow} (h : x.insertMembership m = some y) : y.branches = x.branches := by
  unfold Content.insertMembership at h
  split_ifs at h
  obtain ⟨_, -, rfl⟩ := Option.map_eq_some_iff.1 h
  rfl

theorem applyMapping_branches {branch : Uuid} {role : BranchRole} {operation : AssignmentOperation} {k : RecordIdentity}
    {now : Instant} {changed : Option HistoryKind} (h : applyMapping branch role operation k now x = some (y, changed)) :
    y.branches = x.branches := by
  cases operation with
  | unassign =>
    rw [applyMapping] at h
    split_ifs at h <;> obtain ⟨rfl, -⟩ := Prod.mk.inj (Option.some.inj h) <;> rfl
  | assign =>
    cases role with
    | related =>
      rw [applyMapping] at h
      split_ifs at h
      · obtain ⟨rfl, -⟩ := Prod.mk.inj (Option.some.inj h)
        rfl
      · obtain ⟨z, hz, heq⟩ := Option.map_eq_some_iff.1 h
        obtain ⟨rfl, -⟩ := Prod.mk.inj heq
        exact insertMembership_branches hz
    | primary =>
      rw [applyMapping] at h
      split_ifs at h
      · obtain ⟨rfl, -⟩ := Prod.mk.inj (Option.some.inj h)
        rfl
      all_goals
        obtain ⟨z, hz, heq⟩ := Option.map_eq_some_iff.1 h
        obtain ⟨rfl, -⟩ := Prod.mk.inj heq
        have hcleared := insertMembership_branches hz
        exact hcleared

theorem assignTargets_branches {c : AssignBranchRecordsCommand} :
    ∀ {checked : List (BranchAssignmentTarget × FrozenJsonObject)} {x y : Content} {refs : List (String × Uuid × ℕ)},
      assignTargets b caller t c checked x = .ok (y, refs) → y.branches = x.branches
  | [], x, y, refs, hop => by
    simp only [assignTargets, Except.ok.injEq, Prod.mk.injEq] at hop
    rw [hop.1]
  | (target, fields) :: rest, x, y, refs, hop => by
    simp only [assignTargets, bind_eq_ok, pure, Except.pure, Except.ok.injEq, Prod.mk.injEq] at hop
    obtain ⟨⟨x₁, ref⟩, hfirst, ⟨x₂, refs₂⟩, hrest, rfl, -⟩ := hop
    refine (assignTargets_branches hrest).trans ?_
    simp only [assignTarget, bind_eq_ok, require_eq_ok] at hfirst
    obtain ⟨⟨z, changed⟩, hmapping, hfirst⟩ := hfirst
    cases changed with
    | none =>
      simp only [pure, Except.pure, Except.ok.injEq, Prod.mk.injEq] at hfirst
      rw [← hfirst.1]
      exact applyMapping_branches hmapping
    | some kind =>
      simp only [bind_eq_ok, require_eq_ok, pure, Except.pure, Except.ok.injEq, Prod.mk.injEq] at hfirst
      obtain ⟨x₃, hupdate, x₄, happend, rfl, -⟩ := hfirst
      exact (appendHistory_branches happend).trans ((updateRow_branches hupdate).trans (applyMapping_branches hmapping))

/-- A command that is none of the topology's leaves the branches as they were. -/
theorem operate_branches {c : Command} (hc : c.kind.topology = false ∨ c.kind = .assignBranchRecords)
    (hop : operate b s caller t x c = .ok (y, r)) : y.branches = x.branches := by
  cases c with
  | createRecord c =>
    simp only [operate, createRecord, insertRecord, appendEvent, bind_eq_ok, require_eq_ok, check_eq_ok, pure,
      Except.pure, Except.ok.injEq, Prod.mk.injEq] at hop
    obtain ⟨_, -, _, -, _, -, x₁, ⟨_, -, _, -, hinsert⟩, x₂, happend, rfl, -⟩ := hop
    exact (appendHistory_branches happend).trans (insertRow_branches hinsert)
  | updateRecord c =>
    simp only [operate, updateRecord, appendEvent, bind_eq_ok, require_eq_ok, check_eq_ok, pure, Except.pure,
      Except.ok.injEq, Prod.mk.injEq] at hop
    obtain ⟨_, -, _, -, _, -, _, -, _, -, _, -, _, -, x₁, hupdate, x₂, happend, rfl, -⟩ := hop
    exact (appendHistory_branches happend).trans (updateRow_branches hupdate)
  | deleteRecord c =>
    simp only [operate, deleteRecord, appendEvent, bind_eq_ok, require_eq_ok, check_eq_ok, pure, Except.pure,
      Except.ok.injEq, Prod.mk.injEq] at hop
    obtain ⟨_, -, _, -, x₁, hdelete, _, -, x₂, happend, rfl, -⟩ := hop
    have hcleared := deleteRow_branches hdelete
    exact (appendHistory_branches happend).trans hcleared
  | createBranch c => exact absurd hc (by simp [Command.kind, MutationKind.topology])
  | updateBranch c => exact absurd hc (by simp [Command.kind, MutationKind.topology])
  | assignBranchRecords c =>
    obtain ⟨checked, refs, -, htargets, -⟩ := assignRecords_eq_ok hop
    exact assignTargets_branches htargets

theorem operate_forest {c : Command} (hx : x.BranchForest) (hop : operate b s caller t x c = .ok (y, r)) :
    y.BranchForest := by
  cases c with
  | createBranch c => exact createBranch_forest hx hop
  | updateBranch c => exact updateBranch_forest hx hop
  | createRecord c => exact hx.of_same (operate_branches (.inl rfl) hop)
  | updateRecord c => exact hx.of_same (operate_branches (.inl rfl) hop)
  | deleteRecord c => exact hx.of_same (operate_branches (.inl rfl) hop)
  | assignBranchRecords c => exact hx.of_same (operate_branches (.inr rfl) hop)

theorem branchForest_empty : Content.empty.BranchForest := by
  intro p i hi
  rw [links_isSome, branchRow] at hi
  exact absurd hi (by simp [Content.empty])

/-- **A store's branches are a forest**, where its commands come one after the other. -/
theorem Stored.forest (hx : Stored b x) : x.BranchForest := by
  induction hx with
  | empty => exact branchForest_empty
  | @operated x s caller t c _ ih =>
    unfold committed
    split
    · rename_i hop
      exact operate_forest ih hop
    · exact ih

end sequences

end Data

end Aipcs

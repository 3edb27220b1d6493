import Aipcs.Data.Runs

/-!
# Data — what an assignment does to the memberships

An assignment says of each target what its membership in one branch is to
be. What it makes of the memberships of a target, and of the record's
version and events with them, is stated target by target; every other
record is as it was. An assignment asked for again changes nothing.
-/

namespace Aipcs

namespace Data

open Manifest Portable Relational Records Registry Store.Mutating

/-! ## Memberships -/

namespace Content

/-- A record's membership in a branch. -/
def membership (x : Content) (k : RecordIdentity) (branch : Uuid) : Option MembershipRow := x.memberships.find? (k, branch)

/-- No record has two primary branches. -/
def OnePrimary (x : Content) : Prop :=
  ∀ k b b' m m', x.membership k b = some m → x.membership k b' = some m' → m.role = .primary → m'.role = .primary → b = b'

/-- A record is as it was: its row, its events and its memberships. -/
structure Agree (k : RecordIdentity) (x y : Content) : Prop where
  row : y.recordRow k.1 k.2.1 k.2.2 = x.recordRow k.1 k.2.1 k.2.2
  events : y.events k = x.events k
  membership : ∀ b, y.membership k b = x.membership k b

variable {x y z : Content} {k k' : RecordIdentity} {b : Uuid} {m : MembershipRow}

theorem Agree.refl (k : RecordIdentity) (x : Content) : Agree k x x := ⟨rfl, rfl, fun _ => rfl⟩

theorem Agree.symm (h : Agree k x y) : Agree k y x := ⟨h.row.symm, h.events.symm, fun b => (h.membership b).symm⟩

theorem Agree.trans (h : Agree k x y) (h' : Agree k y z) : Agree k x z :=
  ⟨h'.row.trans h.row, h'.events.trans h.events, fun b => (h'.membership b).trans (h.membership b)⟩

theorem membership_eq_some : x.membership k b = some m ↔ m ∈ x.memberships.rows ∧ m.key = (k, b) := Table.find?_eq_some

theorem mem_membershipsOf : m ∈ x.membershipsOf k ↔ ∃ b, x.membership k b = some m := by
  rw [membershipsOf, List.mem_filter, decide_eq_true_eq]
  constructor
  · rintro ⟨hm, hk⟩
    exact ⟨m.branchId, membership_eq_some.2 ⟨hm, by rw [← hk]; rfl⟩⟩
  · rintro ⟨b, hb⟩
    obtain ⟨hm, hk⟩ := membership_eq_some.1 hb
    exact ⟨hm, by rw [hk]⟩

/-- A record has a primary branch. -/
theorem any_primary : (x.membershipsOf k).any (fun m => m.role = .primary) = true ↔
    ∃ b m, x.membership k b = some m ∧ m.role = .primary := by
  simp only [List.any_eq_true, mem_membershipsOf, decide_eq_true_eq]
  constructor
  · rintro ⟨m, ⟨b, hb⟩, hm⟩
    exact ⟨b, m, hb, hm⟩
  · rintro ⟨b, m, hb, hm⟩
    exact ⟨m, ⟨b, hb⟩, hm⟩

theorem membership_clear {p : MembershipRow → Bool} : (x.clearMemberships k p).membership k' b =
    if k' = k then (x.membership k' b).filter (fun m => !p m) else x.membership k' b := by
  rw [membership, clearMemberships, Table.find?_keep]
  change (x.membership k' b).filter _ = _
  cases hm : x.membership k' b with
  | none => split_ifs <;> rfl
  | some m =>
    rw [Option.filter_some, Option.filter_some, (membership_eq_some.1 hm).2]
    by_cases hk : k' = k <;> simp [hk]

/-- What an insert does to the memberships. -/
theorem membership_insert (h : x.insertMembership m = some y) :
    (m.role = .primary → ∀ b m', x.membership m.key.1 b = some m' → m'.role ≠ .primary) ∧
      x.membership m.key.1 m.branchId = none ∧ y.membership m.key.1 m.branchId = some m ∧
      ∀ k' b, (k', b) ≠ m.key → y.membership k' b = x.membership k' b := by
  unfold insertMembership at h
  split_ifs at h with hprimary
  obtain ⟨t, ht, rfl⟩ := Option.map_eq_some_iff.1 h
  refine ⟨fun hm b m' hm' hrole => hprimary ⟨hm, any_primary.2 ⟨b, m', hm', hrole⟩⟩, (Table.insert_eq_some.1 ht).1,
    Table.find?_insert_self ht, fun k' b hne => Table.find?_insert_of_ne ht hne⟩

end Content

/-! ## One target -/

/-- The kind of event that a change of memberships is. -/
def assignmentKind (c : AssignBranchRecordsCommand) (k : RecordIdentity) (x : Content) : HistoryKind :=
  match c.operation, c.role with
  | .unassign, role => unassignKind role
  | .assign, .related => .relatedAssign
  | .assign, .primary => if (x.membershipsOf k).any fun m => m.role = .primary then .primaryMove else .primaryAssign

/-- The membership that a command asks for. -/
def asked (c : AssignBranchRecordsCommand) (k : RecordIdentity) (now : Instant) : MembershipRow :=
  ⟨k.1, k.2.1, k.2.2, c.branchId, c.role, now⟩

/-- What an assignment makes of the memberships of a record. -/
structure Mapped (c : AssignBranchRecordsCommand) (k : RecordIdentity) (now : Instant) (x y : Content) : Prop where
  primary : c.operation = .assign → c.role = .primary →
    (∃ m, y.membership k c.branchId = some m ∧ m.role = .primary) ∧
      ∀ b, b ≠ c.branchId → y.membership k b = (x.membership k b).filter fun m => m.role = .related
  related : c.operation = .assign → c.role = .related →
    y.membership k c.branchId = some ((x.membership k c.branchId).getD (asked c k now)) ∧
      ∀ b, b ≠ c.branchId → y.membership k b = x.membership k b
  unassigned : c.operation = .unassign →
    y.membership k c.branchId = ((x.membership k c.branchId).filter fun m => m.role ≠ c.role) ∧
      ∀ b, b ≠ c.branchId → y.membership k b = x.membership k b

theorem Mapped.congr {c : AssignBranchRecordsCommand} {k : RecordIdentity} {now : Instant} {x y x' y' : Content}
    (h : Mapped c k now x y) (hx : ∀ b, x'.membership k b = x.membership k b)
    (hy : ∀ b, y'.membership k b = y.membership k b) : Mapped c k now x' y' where
  primary ho hr := by simpa only [hx, hy] using h.primary ho hr
  related ho hr := by simpa only [hx, hy] using h.related ho hr
  unassigned ho := by simpa only [hx, hy] using h.unassigned ho

/-- The record is told of what has become of its memberships, if anything has. -/
inductive Recorded (c : AssignBranchRecordsCommand) (k : RecordIdentity) (now : Instant) (x y : Content) (version : ℕ) : Prop
  | kept : Content.Agree k x y → (∃ row, x.recordRow k.1 k.2.1 k.2.2 = some row ∧ row.recordVersion = version) →
      Recorded c k now x y version
  | changed (row : RecordRow) (event : HistoryRow) : (∃ b, y.membership k b ≠ x.membership k b) →
      x.recordRow k.1 k.2.1 k.2.2 = some row →
      y.recordRow k.1 k.2.1 k.2.2 = some { row with recordVersion := row.recordVersion + 1, updatedAt := now } →
      y.events k = x.events k ++ [event] → event.recordVersion = row.recordVersion + 1 →
      event.eventKind = assignmentKind c k x → version = row.recordVersion + 1 → Recorded c k now x y version

section mapping

theorem filter_eq_self_of {α : Type} {p : α → Bool} {o : Option α} (h : ∀ a, o = some a → p a = true) : o.filter p = o := by
  cases o with
  | none => rfl
  | some a => rw [Option.filter_some, if_pos (h a rfl)]

theorem filter_congr_of {α : Type} {p q : α → Bool} {o : Option α} (h : ∀ a, o = some a → p a = q a) :
    o.filter p = o.filter q := by
  cases o with
  | none => rfl
  | some a => rw [Option.filter_some, Option.filter_some, h a rfl]

variable {c : AssignBranchRecordsCommand} {k : RecordIdentity} {now : Instant} {x y : Content}

/-- Fewer memberships leave a record one primary branch at most. -/
theorem Content.OnePrimary.of_le (hx : x.OnePrimary) (h : ∀ k b m, y.membership k b = some m → x.membership k b = some m) :
    y.OnePrimary :=
  fun k b b' m m' hm hm' => hx k b b' m m' (h k b m hm) (h k b' m' hm')

theorem Content.OnePrimary.clear (hx : x.OnePrimary) (p : MembershipRow → Bool) : (x.clearMemberships k p).OnePrimary := by
  refine hx.of_le fun k' b m hm => ?_
  rw [Content.membership_clear] at hm
  split_ifs at hm
  · exact (Option.filter_eq_some_iff.1 hm).1
  · exact hm

theorem Content.OnePrimary.insert (hx : x.OnePrimary) {m : MembershipRow} (h : x.insertMembership m = some y) :
    y.OnePrimary := by
  obtain ⟨hfree, -, hself, hothers⟩ := Content.membership_insert h
  -- a membership of the record that is primary is the new one, if that is
  have hold : ∀ b m', m.role = .primary → y.membership m.key.1 b = some m' → m'.role = .primary → b = m.branchId := by
    intro b m' hrole hm' hrole'
    by_contra hne
    rw [hothers m.key.1 b fun heq => hne (Prod.mk.inj heq).2] at hm'
    exact hfree hrole b m' hm' hrole'
  intro k b b' m₁ m₂ h₁ h₂ hr₁ hr₂
  by_cases hb : (k, b) = m.key
  · obtain ⟨rfl, rfl⟩ := Prod.mk.inj hb
    obtain rfl := Option.some.inj (hself.symm.trans h₁)
    exact (hold b' m₂ hr₁ h₂ hr₂).symm
  · by_cases hb' : (k, b') = m.key
    · obtain ⟨rfl, rfl⟩ := Prod.mk.inj hb'
      obtain rfl := Option.some.inj (hself.symm.trans h₂)
      exact hold b m₁ hr₂ h₁ hr₁
    · rw [hothers k b hb] at h₁
      rw [hothers k b' hb'] at h₂
      exact hx k b b' m₁ m₂ h₁ h₂ hr₁ hr₂

/-- What a change of memberships is, of one record. -/
structure MappingSpec (c : AssignBranchRecordsCommand) (k : RecordIdentity) (now : Instant) (x y : Content)
    (changed : Option HistoryKind) : Prop where
  mapped : Mapped c k now x y
  onePrimary : y.OnePrimary
  others : ∀ k', k' ≠ k → ∀ b, y.membership k' b = x.membership k' b
  kept : changed = none → y = x
  told : ∀ kind, changed = some kind → kind = assignmentKind c k x ∧ ∃ b, y.membership k b ≠ x.membership k b

theorem applyMapping_unassign (hx : x.OnePrimary) (hc : c.operation = .unassign) {changed : Option HistoryKind}
    (h : applyMapping c.branchId c.role c.operation k now x = some (y, changed)) : MappingSpec c k now x y changed := by
  have hrefl : ∀ m, x.membership k c.branchId = some m → m.branchId = c.branchId := fun m hm =>
    congrArg Prod.snd (Content.membership_eq_some.1 hm).2
  rw [hc, applyMapping] at h
  change (if Option.map MembershipRow.role (x.membership k c.branchId) ≠ some c.role then _ else _) = _ at h
  split_ifs at h with hrole
  · obtain ⟨rfl, rfl⟩ := Prod.mk.inj (Option.some.inj h)
    refine ⟨⟨by simp [hc], by simp [hc], fun _ => ⟨?_, fun _ _ => rfl⟩⟩, hx, fun _ _ _ => rfl, fun _ => rfl, by simp⟩
    cases hm : x.membership k c.branchId with
    | none => rfl
    | some m =>
      rw [hm, Option.map_some, ne_eq, Option.some.injEq] at hrole
      rw [Option.filter_some, if_pos (by simpa using hrole)]
  · obtain ⟨rfl, rfl⟩ := Prod.mk.inj (Option.some.inj h)
    obtain ⟨m, hm, hmrole⟩ := Option.map_eq_some_iff.1 (not_not.1 hrole)
    have hself : (x.clearMemberships k fun m => m.branchId = c.branchId).membership k c.branchId = none := by
      rw [Content.membership_clear, if_pos rfl, hm, Option.filter_some, hrefl m hm, decide_eq_true rfl]
      rfl
    refine ⟨⟨by simp [hc], by simp [hc], fun _ => ⟨?_, fun b hb => ?_⟩⟩, hx.clear _, fun k' hk' b => ?_, by simp, ?_⟩
    · rw [hself, hm, Option.filter_some, if_neg (by simp [hmrole])]
    · rw [Content.membership_clear, if_pos rfl]
      refine filter_eq_self_of fun m' hm' => ?_
      have hbranch : m'.branchId = b := congrArg Prod.snd (Content.membership_eq_some.1 hm').2
      simp [hbranch, hb]
    · rw [Content.membership_clear, if_neg hk']
    · rintro _ ⟨⟩
      refine ⟨by rw [assignmentKind, hc], c.branchId, ?_⟩
      rw [hself, hm]
      simp

theorem applyMapping_related (hx : x.OnePrimary) (hc : c.operation = .assign) (hr : c.role = .related)
    {changed : Option HistoryKind} (h : applyMapping c.branchId c.role c.operation k now x = some (y, changed)) :
    MappingSpec c k now x y changed := by
  rw [hc, hr, applyMapping] at h
  change (if (Option.map MembershipRow.role (x.membership k c.branchId)).isSome = true then _ else _) = _ at h
  split_ifs at h with hsome
  · obtain ⟨rfl, rfl⟩ := Prod.mk.inj (Option.some.inj h)
    rw [Option.isSome_map] at hsome
    obtain ⟨m, hm⟩ := Option.isSome_iff_exists.1 hsome
    refine ⟨⟨by simp [hr], fun _ _ => ⟨?_, fun _ _ => rfl⟩, by simp [hc]⟩, hx, fun _ _ _ => rfl, fun _ => rfl, by simp⟩
    rw [hm]
    rfl
  · obtain ⟨z, hz, heq⟩ := Option.map_eq_some_iff.1 h
    obtain ⟨rfl, rfl⟩ := Prod.mk.inj heq
    obtain ⟨-, hnone, hself, hothers⟩ := Content.membership_insert hz
    have hasked : (⟨k.1, k.2.1, k.2.2, c.branchId, .related, now⟩ : MembershipRow) = asked c k now := by rw [asked, hr]
    rw [hasked] at hnone hself hothers
    refine ⟨⟨by simp [hr], fun _ _ => ⟨?_, fun b hb => hothers k b fun heq => hb (Prod.mk.inj heq).2⟩, by simp [hc]⟩,
      hx.insert hz, fun k' hk' b => hothers k' b fun heq => hk' (Prod.mk.inj heq).1, by simp, ?_⟩
    · rw [show x.membership k c.branchId = none from hnone]
      exact hself
    · rintro _ ⟨⟩
      refine ⟨by rw [assignmentKind, hc, hr], c.branchId, ?_⟩
      rw [show z.membership k c.branchId = some (asked c k now) from hself,
        show x.membership k c.branchId = none from hnone]
      simp

theorem applyMapping_primary (hx : x.OnePrimary) (hc : c.operation = .assign) (hr : c.role = .primary)
    {changed : Option HistoryKind} (h : applyMapping c.branchId c.role c.operation k now x = some (y, changed)) :
    MappingSpec c k now x y changed := by
  rw [hc, hr, applyMapping] at h
  change (if Option.map MembershipRow.role (x.membership k c.branchId) = some .primary then _ else _) = _ at h
  split_ifs at h with hprimary
  · obtain ⟨rfl, rfl⟩ := Prod.mk.inj (Option.some.inj h)
    obtain ⟨m, hm, hmrole⟩ := Option.map_eq_some_iff.1 hprimary
    refine ⟨⟨fun _ _ => ⟨⟨m, hm, hmrole⟩, fun b hb => ?_⟩, by simp [hr], by simp [hc]⟩, hx, fun _ _ _ => rfl,
      fun _ => rfl, by simp⟩
    -- the record's other branches are related ones
    refine (filter_eq_self_of fun m' hm' => ?_).symm
    cases hm'role : m'.role with
    | related => rfl
    | primary => exact absurd (hx k b c.branchId m' m hm' hm hm'role hmrole) hb
  · obtain ⟨z, hz, heq⟩ := Option.map_eq_some_iff.1 h
    obtain ⟨rfl, rfl⟩ := Prod.mk.inj heq
    obtain ⟨-, -, hself, hothers⟩ := Content.membership_insert hz
    have hasked : (⟨k.1, k.2.1, k.2.2, c.branchId, .primary, now⟩ : MembershipRow) = asked c k now := by rw [asked, hr]
    rw [hasked] at hself hothers
    refine ⟨⟨fun _ _ => ⟨⟨asked c k now, hself, hr⟩, fun b hb => ?_⟩, by simp [hr], by simp [hc]⟩, (hx.clear _).insert hz,
      fun k' hk' b => ?_, by simp, ?_⟩
    · rw [hothers k b fun heq => hb (Prod.mk.inj heq).2, Content.membership_clear, if_pos rfl]
      refine filter_congr_of fun m' hm' => ?_
      have hbranch : m'.branchId = b := congrArg Prod.snd (Content.membership_eq_some.1 hm').2
      cases hm'role : m'.role <;> simp [hbranch, hb]
    · rw [hothers k' b fun heq => hk' (Prod.mk.inj heq).1, Content.membership_clear, if_neg hk']
    · rintro _ ⟨⟩
      refine ⟨by rw [assignmentKind, hc, hr], c.branchId, fun hsame => hprimary ?_⟩
      rw [← hsame, show z.membership k c.branchId = some (asked c k now) from hself, Option.map_some, asked, hr]

/-- **What a change of memberships is**, whichever is asked for. -/
theorem applyMapping_spec (hx : x.OnePrimary) {changed : Option HistoryKind}
    (h : applyMapping c.branchId c.role c.operation k now x = some (y, changed)) : MappingSpec c k now x y changed := by
  cases hc : c.operation with
  | unassign => exact applyMapping_unassign hx hc h
  | assign =>
    cases hr : c.role with
    | primary => exact applyMapping_primary hx hc hr h
    | related => exact applyMapping_related hx hc hr h

end mapping

/-! ## What one target becomes -/

section targets

variable {b : StorageBackend} {s : RecordSpecification} {caller : Caller} {t : Readings} {c : AssignBranchRecordsCommand}
  {x y : Content} {k : RecordIdentity}

theorem updateRow_memberships {p e : String} {id : Uuid} {expected version : ℕ} {now : Instant}
    {cells : Option (List (String × SqlValue))} (h : x.updateRow p e id expected version now cells = some y) :
    y.memberships = x.memberships := by
  obtain ⟨r, -, rfl⟩ := Option.map_eq_some_iff.1 h
  rfl

theorem appendHistory_memberships {h : HistoryRow} (hy : x.appendHistory h = some y) : y.memberships = x.memberships := by
  unfold Content.appendHistory at hy
  split_ifs at hy
  obtain rfl := Option.some.inj hy
  rfl

/-- What an assignment makes of a record, and of the others. -/
structure TargetSpec (c : AssignBranchRecordsCommand) (k : RecordIdentity) (now : Instant) (x y : Content) (version : ℕ) :
    Prop where
  mapped : Mapped c k now x y
  recorded : Recorded c k now x y version
  onePrimary : y.OnePrimary
  others : ∀ k', k' ≠ k → Content.Agree k' x y

/-- What has been found of a target before anything is written. -/
def Expected (p : String) (x : Content) (target : BranchAssignmentTarget) : Prop :=
  ∃ row, x.recordRow p target.entityName.1 target.recordId = some row ∧
    row.recordVersion = target.expectedRecordVersion.1

theorem assignTarget_spec (hx : x.OnePrimary) {target : BranchAssignmentTarget} {fields : FrozenJsonObject}
    {ref : String × Uuid × ℕ} (hrow : Expected caller.principalId x target)
    (hop : assignTarget b caller t c target fields x = .ok (y, ref)) :
    TargetSpec c (target.identity caller.principalId) t.now x y ref.2.2 ∧ ref.1 = target.entityName.1 ∧
      ref.2.1 = target.recordId := by
  simp only [assignTarget, bind_eq_ok, require_eq_ok] at hop
  obtain ⟨⟨x₁, changed⟩, hmapping, hop⟩ := hop
  have hspec : MappingSpec c (target.identity caller.principalId) t.now x x₁ changed := applyMapping_spec hx hmapping
  obtain ⟨hrecords₁, hhistory₁, -⟩ := applyMapping_eq_some hmapping
  cases changed with
  | none =>
    simp only [pure, Except.pure, Except.ok.injEq, Prod.mk.injEq] at hop
    obtain ⟨rfl, rfl⟩ := hop
    obtain rfl := hspec.kept rfl
    exact ⟨⟨hspec.mapped, .kept (.refl _ _) hrow, hspec.onePrimary, fun k' _ => .refl _ _⟩, rfl, rfl⟩
  | some kind =>
    simp only [bind_eq_ok, require_eq_ok, pure, Except.pure, Except.ok.injEq, Prod.mk.injEq] at hop
    obtain ⟨x₂, hupdate, x₃, happend, rfl, rfl⟩ := hop
    obtain ⟨hkind, hchanged⟩ := hspec.told kind rfl
    have hmemberships : x₃.memberships = x₁.memberships :=
      (appendHistory_memberships happend).trans (updateRow_memberships hupdate)
    have hmembership : ∀ k b, x₃.membership k b = x₁.membership k b := fun k b => by
      rw [Content.membership, hmemberships]
      rfl
    obtain ⟨row, hrow₁, hversion, hhistory₂, hself, hothers⟩ := Content.updateRow_eq_some hupdate
    obtain ⟨hmem, hkey, howner⟩ := Content.recordRow_eq_some.1 hrow₁
    obtain ⟨hrecords₃, hhistory₃, -⟩ := Content.appendHistory_eq_some happend
    rw [hhistory₂, hhistory₁] at hhistory₃
    rw [← hrecords₃] at hself hothers
    rw [hrecords₁] at hothers
    have hfind := Table.find?_of_mem hmem
    rw [hkey, hrecords₁] at hfind
    have hrow' : x.recordRow caller.principalId target.entityName.1 target.recordId = some row := by
      rw [Content.recordRow]
      exact (congrArg (Option.filter _) hfind).trans (if_pos (decide_eq_true howner))
    refine ⟨⟨?_, ?_, ?_, fun k' hk' => ⟨?_, ?_, fun b => ?_⟩⟩, rfl, rfl⟩
    · exact hspec.mapped.congr (fun _ => rfl) (hmembership _)
    · have hevents := Content.events_append (k := target.identity caller.principalId) hhistory₃
      have hevents := hevents.trans (congrArg (_ ++ ·) (if_pos rfl))
      refine .changed row _ ?_ hrow' ?_ hevents (by rw [hversion]) hkind (by rw [hversion])
      · obtain ⟨b, hb⟩ := hchanged
        exact ⟨b, by rwa [hmembership]⟩
      · rw [hversion, Content.recordRow]
        exact (congrArg (Option.filter _) hself).trans (if_pos (decide_eq_true howner))
    · intro k b b' m m'
      rw [hmembership, hmembership]
      exact hspec.onePrimary k b b' m m'
    · refine recordRow_others hothers (fun r hr => ?_) (fun r hr => ?_) k' hk'
      · obtain rfl := Option.some.inj (hr.symm.trans hfind)
        exact howner
      · obtain rfl := Option.some.inj (hr.symm.trans hself)
        exact howner
    · refine (Content.events_append hhistory₃).trans ?_
      exact (congrArg (x.events k' ++ ·) (if_neg (Ne.symm hk'))).trans (List.append_nil _)
    · rw [hmembership]
      exact hspec.others k' hk' b

theorem checkTargets_expected {p : String} : ∀ {targets : List BranchAssignmentTarget}
    {checked : List (BranchAssignmentTarget × FrozenJsonObject)}, checkTargets b s p x targets = .ok checked →
    checked.map Prod.fst = targets ∧ ∀ target ∈ targets, Expected p x target
  | [], checked, h => by
    obtain rfl := Except.ok.inj h
    exact ⟨rfl, fun _ hmem => absurd hmem List.not_mem_nil⟩
  | target :: rest, checked, h => by
    simp only [checkTargets, bind_eq_ok, pure, Except.pure, Except.ok.injEq] at h
    obtain ⟨fields, hfirst, checked', hrest, rfl⟩ := h
    obtain ⟨hmap, hexpected⟩ := checkTargets_expected hrest
    simp only [checkTarget, bind_eq_ok, require_eq_ok, check_eq_ok] at hfirst
    obtain ⟨row, hrow, -, hversion, -⟩ := hfirst
    refine ⟨by rw [List.map_cons, hmap], fun u hu => ?_⟩
    rcases List.mem_cons.1 hu with rfl | hu
    · exact ⟨row, hrow, by simpa using hversion⟩
    · exact hexpected u hu

theorem assignmentKind_congr {x' : Content} (h : ∀ b, x'.membership k b = x.membership k b) :
    assignmentKind c k x' = assignmentKind c k x := by
  have hany : ((x'.membershipsOf k).any fun m => m.role = .primary) = (x.membershipsOf k).any fun m => m.role = .primary := by
    rw [Bool.eq_iff_iff, Content.any_primary, Content.any_primary]
    simp only [h]
  rw [assignmentKind, assignmentKind, hany]

/-- Records that agree with others are dealt with as they are. -/
theorem Recorded.congr {now : Instant} {x' y' : Content} {version : ℕ} (h : Recorded c k now x y version)
    (hx : Content.Agree k x x') (hy : Content.Agree k y y') : Recorded c k now x' y' version := by
  cases h with
  | kept hagree hrow =>
    refine .kept (hx.symm.trans (hagree.trans hy)) ?_
    rw [hx.row]
    exact hrow
  | changed row event hchanged hrow hrow' hevents hversion hkind hv =>
    refine .changed row event ?_ (hx.row.trans hrow) (hy.row.trans hrow') ?_ hversion ?_ hv
    · obtain ⟨b, hb⟩ := hchanged
      exact ⟨b, by rwa [hy.membership, hx.membership]⟩
    · rw [hy.events, hx.events, hevents]
    · rw [hkind, assignmentKind_congr hx.membership]

/-- **Each target is dealt with as if it were the only one.** -/
theorem assignTargets_spec : ∀ {checked : List (BranchAssignmentTarget × FrozenJsonObject)} {x y : Content}
    {refs : List (String × Uuid × ℕ)}, x.OnePrimary →
    (checked.map fun pair => (pair.1.entityName.1, pair.1.recordId)).Nodup →
    (∀ pair ∈ checked, Expected caller.principalId x pair.1) → assignTargets b caller t c checked x = .ok (y, refs) →
    y.OnePrimary ∧ (∀ k, (∀ pair ∈ checked, k ≠ pair.1.identity caller.principalId) → Content.Agree k x y) ∧
      List.Forall₂ (fun pair ref => ref.1 = pair.1.entityName.1 ∧ ref.2.1 = pair.1.recordId ∧
        Mapped c (pair.1.identity caller.principalId) t.now x y ∧
        Recorded c (pair.1.identity caller.principalId) t.now x y ref.2.2) checked refs
  | [], x, y, refs, hx, _, _, hop => by
    simp only [assignTargets, Except.ok.injEq, Prod.mk.injEq] at hop
    obtain ⟨rfl, rfl⟩ := hop
    exact ⟨hx, fun k _ => .refl k x, .nil⟩
  | (target, fields) :: rest, x, y, refs, hx, hnodup, hexpected, hop => by
    simp only [assignTargets, bind_eq_ok, pure, Except.pure, Except.ok.injEq, Prod.mk.injEq] at hop
    obtain ⟨⟨x₁, ref⟩, hfirst, ⟨x₂, refs₂⟩, hrest, rfl, rfl⟩ := hop
    obtain ⟨hnew, hnodup'⟩ := List.nodup_cons.1 hnodup
    obtain ⟨hspec, hentity, hid⟩ := assignTarget_spec hx (hexpected _ List.mem_cons_self) hfirst
    -- the others are other records, which the first leaves as they were
    have hne : ∀ pair ∈ rest, pair.1.identity caller.principalId ≠ target.identity caller.principalId := by
      intro pair hpair heq
      obtain ⟨-, heq⟩ := Prod.mk.inj heq
      exact hnew (List.mem_map.2 ⟨pair, hpair, heq⟩)
    have hexpected' : ∀ pair ∈ rest, Expected caller.principalId x₁ pair.1 := by
      intro pair hpair
      obtain ⟨row, hrow, hversion⟩ := hexpected pair (List.mem_cons_of_mem _ hpair)
      exact ⟨row, (hspec.others _ (hne pair hpair)).row.trans hrow, hversion⟩
    obtain ⟨hone, hagree, htargets⟩ := assignTargets_spec hspec.onePrimary hnodup' hexpected' hrest
    refine ⟨hone, fun k hk => ?_, .cons ?_ ?_⟩
    · exact (hspec.others k (hk _ List.mem_cons_self)).trans
        (hagree k fun pair hpair => hk pair (List.mem_cons_of_mem _ hpair))
    · have hlater := hagree (target.identity caller.principalId) fun pair hpair => (hne pair hpair).symm
      exact ⟨hentity, hid, hspec.mapped.congr (fun _ => rfl) hlater.membership, hspec.recorded.congr (.refl _ _) hlater⟩
    · -- what the first makes of the rest is nothing
      refine ((List.forall₂_and_left _ _).2 ⟨hne, htargets⟩).imp fun pair ref h => ?_
      obtain ⟨hother, hentity, hid, hmapped, hrecorded⟩ := h
      have hsame := (hspec.others _ hother).symm
      exact ⟨hentity, hid, hmapped.congr hsame.membership fun _ => rfl, hrecorded.congr hsame (.refl _ _)⟩

end targets

/-! ## Asked for again -/

section again

variable {b : StorageBackend} {s : RecordSpecification} {caller : Caller} {t : Readings} {c : AssignBranchRecordsCommand}
  {x y : Content} {k : RecordIdentity} {now : Instant}

/-- The memberships of a record are as a command asks. -/
def Settled (c : AssignBranchRecordsCommand) (k : RecordIdentity) (x : Content) : Prop :=
  match c.operation, c.role with
  | .unassign, role => ∀ m, x.membership k c.branchId = some m → m.role ≠ role
  | .assign, .related => (x.membership k c.branchId).isSome
  | .assign, .primary => ∃ m, x.membership k c.branchId = some m ∧ m.role = .primary

theorem Mapped.settled (h : Mapped c k now x y) : Settled c k y := by
  unfold Settled
  cases hc : c.operation with
  | unassign =>
    intro m hm
    rw [(h.unassigned hc).1] at hm
    simpa using (Option.filter_eq_some_iff.1 hm).2
  | assign =>
    cases hr : c.role with
    | primary => exact (h.primary hc hr).1
    | related => exact Option.isSome_iff_exists.2 ⟨_, (h.related hc hr).1⟩

theorem applyMapping_settled (h : Settled c k x) :
    applyMapping c.branchId c.role c.operation k now x = some (x, none) := by
  unfold Settled at h
  cases hc : c.operation with
  | unassign =>
    rw [hc] at h
    refine if_pos fun hrole => ?_
    obtain ⟨m, hm, hmrole⟩ := Option.map_eq_some_iff.1 hrole
    exact h m hm hmrole
  | assign =>
    rw [hc] at h
    cases hr : c.role with
    | primary =>
      rw [hr] at h
      obtain ⟨m, hm, hmrole⟩ := h
      exact if_pos (Option.map_eq_some_iff.2 ⟨m, hm, hmrole⟩)
    | related =>
      rw [hr] at h
      exact if_pos (by rw [Option.isSome_map]; exact h)

theorem assignTargets_settled : ∀ {checked : List (BranchAssignmentTarget × FrozenJsonObject)}
    {refs : List (String × Uuid × ℕ)}, (∀ pair ∈ checked, Settled c (pair.1.identity caller.principalId) x) →
    assignTargets b caller t c checked x = .ok (y, refs) → y = x
  | [], _, _, hop => by
    simp only [assignTargets, Except.ok.injEq, Prod.mk.injEq] at hop
    exact hop.1.symm
  | (target, fields) :: rest, refs, h, hop => by
    simp only [assignTargets, bind_eq_ok, pure, Except.pure, Except.ok.injEq, Prod.mk.injEq] at hop
    obtain ⟨⟨x₁, ref⟩, hfirst, ⟨x₂, refs₂⟩, hrest, hy, -⟩ := hop
    have hmapping : applyMapping c.branchId c.role c.operation (target.identity caller.principalId) t.now x =
        some (x, none) := applyMapping_settled (h _ List.mem_cons_self)
    have hkept : x₁ = x := by
      simp only [assignTarget, bind_eq_ok, require_eq_ok] at hfirst
      obtain ⟨mapped, hmapped, hfirst⟩ := hfirst
      obtain rfl := Option.some.inj (hmapping.symm.trans hmapped)
      simp only [pure, Except.pure, Except.ok.injEq, Prod.mk.injEq] at hfirst
      exact hfirst.1.symm
    have hy : x₂ = y := hy
    rw [hkept, hy] at hrest
    exact assignTargets_settled (fun pair hpair => h pair (List.mem_cons_of_mem _ hpair)) hrest

end again

/-! ## Stores -/

section stores

variable {b : StorageBackend} {s : RecordSpecification} {caller : Caller} {t : Readings} {x y : Content} {r : Result}

/-- What a command leaves of the tables, its transaction rolled back where it fails. -/
def committed (b : StorageBackend) (s : RecordSpecification) (caller : Caller) (t : Readings) (x : Content)
    (c : Command) : Content :=
  match operate b s caller t x c with
  | .ok (y, _) => y
  | .error _ => x

/-- The stores that commands come to, whoever gives them and whatever the manifest has become. -/
inductive Stored (b : StorageBackend) : Content → Prop
  | empty : Stored b .empty
  | operated {x : Content} (s : RecordSpecification) (caller : Caller) (t : Readings) (c : Command) :
      Stored b x → Stored b (committed b s caller t x c)

theorem Content.OnePrimary.of_same (hx : x.OnePrimary) (h : y.memberships = x.memberships) : y.OnePrimary :=
  hx.of_le fun k b m hm => by rwa [Content.membership, h] at hm

theorem insertRow_memberships {row : RecordRow} (h : x.insertRow row = some y) : y.memberships = x.memberships := by
  obtain ⟨_, -, rfl⟩ := Option.map_eq_some_iff.1 h
  rfl

theorem deleteRow_memberships {p e : String} {id : Uuid} {expected : ℕ} (h : x.deleteRow p e id expected = some y) :
    y.memberships = x.memberships := by
  obtain ⟨_, -, rfl⟩ := Option.map_eq_some_iff.1 h
  rfl

theorem appendEvent_memberships {v : RecordValue} {kind : HistoryKind} {before after : Option FrozenJsonObject}
    {p : String} {now : Instant} (h : appendEvent b p v kind before after now x = .ok y) :
    y.memberships = x.memberships :=
  appendHistory_memberships (require_eq_ok.1 h)

/-- What an assignment that goes through comes to. -/
structure Assigned (c : AssignBranchRecordsCommand) (p : String) (now : Instant) (x y : Content)
    (refs : List (String × Uuid × ℕ)) : Prop where
  targets : List.Forall₂ (fun target ref => ref.1 = target.entityName.1 ∧ ref.2.1 = target.recordId ∧
    Mapped c (target.identity p) now x y ∧ Recorded c (target.identity p) now x y ref.2.2) c.targets refs
  others : ∀ k, (∀ target ∈ c.targets, k ≠ target.identity p) → Content.Agree k x y
  onePrimary : y.OnePrimary

theorem assignRecords_eq_ok {c : AssignBranchRecordsCommand} (hop : assignRecords b s caller t c x = .ok (y, r)) :
    ∃ checked refs, checkTargets b s caller.principalId x c.targets = .ok checked ∧
      assignTargets b caller t c checked x = .ok (y, refs) ∧ r = .assignment refs := by
  simp only [assignRecords, bind_eq_ok, require_eq_ok, check_eq_ok, pure, Except.pure, Except.ok.injEq,
    Prod.mk.injEq] at hop
  obtain ⟨_, -, _, -, _, -, _, -, checked, hchecked, ⟨x₁, refs⟩, htargets, rfl, rfl⟩ := hop
  exact ⟨checked, refs, hchecked, htargets, rfl⟩

theorem assignRecords_spec {c : AssignBranchRecordsCommand} (hx : x.OnePrimary)
    (hop : assignRecords b s caller t c x = .ok (y, r)) :
    ∃ refs, r = .assignment refs ∧ Assigned c caller.principalId t.now x y refs := by
  obtain ⟨checked, refs, hchecked, htargets, rfl⟩ := assignRecords_eq_ok hop
  obtain ⟨hmap, hexpected⟩ := checkTargets_expected hchecked
  have hdistinct : (checked.map fun pair => (pair.1.entityName.1, pair.1.recordId)).Nodup := by
    have h := c.distinct
    rw [← hmap, List.map_map] at h
    exact h
  have hmem : ∀ pair ∈ checked, pair.1 ∈ c.targets := fun pair hpair => by
    rw [← hmap]
    exact List.mem_map_of_mem hpair
  obtain ⟨hone, hothers, hforall⟩ := assignTargets_spec hx hdistinct (fun pair hpair => hexpected _ (hmem pair hpair)) htargets
  refine ⟨refs, rfl, ?_, fun k hk => hothers k fun pair hpair => hk _ (hmem pair hpair), hone⟩
  rw [← hmap, List.forall₂_map_left_iff]
  exact hforall

theorem createRecord_onePrimary {c : CreateRecordCommand} (hx : x.OnePrimary)
    (hop : createRecord b s caller t c x = .ok (y, r)) : y.OnePrimary := by
  simp only [createRecord, insertRecord, bind_eq_ok, require_eq_ok, check_eq_ok, pure, Except.pure, Except.ok.injEq,
    Prod.mk.injEq] at hop
  obtain ⟨_, -, _, -, _, -, x₁, ⟨_, -, _, -, hinsert⟩, x₂, happend, rfl, -⟩ := hop
  exact hx.of_same ((appendEvent_memberships happend).trans (insertRow_memberships hinsert))

theorem updateRecord_onePrimary {c : UpdateRecordCommand} (hx : x.OnePrimary)
    (hop : updateRecord b s caller t c x = .ok (y, r)) : y.OnePrimary := by
  simp only [updateRecord, bind_eq_ok, require_eq_ok, check_eq_ok, pure, Except.pure, Except.ok.injEq,
    Prod.mk.injEq] at hop
  obtain ⟨_, -, _, -, _, -, _, -, _, -, _, -, _, -, x₁, hupdate, x₂, happend, rfl, -⟩ := hop
  exact hx.of_same ((appendEvent_memberships happend).trans (updateRow_memberships hupdate))

theorem deleteRecord_onePrimary {c : DeleteRecordCommand} (hx : x.OnePrimary)
    (hop : deleteRecord b s caller t c x = .ok (y, r)) : y.OnePrimary := by
  simp only [deleteRecord, bind_eq_ok, require_eq_ok, check_eq_ok, pure, Except.pure, Except.ok.injEq,
    Prod.mk.injEq] at hop
  obtain ⟨_, -, _, -, x₁, hdelete, _, -, x₂, happend, rfl, -⟩ := hop
  exact (hx.clear _).of_same ((appendEvent_memberships happend).trans (deleteRow_memberships hdelete))

theorem createBranch_memberships {c : CreateBranchCommand} (hop : createBranch caller t c x = .ok (y, r)) :
    y.memberships = x.memberships := by
  simp only [createBranch, bind_eq_ok, require_eq_ok, check_eq_ok, pure, Except.pure, Except.ok.injEq,
    Prod.mk.injEq] at hop
  obtain ⟨_, -, _, -, _, -, _, -, rfl, -⟩ := hop
  rfl

theorem updateBranch_memberships {c : UpdateBranchCommand} (hop : updateBranch caller t c x = .ok (y, r)) :
    y.memberships = x.memberships := by
  simp only [updateBranch, bind_eq_ok, require_eq_ok, check_eq_ok] at hop
  obtain ⟨_, -, _, -, _, -, _, -, _, -, _, -, hop⟩ := hop
  split_ifs at hop
  · obtain ⟨rfl, -⟩ := Prod.mk.inj (Except.ok.inj hop)
    rfl
  · simp only [bind_eq_ok, require_eq_ok, pure, Except.pure, Except.ok.injEq, Prod.mk.injEq] at hop
    obtain ⟨_, -, rfl, -⟩ := hop
    rfl

theorem operate_onePrimary {c : Command} (hx : x.OnePrimary) (hop : operate b s caller t x c = .ok (y, r)) :
    y.OnePrimary := by
  cases c with
  | createRecord c => exact createRecord_onePrimary hx hop
  | updateRecord c => exact updateRecord_onePrimary hx hop
  | deleteRecord c => exact deleteRecord_onePrimary hx hop
  | createBranch c => exact hx.of_same (createBranch_memberships hop)
  | updateBranch c => exact hx.of_same (updateBranch_memberships hop)
  | assignBranchRecords c =>
    obtain ⟨_, -, h⟩ := assignRecords_spec hx hop
    exact h.onePrimary

/-- **No record of a store has two primary branches.** -/
theorem Stored.onePrimary (hx : Stored b x) : x.OnePrimary := by
  induction hx with
  | empty =>
    intro k _ _ m _ hm
    exact absurd hm (by simp [Content.membership, Content.empty, Table.find?, Table.empty])
  | @operated x s caller t c _ ih =>
    unfold committed
    split
    · rename_i hop
      exact operate_onePrimary ih hop
    · exact ih

/-- The command is given again, for the versions that it has left. -/
structure Repeats (c : AssignBranchRecordsCommand) (refs : List (String × Uuid × ℕ)) (c' : AssignBranchRecordsCommand) :
    Prop where
  branchId : c'.branchId = c.branchId
  role : c'.role = c.role
  operation : c'.operation = c.operation
  targets : c'.targets.map (fun target => (target.entityName.1, target.recordId, target.expectedRecordVersion.1)) = refs

theorem Assigned.settled {c c' : AssignBranchRecordsCommand} {p : String} {now : Instant}
    {refs : List (String × Uuid × ℕ)} (h : Assigned c p now x y refs) (hc : Repeats c refs c') :
    ∀ target ∈ c'.targets, Settled c' (target.identity p) y := by
  intro target htarget
  have hmem := List.mem_map_of_mem (f := fun target : BranchAssignmentTarget =>
    (target.entityName.1, target.recordId, target.expectedRecordVersion.1)) htarget
  rw [hc.targets] at hmem
  obtain ⟨i, hi, hget⟩ := List.mem_iff_getElem.1 hmem
  obtain ⟨hentity, hid, hmapped, -⟩ := h.targets.get (h.targets.length_eq ▸ hi) hi
  rw [List.get_eq_getElem, hget] at hentity hid
  have hsettled := hmapped.settled
  rw [BranchAssignmentTarget.identity, ← hentity, ← hid] at hsettled
  unfold Settled at hsettled ⊢
  rw [hc.branchId, hc.role, hc.operation]
  exact hsettled

theorem Assigned.again {c c' : AssignBranchRecordsCommand} {now : Instant} {refs : List (String × Uuid × ℕ)}
    (h : Assigned c caller.principalId now x y refs) (hc : Repeats c refs c') :
    committed b s caller t y (.assignBranchRecords c') = y := by
  unfold committed
  split
  · rename_i z r hop
    obtain ⟨checked, refs', hchecked, htargets, -⟩ := assignRecords_eq_ok hop
    obtain ⟨hmap, -⟩ := checkTargets_expected hchecked
    refine assignTargets_settled (fun pair hpair => ?_) htargets
    have hmem : pair.1 ∈ c'.targets := by
      rw [← hmap]
      exact List.mem_map_of_mem hpair
    exact h.settled hc pair.1 hmem
  · rfl

/-- **The law of assignments.** In every store that commands come to, an
assignment either fails and leaves the tables as they were, or does with
each of its targets what it is asked for, told in one event where anything
has changed and not at all where nothing has; the other records are as they
were, no record has two primary branches or a branch twice, and the command
given again for the versions that it has left changes nothing. -/
theorem assignment_law (s : RecordSpecification) (caller : Caller) (t : Readings) (c : AssignBranchRecordsCommand)
    (hx : Stored b x) :
    (∃ code, operate b s caller t x (.assignBranchRecords c) = .error code ∧
      committed b s caller t x (.assignBranchRecords c) = x) ∨
    ∃ y refs, operate b s caller t x (.assignBranchRecords c) = .ok (y, .assignment refs) ∧
      committed b s caller t x (.assignBranchRecords c) = y ∧ Assigned c caller.principalId t.now x y refs ∧
      (y.memberships.rows.map (·.key)).Nodup ∧
      ∀ (s' : RecordSpecification) (t' : Readings) (c' : AssignBranchRecordsCommand), Repeats c refs c' →
        committed b s' caller t' y (.assignBranchRecords c') = y := by
  cases hop : operate b s caller t x (.assignBranchRecords c) with
  | error code => exact .inl ⟨code, rfl, by rw [committed, hop]⟩
  | ok result =>
    obtain ⟨y, r⟩ := result
    obtain ⟨refs, rfl, hassigned⟩ := assignRecords_spec hx.onePrimary hop
    exact .inr ⟨y, refs, rfl, by rw [committed, hop], hassigned, y.memberships.keyed, fun s' t' c' hc => hassigned.again hc⟩

end stores

/-! ## A note in its branch -/

namespace Filed

open Noted

def project : Command := .createBranch ⟨⟨"work", by decide +kernel⟩, ⟨"Work", by decide +kernel⟩,
  ⟨"What is worked on", by decide +kernel⟩, none, none, none⟩

/-- The tables that the note and the branch leave. -/
def projected : Content :=
  committed .sqlite (compileRecordSpecification noteManifest) alice readings
    (committed .sqlite (compileRecordSpecification noteManifest) alice readings .empty createNote) project

theorem projected_stored : Stored .sqlite projected := (Stored.empty.operated _ _ _ _).operated _ _ _ _

/-- The note is to have the branch as its primary one. -/
def file : AssignBranchRecordsCommand :=
  ⟨readings.newId, .primary, .assign, [⟨note, readings.newId, .first⟩], by decide⟩

def filed : Except DataFailureCode (Content × Result) :=
  operate .sqlite (compileRecordSpecification noteManifest) alice readings projected (.assignBranchRecords file)

end Filed

open Noted Filed in
/-- The note is filed, once. -/
theorem assignment_law_note : filed.toOption.isSome = true ∧ ∃ y refs, filed = .ok (y, .assignment refs) ∧
    Assigned file "alice" readings.now projected y refs := by
  have hok : filed.toOption.isSome = true := by decide +kernel
  refine ⟨hok, ?_⟩
  rcases assignment_law (compileRecordSpecification noteManifest) alice readings file projected_stored with ⟨code, hop, -⟩ | ⟨y, refs, hop, -, hassigned, -⟩
  · rw [filed, hop] at hok
    exact absurd hok (by simp [Except.toOption])
  · exact ⟨y, refs, hop, hassigned⟩

end Data

end Aipcs

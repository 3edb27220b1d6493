import Aipcs.Common.Inserts
import Aipcs.Data.BranchOrder
import Aipcs.Data.Constraints
import Aipcs.Data.Queries

/-!
# Data — staging a store's members

A snapshot reads the members of a store, records first, and a staging
inserts them into an empty store, one by one in the order of the members.
Branches wait until records and events are in, and go in below their
parents; memberships are last. What goes through leaves a row for each
member, and no other (`stagedRows_of_stage`).
-/

namespace Aipcs

namespace Data

open Manifest Portable Relational Records Registry

/-! ## A snapshot -/

/-- The records of an entity, `ORDER BY id`. -/
def recordRowsOf (x : Content) (principalId : String) (e : RecordEntity) : List RecordRow :=
  (x.records.rows.filter fun r => r.entityName = e.name && decide (r.ownerId = principalId)).insertionSort
    fun q r => q.id.hex ≤ r.id.hex

/-- The events, `ORDER BY entity_name,record_id,record_version`, in the
collation of the engine. -/
def historyRowsOf (x : Content) (principalId : String) (collate : String → String → Bool) : List HistoryRow :=
  (x.history.filter fun h => h.principalId = principalId).insertionSort fun g h =>
    if g.entityName = h.entityName then
      if g.recordId = h.recordId then g.recordVersion ≤ h.recordVersion else g.recordId.hex ≤ h.recordId.hex
    else collate g.entityName h.entityName = true

/-- The memberships, `ORDER BY branch_id,entity_name,record_id,role`. -/
def membershipRowsOf (x : Content) (principalId : String) (collate : String → String → Bool) : List MembershipRow :=
  (x.memberships.rows.filter fun m => m.principalId = principalId).insertionSort fun m n =>
    if m.branchId = n.branchId then
      if m.entityName = n.entityName then
        if m.recordId = n.recordId then m.role.value ≤ n.role.value else m.recordId.hex ≤ n.recordId.hex
      else collate m.entityName n.entityName = true
    else m.branchId.hex ≤ n.branchId.hex

/-- `_decode_branch`. -/
def decodeBranch (r : BranchRow) : Option BranchValue :=
  if r.value.branchRevision.1 ≤ MAX_REVISION then some r.value else none

/-- `BranchMembership(...)`. -/
def decodeMembership (m : MembershipRow) : Option BranchMembership :=
  if h : m.entityName ≠ "" ∧ m.entityName.length ≤ 64 then some ⟨m.branchId, ⟨m.entityName, h⟩, m.recordId, m.role⟩
  else none

/-- The order of a text column: SQLite's is that of its characters. -/
def collation (b : StorageBackend) (collate : String → String → Bool) (g h : String) : Bool :=
  if b = .sqlite then decide (g ≤ h) else collate g h

/-- `_members`: what `open_snapshot` reads. -/
def snapshotMembers (b : StorageBackend) (s : RecordSpecification) (collate : String → String → Bool)
    (principalId : String) (x : Content) : Option (List PortableStoreMember) := do
  let records ← (s.entities.flatMap (recordRowsOf x principalId)).mapM (decodeRecord b s)
  let histories ← (historyRowsOf x principalId (collation b collate)).mapM (decodeHistory b s)
  let branches ← (x.branchRows principalId).mapM decodeBranch
  let memberships ← (membershipRowsOf x principalId (collation b collate)).mapM decodeMembership
  return records.map .record ++ histories.map .history ++ branches.map .branch ++
    memberships.map .branchMembership

/-! ## A staging -/

/-- The row of an event. -/
def historyRowOf (b : StorageBackend) (principalId : String) (v : RecordHistoryEvent) : HistoryRow :=
  ⟨principalId, v.entityName.1, v.recordId, v.recordVersion.1, v.kind, v.before.map (snapshot b),
    v.after.map (snapshot b), v.occurredAt⟩

/-- The `CHECK` on a document's size. -/
def documentFits (text : List Char) : Bool := (utf8Encode text).length ≤ MAX_RECORD_JSON_BYTES

/-- `INSERT` of an event; its version is one of the column's. -/
def insertEvent (x : Content) (h : HistoryRow) : Option Content :=
  if h.recordVersion ≤ MAX_REVISION ∧ h.beforeJson.all documentFits = true ∧ h.afterJson.all documentFits = true then
    x.appendHistory h
  else none

/-- What the loop of `_insert_members` does with a member; branches and
memberships it only collects. -/
def stageMember (b : StorageBackend) (m : ManifestV2) (principalId : String) (x : Content) :
    PortableStoreMember → Option Content
  | .record v => (recordRowOf b m principalId v).bind (insertDomainRow b (compileManifest m) x)
  | .history v => insertEvent x (historyRowOf b principalId v)
  | .branch _ | .branchMembership _ => some x

/-- `INSERT` of a branch: its revision is one of the column's, its parent is
there, and its slug is not taken. -/
def stageBranch (principalId : String) (x : Content) (v : BranchValue) : Option Content :=
  if v.branchRevision.1 ≤ MAX_REVISION ∧
      (∀ i, v.parentBranchId = some i → i = v.branchId ∨ (x.branches.find? i).isSome = true) ∧
      ∀ r ∈ x.branches.rows, r.principalId = principalId → r.value.slug ≠ v.slug then
    (x.branches.insert ⟨principalId, v⟩).map fun t => { x with branches := t }
  else none

/-- The row of a membership. -/
def membershipRowOf (principalId : String) (at_ : Instant) (v : BranchMembership) : MembershipRow :=
  ⟨principalId, v.entityName.1, v.recordId, v.branchId, v.role, at_⟩

/-- `INSERT` of a membership: its branch is there. -/
def stageMembership (principalId : String) (at_ : Instant) (x : Content) (v : BranchMembership) : Option Content :=
  if (x.branches.find? v.branchId).isSome then
    x.insertMembership (membershipRowOf principalId at_ v)
  else none

/-- `_insert_members`. -/
def insertMembers (b : StorageBackend) (m : ManifestV2) (principalId : String) (at_ : Instant)
    (members : List PortableStoreMember) : Option Content := do
  let x ← members.foldlM (stageMember b m principalId) .empty
  let ordered ← (parentFirst (branchesOf members)).toOption
  let x ← ordered.foldlM (stageBranch principalId) x
  (membershipsOf members).foldlM (stageMembership principalId at_) x

/-- `stage`, into a store that is ready and empty. -/
def stage (b : StorageBackend) (m : ManifestV2) (principalId : String) (at_ : Instant)
    (members : List PortableStoreMember) : Option Content :=
  if validatePortableMembers members (compileRecordSpecification m) then insertMembers b m principalId at_ members
  else none

/-! ## What a snapshot has read -/

section snapshots

variable {b : StorageBackend} {p : String} {x : Content} {collate : String → String → Bool}
  {members : List PortableStoreMember} {records : List RecordValue} {histories : List RecordHistoryEvent}
  {branches : List BranchValue} {memberships : List BranchMembership} {s : RecordSpecification}

theorem mem_recordRowsOf {e : RecordEntity} {r : RecordRow} :
    r ∈ recordRowsOf x p e ↔ r ∈ x.records.rows ∧ r.entityName = e.name ∧ r.ownerId = p := by
  rw [recordRowsOf, List.mem_insertionSort, List.mem_filter, Bool.and_eq_true, decide_eq_true_eq, decide_eq_true_eq]

theorem recordsOf_sections : recordsOf (records.map .record ++ histories.map .history ++ branches.map .branch ++
    memberships.map .branchMembership) = records := by
  simp [recordsOf, List.filterMap_append, List.filterMap_map]

theorem historiesOf_sections : historiesOf (records.map .record ++ histories.map .history ++ branches.map .branch ++
    memberships.map .branchMembership) = histories := by
  simp [historiesOf, List.filterMap_append, List.filterMap_map]

theorem branchesOf_sections : branchesOf (records.map .record ++ histories.map .history ++ branches.map .branch ++
    memberships.map .branchMembership) = branches := by
  simp [branchesOf, List.filterMap_append, List.filterMap_map]

theorem membershipsOf_sections : membershipsOf (records.map .record ++ histories.map .history ++
    branches.map .branch ++ memberships.map .branchMembership) = memberships := by
  simp [membershipsOf, List.filterMap_append, List.filterMap_map]

/-- **What is read**, section by section. -/
theorem snapshotMembers_eq_some : snapshotMembers b s collate p x = some members ↔
    (s.entities.flatMap (recordRowsOf x p)).mapM (decodeRecord b s) = some (recordsOf members) ∧
    (historyRowsOf x p (collation b collate)).mapM (decodeHistory b s) = some (historiesOf members) ∧
    (x.branchRows p).mapM decodeBranch = some (branchesOf members) ∧
    (membershipRowsOf x p (collation b collate)).mapM decodeMembership = some (membershipsOf members) ∧
    members = (recordsOf members).map .record ++ (historiesOf members).map .history ++
      (branchesOf members).map .branch ++ (membershipsOf members).map .branchMembership := by
  simp only [snapshotMembers, Option.bind_eq_bind, Option.bind_eq_some_iff]
  constructor
  · rintro ⟨records, hrecords, histories, hhistories, branches, hbranches, memberships, hmemberships, h⟩
    obtain rfl := Option.some.inj h
    rw [recordsOf_sections, historiesOf_sections, branchesOf_sections, membershipsOf_sections]
    exact ⟨hrecords, hhistories, hbranches, hmemberships, rfl⟩
  · rintro ⟨hrecords, hhistories, hbranches, hmemberships, h⟩
    exact ⟨_, hrecords, _, hhistories, _, hbranches, _, hmemberships, congrArg some h.symm⟩

end snapshots

/-! ## What is taken in -/

theorem mem_recordsOf {members : List PortableStoreMember} {v : RecordValue} :
    v ∈ recordsOf members ↔ .record v ∈ members := by
  rw [recordsOf, List.mem_filterMap]
  constructor
  · rintro ⟨t, ht, heq⟩
    cases t <;> simp only [reduceCtorEq, Option.some.injEq] at heq
    exact heq ▸ ht
  · exact fun h => ⟨_, h, rfl⟩

theorem mem_historiesOf {members : List PortableStoreMember} {h : RecordHistoryEvent} :
    h ∈ historiesOf members ↔ .history h ∈ members := by
  rw [historiesOf, List.mem_filterMap]
  constructor
  · rintro ⟨t, ht, heq⟩
    cases t <;> simp only [reduceCtorEq, Option.some.injEq] at heq
    exact heq ▸ ht
  · exact fun hmem => ⟨_, hmem, rfl⟩

/-- What the loop has staged of the members so far. -/
structure Loaded (b : StorageBackend) (m : ManifestV2) (p : String) (done : List PortableStoreMember) (y : Content) :
    Prop where
  records : ∀ q, q ∈ y.records.rows ↔ ∃ v, .record v ∈ done ∧ recordRowOf b m p v = some q
  written : ∀ v, .record v ∈ done → (recordRowOf b m p v).isSome = true
  versions : ∀ v, .record v ∈ done → v.recordVersion.1 ≤ MAX_REVISION
  history : y.history = (historiesOf done).map (historyRowOf b p)
  eventVersions : ∀ h, .history h ∈ done → h.recordVersion.1 ≤ MAX_REVISION
  branches : y.branches = .empty
  memberships : y.memberships = .empty

section loop

variable {b : StorageBackend} {m : ManifestV2} {p : String} {y z z' : Content} {done : List PortableStoreMember}
  {q : RecordRow} {v : RecordValue}

theorem recordRowOf_eq_some (hq : recordRowOf b m p v = some q) :
    q.key = v.identity ∧ q.recordVersion = v.recordVersion.1 := by
  simp only [recordRowOf, Option.bind_eq_bind, Option.bind_eq_some_iff] at hq
  obtain ⟨e, -, cells, -, hq⟩ := hq
  obtain rfl := Option.some.inj hq
  exact ⟨rfl, rfl⟩

/-- A version that a table takes is one of the column's. -/
theorem Admits.version {rows : List RecordRow} (h : Admits b (compileManifest m) rows q) :
    q.recordVersion ≤ MAX_REVISION := by
  obtain ⟨e, he, hname⟩ := h.table
  obtain ⟨d, hd, rfl⟩ := mem_entities.1 he
  have hmanaged := (m.valid.entities d hd).managed { name := "record_version", type := .integer, required := true }
    (by decide)
  have hnull := h.required _ he hname _ (List.mem_map_of_mem hmanaged) rfl
  have hcolumn : q.column b "record_version" = versionValue q.recordVersion := rfl
  by_contra hlarge
  refine hnull (hcolumn.trans (dif_neg ?_))
  rw [MAX_REVISION] at hlarge
  omega

/-- **A member that is taken in** leaves its row, or waits. -/
theorem keeps_stageMember : Inserts.Keeps (stageMember b m p) (Loaded b m p) := by
  intro done a y y' hy hy'
  cases a with
  | record v =>
    obtain ⟨q, hq, hinsert⟩ := Option.bind_eq_some_iff.1 hy'
    obtain ⟨hadmits, hinsert⟩ := Option.ite_none_right_eq_some.1 hinsert
    obtain ⟨t, ht, rfl⟩ := Option.map_eq_some_iff.1 hinsert
    refine ⟨fun q' => ?_, fun w hw => ?_, fun w hw => ?_, by simp [hy.history, historiesOf, List.filterMap_append],
      fun h hh => hy.eventVersions h (by simpa using hh), hy.branches, hy.memberships⟩
    · rw [Table.mem_insert ht, hy.records q']
      simp only [List.mem_append, List.mem_singleton, PortableStoreMember.record.injEq]
      constructor
      · rintro (rfl | ⟨w, hw, hrow⟩)
        · exact ⟨v, .inr rfl, hq⟩
        · exact ⟨w, .inl hw, hrow⟩
      · rintro ⟨w, hw | rfl, hrow⟩
        · exact .inr ⟨w, hw, hrow⟩
        · exact .inl (Option.some.inj (hrow.symm.trans hq))
    · rcases List.mem_append.1 hw with hw | hw
      · exact hy.written w hw
      · obtain rfl := PortableStoreMember.record.inj (List.mem_singleton.1 hw)
        rw [hq, Option.isSome_some]
    · rcases List.mem_append.1 hw with hw | hw
      · exact hy.versions w hw
      · obtain rfl := PortableStoreMember.record.inj (List.mem_singleton.1 hw)
        exact (recordRowOf_eq_some hq).2 ▸ hadmits.version
  | history h =>
    obtain ⟨⟨hversion, -⟩, happend⟩ := Option.ite_none_right_eq_some.1 hy'
    unfold Content.appendHistory at happend
    split_ifs at happend
    obtain rfl := Option.some.inj happend
    refine ⟨fun q => by simpa using hy.records q, fun w hw => hy.written w (by simpa using hw),
      fun w hw => hy.versions w (by simpa using hw), by simp [hy.history, historiesOf, List.filterMap_append], fun h' hh' => ?_, hy.branches, hy.memberships⟩
    rcases List.mem_append.1 hh' with hh' | hh'
    · exact hy.eventVersions h' hh'
    · obtain rfl := PortableStoreMember.history.inj (List.mem_singleton.1 hh')
      exact hversion
  | _ =>
    obtain rfl := Option.some.inj hy'
    exact ⟨fun q => by simpa using hy.records q, fun w hw => hy.written w (by simpa using hw),
      fun w hw => hy.versions w (by simpa using hw), by simp [hy.history, historiesOf, List.filterMap_append], fun h hh => hy.eventVersions h (by simpa using hh),
      hy.branches, hy.memberships⟩

theorem loaded_nil : Loaded b m p [] .empty :=
  ⟨fun q => by simp [Content.empty, Table.empty], fun v hv => absurd hv List.not_mem_nil,
    fun v hv => absurd hv List.not_mem_nil, rfl,
    fun h hh => absurd hh List.not_mem_nil, rfl, rfl⟩

end loop

/-! ## Branches and memberships -/

/-- The branches that have been inserted; the rest is as it was. -/
structure LoadedBranches (p : String) (y : Content) (done : List BranchValue) (z : Content) : Prop where
  branches : ∀ r, r ∈ z.branches.rows ↔ ∃ v ∈ done, r = ⟨p, v⟩
  revisions : ∀ v ∈ done, v.branchRevision.1 ≤ MAX_REVISION
  records : z.records = y.records
  history : z.history = y.history
  memberships : z.memberships = y.memberships

/-- The memberships that have been inserted; the rest is as it was. -/
structure LoadedMemberships (p : String) (at_ : Instant) (y : Content) (done : List BranchMembership) (z : Content) :
    Prop where
  memberships : ∀ r, r ∈ z.memberships.rows ↔ ∃ v ∈ done, r = membershipRowOf p at_ v
  records : z.records = y.records
  history : z.history = y.history
  branches : z.branches = y.branches

section topology

variable {b : StorageBackend} {m : ManifestV2} {p : String} {at_ : Instant} {y z : Content}
  {members : List PortableStoreMember}

theorem keeps_stageBranch : Inserts.Keeps (stageBranch p) (LoadedBranches p y) := by
  intro done v z z' hz hz'
  obtain ⟨⟨hrevision, -⟩, hinsert⟩ := Option.ite_none_right_eq_some.1 hz'
  obtain ⟨t, ht, rfl⟩ := Option.map_eq_some_iff.1 hinsert
  refine ⟨fun r => ?_, fun w hw => ?_, hz.records, hz.history, hz.memberships⟩
  · rw [Table.mem_insert ht, hz.branches r]
    simp only [List.mem_append, List.mem_singleton]
    constructor
    · rintro (rfl | ⟨w, hw, rfl⟩)
      · exact ⟨v, .inr rfl, rfl⟩
      · exact ⟨w, .inl hw, rfl⟩
    · rintro ⟨w, hw | rfl, rfl⟩
      · exact .inr ⟨w, hw, rfl⟩
      · exact .inl rfl
  · rcases List.mem_append.1 hw with hw | hw
    · exact hz.revisions w hw
    · exact List.mem_singleton.1 hw ▸ hrevision

theorem keeps_stageMembership : Inserts.Keeps (stageMembership p at_) (LoadedMemberships p at_ y) := by
  intro done v z z' hz hz'
  obtain ⟨-, hinsert⟩ := Option.ite_none_right_eq_some.1 hz'
  unfold Content.insertMembership at hinsert
  split_ifs at hinsert
  obtain ⟨t, ht, rfl⟩ := Option.map_eq_some_iff.1 hinsert
  refine ⟨fun r => ?_, hz.records, hz.history, hz.branches⟩
  rw [Table.mem_insert ht, hz.memberships r]
  simp only [List.mem_append, List.mem_singleton]
  constructor
  · rintro (rfl | ⟨w, hw, rfl⟩)
    · exact ⟨v, .inr rfl, rfl⟩
    · exact ⟨w, .inl hw, rfl⟩
  · rintro ⟨w, hw | rfl, rfl⟩
    · exact .inr ⟨w, hw, rfl⟩
    · exact .inl rfl

theorem loadedBranches_nil (hy : Loaded b m p members y) : LoadedBranches p y [] y :=
  ⟨fun r => by simp [hy.branches, Table.empty], fun v hv => absurd hv List.not_mem_nil, rfl, rfl, rfl⟩

theorem loadedMemberships_nil {taken : List BranchValue} (hy : Loaded b m p members y) (hz : LoadedBranches p y taken z) :
    LoadedMemberships p at_ z [] z :=
  ⟨fun r => by simp [hz.memberships, hy.memberships, Table.empty], rfl, rfl, rfl⟩

/-! ## The validation -/

/-- What the validation asks of the order, the branches and the memberships. -/
structure Checked (members : List PortableStoreMember) : Prop where
  sorted : (members.map (·.sortKey)).Pairwise (· < ·)
  ancestry : ∀ v ∈ branchesOf members,
    ancestryEnds (branchesOf members) v.branchId ((branchesOf members).length + 1) [] v.parentBranchId = true
  branch : ∀ v ∈ membershipsOf members, ∃ w ∈ branchesOf members, w.branchId = v.branchId
  memberships : ((membershipsOf members).map fun v => (v.branchId, v.identity)).Nodup
  primary : (((membershipsOf members).filter fun v => v.role = .primary).map (·.identity)).Nodup

theorem checked_of_valid {s : RecordSpecification} (h : validatePortableMembers members s = true) : Checked members := by
  simp only [validatePortableMembers, Bool.and_eq_true, decide_eq_true_eq, List.all_eq_true, List.any_eq_true] at h
  obtain ⟨⟨⟨⟨⟨⟨⟨⟨-, hsorted⟩, -⟩, -⟩, -⟩, hancestry⟩, hmemberships⟩, hdistinct⟩, hprimary⟩ := h
  exact ⟨hsorted, hancestry, fun v hv => (hmemberships v hv).1, hdistinct, hprimary⟩

/-- The keys of a section rise with those of the members. -/
theorem Checked.pairwise {α : Type} (h : Checked members) {f : PortableStoreMember → Option α} {r : α → α → Prop}
    (hr : ∀ a t v w, f a = some v → f t = some w → a.sortKey < t.sortKey → r v w) :
    (members.filterMap f).Pairwise r := by
  refine List.Pairwise.filterMap f (fun a t hat v hv w hw => ?_) (List.pairwise_map.1 h.sorted)
  exact hr a t v w hv hw hat

/-- Branches have distinct ids. -/
theorem Checked.distinct (h : Checked members) : ((branchesOf members).map (·.branchId)).Nodup := by
  rw [List.Nodup, List.pairwise_map]
  refine h.pairwise fun a t v w hv hw hlt heq => ?_
  cases a <;> simp only [reduceCtorEq, Option.some.injEq] at hv
  cases t <;> simp only [reduceCtorEq, Option.some.injEq] at hw
  subst hv hw
  rw [PortableStoreMember.sortKey, PortableStoreMember.sortKey, heq] at hlt
  exact lt_irrefl _ hlt

/-! ## What a staging leaves -/

/-- The store holds the members, each in its row, and nothing else. -/
structure StagedRows (b : StorageBackend) (m : ManifestV2) (p : String) (at_ : Instant)
    (members : List PortableStoreMember) (y : Content) : Prop where
  records : ∀ q, q ∈ y.records.rows ↔ ∃ v, .record v ∈ members ∧ recordRowOf b m p v = some q
  written : ∀ v, .record v ∈ members → (recordRowOf b m p v).isSome = true
  versions : ∀ v, .record v ∈ members → v.recordVersion.1 ≤ MAX_REVISION
  history : y.history = (historiesOf members).map (historyRowOf b p)
  eventVersions : ∀ h, .history h ∈ members → h.recordVersion.1 ≤ MAX_REVISION
  branches : ∀ r, r ∈ y.branches.rows ↔ ∃ v ∈ branchesOf members, r = ⟨p, v⟩
  revisions : ∀ v ∈ branchesOf members, v.branchRevision.1 ≤ MAX_REVISION
  memberships : ∀ r, r ∈ y.memberships.rows ↔ ∃ v ∈ membershipsOf members, r = membershipRowOf p at_ v

/-- **What goes through is staged.** -/
theorem stagedRows_of_stage (h : stage b m p at_ members = some y) : StagedRows b m p at_ members y := by
  obtain ⟨hvalid, h⟩ := Option.ite_none_right_eq_some.1 h
  obtain ⟨u, hu, h⟩ := Option.bind_eq_some_iff.1 h
  obtain ⟨ordered, hordered, h⟩ := Option.bind_eq_some_iff.1 h
  obtain ⟨z, hz, hy⟩ := Option.bind_eq_some_iff.1 h
  have hloop := Inserts.held_foldlM keeps_stageMember loaded_nil hu
  rw [List.nil_append] at hloop
  have hbranches := Inserts.held_foldlM keeps_stageBranch (loadedBranches_nil hloop) hz
  have hmemberships := Inserts.held_foldlM keeps_stageMembership (loadedMemberships_nil hloop hbranches) hy
  rw [List.nil_append] at hbranches hmemberships
  have hperm : ordered.Perm (branchesOf members) := by
    cases hfirst : parentFirst (branchesOf members) with
    | error e =>
      rw [hfirst] at hordered
      exact absurd hordered (by simp [Except.toOption])
    | ok l =>
      rw [hfirst] at hordered
      obtain rfl := Option.some.inj hordered
      exact (parentFirst_ok (checked_of_valid hvalid).distinct hfirst).1
  refine ⟨?_, hloop.written, hloop.versions, ?_, hloop.eventVersions, fun r => ?_, fun v hv => ?_, hmemberships.memberships⟩
  · rw [hmemberships.records, hbranches.records]
    exact hloop.records
  · rw [hmemberships.history, hbranches.history, hloop.history]
  · rw [hmemberships.branches, hbranches.branches r]
    exact exists_congr fun v => and_congr_left fun _ => hperm.mem_iff
  · exact hbranches.revisions v (hperm.mem_iff.2 hv)

end topology

end Data

end Aipcs

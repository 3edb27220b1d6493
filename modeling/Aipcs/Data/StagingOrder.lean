import Aipcs.Data.Staging

/-!
# Data — the order of a staging

A snapshot of a store whose references hold is staged again in the order
of its members: by entity name and record id. Branches come after their
parents in it, which `_parent_first` sees to; for records nothing does, and
a record that refers to one with a greater key is refused by the reference
it goes against (`stage_iff`).
-/

namespace Aipcs

namespace Data

open Manifest Portable Relational Records Registry

/-! ## Sources -/

/-- One record names the other in a field that a relationship starts from. -/
def Refers (m : ManifestV2) (v w : RecordValue) : Prop :=
  ∃ k ∈ (compileManifest m).relationships, k.sourceEntity = v.entityName.1 ∧ k.targetEntity = w.entityName.1 ∧
    v.fields.get? k.sourceField = some (.str w.recordId.text)

/-- What the tables of a service store keep: every row is admitted beside
the others, so that its references lead to rows, and a slug is a branch's. -/
structure Constrained (b : StorageBackend) (m : ManifestV2) (p : String) (x : Content) : Prop where
  owned : ∀ r ∈ x.records.rows, r.ownerId = p
  floating : ∀ r ∈ x.records.rows, Floating m r
  admitted : ∀ r ∈ x.records.rows, Admits b (compileManifest m) (x.records.rows.filter fun q => q.key ≠ r.key) r
  slugs : ∀ q ∈ x.branches.rows, ∀ r ∈ x.branches.rows, q.principalId = r.principalId →
    q.value.slug = r.value.slug → q = r

/-- A record and the row it has been read from. -/
structure Source (b : StorageBackend) (m : ManifestV2) (x : Content) (r : RecordRow) (v : RecordValue) : Prop where
  mem : r ∈ x.records.rows
  read : decodeRecord b (compileRecordSpecification m) r = some v

section sources

variable {b : StorageBackend} {m : ManifestV2} {p : String} {x : Content} {collate : String → String → Bool}
  {members : List PortableStoreMember} {r r' : RecordRow} {v w : RecordValue}

theorem Source.key (h : Source b m x r v) : r.key = v.identity := by
  obtain ⟨-, hentity, hid, -⟩ := decodeRecord_row h.read
  rw [RecordRow.key, RecordValue.identity, hentity, hid]

theorem Source.eq_of_identity (h : Source b m x r v) (h' : Source b m x r' w) (heq : v.identity = w.identity) :
    r = r' ∧ v = w := by
  have hrow : r = r' := Table.eq_of_key h.mem h'.mem (by rw [h.key, h'.key, heq])
  refine ⟨hrow, ?_⟩
  subst hrow
  exact Option.some.inj (h.read.symm.trans h'.read)

/-- **A record refers to another** just where its row does. -/
theorem Source.refers_iff (h : Source b m x r v) (h' : Source b m x r' w) : Refers m v w ↔
    ∃ k ∈ (compileManifest m).relationships, k.sourceEntity = r.entityName ∧ k.targetEntity = r'.entityName ∧
      r.column b k.sourceField = idValue b r'.id := by
  obtain ⟨hfields, hentity, -⟩ := decodeRecord_row h.read
  obtain ⟨-, hentity', hid', -⟩ := decodeRecord_row h'.read
  obtain ⟨e, hnormal, hvalue⟩ := decodeFields_value hfields
  rw [Refers, hentity, hentity', hid']
  refine exists_congr fun k => and_congr_right fun hk => and_congr_right fun hsource => and_congr_right fun _ => ?_
  obtain ⟨-, d, hd, hname, a, ha, hfield, htype⟩ := source_field hk
  have he := compile_entity hd
  rw [hname, hsource, hnormal.entity] at he
  obtain rfl := Option.some.inj he
  have hmanaged := (mem_domainFields.1 ha).2
  rw [← hfield, column_of_domain hmanaged, (hnormal.fieldValue_eq ha).1, Option.some.injEq,
    ← decodeField_idValue htype, hvalue a ha, Option.some.injEq]

/-- A snapshot's record has a source. -/
theorem source_of_member (hsnapshot : snapshotMembers b (compileRecordSpecification m) collate p x = some members)
    (hv : .record v ∈ members) : ∃ r, Source b m x r v := by
  have hread := mapM_eq_some (snapshotMembers_eq_some.1 hsnapshot).1
  obtain ⟨r, hr, hdecode⟩ := exists_of_forall₂ hread.flip (mem_recordsOf.2 hv)
  obtain ⟨e, -, hr⟩ := List.mem_flatMap.1 hr
  exact ⟨r, (mem_recordRowsOf.1 hr).1, hdecode⟩

/-- A row is read. -/
theorem Constrained.member (hx : Constrained b m p x)
    (hsnapshot : snapshotMembers b (compileRecordSpecification m) collate p x = some members)
    (hr : r ∈ x.records.rows) : ∃ v, .record v ∈ members ∧ Source b m x r v := by
  obtain ⟨e, he, hname⟩ := (hx.admitted r hr).table
  obtain ⟨d, hd, rfl⟩ := mem_entities.1 he
  have hentity : recordEntity d ∈ (compileRecordSpecification m).entities :=
    List.mem_map_of_mem (mem_sortedBy.2 hd)
  have hread := mapM_eq_some (snapshotMembers_eq_some.1 hsnapshot).1
  obtain ⟨v, hv, hdecode⟩ := exists_of_forall₂ hread
    (List.mem_flatMap.2 ⟨_, hentity, mem_recordRowsOf.2 ⟨hr, hname.symm, hx.owned r hr⟩⟩)
  exact ⟨v, mem_recordsOf.1 hv, hr, hdecode⟩

/-- A record has its row to be staged as. -/
theorem Constrained.mirror (hx : Constrained b m p x) (h : Source b m x r v) :
    ∃ q, recordRowOf b m p v = some q ∧ Mirrors b m r q :=
  exists_mirror h.read (hx.owned r h.mem) (hx.floating r h.mem)

end sources

/-! ## Records and events -/

/-- A member refers to another where both are records and the one does. -/
def RefersTo (m : ManifestV2) (a t : PortableStoreMember) : Prop := ∃ v w, a = .record v ∧ t = .record w ∧ Refers m v w

/-- The documents of an event are within the size its columns take. -/
def DocumentsFit (b : StorageBackend) (a : PortableStoreMember) : Prop :=
  ∀ h, a = .history h → h.before.all (fun o => documentFits (snapshot b o)) = true ∧
    h.after.all (fun o => documentFits (snapshot b o)) = true

/-- A member fits where those it refers to have been taken in, or are it. -/
def Fits (b : StorageBackend) (m : ManifestV2) (members done : List PortableStoreMember) (a : PortableStoreMember) :
    Prop :=
  (∀ t ∈ members, RefersTo m a t → t ∈ done ++ [a]) ∧ DocumentsFit b a

section staging

variable {b : StorageBackend} {m : ManifestV2} {p : String} {x y : Content} {collate : String → String → Bool}
  {members done rest : List PortableStoreMember} {r q : RecordRow} {v w : RecordValue} {h h' : RecordHistoryEvent}

/-- SQLite's columns take every document. -/
theorem documentsFit_sqlite (a : PortableStoreMember) : DocumentsFit .sqlite a := by
  have hfit : ∀ o : FrozenJsonObject, documentFits (snapshot .sqlite o) = true := fun o => decide_eq_true o.jsonSize_le
  rintro h -
  exact ⟨by simp [hfit], by simp [hfit]⟩

/-- Records of one identity have one key in the order of members. -/
theorem sortKey_record (heq : v.identity = w.identity) :
    PortableStoreMember.sortKey (.record v) = PortableStoreMember.sortKey (.record w) := by
  obtain ⟨hentity, hid⟩ := Prod.mk.inj heq
  rw [PortableStoreMember.sortKey, PortableStoreMember.sortKey, hentity, hid]

theorem sortKey_history (hentity : h.entityName.1 = h'.entityName.1) (hid : h.recordId = h'.recordId)
    (hversion : h.recordVersion.1 = h'.recordVersion.1) :
    PortableStoreMember.sortKey (.history h) = PortableStoreMember.sortKey (.history h') := by
  rw [PortableStoreMember.sortKey, PortableStoreMember.sortKey, hentity, hid, hversion]

/-- What comes before in the order has another key. -/
theorem sortKey_ne {a t : PortableStoreMember} (hsorted : (members.map (·.sortKey)).Pairwise (· < ·))
    (hmembers : members = done ++ a :: rest) (ht : t ∈ done) : t.sortKey ≠ a.sortKey := by
  rw [hmembers, List.pairwise_map] at hsorted
  exact ne_of_lt ((List.pairwise_append.1 hsorted).2.2 t ht a List.mem_cons_self)

variable (hx : Constrained b m p x)
  (hsnapshot : snapshotMembers b (compileRecordSpecification m) collate p x = some members)
  (hsorted : (members.map (·.sortKey)).Pairwise (· < ·))

include hx hsnapshot hsorted

omit hsorted in
/-- **References lead to rows** just where the records that are referred to
have been taken in. -/
theorem referred_iff (hmembers : members = done ++ .record v :: rest) (hy : Loaded b m p done y)
    (hr : Source b m x r v) (hq : recordRowOf b m p v = some q) :
    Referred b m (y.records.rows ++ [q]) r ↔
      ∀ w, .record w ∈ members → Refers m v w → .record w ∈ done ++ [.record v] := by
  have hrow : ∀ q', q' ∈ y.records.rows ++ [q] ↔
      ∃ w, .record w ∈ done ++ [PortableStoreMember.record v] ∧ recordRowOf b m p w = some q' := fun q' => by
    simp only [List.mem_append, List.mem_singleton, hy.records q', PortableStoreMember.record.injEq]
    constructor
    · rintro (⟨w, hw, hq'⟩ | rfl)
      · exact ⟨w, .inl hw, hq'⟩
      · exact ⟨v, .inr rfl, hq⟩
    · rintro ⟨w, hw | rfl, hq'⟩
      · exact .inl ⟨w, hw, hq'⟩
      · exact .inr (Option.some.inj (hq'.symm.trans hq))
  have hsub : ∀ t ∈ done ++ [PortableStoreMember.record v], t ∈ members := fun t ht => by
    rw [hmembers]
    rcases List.mem_append.1 ht with ht | ht
    · exact List.mem_append_left _ ht
    · exact List.mem_append_right _ (List.mem_singleton.1 ht ▸ List.mem_cons_self)
  constructor
  · intro hreferred w hw hrefers
    obtain ⟨r', hr'⟩ := source_of_member hsnapshot hw
    obtain ⟨k, hk, hsource, htarget, hcolumn⟩ := (hr.refers_iff hr').1 hrefers
    obtain ⟨q', hq', hentity, hid⟩ := hreferred k hk hsource (hcolumn ▸ idValue_ne_null _)
    obtain ⟨w', hw', hrow'⟩ := (hrow q').1 hq'
    obtain ⟨r'', hr''⟩ := source_of_member hsnapshot (hsub _ hw')
    have hkey : w'.identity = w.identity := by
      rw [← (recordRowOf_eq_some hrow').1, ← hr'.key, RecordRow.key, RecordRow.key, hentity, htarget,
        idValue_injective (hid.symm.trans hcolumn)]
    obtain ⟨-, rfl⟩ := hr''.eq_of_identity hr' hkey
    exact hw'
  · intro hback k hk hsource hne
    obtain ⟨r', hr', hentity, hcolumn⟩ := (hx.admitted r hr.mem).references k hk hsource hne
    have hmem : r' ∈ x.records.rows := by
      rcases List.mem_append.1 hr' with hr' | hr'
      · exact (List.mem_filter.1 hr').1
      · exact List.mem_singleton.1 hr' ▸ hr.mem
    obtain ⟨w, hw, hsource'⟩ := hx.member hsnapshot hmem
    rw [(source_field hk).1, column_id] at hcolumn
    have hdone := hback w hw ((hr.refers_iff hsource').2 ⟨k, hk, hsource, hentity.symm, hcolumn.symm⟩)
    obtain ⟨q', hq', hmirror⟩ := hx.mirror hsource'
    exact ⟨q', (hrow q').2 ⟨w, hdone, hq'⟩, hmirror.entityName.trans hentity, by rw [hmirror.id, hcolumn]⟩

omit hx hsorted in
/-- An event that has been read is of a version of the column's. -/
theorem event_version (hh : .history h ∈ members) : h.recordVersion.1 ≤ MAX_REVISION := by
  have hread := mapM_eq_some (snapshotMembers_eq_some.1 hsnapshot).2.1
  obtain ⟨row, -, hdecode⟩ := exists_of_forall₂ hread.flip (mem_historiesOf.2 hh)
  simp only [decodeHistory, Option.bind_eq_bind, Option.bind_eq_some_iff] at hdecode
  obtain ⟨before, -, after, -, hdecode⟩ := hdecode
  obtain ⟨-, hevent⟩ := Option.ite_none_left_eq_some.1 hdecode
  simp only [historyEvent, Option.bind_eq_bind, Option.bind_eq_some_iff] at hevent
  obtain ⟨before, -, after, -, hevent⟩ := hevent
  split_ifs at hevent with hvalid
  obtain rfl := Option.some.inj hevent
  exact hvalid.2.2.1

/-- **A record is taken in** just where those it refers to have been. -/
theorem stageMember_record (hmembers : members = done ++ .record v :: rest) (hy : Loaded b m p done y) :
    (∃ y', stageMember b m p y (.record v) = some y') ↔
      ∀ w, .record w ∈ members → Refers m v w → .record w ∈ done ++ [.record v] := by
  obtain ⟨r, hr⟩ := source_of_member hsnapshot (hmembers ▸ List.mem_append_right _ List.mem_cons_self)
  obtain ⟨q, hq, hmirror⟩ := hx.mirror hr
  have hother : ∀ q' ∈ y.records.rows, q'.key ≠ q.key ∧
      ∃ r' ∈ x.records.rows.filter fun r' => r'.key ≠ r.key, Mirrors b m r' q' := fun q' hq' => by
    obtain ⟨v', hv', hrow'⟩ := (hy.records q').1 hq'
    have hne : v'.identity ≠ v.identity := fun heq => sortKey_ne hsorted hmembers hv' (sortKey_record heq)
    obtain ⟨r', hr'⟩ := source_of_member hsnapshot (hmembers ▸ List.mem_append_left _ hv')
    obtain ⟨q'', hq'', hmirror'⟩ := hx.mirror hr'
    obtain rfl := Option.some.inj (hrow'.symm.trans hq'')
    rw [(recordRowOf_eq_some hrow').1, (recordRowOf_eq_some hq).1]
    exact ⟨hne, r', List.mem_filter.2 ⟨hr'.mem, by rw [hr'.key, hr.key]; exact decide_eq_true hne⟩, hmirror'⟩
  obtain ⟨t, ht⟩ := Table.insert_isSome (t := y.records) (r := q)
    (Table.find?_eq_none.2 fun q' hq' => (hother q' hq').1)
  rw [← referred_iff hx hsnapshot hmembers hy hr hq,
    ← hmirror.admits_iff (hx.admitted r hr.mem) fun q' hq' => (hother q' hq').2, stageMember, hq, Option.bind_some,
    insertDomainRow, Content.insertRow, ht, Option.map_some]
  constructor
  · rintro ⟨y', hy'⟩
    exact (Option.ite_none_right_eq_some.1 hy').1
  · exact fun hadmits => ⟨_, if_pos hadmits⟩

omit hx in
/-- **An event is taken in** just where its documents fit. -/
theorem stageMember_history (hmembers : members = done ++ .history h :: rest) (hy : Loaded b m p done y) :
    (∃ y', stageMember b m p y (.history h) = some y') ↔ DocumentsFit b (.history h) := by
  have hfree : ¬ ((y.events (historyRowOf b p h).identity).any
      fun h' => h'.recordVersion = (historyRowOf b p h).recordVersion) = true := by
    rw [List.any_eq_true]
    rintro ⟨g, hg, hversion⟩
    obtain ⟨hg, hidentity⟩ := List.mem_filter.1 hg
    rw [hy.history] at hg
    obtain ⟨h', hh', rfl⟩ := List.mem_map.1 hg
    obtain ⟨-, hkey⟩ := Prod.mk.inj (of_decide_eq_true hidentity)
    obtain ⟨hentity, hid⟩ := Prod.mk.inj hkey
    exact sortKey_ne hsorted hmembers (mem_historiesOf.1 hh') (sortKey_history hentity hid (of_decide_eq_true hversion))
  have hversion : h.recordVersion.1 ≤ MAX_REVISION :=
    event_version hsnapshot (hmembers ▸ List.mem_append_right _ List.mem_cons_self)
  rw [stageMember, insertEvent, Content.appendHistory, if_neg hfree]
  constructor
  · rintro ⟨y', hy'⟩ h' heq
    obtain rfl := PortableStoreMember.history.inj heq
    obtain ⟨-, hbefore, hafter⟩ := (Option.ite_none_right_eq_some.1 hy').1
    rw [historyRowOf, Option.all_map] at hbefore hafter
    exact ⟨hbefore, hafter⟩
  · intro hfit
    obtain ⟨hbefore, hafter⟩ := hfit h rfl
    refine ⟨_, if_pos ⟨hversion, ?_, ?_⟩⟩
    · rw [historyRowOf, Option.all_map]
      exact hbefore
    · rw [historyRowOf, Option.all_map]
      exact hafter

/-- **The members are taken in one by one**, each where it fits. -/
theorem inserting : Inserts.Inserting (stageMember b m p) (Loaded b m p) (Fits b m members) members where
  keeps := keeps_stageMember
  goes done a rest hl y hy := by
    have hother : (∀ v, a ≠ .record v) → (Fits b m members done a ↔ DocumentsFit b a) := fun hne =>
      ⟨fun hfit => hfit.2, fun hfit => ⟨fun t _ ⟨v, _, heq, _⟩ => absurd heq (hne v), hfit⟩⟩
    cases a with
    | record v =>
      rw [stageMember_record hx hsnapshot hsorted hl hy]
      constructor
      · refine fun hback => ⟨?_, fun h heq => absurd heq (by simp)⟩
        rintro t ht ⟨v', w, heq, rfl, hrefers⟩
        obtain rfl := PortableStoreMember.record.inj heq
        exact hback w ht hrefers
      · exact fun hfit w hw hrefers => hfit.1 _ hw ⟨v, w, rfl, rfl, hrefers⟩
    | history h => rw [stageMember_history hsnapshot hsorted hl hy, hother fun v => by simp]
    | branch v => exact ⟨fun _ => (hother fun v => by simp).2 fun h heq => absurd heq (by simp), fun _ => ⟨y, rfl⟩⟩
    | branchMembership v =>
      exact ⟨fun _ => (hother fun v => by simp).2 fun h heq => absurd heq (by simp), fun _ => ⟨y, rfl⟩⟩

/-- **The loop goes through** just where no record refers to a later one,
and every document fits. -/
theorem stageMembers_iff : (∃ y, members.foldlM (stageMember b m p) .empty = some y) ↔
    (∀ a ∈ members, ∀ t ∈ members, RefersTo m a t → t.sortKey ≤ a.sortKey) ∧ ∀ a ∈ members, DocumentsFit b a := by
  rw [(inserting hx hsnapshot hsorted).isSome_iff loaded_nil, ← Inserts.refersBack_iff hsorted]
  constructor
  · refine fun hfits => ⟨fun before a after heq => (hfits before a after heq).1, fun a ha => ?_⟩
    obtain ⟨before, after, heq⟩ := List.append_of_mem ha
    exact (hfits before a after heq).2
  · exact fun hfits before a after heq =>
      ⟨hfits.1 before a after heq, hfits.2 a (heq ▸ List.mem_append_right _ List.mem_cons_self)⟩

end staging

/-! ## Branches and memberships -/

section topology

variable {b : StorageBackend} {m : ManifestV2} {p : String} {y z : Content} {collate : String → String → Bool}
  {members : List PortableStoreMember} {ordered branches : List BranchValue} {memberships : List BranchMembership}

theorem found_of_mem {v : BranchValue} (h : ⟨p, v⟩ ∈ z.branches.rows) : (z.branches.find? v.branchId).isSome = true := by
  have hfound := Table.find?_of_mem h
  exact Option.isSome_iff_exists.2 ⟨_, hfound⟩

/-- **Branches are inserted** in an order that has parents first. -/
theorem insertingBranches (horder : Links.ParentFirst (·.branchId) (·.parentBranchId) ordered)
    (hdistinct : (ordered.map (·.branchId)).Nodup) (hrevisions : ∀ v ∈ ordered, v.branchRevision.1 ≤ MAX_REVISION)
    (hslugs : ∀ v ∈ ordered, ∀ w ∈ ordered, v.slug = w.slug → v = w) :
    Inserts.Inserting (stageBranch p) (LoadedBranches p y) (fun _ _ => True) ordered where
  keeps := keeps_stageBranch
  goes done v rest hl z hz := by
    have hmem : v ∈ ordered := hl ▸ List.mem_append_right _ List.mem_cons_self
    have hfresh : ∀ w ∈ done, w.branchId ≠ v.branchId := fun w hw => by
      rw [hl, List.map_append, List.map_cons] at hdistinct
      exact (List.nodup_append.1 hdistinct).2.2 _ (List.mem_map_of_mem hw) _ List.mem_cons_self
    have hparent : ∀ i, v.parentBranchId = some i → i = v.branchId ∨ (z.branches.find? i).isSome = true := fun i hi => by
      obtain ⟨w, hw, rfl⟩ := horder done v rest hl i hi
      exact .inr (found_of_mem ((hz.branches ⟨p, w⟩).2 ⟨w, hw, rfl⟩))
    have hslug : ∀ r ∈ z.branches.rows, r.principalId = p → r.value.slug ≠ v.slug := fun r hr _ heq => by
      obtain ⟨w, hw, rfl⟩ := (hz.branches r).1 hr
      exact hfresh w hw (congrArg BranchValue.branchId (hslugs w (hl ▸ List.mem_append_left _ hw) v hmem heq))
    obtain ⟨t, ht⟩ := Table.insert_isSome (t := z.branches) (r := ⟨p, v⟩) (Table.find?_eq_none.2 fun r hr => by
      obtain ⟨w, hw, rfl⟩ := (hz.branches r).1 hr
      exact hfresh w hw)
    refine ⟨fun _ => trivial, fun _ => ⟨{ z with branches := t }, ?_⟩⟩
    rw [stageBranch, if_pos ⟨hrevisions v hmem, hparent, hslug⟩, ht, Option.map_some]

/-- **Memberships are inserted** where their branches are there, no record
has a branch twice and none has two primary branches. -/
theorem insertingMemberships (at_ : Instant) (hbranches : ∀ v ∈ memberships, (y.branches.find? v.branchId).isSome)
    (hdistinct : (memberships.map fun v => (v.branchId, v.identity)).Nodup)
    (hprimary : ((memberships.filter fun v => v.role = .primary).map (·.identity)).Nodup) :
    Inserts.Inserting (stageMembership p at_) (LoadedMemberships p at_ y) (fun _ _ => True) memberships where
  keeps := keeps_stageMembership
  goes done v rest hl z hz := by
    have hbranch : (z.branches.find? v.branchId).isSome = true :=
      hz.branches ▸ hbranches v (hl ▸ List.mem_append_right _ List.mem_cons_self)
    have hone : ¬ ((membershipRowOf p at_ v).role = .primary ∧
        (z.membershipsOf (membershipRowOf p at_ v).key.1).any (fun m => m.role = .primary) = true) := by
      rintro ⟨hrole, hany⟩
      obtain ⟨r, hr, hrole'⟩ := List.any_eq_true.1 hany
      obtain ⟨hr, hkey⟩ := List.mem_filter.1 hr
      obtain ⟨w, hw, rfl⟩ := (hz.memberships r).1 hr
      rw [hl, List.filter_append, List.filter_cons_of_pos (by exact decide_eq_true hrole), List.map_append,
        List.map_cons] at hprimary
      refine (List.nodup_append.1 hprimary).2.2 w.identity ?_ v.identity List.mem_cons_self ?_
      · exact List.mem_map_of_mem (List.mem_filter.2 ⟨hw, hrole'⟩)
      · exact (Prod.mk.inj (of_decide_eq_true hkey)).2
    obtain ⟨t, ht⟩ := Table.insert_isSome (t := z.memberships) (r := membershipRowOf p at_ v)
      (Table.find?_eq_none.2 fun r hr heq => by
        obtain ⟨w, hw, rfl⟩ := (hz.memberships r).1 hr
        rw [hl, List.map_append, List.map_cons] at hdistinct
        refine (List.nodup_append.1 hdistinct).2.2 _ (List.mem_map_of_mem hw) _ List.mem_cons_self ?_
        obtain ⟨hrecord, hid⟩ := Prod.mk.inj heq
        exact Prod.ext hid (Prod.mk.inj hrecord).2)
    refine ⟨fun _ => trivial, fun _ => ⟨{ z with memberships := t }, ?_⟩⟩
    rw [stageMembership, if_pos hbranch, Content.insertMembership]
    exact (if_neg hone).trans (by rw [ht, Option.map_some])

/-- A branch is not among its ancestors where the walk to them ends. -/
theorem ne_of_ancestryEnds (hdistinct : (branches.map (·.branchId)).Nodup) {i : Uuid} :
    ∀ {fuel : ℕ} {seen : List Uuid} {j : Uuid}, ancestryEnds branches i fuel seen (some j) = true →
      (∃ v ∈ branches, v.branchId = j) ∧ j ≠ i ∧
      ∀ k, Relation.TransGen (Links.Above (·.branchId) (·.parentBranchId) branches) k j → k ≠ i := by
  intro fuel
  induction fuel with
  | zero => exact fun h => absurd h (by simp [ancestryEnds])
  | succ fuel ih =>
    intro seen j h
    rw [ancestryEnds] at h
    split_ifs at h with hseen
    rw [not_or] at hseen
    split at h
    · rename_i w hw
      have hmem := List.mem_of_find?_eq_some hw
      have hkey : w.branchId = j := by simpa using List.find?_some hw
      refine ⟨⟨w, hmem, hkey⟩, hseen.2, fun k hk => ?_⟩
      have hparent : ∀ k', Links.Above (·.branchId) (·.parentBranchId) branches k' j → w.parentBranchId = some k' := by
        rintro k' ⟨v, hv, hid, hk'⟩
        rwa [← List.inj_on_of_nodup_map hdistinct hv hmem (hid.trans hkey.symm)]
      cases hk with
      | single hone =>
        rw [hparent k hone] at h
        exact (ih h).2.1
      | tail hrest hone =>
        rw [hparent _ hone] at h
        exact (ih h).2.2 k hrest
    · exact absurd h (by simp)

/-- **Branches whose walks end** have their parents, and are on no cycle. -/
theorem Checked.branches_sound (h : Checked members) (hdistinct : ((branchesOf members).map (·.branchId)).Nodup) :
    Links.Closed (·.branchId) (·.parentBranchId) (branchesOf members) ∧
      Links.Acyclic (·.branchId) (·.parentBranchId) (branchesOf members) := by
  have hends : ∀ v ∈ branchesOf members, ∀ j, v.parentBranchId = some j →
      ancestryEnds (branchesOf members) v.branchId ((branchesOf members).length + 1) [] (some j) = true :=
    fun v hv j hj => hj ▸ h.ancestry v hv
  refine ⟨fun v hv j hj => (ne_of_ancestryEnds hdistinct (hends v hv j hj)).1, fun i hi => ?_⟩
  cases hi with
  | single hone =>
    obtain ⟨v, hv, rfl, hj⟩ := hone
    exact (ne_of_ancestryEnds hdistinct (hends v hv _ hj)).2.1 rfl
  | tail hrest hone =>
    obtain ⟨v, hv, rfl, hj⟩ := hone
    exact (ne_of_ancestryEnds hdistinct (hends v hv _ hj)).2.2 _ hrest rfl

/-- **After the members have been checked** the staging goes through where
the loop over records and events does. -/
theorem insertMembers_isSome (at_ : Instant) (hchecked : Checked members)
    (hrevisions : ∀ v ∈ branchesOf members, v.branchRevision.1 ≤ MAX_REVISION)
    (hslugs : ∀ v ∈ branchesOf members, ∀ w ∈ branchesOf members, v.slug = w.slug → v = w)
    (hy : members.foldlM (stageMember b m p) .empty = some y) :
    (∃ ordered, parentFirst (branchesOf members) = .ok ordered ∧
      Links.ParentFirst (·.branchId) (·.parentBranchId) ordered) ∧
    ∃ z, insertMembers b m p at_ members = some z := by
  have hloop := Inserts.held_foldlM keeps_stageMember loaded_nil hy
  obtain ⟨hclosed, hacyclic⟩ := hchecked.branches_sound hchecked.distinct
  obtain ⟨ordered, hordered⟩ := exists_parentFirst hchecked.distinct hclosed hacyclic
  obtain ⟨hperm, horder⟩ := parentFirst_ok hchecked.distinct hordered
  have hinsert := insertingBranches (p := p) (y := y) horder ((hperm.map _).nodup_iff.2 hchecked.distinct)
    (fun v hv => hrevisions v (hperm.mem_iff.1 hv))
    fun v hv w hw => hslugs v (hperm.mem_iff.1 hv) w (hperm.mem_iff.1 hw)
  have hstart := loadedBranches_nil hloop
  obtain ⟨z, hz⟩ := (hinsert.isSome_iff hstart).2 fun _ _ _ _ => trivial
  have hheld := Inserts.held_foldlM keeps_stageBranch hstart hz
  have hfound : ∀ v ∈ membershipsOf members, (z.branches.find? v.branchId).isSome = true := fun v hv => by
    obtain ⟨w, hw, heq⟩ := hchecked.branch v hv
    exact heq ▸ found_of_mem ((hheld.branches ⟨p, w⟩).2 ⟨w, hperm.mem_iff.2 hw, rfl⟩)
  have hassign := insertingMemberships (p := p) at_ hfound hchecked.memberships hchecked.primary
  obtain ⟨z', hz'⟩ := (hassign.isSome_iff (loadedMemberships_nil hloop hheld)).2 fun _ _ _ _ => trivial
  refine ⟨⟨ordered, hordered, horder⟩, z', ?_⟩
  rw [insertMembers, hy, hordered]
  simp only [Option.bind_eq_bind, Option.bind_some, Except.toOption, hz]
  exact hz'

end topology

/-! ## The order -/

/-- **A staging inserts in order**: a record after those it refers to or
with itself, a branch after its parent, and none is refused. -/
def StagesInOrder (b : StorageBackend) (m : ManifestV2) (p : String) (at_ : Instant)
    (members : List PortableStoreMember) : Prop :=
  (∀ before v after, members = before ++ .record v :: after → ∀ w, .record w ∈ members → Refers m v w →
    .record w ∈ before ++ [.record v]) ∧
  (∃ ordered, parentFirst (branchesOf members) = .ok ordered ∧
    Links.ParentFirst (·.branchId) (·.parentBranchId) ordered) ∧
  ∃ y, stage b m p at_ members = some y

/-- The branches that have been read. -/
theorem mem_branchesOf {b : StorageBackend} {s : RecordSpecification} {p : String} {x : Content}
    {collate : String → String → Bool} {members : List PortableStoreMember} {v : BranchValue}
    (hsnapshot : snapshotMembers b s collate p x = some members) (hv : v ∈ branchesOf members) :
    ∃ r ∈ x.branches.rows, r.principalId = p ∧ r.value = v ∧ v.branchRevision.1 ≤ MAX_REVISION := by
  have hread := mapM_eq_some (snapshotMembers_eq_some.1 hsnapshot).2.2.1
  obtain ⟨r, hr, hdecode⟩ := exists_of_forall₂ hread.flip hv
  rw [Content.branchRows, List.mem_insertionSort, List.mem_filter, decide_eq_true_eq] at hr
  obtain ⟨hrevision, hvalue⟩ := Option.ite_none_right_eq_some.1 hdecode
  obtain rfl := Option.some.inj hvalue
  exact ⟨r, hr.1, hr.2, rfl, hrevision⟩

namespace Projects

/-- Notes name the project they are of, which comes later in name order. -/
def manifest : ManifestV2 where
  schemaVersion := 1
  entities := [{ name := "note", attributes := SERVER_MANAGED_FIELDS ++ [{ name := "project_id", type := .uuid }] },
    { name := "project", attributes := SERVER_MANAGED_FIELDS }]
  relationships := [{ name := "note_project", from_ := ⟨"note", "project_id"⟩, to_ := ⟨"project", "id"⟩ }]
  valid := by decide

def project : EntityName := ⟨"project", by decide⟩

def projectReadings : Readings := ⟨default, ⟨51, by decide, by decide⟩⟩

def noteReadings : Readings := ⟨default, ⟨50, by decide, by decide⟩⟩

def createProject : Command := .createRecord ⟨project, ⟨[], by decide +kernel⟩⟩

def createNote : Command :=
  .createRecord ⟨Noted.note, ⟨[("project_id", .str projectReadings.newId.text)], by decide +kernel⟩⟩

/-- What is left of a command's content. -/
def after (t : Readings) (x : Content) (c : Command) : Content :=
  (((operate .sqlite (compileRecordSpecification manifest) Noted.alice t x c).toOption).map Prod.fst).getD x

/-- A project, and a note of it. -/
def content : Content := after noteReadings (after projectReadings .empty createProject) createNote

def members : List PortableStoreMember :=
  (snapshotMembers .sqlite (compileRecordSpecification manifest) (fun g h => g ≤ h) "alice" content).getD []

/-- What the tables hold, and what becomes of their members. -/
theorem evaluated :
    (snapshotMembers .sqlite (compileRecordSpecification manifest) (fun g h => g ≤ h) "alice" content).isSome = true ∧
    (∀ r ∈ content.records.rows, r.ownerId = "alice") ∧
    (∀ r ∈ content.records.rows, Admits .sqlite (compileManifest manifest)
      (content.records.rows.filter fun q => q.key ≠ r.key) r) ∧
    content.branches.rows.length = 0 ∧
    validatePortableMembers members (compileRecordSpecification manifest) = true ∧
    (stage .sqlite manifest "alice" default members).isNone = true := by decide +kernel

theorem snapshot_read :
    snapshotMembers .sqlite (compileRecordSpecification manifest) (fun g h => g ≤ h) "alice" content = some members := by
  obtain ⟨l, hl⟩ := Option.isSome_iff_exists.1 evaluated.1
  rw [members, hl, Option.getD_some]

theorem constrained : Constrained .sqlite manifest "alice" content where
  owned := evaluated.2.1
  floating r _ e he _ f hf htype := by
    have hnone : ∀ e ∈ (compileManifest manifest).entities, ∀ f ∈ e.fields, f.logicalType ≠ .number := by decide
    exact absurd htype (hnone e he f hf)
  admitted := evaluated.2.2.1
  slugs q hq := by
    rw [List.length_eq_zero_iff.1 evaluated.2.2.2.1] at hq
    exact absurd hq List.not_mem_nil

end Projects

open Projects in
/-- The note is inserted before the project it names, and is refused. -/
example : Constrained .sqlite manifest "alice" content ∧
    snapshotMembers .sqlite (compileRecordSpecification manifest) (fun g h => g ≤ h) "alice" content = some members ∧
    validatePortableMembers members (compileRecordSpecification manifest) = true ∧
    (∀ a ∈ members, DocumentsFit .sqlite a) ∧ ¬ StagesInOrder .sqlite manifest "alice" default members := by
  obtain ⟨-, -, -, -, hvalid, hnone⟩ := evaluated
  refine ⟨constrained, snapshot_read, hvalid, fun a _ => documentsFit_sqlite a, ?_⟩
  rintro ⟨-, -, y, hy⟩
  rw [hy] at hnone
  exact absurd hnone (by simp)

end Data

end Aipcs

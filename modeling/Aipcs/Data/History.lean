import Aipcs.Common.Chronicle
import Aipcs.Data.Operations

/-!
# Data — the history tells every record's life

The events of a record form a chronicle that has come to where the record
stands: its row represents the projection that the last event leaves, at
the version of that event, and it has no row where the last event is its
end. Every operation keeps this, and so does a specification that grows.
-/

namespace Aipcs

namespace Data

open Manifest Portable Relational Records Registry Store.Mutating

/-! ## Events -/

/-- The object of a stored snapshot. -/
def readSnapshot (b : StorageBackend) (text : List Char) : Option FrozenJsonObject :=
  match loadJson b text with
  | some (.obj entries) => FrozenJsonObject.ofEntries entries
  | _ => none

/-- **SQLite gives back the snapshot that was stored.** -/
theorem readSnapshot_sqlite (o : FrozenJsonObject) : readSnapshot .sqlite (snapshot .sqlite o) = some o := by
  have hload : loadJson .sqlite (storeJson .sqlite o.value) = some (.obj o.entries) :=
    loadJson_storeJson_sqlite o.frozen
  rw [readSnapshot, snapshot, hload]
  exact FrozenJsonObject.ofEntries_eq_some.2 rfl

/-- The event as an entry about its record. -/
def entryOf (b : StorageBackend) (h : HistoryRow) : Entry Projection where
  version := h.recordVersion
  before := (h.beforeJson.bind (readSnapshot b)).map projection
  after := (h.afterJson.bind (readSnapshot b)).map projection

/-- Is the event one of the branch memberships? -/
def membershipEvent : HistoryKind → Bool
  | .create | .update | .delete => false
  | _ => true

/-- What an event's kind says of its snapshots, which can be read. -/
structure EventShape (h : HistoryRow) : Prop where
  created : h.eventKind = .create ↔ h.beforeJson = none
  deleted : h.eventKind = .delete ↔ h.afterJson = none
  membership : membershipEvent h.eventKind = true → h.beforeJson = h.afterJson
  before : ∀ text ∈ h.beforeJson, (readSnapshot .sqlite text).isSome = true
  after : ∀ text ∈ h.afterJson, (readSnapshot .sqlite text).isSome = true

/-- The snapshots of an event that the store has written. -/
theorem eventShape_of {h : HistoryRow} {before after : Option FrozenJsonObject}
    (hbefore : h.beforeJson = before.map (snapshot .sqlite)) (hafter : h.afterJson = after.map (snapshot .sqlite))
    (hcreated : h.eventKind = .create ↔ before = none) (hdeleted : h.eventKind = .delete ↔ after = none)
    (hmembership : membershipEvent h.eventKind = true → before = after) :
    EventShape h ∧ entryOf .sqlite h = ⟨h.recordVersion, before.map projection, after.map projection⟩ := by
  have hread : ∀ o : Option FrozenJsonObject, (o.map (snapshot .sqlite)).bind (readSnapshot .sqlite) = o := by
    rintro (_ | o)
    · rfl
    · exact readSnapshot_sqlite o
  have hsome : ∀ (o : Option FrozenJsonObject), ∀ text ∈ o.map (snapshot .sqlite),
      (readSnapshot .sqlite text).isSome = true := by
    rintro o text htext
    obtain ⟨o, rfl, rfl⟩ := Option.map_eq_some_iff.1 htext
    rw [readSnapshot_sqlite, Option.isSome_some]
  refine ⟨⟨?_, ?_, fun hm => ?_, ?_, ?_⟩, ?_⟩
  · rw [hcreated, hbefore, Option.map_eq_none_iff]
  · rw [hdeleted, hafter, Option.map_eq_none_iff]
  · rw [hbefore, hafter, hmembership hm]
  · rw [hbefore]
    exact hsome before
  · rw [hafter]
    exact hsome after
  · rw [entryOf, hbefore, hafter, hread, hread]

/-! ## The invariant -/

/-- The row a record has is at this stage. -/
def Stands (s : RecordSpecification) (entityName : String) (row : Option RecordRow) (stage : Stage Projection) :
    Prop :=
  match row with
  | some r => ∃ e p, s.entity entityName = some e ∧ Represents .sqlite e r.cells p ∧ stage = .live r.recordVersion p
  | none => stage.current = none

/-- The record's events tell its life up to the stage it is at. -/
structure Told (s : RecordSpecification) (x : Content) (k : RecordIdentity) (stage : Stage Projection) : Prop where
  recount : Recount ((x.events k).map (entryOf .sqlite)) stage
  stands : Stands s k.2.1 (x.recordRow k.1 k.2.1 k.2.2) stage

/-- **The history is faithful.** -/
structure Faithful (s : RecordSpecification) (x : Content) : Prop where
  told : ∀ k, ∃ stage, Told s x k stage
  events : ∀ h ∈ x.history, EventShape h

theorem faithful_empty (s : RecordSpecification) : Faithful s .empty where
  told _ := ⟨.absent, .nil, rfl⟩
  events _ h := absurd h List.not_mem_nil

section steps

variable {s : RecordSpecification} {x y : Content} {caller : Caller} {t : Readings} {r : Result}

/-- What leaves the records and the history as they are keeps the invariant. -/
theorem Faithful.of_same (h : Faithful s x) (hrecords : y.records = x.records) (hhistory : y.history = x.history) :
    Faithful s y where
  told k := by
    obtain ⟨stage, hrecount, hstands⟩ := h.told k
    refine ⟨stage, ?_, ?_⟩
    · rwa [Content.events, hhistory]
    · rwa [Content.recordRow, hrecords]
  events e he := h.events e (hhistory ▸ he)

/-- **One event written**: the record it is about goes on to where it now
stands, and the rows of the others are left alone. -/
theorem Faithful.record (h : Faithful s x) {e : HistoryRow} (hy : y.history = x.history ++ [e])
    (hshape : EventShape e)
    (hothers : ∀ k, k ≠ e.identity → y.recordRow k.1 k.2.1 k.2.2 = x.recordRow k.1 k.2.1 k.2.2)
    (hadvance : ∀ stage, Told s x e.identity stage → ∃ stage', Stage.Advance stage (entryOf .sqlite e) stage' ∧
      Stands s e.entityName (y.recordRow e.principalId e.entityName e.recordId) stage') : Faithful s y where
  told k := by
    obtain ⟨stage, htold⟩ := h.told k
    by_cases hk : k = e.identity
    · subst hk
      obtain ⟨stage', hstep, hstands⟩ := hadvance stage htold
      refine ⟨stage', ?_, hstands⟩
      rw [Content.events_append hy, if_pos rfl, List.map_append]
      exact htold.recount.snoc hstep
    · refine ⟨stage, ?_, ?_⟩
      · rw [Content.events_append hy, if_neg (Ne.symm hk), List.append_nil]
        exact htold.recount
      · rw [hothers k hk]
        exact htold.stands
  events e' he' := by
    rw [hy, List.mem_append, List.mem_singleton] at he'
    rcases he' with he' | rfl
    · exact h.events e' he'
    · exact hshape

/-- A change under one key is seen by the key's owner only. -/
theorem recordRow_others {p en : String} {id : Uuid}
    (hfind : ∀ key, key ≠ (en, id) → y.records.find? key = x.records.find? key)
    (hx : ∀ r, x.records.find? (en, id) = some r → r.ownerId = p)
    (hy : ∀ r, y.records.find? (en, id) = some r → r.ownerId = p) (k : RecordIdentity) (hk : k ≠ (p, en, id)) :
    y.recordRow k.1 k.2.1 k.2.2 = x.recordRow k.1 k.2.1 k.2.2 := by
  obtain ⟨p', en', id'⟩ := k
  by_cases hkey : (en', id') = (en, id)
  · obtain ⟨rfl, rfl⟩ := Prod.mk.inj hkey
    have hp : p' ≠ p := fun heq => hk (by rw [heq])
    have hnone : ∀ z : Content, (∀ r, z.records.find? (en', id') = some r → r.ownerId = p) →
        z.recordRow p' en' id' = none := fun z hz => by
      rw [Content.recordRow, Option.filter_eq_none_iff]
      intro r hr
      simpa [hz r hr] using hp.symm
    exact (hnone y hy).trans (hnone x hx).symm
  · exact Content.recordRow_of_find? (hfind _ hkey)

/-! ## The operations' parts -/

theorem buildRecord_eq_some {en via : String} {id : Uuid} {version : ℕ} {c u : Instant} {o : FrozenJsonObject}
    {v : RecordValue} (h : buildRecord en id version c u via o = some v) :
    v.entityName.1 = en ∧ v.recordId = id ∧ v.recordVersion.1 = version ∧ v.createdAt = c ∧ v.updatedAt = u ∧
      v.createdVia.1 = via ∧ v.fields = o := by
  unfold buildRecord at h
  split_ifs at h
  obtain rfl := Option.some.inj h
  exact ⟨rfl, rfl, rfl, rfl, rfl, rfl, rfl⟩

theorem decodeRecord_eq_some {b : StorageBackend} {row : RecordRow} {v : RecordValue}
    (h : decodeRecord b s row = some v) :
    decodeFields b s row.entityName row.cells = some v.fields ∧ v.entityName.1 = row.entityName ∧
      v.recordId = row.id ∧ v.recordVersion.1 = row.recordVersion := by
  obtain ⟨fields, hfields, h⟩ := Option.bind_eq_some_iff.1 h
  split_ifs at h
  obtain ⟨hentity, hid, hversion, -, -, -, hv⟩ := buildRecord_eq_some h
  exact ⟨by rw [hv]; exact hfields, hentity, hid, hversion⟩

theorem acceptFields_normalised {en : String} {o fields : FrozenJsonObject}
    (h : acceptFields s en o = some fields) : ∃ e, Normalised s en e fields := by
  unfold acceptFields at h
  split_ifs at h
  obtain ⟨e, he, -⟩ := normaliseFields_normalised h
  exact ⟨e, he⟩

/-- A record is found at the stage its events have come to, and its fields
have the projection of that stage. -/
theorem selectRecord_eq_ok {p en : String} {id : Uuid} {expected : ℕ} {v : RecordValue}
    (h : selectRecord .sqlite s p en id expected x = .ok v) :
    ∃ row, x.recordRow p en id = some row ∧ v.entityName.1 = en ∧ v.recordId = id ∧
      v.recordVersion.1 = row.recordVersion ∧ v.recordVersion.1 = expected ∧
      ∀ e q, s.entity en = some e → Represents .sqlite e row.cells q → projection v.fields = q := by
  simp only [selectRecord, bind_eq_ok, require_eq_ok, check_eq_ok, pure, Except.pure, Except.ok.injEq,
    decide_eq_true_eq] at h
  obtain ⟨row, hrow, v', hv, -, hversion, rfl⟩ := h
  obtain ⟨-, hkey, -⟩ := Content.recordRow_eq_some.1 hrow
  obtain ⟨hen, hid⟩ := Prod.mk.inj hkey
  obtain ⟨hfields, hentity, hrid, hrv⟩ := decodeRecord_eq_some hv
  subst hen hid
  exact ⟨row, hrow, hentity, hrid, hrv, hversion, fun e q he hq => hq.decodeFields he hfields⟩

/-- A record without a first event has not been created. -/
theorem Told.absent {k : RecordIdentity} {stage : Stage Projection} (h : Told s x k stage)
    (hfirst : ∀ e ∈ x.events k, e.recordVersion ≠ 1) : stage = .absent := by
  refine h.recount.eq_absent (Nat.eq_zero_of_not_pos fun hpos => ?_)
  have hversions := h.recount.versions.1
  have hmem : 1 ∈ ((x.events k).map (entryOf .sqlite)).map (·.version) := by
    rw [hversions, List.mem_range'_1]
    omega
  rw [List.map_map, List.mem_map] at hmem
  obtain ⟨e, he, hversion⟩ := hmem
  exact hfirst e he hversion

/-- A record that has a row is alive, at the version of its row. -/
theorem Told.live {k : RecordIdentity} {stage : Stage Projection} {row : RecordRow} (h : Told s x k stage)
    (hrow : x.recordRow k.1 k.2.1 k.2.2 = some row) :
    ∃ e p, s.entity k.2.1 = some e ∧ Represents .sqlite e row.cells p ∧ stage = .live row.recordVersion p := by
  have hstands := h.stands
  rw [hrow] at hstands
  exact hstands

/-! ## The operations -/

theorem createRecord_faithful {c : CreateRecordCommand} (h : Faithful s x)
    (hop : createRecord .sqlite s caller t c x = .ok (y, r)) : Faithful s y := by
  simp only [createRecord, insertRecord, appendEvent, bind_eq_ok, require_eq_ok, check_eq_ok, pure, Except.pure,
    Except.ok.injEq, Prod.mk.injEq] at hop
  obtain ⟨record, hrecord, value, hvalue, -, -, x₁, ⟨e, he, cells, hcells, hinsert⟩, x₂, happend, rfl, -⟩ := hop
  obtain ⟨hentity, hid, hversion, -, -, -, hfields⟩ := buildRecord_eq_some hvalue
  obtain ⟨e', hnormal⟩ := acceptFields_normalised hrecord
  rw [hentity] at he
  obtain rfl := Option.some.inj (hnormal.entity.symm.trans he)
  rw [hfields] at hcells
  obtain ⟨hfree, hhistory₁, hrow₁, hothers₁⟩ := Content.insertRow_eq_some hinsert
  obtain ⟨hrecords₂, hhistory₂, hfirst⟩ := Content.appendHistory_eq_some happend
  obtain ⟨hshape, hentry⟩ := @eventShape_of ⟨caller.principalId, value.entityName.1, value.recordId,
    value.recordVersion.1, .create, Option.map (snapshot .sqlite) none, Option.map (snapshot .sqlite) (some record), t.now⟩
    none (some record) rfl rfl (by simp) (by simp) (by simp [membershipEvent])
  rw [hhistory₁] at hhistory₂
  rw [← hrecords₂] at hrow₁ hothers₁
  refine h.record hhistory₂ hshape (fun k hk => recordRow_others hothers₁ (fun row hrow => ?_) (fun row hrow => ?_) k hk)
    fun stage htold => ?_
  · exact absurd (hrow.symm.trans hfree) (by simp)
  · obtain rfl := Option.some.inj (hrow.symm.trans hrow₁)
    rfl
  · obtain rfl := htold.absent fun e he => by
      rw [← hversion]
      refine hfirst e ?_
      rwa [Content.events, hhistory₁]
    refine ⟨.live 1 (projection record), ?_, ?_⟩
    · rw [hentry, hversion]
      exact .opened _
    · have hrow : x₂.recordRow caller.principalId value.entityName.1 value.recordId = some _ :=
        Content.recordRow_eq_some.2 ⟨Table.mem_of_find? hrow₁, rfl, rfl⟩
      rw [hrow]
      refine ⟨e', projection record, ?_, hnormal.represents_sqlite hcells, by rw [hversion]⟩
      rw [hentity]
      exact he

/-- The fields are those of the record's row. -/
def Knows (s : RecordSpecification) (x : Content) (k : RecordIdentity) (fields : FrozenJsonObject) : Prop :=
  ∀ row, x.recordRow k.1 k.2.1 k.2.2 = some row → ∀ e p, s.entity k.2.1 = some e →
    Represents .sqlite e row.cells p → projection fields = p

/-- **A row updated to its next version, with its event.** -/
theorem Faithful.change {p en : String} {id : Uuid} {expected version : ℕ} {now : Instant} {x₁ : Content}
    {cells : Option (List (String × SqlValue))} {kind : HistoryKind} {before after : FrozenJsonObject}
    (h : Faithful s x) (hversion : version = expected + 1)
    (hupdate : x.updateRow p en id expected version now cells = some x₁)
    (happend : x₁.appendHistory ⟨p, en, id, version, kind, some (snapshot .sqlite before),
      some (snapshot .sqlite after), now⟩ = some y)
    (hkind : kind ≠ .create ∧ kind ≠ .delete ∧ (membershipEvent kind = true → before = after))
    (hbefore : Knows s x (p, en, id) before)
    (hafter : ∀ row, x.recordRow p en id = some row → ∀ e q, s.entity en = some e →
      Represents .sqlite e row.cells q → Represents .sqlite e (cells.getD row.cells) (projection after)) :
    Faithful s y := by
  obtain ⟨row, hrow, hexpected, hhistory₁, hrow₁, hothers₁⟩ := Content.updateRow_eq_some hupdate
  obtain ⟨hrecords₂, hhistory₂, -⟩ := Content.appendHistory_eq_some happend
  obtain ⟨hmem, hkey, howner⟩ := Content.recordRow_eq_some.1 hrow
  obtain ⟨hshape, hentry⟩ := @eventShape_of ⟨p, en, id, version, kind, some (snapshot .sqlite before),
    some (snapshot .sqlite after), now⟩ (some before) (some after) rfl rfl
    (by simp [hkind.1]) (by simp [hkind.2.1]) fun hm => by rw [hkind.2.2 hm]
  rw [hhistory₁] at hhistory₂
  rw [← hrecords₂] at hrow₁ hothers₁
  refine h.record hhistory₂ hshape (fun k hk => recordRow_others hothers₁ (fun row' hrow' => ?_) (fun row' hrow' => ?_) k hk)
    fun stage htold => ?_
  · have hfind := Table.find?_of_mem hmem
    rw [hkey] at hfind
    obtain rfl := Option.some.inj (hrow'.symm.trans hfind)
    exact howner
  · obtain rfl := Option.some.inj (hrow'.symm.trans hrow₁)
    exact howner
  · obtain ⟨e, q, he, hq, rfl⟩ := htold.live hrow
    have hq' := hafter row hrow e q he hq
    refine ⟨.live version (projection after), ?_, ?_⟩
    · rw [hentry, Option.map_some, Option.map_some, hbefore row hrow e q he hq, hexpected, hversion]
      exact .changed _ _ _
    · have hrow₂ : y.recordRow p en id = some _ :=
        Content.recordRow_eq_some.2 ⟨Table.mem_of_find? hrow₁, hkey, howner⟩
      rw [hrow₂]
      exact ⟨e, _, he, hq', rfl⟩

theorem updateRecord_faithful {c : UpdateRecordCommand} (h : Faithful s x)
    (hop : updateRecord .sqlite s caller t c x = .ok (y, r)) : Faithful s y := by
  simp only [updateRecord, appendEvent, bind_eq_ok, require_eq_ok, check_eq_ok, pure, Except.pure,
    Except.ok.injEq, Prod.mk.injEq] at hop
  obtain ⟨-, -, before, hbefore, fields, hfields, -, -, after, hafter, e, he, cells, hcells, x₁, hupdate, x₂,
    happend, rfl, -⟩ := hop
  obtain ⟨row, hrow, hentity, hid, -, -, hknown⟩ := selectRecord_eq_ok hbefore
  obtain ⟨hentity', hid', hversion', -, hupdated', -, hfields'⟩ := buildRecord_eq_some hafter
  obtain ⟨o, -, haccept⟩ := Option.bind_eq_some_iff.1 hfields
  obtain ⟨e', hnormal⟩ := acceptFields_normalised haccept
  rw [hentity] at hentity'
  rw [hid] at hid'
  rw [hentity'] at he
  rw [hentity', hid', hupdated'] at hupdate
  rw [hfields'] at hcells
  obtain rfl := Option.some.inj (hnormal.entity.symm.trans he)
  rw [hentity', hid', hfields'] at happend
  refine h.change hversion' hupdate happend ⟨by simp, by simp, by simp [membershipEvent]⟩ ?_ ?_
  · intro row' hrow' e q he' hq
    obtain rfl := Option.some.inj (hrow.symm.trans hrow')
    exact hknown e q he' hq
  · intro row' hrow' e q he' hq
    obtain rfl := Option.some.inj (he.symm.trans he')
    exact hnormal.represents_sqlite hcells

theorem deleteRecord_faithful {c : DeleteRecordCommand} (h : Faithful s x)
    (hop : deleteRecord .sqlite s caller t c x = .ok (y, r)) : Faithful s y := by
  simp only [deleteRecord, appendEvent, bind_eq_ok, require_eq_ok, check_eq_ok, pure, Except.pure,
    Except.ok.injEq, Prod.mk.injEq] at hop
  obtain ⟨-, -, before, hbefore, x₁, hdelete, terminal, hterminal, x₂, happend, rfl, -⟩ := hop
  obtain ⟨row, hrow, hentity, hid, hversion, -, hknown⟩ := selectRecord_eq_ok hbefore
  obtain ⟨hentity', hid', hversion', -, -, -, -⟩ := buildRecord_eq_some hterminal
  obtain ⟨row', hrow', -, hhistory₁, hrow₁, hothers₁⟩ := Content.deleteRow_eq_some hdelete
  obtain rfl := Option.some.inj (hrow.symm.trans hrow')
  obtain ⟨hrecords₂, hhistory₂, -⟩ := Content.appendHistory_eq_some happend
  obtain ⟨hmem, hkey, howner⟩ := Content.recordRow_eq_some.1 hrow
  rw [hentity] at hentity'
  rw [hid] at hid'
  rw [hentity', hid'] at hhistory₂
  obtain ⟨hshape, hentry⟩ := @eventShape_of ⟨caller.principalId, c.entityName.1, c.recordId,
    terminal.recordVersion.1, .delete, Option.map (snapshot .sqlite) (some before.fields),
    Option.map (snapshot .sqlite) none, t.now⟩ (some before.fields) none rfl rfl (by simp) (by simp) (by simp [membershipEvent])
  rw [hhistory₁] at hhistory₂
  rw [← hrecords₂] at hrow₁ hothers₁
  refine h.record hhistory₂ hshape (fun k hk => recordRow_others hothers₁ (fun row' hrow' => ?_) (fun row' hrow' => ?_) k hk)
    fun stage htold => ?_
  · have hfind := Table.find?_of_mem hmem
    rw [hkey] at hfind
    obtain rfl := Option.some.inj (hrow'.symm.trans hfind)
    exact howner
  · exact absurd (hrow'.symm.trans hrow₁) (by simp)
  · obtain ⟨e, q, he, hq, rfl⟩ := htold.live hrow
    obtain rfl := hknown e q he hq
    refine ⟨.gone (row.recordVersion + 1), ?_, ?_⟩
    · rw [hentry, hversion', hversion]
      exact .closed _ _
    · have hnone : x₂.recordRow caller.principalId c.entityName.1 c.recordId = none := by
        rw [Content.recordRow, hrow₁]
        rfl
      rw [hnone]
      rfl

/-! ## Assignments -/

/-- What the memberships of a record become leaves records and history alone. -/
theorem applyMapping_eq_some {branch : Uuid} {role : BranchRole} {operation : AssignmentOperation}
    {k : RecordIdentity} {now : Instant} {changed : Option HistoryKind}
    (h : applyMapping branch role operation k now x = some (y, changed)) :
    y.records = x.records ∧ y.history = x.history ∧ ∀ kind ∈ changed, membershipEvent kind = true := by
  unfold applyMapping at h
  cases operation with
  | unassign =>
    dsimp only at h
    split_ifs at h
    · obtain ⟨rfl, rfl⟩ := Prod.mk.inj (Option.some.inj h)
      exact ⟨rfl, rfl, by simp⟩
    · obtain ⟨rfl, rfl⟩ := Prod.mk.inj (Option.some.inj h)
      refine ⟨rfl, rfl, ?_⟩
      rintro _ ⟨⟩
      cases role <;> rfl
  | assign =>
    cases role with
    | related =>
      dsimp only at h
      split_ifs at h
      · obtain ⟨rfl, rfl⟩ := Prod.mk.inj (Option.some.inj h)
        exact ⟨rfl, rfl, by simp⟩
      · obtain ⟨z, hz, heq⟩ := Option.map_eq_some_iff.1 h
        obtain ⟨rfl, rfl⟩ := Prod.mk.inj heq
        obtain ⟨hrecords, hhistory⟩ := Content.insertMembership_eq_some hz
        exact ⟨hrecords, hhistory, by rintro _ ⟨⟩; rfl⟩
    | primary =>
      dsimp only at h
      split_ifs at h
      all_goals first
        | obtain ⟨rfl, rfl⟩ := Prod.mk.inj (Option.some.inj h)
          exact ⟨rfl, rfl, by simp⟩
        | obtain ⟨z, hz, heq⟩ := Option.map_eq_some_iff.1 h
          obtain ⟨rfl, rfl⟩ := Prod.mk.inj heq
          obtain ⟨hrecords, hhistory⟩ := Content.insertMembership_eq_some hz
          exact ⟨hrecords, hhistory, by rintro _ ⟨⟩; rfl⟩

/-- Every row has the cells it had. -/
def SameCells (x y : Content) : Prop :=
  ∀ p en id row', y.recordRow p en id = some row' → ∃ row, x.recordRow p en id = some row ∧ row.cells = row'.cells

theorem SameCells.knows (h : SameCells x y) {k : RecordIdentity} {fields : FrozenJsonObject}
    (hx : Knows s x k fields) : Knows s y k fields := by
  intro row' hrow' e p he hp
  obtain ⟨row, hrow, hcells⟩ := h _ _ _ _ hrow'
  exact hx row hrow e p he (hcells ▸ hp)

theorem SameCells.trans {z : Content} (h : SameCells x y) (h' : SameCells y z) : SameCells x z := by
  intro p en id row'' hrow''
  obtain ⟨row', hrow', hcells'⟩ := h' _ _ _ _ hrow''
  obtain ⟨row, hrow, hcells⟩ := h _ _ _ _ hrow'
  exact ⟨row, hrow, hcells.trans hcells'⟩

theorem sameCells_of_records (h : y.records = x.records) : SameCells x y := by
  intro p en id row' hrow'
  rw [Content.recordRow, h] at hrow'
  exact ⟨row', hrow', rfl⟩

/-- An update that names no cells leaves them. -/
theorem sameCells_of_update {p en : String} {id : Uuid} {expected version : ℕ} {now : Instant}
    (h : x.updateRow p en id expected version now none = some y) : SameCells x y := by
  obtain ⟨row, hrow, -, -, hself, hothers⟩ := Content.updateRow_eq_some h
  obtain ⟨hmem, hkey, howner⟩ := Content.recordRow_eq_some.1 hrow
  intro p' en' id' row' hrow'
  by_cases hk : (en', id') = (en, id)
  · obtain ⟨rfl, rfl⟩ := Prod.mk.inj hk
    obtain ⟨hfind, howner'⟩ := Option.filter_eq_some_iff.1 hrow'
    obtain rfl := Option.some.inj (hfind.symm.trans hself)
    obtain rfl : row.ownerId = p' := by simpa using howner'
    exact ⟨row, by rw [howner]; exact hrow, rfl⟩
  · rw [Content.recordRow_of_find? (hothers _ hk)] at hrow'
    exact ⟨row', hrow', rfl⟩

/-- The identity of an assignment's target. -/
def BranchAssignmentTarget.identity (p : String) (target : BranchAssignmentTarget) : RecordIdentity :=
  (p, target.entityName.1, target.recordId)

theorem assignTarget_faithful {c : AssignBranchRecordsCommand} {target : BranchAssignmentTarget}
    {fields : FrozenJsonObject} {ref : String × Uuid × ℕ} (h : Faithful s x)
    (hknown : Knows s x (target.identity caller.principalId) fields)
    (hop : assignTarget .sqlite caller t c target fields x = .ok (y, ref)) : Faithful s y ∧ SameCells x y := by
  simp only [assignTarget, bind_eq_ok, require_eq_ok] at hop
  obtain ⟨⟨x₁, changed⟩, hmapping, hop⟩ := hop
  obtain ⟨hrecords₁, hhistory₁, hkind⟩ := applyMapping_eq_some hmapping
  have hfaithful₁ : Faithful s x₁ := h.of_same hrecords₁ hhistory₁
  have hcells₁ : SameCells x x₁ := sameCells_of_records hrecords₁
  cases changed with
  | none =>
    simp only [pure, Except.pure, Except.ok.injEq, Prod.mk.injEq] at hop
    obtain ⟨rfl, -⟩ := hop
    exact ⟨hfaithful₁, hcells₁⟩
  | some kind =>
    simp only [bind_eq_ok, require_eq_ok, pure, Except.pure, Except.ok.injEq, Prod.mk.injEq] at hop
    obtain ⟨x₂, hupdate, x₃, happend, rfl, -⟩ := hop
    have hmember := hkind kind rfl
    have hknown₁ := hcells₁.knows hknown
    refine ⟨hfaithful₁.change rfl hupdate happend ⟨?_, ?_, fun _ => rfl⟩ hknown₁ ?_, ?_⟩
    · rintro rfl
      exact absurd hmember (by simp [membershipEvent])
    · rintro rfl
      exact absurd hmember (by simp [membershipEvent])
    · intro row hrow e q he hq
      rw [hknown₁ row hrow e q he hq]
      exact hq
    · obtain ⟨hrecords₃, -, -⟩ := Content.appendHistory_eq_some happend
      exact hcells₁.trans ((sameCells_of_update hupdate).trans (sameCells_of_records hrecords₃))

theorem assignTargets_faithful {c : AssignBranchRecordsCommand} :
    ∀ {checked : List (BranchAssignmentTarget × FrozenJsonObject)} {x y : Content} {refs : List (String × Uuid × ℕ)},
      Faithful s x → (∀ pair ∈ checked, Knows s x (pair.1.identity caller.principalId) pair.2) →
      assignTargets .sqlite caller t c checked x = .ok (y, refs) → Faithful s y
  | [], x, y, refs, h, _, hop => by
    simp only [assignTargets, Except.ok.injEq, Prod.mk.injEq] at hop
    obtain ⟨rfl, -⟩ := hop
    exact h
  | (target, fields) :: rest, x, y, refs, h, hknown, hop => by
    simp only [assignTargets, bind_eq_ok, pure, Except.pure, Except.ok.injEq, Prod.mk.injEq] at hop
    obtain ⟨⟨x₁, ref⟩, hfirst, ⟨x₂, refs₂⟩, hrest, rfl, -⟩ := hop
    obtain ⟨hfaithful, hcells⟩ := assignTarget_faithful h (hknown _ List.mem_cons_self) hfirst
    exact assignTargets_faithful hfaithful
      (fun pair hpair => hcells.knows (hknown pair (List.mem_cons_of_mem _ hpair))) hrest

theorem checkTargets_knows {p : String} : ∀ {targets : List BranchAssignmentTarget}
    {checked : List (BranchAssignmentTarget × FrozenJsonObject)},
    checkTargets .sqlite s p x targets = .ok checked → ∀ pair ∈ checked, Knows s x (pair.1.identity p) pair.2
  | [], checked, h, pair, hpair => by
    obtain rfl := Except.ok.inj h
    exact absurd hpair List.not_mem_nil
  | target :: rest, checked, h, pair, hpair => by
    simp only [checkTargets, bind_eq_ok, pure, Except.pure, Except.ok.injEq] at h
    obtain ⟨fields, hfirst, checked', hrest, rfl⟩ := h
    rcases List.mem_cons.1 hpair with rfl | hpair
    · simp only [checkTarget, bind_eq_ok, require_eq_ok, check_eq_ok] at hfirst
      obtain ⟨row, hrow, -, -, hfields⟩ := hfirst
      intro row' hrow' e q he hq
      obtain rfl := Option.some.inj (hrow.symm.trans hrow')
      exact hq.recordFields he hfields
    · exact checkTargets_knows hrest pair hpair

theorem assignRecords_faithful {c : AssignBranchRecordsCommand} (h : Faithful s x)
    (hop : assignRecords .sqlite s caller t c x = .ok (y, r)) : Faithful s y := by
  simp only [assignRecords, bind_eq_ok, require_eq_ok, check_eq_ok, pure, Except.pure, Except.ok.injEq,
    Prod.mk.injEq] at hop
  obtain ⟨-, -, -, -, branch, -, -, -, checked, hchecked, ⟨x₁, refs⟩, htargets, rfl, -⟩ := hop
  exact assignTargets_faithful h (checkTargets_knows hchecked) htargets

/-! ## Branches -/

theorem createBranch_faithful {c : CreateBranchCommand} (h : Faithful s x)
    (hop : createBranch caller t c x = .ok (y, r)) : Faithful s y := by
  simp only [createBranch, bind_eq_ok, require_eq_ok, check_eq_ok, pure, Except.pure, Except.ok.injEq,
    Prod.mk.injEq] at hop
  obtain ⟨-, -, branch, -, -, -, branches, -, rfl, -⟩ := hop
  exact h.of_same rfl rfl

theorem updateBranch_faithful {c : UpdateBranchCommand} (h : Faithful s x)
    (hop : updateBranch caller t c x = .ok (y, r)) : Faithful s y := by
  simp only [updateBranch, bind_eq_ok, require_eq_ok, check_eq_ok] at hop
  obtain ⟨-, -, row, -, -, -, -, -, -, -, -, -, hop⟩ := hop
  split_ifs at hop
  · obtain ⟨rfl, -⟩ := Prod.mk.inj (Except.ok.inj hop)
    exact h
  · simp only [bind_eq_ok, require_eq_ok, pure, Except.pure, Except.ok.injEq, Prod.mk.injEq] at hop
    obtain ⟨next, -, rfl, -⟩ := hop
    exact h.of_same rfl rfl

/-- **Every operation keeps the history faithful.** -/
theorem operate_faithful {c : Command} (h : Faithful s x) (hop : operate .sqlite s caller t x c = .ok (y, r)) :
    Faithful s y := by
  cases c with
  | createRecord c => exact createRecord_faithful h hop
  | updateRecord c => exact updateRecord_faithful h hop
  | deleteRecord c => exact deleteRecord_faithful h hop
  | createBranch c => exact createBranch_faithful h hop
  | updateBranch c => exact updateBranch_faithful h hop
  | assignBranchRecords c => exact assignRecords_faithful h hop

end steps

/-! ## A specification that grows -/

/-- Every entity is there still, with every field it had, of the type it had. -/
structure Extends (s s' : RecordSpecification) : Prop where
  entity : ∀ en e, s.entity en = some e → ∃ e', s'.entity en = some e' ∧ (e'.domainFields.map (·.name)).Nodup ∧
    ∀ f ∈ e.domainFields, ∃ f' ∈ e'.domainFields, f'.name = f.name ∧ f'.type = f.type

/-- A column is read by the type of its field. -/
theorem decodeField_congr {b : StorageBackend} {f f' : RecordField} (h : f'.type = f.type) (c : SqlValue) :
    decodeField b f' c = decodeField b f c := by
  unfold decodeField
  rw [h]

/-- **A row without the new columns represents what it did.** -/
theorem Represents.extend {b : StorageBackend} {e e' : RecordEntity} {cells : List (String × SqlValue)}
    {p : Projection} (h : Represents b e cells p) (hnodup : (e'.domainFields.map (·.name)).Nodup)
    (hfields : ∀ f ∈ e.domainFields, ∃ f' ∈ e'.domainFields, f'.name = f.name ∧ f'.type = f.type) :
    Represents b e' cells p where
  columns f' hf' := by
    by_cases hold : f'.name ∈ e.domainFields.map (·.name)
    · obtain ⟨f, hf, hname⟩ := List.mem_map.1 hold
      obtain ⟨f'', hf'', hname'', htype⟩ := hfields f hf
      obtain rfl : f'' = f' := List.inj_on_of_nodup_map hnodup hf'' hf' (hname''.trans hname)
      obtain ⟨w, hw, hplain⟩ := h.columns f hf
      rw [hname''] at *
      exact ⟨w, by rw [decodeField_congr htype]; exact hw, hplain⟩
    · obtain ⟨hcell, hnull⟩ := h.others _ hold
      refine ⟨.null, ?_, hnull.symm⟩
      rw [cellOf, hcell]
      rfl
  others n hn := h.others n fun hold => by
    obtain ⟨f, hf, rfl⟩ := List.mem_map.1 hold
    obtain ⟨f', hf', hname, -⟩ := hfields f hf
    exact hn (hname ▸ List.mem_map_of_mem hf')

/-- **A specification that grows keeps the history faithful.** -/
theorem Faithful.extend {s s' : RecordSpecification} {x : Content} (h : Faithful s x) (hs : Extends s s') :
    Faithful s' x where
  told k := by
    obtain ⟨stage, hrecount, hstands⟩ := h.told k
    refine ⟨stage, hrecount, ?_⟩
    cases hrow : x.recordRow k.1 k.2.1 k.2.2 with
    | none =>
      rw [hrow] at hstands
      exact hstands
    | some row =>
      rw [hrow] at hstands
      obtain ⟨e, p, he, hp, hstage⟩ := hstands
      obtain ⟨e', he', hnodup, hfields⟩ := hs.entity _ _ he
      exact ⟨e', p, he', hp.extend hnodup hfields, hstage⟩
  events := h.events

/-! ## What a faithful history looks like -/

/-- The events of a record, one by one, and its row. -/
structure Log (s : RecordSpecification) (entityName : String) (es : List HistoryRow) (row : Option RecordRow) :
    Prop where
  versions : es.map (·.recordVersion) = List.range' 1 es.length
  create : ∀ (i : ℕ) (hi : i < es.length), es[i].eventKind = .create ↔ i = 0
  delete : ∀ (i : ℕ) (hi : i < es.length), es[i].eventKind = .delete ↔ i + 1 = es.length ∧ row = none
  linked : ∀ (i : ℕ) (hi : i + 1 < es.length),
    (entryOf .sqlite es[i + 1]).before = (entryOf .sqlite es[i]).after
  membership : ∀ h ∈ es, membershipEvent h.eventKind = true →
    (entryOf .sqlite h).before = (entryOf .sqlite h).after
  present : ∀ r ∈ row, r.recordVersion = es.length ∧ ∃ e p, s.entity entityName = some e ∧
    Represents .sqlite e r.cells p ∧ (es.getLast?.bind fun h => (entryOf .sqlite h).after) = some p ∧
      Entry.fold (es.map (entryOf .sqlite)) = some p
  absent : row = none → Entry.fold (es.map (entryOf .sqlite)) = none

theorem EventShape.before_eq_none {h : HistoryRow} (hh : EventShape h) :
    (entryOf .sqlite h).before = none ↔ h.eventKind = .create := by
  rw [hh.created, entryOf, Option.map_eq_none_iff]
  cases hb : h.beforeJson with
  | none => simp
  | some text =>
    have hsome := hh.before text hb
    simp [Option.isSome_iff_ne_none.1 hsome]

theorem EventShape.after_eq_none {h : HistoryRow} (hh : EventShape h) :
    (entryOf .sqlite h).after = none ↔ h.eventKind = .delete := by
  rw [hh.deleted, entryOf, Option.map_eq_none_iff]
  cases hb : h.afterJson with
  | none => simp
  | some text =>
    have hsome := hh.after text hb
    simp [Option.isSome_iff_ne_none.1 hsome]

/-- **A faithful history, event by event.** -/
theorem Faithful.log {s : RecordSpecification} {x : Content} (h : Faithful s x) (k : RecordIdentity) :
    Log s k.2.1 (x.events k) (x.recordRow k.1 k.2.1 k.2.2) := by
  obtain ⟨stage, hrecount, hstands⟩ := h.told k
  have hshape : ∀ e ∈ x.events k, EventShape e := fun e he => h.events e (List.mem_of_mem_filter he)
  have hlength : ((x.events k).map (entryOf .sqlite)).length = (x.events k).length := List.length_map ..
  obtain ⟨hversions, hwritten⟩ := hrecount.versions
  rw [List.map_map, hlength] at hversions
  rw [hlength] at hwritten
  -- a record with events has no row exactly when it is gone
  have hgone : x.recordRow k.1 k.2.1 k.2.2 = none ↔ stage.current = none := by
    cases hrow : x.recordRow k.1 k.2.1 k.2.2 with
    | none =>
      rw [hrow] at hstands
      exact ⟨fun _ => hstands, fun _ => rfl⟩
    | some row =>
      rw [hrow] at hstands
      obtain ⟨e, p, -, -, rfl⟩ := hstands
      simp [Stage.current]
  refine ⟨hversions, fun i hi => ?_, fun i hi => ?_, fun i hi => ?_, fun e he hm => ?_, fun row hrow => ?_,
    fun hrow => ?_⟩
  · have hbefore := hrecount.before_eq_none (i := i) (by rw [hlength]; exact hi)
    rw [List.getElem_map, (hshape _ (List.getElem_mem hi)).before_eq_none] at hbefore
    exact hbefore
  · rw [← (hshape _ (List.getElem_mem hi)).after_eq_none, hgone]
    have hi' : i < ((x.events k).map (entryOf .sqlite)).length := by rwa [hlength]
    have hmap : entryOf .sqlite (x.events k)[i] = ((x.events k).map (entryOf .sqlite))[i] :=
      (List.getElem_map ..).symm
    rw [hmap]
    constructor
    · intro hafter
      have hlast := hrecount.after_eq_none hi' hafter
      refine ⟨by rwa [hlength] at hlast, ?_⟩
      have hend := hrecount.last hlast
      rw [hafter] at hend
      exact Option.map_eq_none_iff.1 hend.symm
    · rintro ⟨hlast, hcurrent⟩
      rw [hrecount.last (by rw [hlength]; exact hlast), hcurrent, Option.map_none]
  · have hlink := hrecount.linked (i := i) (by rw [hlength]; exact hi)
    rw [List.getElem_map, List.getElem_map] at hlink
    exact hlink
  · have heq := (hshape e he).membership hm
    rw [entryOf, heq]
  · rw [Option.mem_def] at hrow
    rw [hrow] at hstands
    obtain ⟨e, p, he, hp, rfl⟩ := hstands
    refine ⟨hwritten, e, p, he, hp, ?_, hrecount.fold⟩
    have hpos : 0 < (x.events k).length := by
      rcases Nat.eq_zero_or_pos (x.events k).length with hzero | hpos
      · exact absurd (hrecount.eq_absent (by rw [hlength]; exact hzero)) (by simp)
      · exact hpos
    have hend := hrecount.last (i := (x.events k).length - 1) (by rw [hlength]; omega)
    rw [List.getElem_map] at hend
    rw [List.getLast?_eq_getElem?, List.getElem?_eq_getElem (by omega), Option.bind_some]
    exact hend
  · rw [hrecount.fold, hgone.1 hrow, Option.map_none]

end Data

end Aipcs

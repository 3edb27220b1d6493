import Aipcs.Data.Evidence

/-!
# Data — when PostgreSQL gives a record back

Create and update return the record as it was given, normalised. What is
stored gives it back, by a replay, by the history and by a plain get, just
where its numbers are kept by `jsonb` and its datetimes spelled as the
store spells them. An update depends on the record it finds as well: its
projection before the update goes through `jsonb` too.
-/

namespace Aipcs

namespace Data

open Manifest Portable Relational Records Registry Store.Mutating

/-- What is stored of the record gives back what was first returned: the
replay, the projections of its last event, and a plain get. -/
structure Recalled (s : RecordSpecification) (x : Content) (principalId : String) (v : RecordValue)
    (before : Option FrozenJsonObject) : Prop where
  replay : ((recordResult v).bind fun doc => recordResultDecode s (storeJson .postgresql doc)) = some v
  history : (((x.events (principalId, v.entityName.1, v.recordId)).getLast?.bind (historyEvent s)).map
    fun e => (e.before, e.after)) = some (before, some v.fields)
  get : (x.recordRow principalId v.entityName.1 v.recordId).bind (decodeRecord .postgresql s) = some v

section parts

variable {s : RecordSpecification} {entityName : String} {e : RecordEntity} {o fields before updates : FrozenJsonObject}
  {cells : List (String × SqlValue)} {x y : Content} {v : RecordValue} {p : String}

/-! ## Accepted fields -/

/-- What is accepted is normalised, field by field. -/
theorem acceptFields_eq_some (h : acceptFields s entityName o = some fields) :
    ∃ e, Normalised s entityName e fields ∧
      ∀ f ∈ e.domainFields, normaliseValue f (fieldValue o f) = fields.get? f.name := by
  unfold acceptFields at h
  split_ifs at h
  exact normaliseFields_normalised h

theorem toFloat_eq_some {i : ℤ} {r : FiniteFloat} (h : toFloat i = some r) :
    r.1 = Binary64.ofSignedDecimal (decide (i < 0)) i.natAbs 0 := by
  unfold toFloat at h
  dsimp only at h
  split_ifs at h
  obtain rfl := Option.some.inj h
  rfl

theorem get?_of_fieldValue {f : RecordField} {w : PortableJson} (h : fieldValue o f = w) (hw : w ≠ .null) :
    o.get? f.name = some w := by
  unfold fieldValue at h
  cases hget : o.get? f.name with
  | none =>
    rw [hget] at h
    exact absurd h.symm hw
  | some w' =>
    rw [hget] at h
    exact congrArg some h

section normalising

variable (hnormalised : ∀ f ∈ e.domainFields, normaliseValue f (fieldValue o f) = fields.get? f.name)

include hnormalised

/-- Normalising brings in no number that `jsonb` does not keep. -/
theorem allKept_iff : AllKept e fields ↔ AllKept e o := by
  constructor
  · intro h f hf r hr
    refine h f hf r ?_
    rw [← hnormalised f hf, fieldValue, hr]
    rfl
  · intro h f hf r hr
    rw [← hnormalised f hf] at hr
    cases hv : fieldValue o f with
    | float r' =>
      rw [hv] at hr
      obtain rfl := PortableJson.float.inj (Option.some.inj hr)
      exact h f hf r' (get?_of_fieldValue hv (by simp))
    | int i =>
      rw [hv, normaliseValue] at hr
      split_ifs at hr with htype hexact
      · obtain ⟨r', hr', heq⟩ := Option.map_eq_some_iff.1 hr
        obtain rfl := PortableJson.float.inj heq
        exact kept_of_exact hexact (toFloat_eq_some hr')
      · exact absurd (Option.some.inj hr) (by simp)
    | _ =>
      rw [hv] at hr
      exact absurd (Option.some.inj hr) (by simp)

/-- Normalising leaves the datetimes as they are. -/
theorem allSpelled_iff : AllSpelled e fields ↔ AllSpelled e o := by
  constructor
  · intro h f hf htype text htext
    refine h f hf htype text ?_
    rw [← hnormalised f hf, fieldValue, htext]
    rfl
  · intro h f hf htype text htext
    rw [← hnormalised f hf] at htext
    cases hv : fieldValue o f with
    | str text' =>
      rw [hv] at htext
      obtain rfl := PortableJson.str.inj (Option.some.inj htext)
      exact h f hf htype text' (get?_of_fieldValue hv (by simp))
    | int i =>
      rw [hv, normaliseValue, htype, if_neg (by simp)] at htext
      exact absurd (Option.some.inj htext) (by simp)
    | _ =>
      rw [hv] at htext
      exact absurd (Option.some.inj htext) (by simp)

end normalising

/-- A merged object has the values that are updated, and else those before. -/
theorem mergeFields_eq_some (h : mergeFields before updates = some o) :
    (∀ n w, updates.get? n = some w → o.get? n = some w) ∧
      ∀ n w, o.get? n = some w → updates.get? n = some w ∨ before.get? n = some w := by
  obtain ⟨hnodup, hget⟩ := fromMapping_eq_some h
  have hmem : ∀ n w, o.get? n = some w ↔ (n, w) ∈ before.entries.map (fun q => (q.1, (updates.get? q.1).getD q.2)) ++
      updates.entries.filter fun q => !before.names.contains q.1 := fun n w => by
    rw [hget, lookup_eq_some_iff_mem hnodup]
  refine ⟨fun n w hw => (hmem n w).2 ?_, fun n w hw => ?_⟩
  · by_cases hn : n ∈ before.names
    · obtain ⟨q, hq, rfl⟩ := List.mem_map.1 hn
      exact List.mem_append_left _ (List.mem_map.2 ⟨q, hq, by rw [hw, Option.getD_some]⟩)
    · refine List.mem_append_right _ (List.mem_filter.2 ⟨(lookup_eq_some_iff_mem updates.nodup_names).1 hw, ?_⟩)
      simpa using hn
  · rcases List.mem_append.1 ((hmem n w).1 hw) with hmap | hfilter
    · obtain ⟨q, hq, heq⟩ := List.mem_map.1 hmap
      obtain ⟨rfl, rfl⟩ := Prod.mk.inj heq
      cases hu : updates.get? q.1 with
      | some w =>
        left
        rw [Option.getD_some]
      | none =>
        right
        rw [Option.getD_none]
        exact (lookup_eq_some_iff_mem before.nodup_names).2 hq
    · exact .inl ((lookup_eq_some_iff_mem updates.nodup_names).2 (List.mem_of_mem_filter hfilter))

/-- A row that PostgreSQL has given back is spelled by the store. -/
theorem allSpelled_of_decodeFields (h : decodeFields .postgresql s entityName cells = some fields) (he : s.entity entityName = some e) :
    AllSpelled e fields := by
  intro f hf htype text htext
  obtain ⟨o, ho, hnormal⟩ := Option.bind_eq_some_iff.1 h
  obtain ⟨e', he', values, hvalues, hmapping, -⟩ := recordFields_eq_some.1 ho
  obtain rfl := Option.some.inj (he.symm.trans he')
  obtain ⟨-, hvalue, -⟩ := get?_of_collect hvalues hmapping
  obtain ⟨w, hw, hget⟩ := hvalue f hf
  obtain ⟨e', he', hnormalised⟩ := normaliseFields_normalised hnormal
  obtain rfl := Option.some.inj (he.symm.trans he'.entity)
  have hback := hnormalised f hf
  rw [fieldValue, hget, Option.getD_some, htext] at hback
  cases hc : cellOf cells f.name <;> rw [hc] at hw <;> simp only [decodeField, htype, reduceCtorEq, if_false] at hw
  case null =>
    obtain rfl := Option.some.inj hw
    exact absurd (Option.some.inj hback) (by simp)
  case timestamp t =>
    obtain rfl := Option.some.inj hw
    obtain rfl := PortableJson.str.inj (Option.some.inj hback)
    exact spelled_isoText t

/-! ## The three ways back -/

/-- A plain get gives the record where the row's fields are read as they were. -/
theorem decodeRecord_iff {row : RecordRow} (hversion : v.recordVersion.1 ≤ MAX_REVISION)
    (hrow : row = ⟨v.entityName.1, v.recordId, p, v.createdAt, v.updatedAt, v.createdVia.1, v.recordVersion.1, cells⟩) :
    decodeRecord .postgresql s row = some v ↔ decodeFields .postgresql s v.entityName.1 cells = some v.fields := by
  subst hrow
  constructor
  · intro h
    exact (decodeRecord_eq_some h).1
  · intro h
    rw [decodeRecord, h, Option.bind_eq_bind, Option.bind_some, if_pos hversion, buildRecord_self]

/-- The history gives the projections where their documents are read as they were. -/
theorem historyEvent_iff {h : HistoryRow} {before : Option FrozenJsonObject} (hentity : h.entityName = v.entityName.1)
    (hversion : h.recordVersion = v.recordVersion.1 ∧ v.recordVersion.1 ≤ MAX_REVISION)
    (hkind : (h.eventKind = .create → before = none) ∧ h.eventKind ≠ .delete)
    (hbefore : h.beforeJson = before.map (snapshot .postgresql))
    (hafter : h.afterJson = some (snapshot .postgresql v.fields)) :
    ((historyEvent s h).map fun e => (e.before, e.after)) = some (before, some v.fields) ↔
      (∀ b ∈ before, (jsonbStyle.read b.value).bind (readFields s v.entityName.1) = some b) ∧
        (jsonbStyle.read v.fields.value).bind (readFields s v.entityName.1) = some v.fields := by
  have hread : ∀ b : Option FrozenJsonObject,
      readSnapshotFields s v.entityName.1 (b.map (snapshot .postgresql)) = some b ↔
        ∀ b' ∈ b, (jsonbStyle.read b'.value).bind (readFields s v.entityName.1) = some b' := by
    rintro (_ | b)
    · simp [readSnapshotFields]
    · rw [Option.map_some, readSnapshotFields_snapshot]
      simp only [Option.mem_some_iff, forall_eq']
      cases (jsonbStyle.read b.value).bind (readFields s v.entityName.1) <;> simp
  have hvalid : isIdentifier h.entityName = true ∧ 1 ≤ h.recordVersion ∧ h.recordVersion ≤ MAX_REVISION ∧
      (h.eventKind = .create → before.isNone = true ∧ (some v.fields).isSome = true) ∧
      (h.eventKind = .delete → before.isSome = true ∧ (some v.fields).isNone = true) := by
    rw [hentity, hversion.1]
    refine ⟨v.entityName.2, v.recordVersion.2, hversion.2, fun hcreate => ⟨?_, rfl⟩, fun hdelete => absurd hdelete hkind.2⟩
    rw [hkind.1 hcreate, Option.isNone_none]
  have hafter' : h.afterJson = (some v.fields).map (snapshot .postgresql) := hafter
  rw [← hread before, ← hentity, ← hbefore]
  have hlast := hread (some v.fields)
  simp only [Option.mem_some_iff, forall_eq'] at hlast
  rw [← hentity, ← hafter'] at hlast
  rw [← hlast]
  constructor
  · intro hevent
    obtain ⟨event, hevent, heq⟩ := Option.map_eq_some_iff.1 hevent
    obtain ⟨before', hbefore', hevent⟩ := Option.bind_eq_some_iff.1 hevent
    obtain ⟨after', hafter'', hevent⟩ := Option.bind_eq_some_iff.1 hevent
    split_ifs at hevent
    obtain rfl := Option.some.inj hevent
    obtain ⟨rfl, rfl⟩ := Prod.mk.inj heq
    exact ⟨hbefore', hafter''⟩
  · rintro ⟨hbefore', hafter''⟩
    rw [historyEvent, hbefore', hafter'', Option.bind_eq_bind, Option.bind_some, Option.bind_some, dif_pos hvalid,
      Option.map_some]

/-- **What is recalled of a record that has been written.** -/
theorem recalled_iff {row : RecordRow} {h : HistoryRow} {before : Option FrozenJsonObject}
    (hfields : Normalised s v.entityName.1 e v.fields) (hbefores : ∀ b ∈ before, Normalised s v.entityName.1 e b)
    (hversion : v.recordVersion.1 ≤ MAX_REVISION) (hcells : encodeFields .postgresql e v.fields = some cells)
    (hrow : x.recordRow p v.entityName.1 v.recordId = some row)
    (hrow' : row = ⟨v.entityName.1, v.recordId, p, v.createdAt, v.updatedAt, v.createdVia.1, v.recordVersion.1, cells⟩)
    (hlast : (x.events (p, v.entityName.1, v.recordId)).getLast? = some h) (hentity : h.entityName = v.entityName.1)
    (hnumber : h.recordVersion = v.recordVersion.1)
    (hkind : (h.eventKind = .create → before = none) ∧ h.eventKind ≠ .delete)
    (hbefore : h.beforeJson = before.map (snapshot .postgresql))
    (hafter : h.afterJson = some (snapshot .postgresql v.fields)) :
    Recalled s x p v before ↔ (∀ b ∈ before, AllKept e b) ∧ AllKept e v.fields ∧ AllSpelled e v.fields := by
  obtain ⟨doc, hdoc⟩ : ∃ doc, recordResult v = some doc := by
    rw [recordResult, dif_pos hversion]
    exact ⟨_, rfl⟩
  have hreplay := recordResultDecode_iff (s := s) hdoc
  rw [hfields.readFields_iff] at hreplay
  have hhistory := historyEvent_iff (s := s) hentity ⟨hnumber, hversion⟩ hkind hbefore hafter
  rw [hfields.readFields_iff] at hhistory
  have hget := decodeRecord_iff (s := s) hversion hrow'
  rw [hfields.decodeFields_postgresql hcells] at hget
  constructor
  · rintro ⟨h₁, h₂, h₃⟩
    rw [hlast, Option.bind_some] at h₂
    rw [hrow, Option.bind_some] at h₃
    obtain ⟨hb, hk⟩ := hhistory.1 h₂
    exact ⟨fun b hb' => ((hbefores b hb').readFields_iff).1 (hb b hb'), hk, hget.1 h₃⟩
  · rintro ⟨hb, hk, hspelled⟩
    refine ⟨?_, ?_, ?_⟩
    · rw [hdoc, Option.bind_some]
      exact hreplay.2 hk
    · rw [hlast, Option.bind_some]
      exact hhistory.2 ⟨fun b hb' => ((hbefores b hb').readFields_iff).2 (hb b hb'), hk⟩
    · rw [hrow, Option.bind_some]
      exact hget.2 hspelled

/-! ## The two operations -/

variable {caller : Caller} {t : Readings}

theorem getLast?_events (k : RecordIdentity) {h : HistoryRow} (hy : y.history = x.history ++ [h])
    (hk : h.identity = k) : (y.events k).getLast? = some h := by
  rw [Content.events_append hy, if_pos hk, List.getLast?_concat]

theorem createRecord_recalled {c : CreateRecordCommand}
    (h : createRecord .postgresql s caller t c x = .ok (y, .record v)) :
    ∃ e, s.entity c.entityName.1 = some e ∧
      (Recalled s y caller.principalId v none ↔ AllKept e c.record ∧ AllSpelled e c.record) := by
  simp only [createRecord, insertRecord, appendEvent, bind_eq_ok, require_eq_ok, check_eq_ok, pure, Except.pure,
    Except.ok.injEq, Prod.mk.injEq, Result.record.injEq] at h
  obtain ⟨fields, haccept, v', hvalue, -, -, x₁, ⟨e, he, cells, hcells, hinsert⟩, x₂, happend, rfl, rfl⟩ := h
  obtain ⟨hentity, hid, hversion, -, -, -, rfl⟩ := buildRecord_eq_some hvalue
  obtain ⟨e', hnormal, hnormalised⟩ := acceptFields_eq_some haccept
  rw [hentity] at he
  obtain rfl := Option.some.inj (hnormal.entity.symm.trans he)
  obtain ⟨-, hhistory₁, hrow₁, -⟩ := Content.insertRow_eq_some hinsert
  obtain ⟨hrecords₂, hhistory₂, -⟩ := Content.appendHistory_eq_some happend
  rw [← hrecords₂] at hrow₁
  refine ⟨e', hnormal.entity, ?_⟩
  rw [← hentity] at hnormal
  rw [← allKept_iff hnormalised, ← allSpelled_iff hnormalised]
  refine (recalled_iff hnormal (fun b hb => absurd hb (by simp)) ?_ hcells
    (Content.recordRow_eq_some.2 ⟨Table.mem_of_find? hrow₁, rfl, rfl⟩) rfl (getLast?_events _ hhistory₂ rfl) rfl rfl
    ⟨fun _ => rfl, by simp⟩ rfl rfl).trans ⟨fun hb => hb.2, fun hb => ⟨fun b hb' => absurd hb' (by simp), hb⟩⟩
  rw [hversion]
  decide

/-- What a decoded record has of its row besides its fields. -/
theorem decodeRecord_origin {b : StorageBackend} {row : RecordRow} (h : decodeRecord b s row = some v) :
    v.createdAt = row.createdAt ∧ v.createdVia.1 = row.createdVia := by
  obtain ⟨fields, -, h⟩ := Option.bind_eq_some_iff.1 h
  split_ifs at h
  obtain ⟨-, -, -, hcreated, -, hvia, -⟩ := buildRecord_eq_some h
  exact ⟨hcreated, hvia⟩

theorem updateRecord_recalled {c : UpdateRecordCommand}
    (h : updateRecord .postgresql s caller t c x = .ok (y, .record v)) :
    ∃ e before, s.entity c.entityName.1 = some e ∧
      (x.recordRow caller.principalId c.entityName.1 c.recordId).bind (decodeRecord .postgresql s) = some before ∧
      (Recalled s y caller.principalId v (some before.fields) ↔
        AllKept e before.fields ∧ AllKept e c.updates ∧ AllSpelled e c.updates) := by
  simp only [updateRecord, selectRecord, appendEvent, bind_eq_ok, require_eq_ok, check_eq_ok, pure, Except.pure,
    Except.ok.injEq, Prod.mk.injEq, Result.record.injEq, Bool.and_eq_true, decide_eq_true_eq] at h
  obtain ⟨-, ⟨hbound, -⟩, before, ⟨row, hrow, before', hdecode, -, hexpected, rfl⟩, fields, hfields, -, -, after,
    hafter, e, he, cells, hcells, x₁, hupdate, x₂, happend, rfl, rfl⟩ := h
  obtain ⟨hentity, hid, hversion, hcreated, hupdated, hvia, rfl⟩ := buildRecord_eq_some hafter
  obtain ⟨o, hmerge, haccept⟩ := Option.bind_eq_some_iff.1 hfields
  obtain ⟨e', hnormal, hnormalised⟩ := acceptFields_eq_some haccept
  obtain ⟨hdecoded, hentity', hid', -⟩ := decodeRecord_eq_some hdecode
  obtain ⟨hcreated', hvia'⟩ := decodeRecord_origin hdecode
  obtain ⟨-, hkey, howner⟩ := Content.recordRow_eq_some.1 hrow
  obtain ⟨hen, hrid⟩ := Prod.mk.inj hkey
  obtain ⟨_, -, hnormal'⟩ := Option.bind_eq_some_iff.1 hdecoded
  obtain ⟨e'', hbefore, -⟩ := normaliseFields_normalised hnormal'
  -- the record is the one of the command, before and after
  rw [hentity', hen] at hentity
  rw [hid', hrid] at hid
  rw [hen] at hbefore hdecoded
  rw [hentity] at he
  obtain rfl := Option.some.inj (hnormal.entity.symm.trans he)
  obtain rfl := Option.some.inj (hnormal.entity.symm.trans hbefore.entity)
  obtain ⟨row', hrow', -, hhistory₁, hrow₁, -⟩ := Content.updateRow_eq_some hupdate
  rw [hentity, hid] at hrow'
  obtain rfl := Option.some.inj (hrow.symm.trans hrow')
  obtain ⟨hrecords₂, hhistory₂, -⟩ := Content.appendHistory_eq_some happend
  rw [← hrecords₂, hentity, hid] at hrow₁
  rw [hhistory₁] at hhistory₂
  refine ⟨e', before', hnormal.entity, by rw [hrow]; exact hdecode, ?_⟩
  have hspelled := allSpelled_of_decodeFields hdecoded hnormal.entity
  obtain ⟨hupdates, hmerged⟩ := mergeFields_eq_some hmerge
  rw [← hentity] at hnormal hbefore
  have hrow₂ := Content.recordRow_eq_some.2 ⟨Table.mem_of_find? hrow₁, hkey, howner⟩
  rw [← hentity, ← hid] at hrow₂
  have hbefores : ∀ b ∈ some before'.fields, Normalised s after.entityName.1 e' b := fun b hb => by
    obtain rfl := Option.some.inj hb
    exact hbefore
  refine (recalled_iff hnormal hbefores (by omega) hcells hrow₂ ?_ (getLast?_events _ hhistory₂ rfl) rfl rfl
    ⟨by simp, by simp⟩ rfl rfl).trans ?_
  · rw [hentity, hid, hcreated, hcreated', hvia, hvia', ← hen, ← hrid, ← howner]
    rfl
  · rw [allKept_iff hnormalised, allSpelled_iff hnormalised]
    simp only [Option.mem_some_iff, forall_eq']
    constructor
    · rintro ⟨hb, hk, hs⟩
      exact ⟨hb, fun f hf r hr => hk f hf r (hupdates _ _ hr),
        fun f hf htype text htext => hs f hf htype text (hupdates _ _ htext)⟩
    · rintro ⟨hb, hk, hs⟩
      refine ⟨hb, fun f hf r hr => ?_, fun f hf htype text htext => ?_⟩
      · rcases hmerged _ _ hr with hu | hbefore'
        · exact hk f hf r hu
        · exact hb f hf r hbefore'
      · rcases hmerged _ _ htext with hu | hbefore'
        · exact hs f hf htype text hu
        · exact hspelled f hf htype text hbefore'

end parts

/-- **What PostgreSQL gives back.** A replay, the history and a plain get
give what a create or an update first returned just where every number
given is below `10¹⁶` in magnitude and not `-0.0`, and every datetime given
is spelled as the store spells it; of an update, where the numbers of the
record it found were such, too. -/
theorem evidence_recalled {s : RecordSpecification} {caller : Caller} {t : Readings} {x y : Content} {v : RecordValue} :
    (∀ c, createRecord .postgresql s caller t c x = .ok (y, .record v) →
      ∃ e, s.entity c.entityName.1 = some e ∧
        (Recalled s y caller.principalId v none ↔ AllKept e c.record ∧ AllSpelled e c.record)) ∧
    ∀ c, updateRecord .postgresql s caller t c x = .ok (y, .record v) →
      ∃ e before, s.entity c.entityName.1 = some e ∧
        (x.recordRow caller.principalId c.entityName.1 c.recordId).bind (decodeRecord .postgresql s) = some before ∧
        (Recalled s y caller.principalId v (some before.fields) ↔
          AllKept e before.fields ∧ AllKept e c.updates ∧ AllSpelled e c.updates) :=
  ⟨fun _ h => createRecord_recalled h, fun _ h => updateRecord_recalled h⟩

/-! ## Two measurements -/

namespace Measured

def measurements : RecordSpecification := compileRecordSpecification
  { schemaVersion := 1
    entities := [{
      name := "measurement"
      attributes := SERVER_MANAGED_FIELDS ++ [{ name := "taken_at", type := .datetime }, { name := "value", type := .number }] }]
    valid := by decide }

def alice : Caller := ⟨"alice", "cli"⟩

def readings : Readings := ⟨default, ⟨22, by decide, by decide⟩⟩

/-- `1.0`. -/
def one : FiniteFloat := ⟨Binary64.ofSignedDecimal false 1 0, by decide +kernel⟩

/-- `10000000000000000.0`. -/
def large : FiniteFloat := ⟨Binary64.ofSignedDecimal false 1 16, by decide +kernel⟩

def measureOne : CreateRecordCommand where
  entityName := ⟨"measurement", by decide⟩
  record := ⟨[("taken_at", .str "2024-02-29T23:59:59Z"), ("value", .float one)], by decide +kernel⟩

def measureLarge : CreateRecordCommand where
  entityName := ⟨"measurement", by decide⟩
  record := ⟨[("value", .float large)], by decide +kernel⟩

def created (c : CreateRecordCommand) : Except DataFailureCode (Content × Result) :=
  createRecord .postgresql measurements alice readings c .empty

/-- The record that has been created. -/
def recordOf : Except DataFailureCode (Content × Result) → Option RecordValue
  | .ok (_, .record v) => some v
  | _ => none

theorem created_eq {c : CreateRecordCommand} (h : (recordOf (created c)).isSome = true) :
    ∃ y v, created c = .ok (y, .record v) := by
  match hr : created c with
  | .ok (y, .record v) => exact ⟨y, v, rfl⟩
  | .ok (_, .deleted ..) => simp [hr, recordOf] at h
  | .ok (_, .branch _) => simp [hr, recordOf] at h
  | .ok (_, .assignment _) => simp [hr, recordOf] at h
  | .error _ => simp [hr, recordOf] at h

end Measured

open Measured in
/-- A small measurement is given back. -/
theorem evidence_recalled_one : ∃ y v, created measureOne = .ok (y, .record v) ∧
    Recalled measurements y "alice" v none := by
  obtain ⟨y, v, h⟩ := created_eq (c := measureOne) (by decide +kernel)
  obtain ⟨e, -, hiff⟩ := evidence_recalled.1 _ h
  refine ⟨y, v, h, hiff.2 ⟨fun f _ r hr => ?_, fun f _ _ text htext => ?_⟩⟩
  · have hmem := (lookup_eq_some_iff_mem measureOne.record.nodup_names).1 hr
    obtain ⟨-, rfl⟩ : f.name = "value" ∧ r = one := by simpa [measureOne] using hmem
    exact ⟨by decide +kernel, by decide +kernel⟩
  · have hmem := (lookup_eq_some_iff_mem measureOne.record.nodup_names).1 htext
    obtain ⟨-, rfl⟩ : f.name = "taken_at" ∧ text = "2024-02-29T23:59:59Z" := by simpa [measureOne] using hmem
    decide +kernel

open Measured in
/-- A large one is accepted, and its replay finds a result that it cannot read. -/
theorem large_not_recalled : ∃ y v, created measureLarge = .ok (y, .record v) ∧
    ((recordResult v).bind fun doc => recordResultDecode measurements (storeJson .postgresql doc)) = none ∧
    ¬ Recalled measurements y "alice" v none := by
  obtain ⟨y, v, h⟩ := created_eq (c := measureLarge) (by decide +kernel)
  have hnone : ((recordOf (created measureLarge)).bind recordResult |>.bind fun doc =>
      recordResultDecode measurements (storeJson .postgresql doc)).isNone = true := by decide +kernel
  rw [h, Option.isNone_iff_eq_none] at hnone
  have hreplay : ((recordResult v).bind fun doc => recordResultDecode measurements (storeJson .postgresql doc)) = none :=
    hnone
  exact ⟨y, v, h, hreplay, fun hr => absurd (hreplay.symm.trans hr.replay) (by simp)⟩

end Data

end Aipcs

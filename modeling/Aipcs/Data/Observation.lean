import Aipcs.Common.Sorting
import Aipcs.Data.Returned
import Aipcs.Data.StagingOrder

/-!
# Data — what an observation of a staged store finds

After a staging, and before an import is completed, the store is observed:
its snapshot is read again and compared, as Python compares, with the
members that were staged. A staging that went through is observed as such
just where every member is given back in its place (`observe_iff`), which
the members that a store of the same kind has given always are
(`observe_moved`).
-/

namespace Aipcs

namespace Data

open Manifest Portable Relational Records Registry

deriving instance DecidableEq for BranchValue

/-! ## Python's equality of members -/

def equalRecords (v w : RecordValue) : Bool :=
  v.entityName = w.entityName && v.recordId = w.recordId && v.recordVersion = w.recordVersion &&
    v.createdAt = w.createdAt && v.updatedAt = w.updatedAt && v.createdVia = w.createdVia &&
    equalFields v.fields w.fields

def equalOptional : Option FrozenJsonObject → Option FrozenJsonObject → Bool
  | none, none => true
  | some o, some p => equalFields o p
  | _, _ => false

def equalEvents (g h : RecordHistoryEvent) : Bool :=
  g.entityName = h.entityName && g.recordId = h.recordId && g.recordVersion = h.recordVersion && g.kind = h.kind &&
    g.occurredAt = h.occurredAt && equalOptional g.before h.before && equalOptional g.after h.after

/-- `==` of two members. -/
def equalMembers : PortableStoreMember → PortableStoreMember → Bool
  | .record v, .record w => equalRecords v w
  | .history g, .history h => equalEvents g h
  | .branch v, .branch w => v = w
  | .branchMembership v, .branchMembership w => v = w
  | _, _ => false

/-- `observe`, of a store whose fence is the one expected. -/
def observeMembers (b : StorageBackend) (m : ManifestV2) (collate : String → String → Bool) (principalId : String)
    (members : List PortableStoreMember) (x : Content) : Bool :=
  validatePortableMembers members (compileRecordSpecification m) &&
    (snapshotMembers b (compileRecordSpecification m) collate principalId x).any fun read =>
      listEqual equalMembers read members

/-- The collation of a text column: an order of its texts. -/
@[mk_iff]
structure Collation (collate : String → String → Bool) : Prop where
  total : ∀ g h, collate g h = true ∨ collate h g = true
  trans : ∀ g h k, collate g h = true → collate h k = true → collate g k = true
  antisymm : ∀ g h, collate g h = true → collate h g = true → g = h

section lists

variable {α β γ : Type} {equal : α → α → Bool} {l l' : List α} {written : α → β → Prop} {decode : β → Option γ}
  {rel : γ → α → Prop} {Given : α → Prop} {values : List α} {rows : List β}

theorem listEqual_iff : listEqual equal l l' = true ↔ List.Forall₂ (fun a b => equal a b = true) l l' := by
  induction l generalizing l' with
  | nil => cases l' <;> simp [listEqual]
  | cons a l ih => cases l' <;> simp [listEqual, List.forall₂_cons, ih]

/-- **Rows that are read one by one** give their values back where each does. -/
theorem mapM_given_iff (h : List.Forall₂ written values rows)
    (hone : ∀ v ∈ values, ∀ r, written v r → ((∃ w, decode r = some w ∧ rel w v) ↔ Given v)) :
    (∃ read, rows.mapM decode = some read ∧ List.Forall₂ rel read values) ↔ ∀ v ∈ values, Given v := by
  induction h with
  | nil => exact ⟨fun _ v hv => absurd hv List.not_mem_nil, fun _ => ⟨[], rfl, .nil⟩⟩
  | @cons v r values rows hvr hrest ih =>
    have ih := ih fun w hw => hone w (List.mem_cons_of_mem _ hw)
    rw [List.forall_mem_cons, ← ih, ← hone v List.mem_cons_self r hvr]
    simp only [List.mapM_cons, Option.bind_eq_bind, Option.bind_eq_some_iff]
    constructor
    · rintro ⟨read, ⟨w, hw, rest, hrest', heq⟩, hread⟩
      obtain rfl := Option.some.inj heq
      obtain ⟨hwv, hread⟩ := List.forall₂_cons.1 hread
      exact ⟨⟨w, hw, hwv⟩, rest, hrest', hread⟩
    · rintro ⟨⟨w, hw, hwv⟩, rest, hrest', hread⟩
      exact ⟨w :: rest, ⟨w, hw, rest, hrest', rfl⟩, .cons hwv hread⟩

theorem map_eq_of_forall₂ {κ : Type} {f : α → κ} {g : β → κ} {rel : α → β → Prop} {l : List α} {l' : List β}
    (h : List.Forall₂ rel l l') (hkey : ∀ a b, rel a b → f a = g b) : l.map f = l'.map g := by
  induction h with
  | nil => rfl
  | cons hab _ ih => rw [List.map_cons, List.map_cons, hkey _ _ hab, ih]

theorem pairwise_of_forall₂ {rel : α → β → Prop} {r : α → α → Prop} {r' : β → β → Prop} {l : List α} {l' : List β}
    (h : List.Forall₂ rel l l') (hl : l.Pairwise r)
    (hrel : ∀ a b a' b', rel a b → rel a' b' → r a a' → r' b b') : l'.Pairwise r' := by
  induction h with
  | nil => exact .nil
  | @cons a b l l' hab hrest ih =>
    obtain ⟨hhead, htail⟩ := List.pairwise_cons.1 hl
    refine List.pairwise_cons.2 ⟨fun b' hb' => ?_, ih htail⟩
    obtain ⟨a', ha', hab'⟩ := exists_of_forall₂ hrest.flip hb'
    exact hrel a b a' b' hab hab' (hhead a' ha')

end lists

/-! ## One record, one event -/

section one

variable {b : StorageBackend} {m : ManifestV2} {s : RecordSpecification} {p : String} {e : RecordEntity} {v w : RecordValue}
  {g h : RecordHistoryEvent} {q : RecordRow}

/-- **A record is given back** where its fields are. -/
theorem decodeRecord_equal_iff (hvalid : validateCreate (compileRecordSpecification m) v.entityName.1 v.fields = true)
    (hversion : v.recordVersion.1 ≤ MAX_REVISION) (hq : recordRowOf b m p v = some q) :
    (∃ w, decodeRecord b (compileRecordSpecification m) q = some w ∧ equalRecords w v = true) ↔
      ∀ e, (compileRecordSpecification m).entity v.entityName.1 = some e →
        AllGiven (decide (b = .sqlite)) e v.fields ∧ (b = .postgresql → AllSpelled e v.fields) := by
  simp only [recordRowOf, Option.bind_eq_bind, Option.bind_eq_some_iff] at hq
  obtain ⟨e, he, cells, hcells, hq⟩ := hq
  obtain rfl := Option.some.inj hq
  have hfields := decodeFields_equal_iff hvalid he hcells
  constructor
  · rintro ⟨w, hw, hequal⟩ e' he'
    obtain rfl := Option.some.inj (he.symm.trans he')
    obtain ⟨hdecode, -⟩ := decodeRecord_eq_some hw
    exact hfields.1 ⟨_, hdecode, (Bool.and_eq_true_iff.1 hequal).2⟩
  · intro hgiven
    obtain ⟨fields, hdecode, hequal⟩ := hfields.2 (hgiven e he)
    have hdomain : fields.names.all (fun n => !serverManaged n) = true := by
      rw [(equalFields_iff.1 hequal).1]
      exact v.domain
    refine ⟨⟨v.entityName, v.recordId, v.recordVersion, v.createdAt, v.updatedAt, v.createdVia, fields, v.ordered,
      hdomain⟩, ?_, by simp [equalRecords, hequal]⟩
    rw [decodeRecord, hdecode, Option.bind_eq_bind, Option.bind_some, if_pos hversion, buildRecord,
      dif_pos ⟨v.entityName.2, v.recordVersion.2, v.createdVia.2, v.ordered, hdomain⟩]

/-- The snapshots of an event are read as its documents are. -/
theorem readSnapshotFields_optional_iff {o : Option FrozenJsonObject} {entityName : String}
    (hvalid : ∀ o' ∈ o, validateCreate s entityName o' = true) (he : s.entity entityName = some e) :
    (∃ q, readSnapshotFields s entityName (o.map (snapshot b)) = some q ∧ equalOptional q o = true) ↔
      ∀ o' ∈ o, AllGiven (decide (b = .postgresql)) e o' ∧ (b = .postgresql → AllBelow e o') := by
  cases o with
  | none => exact ⟨fun _ o' ho' => absurd ho' (Option.not_mem_none _), fun _ => ⟨none, rfl, rfl⟩⟩
  | some o =>
    simp only [Option.mem_some_iff, forall_eq', ← readSnapshotFields_equal_iff (hvalid o rfl) he, Option.map_some]
    constructor
    · rintro ⟨q, hq, hequal⟩
      cases q with
      | none => exact absurd hequal (by simp [equalOptional])
      | some p => exact ⟨p, hq, hequal⟩
    · rintro ⟨p, hp, hequal⟩
      exact ⟨some p, hp, hequal⟩

theorem equalOptional_isNone {o o' : Option FrozenJsonObject} (h : equalOptional o o' = true) :
    o.isNone = o'.isNone ∧ o.isSome = o'.isSome := by
  cases o <;> cases o' <;> simp_all [equalOptional]

/-- A document that the store has written is one that it reads. -/
theorem decodeSnapshot_snapshot {o : Option FrozenJsonObject} {entityName : String} :
    decodeSnapshot b s entityName (o.map (snapshot b)) = readSnapshotFields s entityName (o.map (snapshot b)) := by
  refine if_neg ?_
  rintro ⟨rfl, hany⟩
  cases o with
  | none => exact absurd hany (by simp)
  | some o =>
    have hload : loadJson .sqlite (storeJson .sqlite o.value) = some (.obj o.entries) := loadJson_storeJson_sqlite o.frozen
    rw [Option.map_some, Option.any_some, snapshot, hload] at hany
    exact absurd hany (by simp)

/-- **An event is given back** where its documents are; SQLite asks an update
for both. -/
theorem decodeHistory_equal_iff (hvalid : validMember s (.history h) = true) (hversion : h.recordVersion.1 ≤ MAX_REVISION)
    (he : s.entity h.entityName.1 = some e) :
    (∃ g, decodeHistory b s (historyRowOf b p h) = some g ∧ equalEvents g h = true) ↔
      (∀ o, h.before = some o ∨ h.after = some o →
        AllGiven (decide (b = .postgresql)) e o ∧ (b = .postgresql → AllBelow e o)) ∧
      (b = .sqlite → h.kind = .update → h.before.isSome = true ∧ h.after.isSome = true) := by
  rw [validMember, Bool.and_eq_true, Bool.and_eq_true, validSnapshot, validSnapshot, Option.all_eq_true,
    Option.all_eq_true] at hvalid
  have hbefore := @readSnapshotFields_optional_iff b s e h.before h.entityName.1 hvalid.1.2 he
  have hafter := @readSnapshotFields_optional_iff b s e h.after h.entityName.1 hvalid.2 he
  have hread : (∀ o, h.before = some o ∨ h.after = some o →
        AllGiven (decide (b = .postgresql)) e o ∧ (b = .postgresql → AllBelow e o)) ↔
      (∃ q, readSnapshotFields s h.entityName.1 (h.before.map (snapshot b)) = some q ∧ equalOptional q h.before = true) ∧
      ∃ q, readSnapshotFields s h.entityName.1 (h.after.map (snapshot b)) = some q ∧ equalOptional q h.after = true := by
    rw [hbefore, hafter]
    exact ⟨fun hall => ⟨fun o ho => hall o (.inl ho), fun o ho => hall o (.inr ho)⟩,
      fun hall o ho => ho.elim (hall.1 o) (hall.2 o)⟩
  rw [hread]
  constructor
  · rintro ⟨g, hg, hequal⟩
    simp only [decodeHistory, historyRowOf, decodeSnapshot_snapshot, Option.bind_eq_bind, Option.bind_eq_some_iff] at hg
    obtain ⟨before, hb, after, ha, hg⟩ := hg
    obtain ⟨hnot, hevent⟩ := Option.ite_none_left_eq_some.1 hg
    simp only [historyEvent, hb, ha, Option.bind_eq_bind, Option.bind_some] at hevent
    split_ifs at hevent with hshape
    obtain rfl := Option.some.inj hevent
    simp only [equalEvents, Bool.and_eq_true] at hequal
    obtain ⟨⟨-, hequal⟩, hequal'⟩ := hequal
    refine ⟨⟨⟨before, hb, hequal⟩, after, ha, hequal'⟩, ?_⟩
    rintro rfl hkind
    have hsides : before ≠ none ∧ after ≠ none := by simpa [he, hkind] using hnot
    rw [← (equalOptional_isNone hequal).2, ← (equalOptional_isNone hequal').2]
    exact ⟨Option.isSome_iff_ne_none.2 hsides.1, Option.isSome_iff_ne_none.2 hsides.2⟩
  · rintro ⟨⟨⟨before, hb, hequal⟩, after, ha, hequal'⟩, hsides⟩
    obtain ⟨hnone, hsome⟩ := equalOptional_isNone hequal
    obtain ⟨hnone', hsome'⟩ := equalOptional_isNone hequal'
    have hshape : isIdentifier h.entityName.1 = true ∧ 1 ≤ h.recordVersion.1 ∧ h.recordVersion.1 ≤ MAX_REVISION ∧
        (h.kind = .create → before.isNone = true ∧ after.isSome = true) ∧
        (h.kind = .delete → before.isSome = true ∧ after.isNone = true) := by
      refine ⟨h.entityName.2, h.recordVersion.2, hversion, fun hkind => ?_, fun hkind => ?_⟩
      · obtain ⟨hcreated, hcreated'⟩ := h.created hkind
        rw [hnone, hsome', hcreated]
        exact ⟨rfl, hcreated'⟩
      · obtain ⟨hdeleted, hdeleted'⟩ := h.deleted hkind
        rw [hsome, hnone', hdeleted']
        exact ⟨hdeleted, rfl⟩
    have hnot : ¬ (b = .sqlite ∧ ((s.entity h.entityName.1).isNone = true ∨
        h.kind = .update ∧ (before.isNone = true ∨ after.isNone = true))) := by
      rintro ⟨rfl, hbad | ⟨hkind, hbad⟩⟩
      · rw [he] at hbad
        exact absurd hbad (by simp)
      · obtain ⟨hs, hs'⟩ := hsides rfl hkind
        rw [← hsome] at hs
        rw [← hsome'] at hs'
        rcases hbad with hbad | hbad
        · cases before <;> simp_all
        · cases after <;> simp_all
    refine ⟨⟨h.entityName, h.recordId, h.recordVersion, h.kind, h.occurredAt, before, after,
      fun hkind => (hshape.2.2.2.1 hkind).imp_left Option.isNone_iff_eq_none.1,
      fun hkind => (hshape.2.2.2.2 hkind).imp_right Option.isNone_iff_eq_none.1⟩, ?_, by simp [equalEvents, hequal, hequal']⟩
    simp only [decodeHistory, historyRowOf, decodeSnapshot_snapshot, hb, ha, Option.bind_eq_bind, Option.bind_some]
    refine (if_neg hnot).trans ?_
    simp only [historyEvent, hb, ha, Option.bind_eq_bind, Option.bind_some]
    exact dif_pos hshape

end one

/-! ## Sections -/

section sections

variable {members read : List PortableStoreMember}

/-- Where a section stands. -/
def rank : PortableStoreMember → ℕ
  | .record _ => 0
  | .history _ => 1
  | .branch _ => 2
  | .branchMembership _ => 3

theorem rank_le_of_lt {a t : PortableStoreMember} (h : a.sortKey < t.sortKey) : rank a ≤ rank t := by
  have hrank : ∀ a : PortableStoreMember, a.sortKey.1 = rank a := fun a => by cases a <;> rfl
  rw [← hrank, ← hrank]
  rcases Prod.Lex.lt_iff.1 h with hlt | ⟨heq, -⟩
  · exact le_of_lt hlt
  · exact le_of_eq heq

/-- **Sorted members** are their sections, one after the other. -/
theorem eq_sections (h : members.Pairwise fun a t => rank a ≤ rank t) :
    members = (recordsOf members).map .record ++ (historiesOf members).map .history ++
      (branchesOf members).map .branch ++ (membershipsOf members).map .branchMembership := by
  induction members with
  | nil => rfl
  | cons a rest ih =>
    obtain ⟨hhead, hrest⟩ := List.pairwise_cons.1 h
    have hrecords : 0 < rank a → recordsOf rest = [] := fun hpos => List.filterMap_eq_nil_iff.2 fun t ht => by
      have hle := hhead t ht
      cases t <;> first | rfl | exact absurd hle (not_le_of_gt hpos)
    have hhistories : 1 < rank a → historiesOf rest = [] := fun hpos => List.filterMap_eq_nil_iff.2 fun t ht => by
      have hle := hhead t ht
      cases t <;> first | rfl | exact absurd hle (not_le_of_gt (by rw [rank]; omega))
    have hbranches : 2 < rank a → branchesOf rest = [] := fun hpos => List.filterMap_eq_nil_iff.2 fun t ht => by
      have hle := hhead t ht
      cases t <;> first | rfl | exact absurd hle (not_le_of_gt (by rw [rank]; omega))
    have ih := congrArg (a :: ·) (ih hrest)
    cases a with
    | record v => exact ih
    | history v =>
      have hnil := hrecords (by simp [rank])
      have hnil' : recordsOf (.history v :: rest) = [] := hnil
      rw [hnil] at ih
      rw [hnil']
      exact ih
    | branch v =>
      have hnil := hrecords (by simp [rank])
      have hnil' : recordsOf (.branch v :: rest) = [] := hnil
      have hhist := hhistories (by simp [rank])
      have hhist' : historiesOf (.branch v :: rest) = [] := hhist
      rw [hnil, hhist] at ih
      rw [hnil', hhist']
      exact ih
    | branchMembership v =>
      have hnil := hrecords (by simp [rank])
      have hnil' : recordsOf (.branchMembership v :: rest) = [] := hnil
      have hhist := hhistories (by simp [rank])
      have hhist' : historiesOf (.branchMembership v :: rest) = [] := hhist
      have hbranch := hbranches (by simp [rank])
      have hbranch' : branchesOf (.branchMembership v :: rest) = [] := hbranch
      rw [hnil, hhist, hbranch] at ih
      rw [hnil', hhist', hbranch']
      exact ih

/-- Members that equal others are theirs, section by section. -/
theorem sections_of_equal (h : List.Forall₂ (fun a t => equalMembers a t = true) read members) :
    List.Forall₂ (fun v w => equalRecords v w = true) (recordsOf read) (recordsOf members) ∧
      List.Forall₂ (fun g h => equalEvents g h = true) (historiesOf read) (historiesOf members) ∧
      branchesOf read = branchesOf members ∧ membershipsOf read = membershipsOf members := by
  induction h with
  | nil => exact ⟨.nil, .nil, rfl, rfl⟩
  | @cons a t read members hat hrest ih =>
    obtain ⟨hrecords, hhistories, hbranches, hmemberships⟩ := ih
    cases a <;> cases t <;> simp only [equalMembers, Bool.false_eq_true, decide_eq_true_eq] at hat
    · exact ⟨.cons hat hrecords, hhistories, hbranches, hmemberships⟩
    · exact ⟨hrecords, .cons hat hhistories, hbranches, hmemberships⟩
    · exact ⟨hrecords, hhistories, congrArg₂ List.cons hat hbranches, hmemberships⟩
    · exact ⟨hrecords, hhistories, hbranches, congrArg₂ List.cons hat hmemberships⟩

end sections

/-! ## The rows in the order they are read -/

section rows

variable {b : StorageBackend} {m : ManifestV2} {p : String} {at_ : Instant} {members : List PortableStoreMember}
  {x y : Content} {collate : String → String → Bool} {v w : RecordValue} {q : RecordRow}

theorem recordRowOf_shape (hq : recordRowOf b m p v = some q) :
    (∃ e, (compileRecordSpecification m).entity v.entityName.1 = some e) ∧ q.entityName = v.entityName.1 ∧
      q.id = v.recordId ∧ q.ownerId = p := by
  simp only [recordRowOf, Option.bind_eq_bind, Option.bind_eq_some_iff] at hq
  obtain ⟨e, he, cells, -, hq⟩ := hq
  obtain rfl := Option.some.inj hq
  exact ⟨⟨e, he⟩, rfl, rfl, rfl⟩

/-- Entities stand in the order of their names. -/
theorem pairwise_entities (m : ManifestV2) : (compileRecordSpecification m).entities.Pairwise fun e d => e.name < d.name := by
  have hsorted : (recordEntities m).Pairwise fun e d => e.name ≤ d.name := by
    rw [recordEntities, List.pairwise_map]
    exact List.pairwise_insertionSort _ _
  have hnodup := nodup_recordEntities (m := m)
  rw [List.Nodup, List.pairwise_map] at hnodup
  exact (hsorted.and hnodup).imp fun h => lt_of_le_of_ne h.1 h.2

/-- A record's place in its snapshot. -/
def RecordRow.place (q : RecordRow) : String ×ₗ String := toLex (q.entityName, q.id.hex)

/-- The rows of records are read in the order of their places. -/
theorem pairwise_recordRows (m : ManifestV2) (p : String) (x : Content) :
    ((compileRecordSpecification m).entities.flatMap (recordRowsOf x p)).Pairwise fun q r => q.place < r.place := by
  rw [List.pairwise_flatMap]
  constructor
  · intro e _
    have hsorted : (recordRowsOf x p e).Pairwise fun q r => q.id.hex ≤ r.id.hex := List.pairwise_insertionSort _ _
    have hkeyed : (recordRowsOf x p e).Pairwise fun q r => q.key ≠ r.key := by
      have hnodup := x.records.keyed.sublist ((List.filter_sublist
        (p := fun r => r.entityName = e.name && decide (r.ownerId = p))).map RecordRow.key)
      rw [← ((List.perm_insertionSort (fun q r : RecordRow => q.id.hex ≤ r.id.hex) _).map RecordRow.key).nodup_iff] at hnodup
      exact List.pairwise_map.1 hnodup
    refine (hsorted.and hkeyed).imp_of_mem fun {q r} hq hr h => ?_
    obtain ⟨-, hname, -⟩ := mem_recordRowsOf.1 hq
    obtain ⟨-, hname', -⟩ := mem_recordRowsOf.1 hr
    refine Prod.Lex.toLex_lt_toLex.2 (.inr ⟨hname.trans hname'.symm, lt_of_le_of_ne h.1 fun heq => h.2 ?_⟩)
    rw [RecordRow.key, RecordRow.key, hname, hname', Uuid.hex_injective heq]
  · refine (pairwise_entities m).imp fun {e d} hlt q hq r hr => ?_
    obtain ⟨-, hname, -⟩ := mem_recordRowsOf.1 hq
    obtain ⟨-, hname', -⟩ := mem_recordRowsOf.1 hr
    exact Prod.Lex.toLex_lt_toLex.2 (.inl (by rwa [hname, hname']))

theorem forall₂_filterMap {α β : Type} {f : α → Option β} {l : List α} (h : ∀ v ∈ l, (f v).isSome = true) :
    List.Forall₂ (fun v r => f v = some r) l (l.filterMap f) := by
  induction l with
  | nil => exact .nil
  | cons v rest ih =>
    obtain ⟨r, hr⟩ := Option.isSome_iff_exists.1 (h v List.mem_cons_self)
    rw [List.filterMap_cons, hr]
    exact .cons hr (ih fun w hw => h w (List.mem_cons_of_mem _ hw))

/-- **The records of a staging** are read from the rows they were written to, in their order. -/
theorem StagedRows.records_read (hy : StagedRows b m p at_ members y) (hchecked : Checked members) :
    List.Forall₂ (fun v q => recordRowOf b m p v = some q) (recordsOf members)
      ((compileRecordSpecification m).entities.flatMap (recordRowsOf y p)) := by
  have hwritten := forall₂_filterMap fun v hv => hy.written v (mem_recordsOf.1 hv)
  have hplaces : ((recordsOf members).filterMap (recordRowOf b m p)).Pairwise fun q r => q.place < r.place := by
    refine List.Pairwise.filterMap _ (fun v w hvw q hq r hr => ?_)
      (hchecked.pairwise (r := fun v w => toLex (v.entityName.1, v.recordId.hex) < toLex (w.entityName.1, w.recordId.hex))
        fun a t v w hv hw hlt => ?_)
    · obtain ⟨-, hname, hid, -⟩ := recordRowOf_shape hq
      obtain ⟨-, hname', hid', -⟩ := recordRowOf_shape hr
      rwa [RecordRow.place, RecordRow.place, hname, hid, hname', hid']
    · cases a <;> simp only [reduceCtorEq, Option.some.injEq] at hv
      cases t <;> simp only [reduceCtorEq, Option.some.injEq] at hw
      subst hv hw
      simp only [PortableStoreMember.sortKey, Prod.Lex.toLex_lt_toLex, lt_irrefl, true_and, false_or, and_false,
        or_false] at hlt ⊢
      exact hlt
  have hsame : (compileRecordSpecification m).entities.flatMap (recordRowsOf y p) =
      (recordsOf members).filterMap (recordRowOf b m p) := by
    have hread := pairwise_recordRows m p y
    refine List.Perm.eq_of_pairwise (fun q r _ _ hqr hrq => absurd hqr (lt_asymm hrq)) hread hplaces ?_
    refine (List.perm_ext_iff_of_nodup (hread.imp fun h => fun heq => ?_) (hplaces.imp fun h => fun heq => ?_)).2 fun q => ?_
    · exact absurd (heq ▸ h) (lt_irrefl _)
    · exact absurd (heq ▸ h) (lt_irrefl _)
    · rw [List.mem_flatMap, List.mem_filterMap]
      constructor
      · rintro ⟨e, -, hq⟩
        obtain ⟨v, hv, hrow⟩ := (hy.records q).1 (mem_recordRowsOf.1 hq).1
        exact ⟨v, mem_recordsOf.2 hv, hrow⟩
      · rintro ⟨v, hv, hrow⟩
        obtain ⟨⟨e, he⟩, hname, -, howner⟩ := recordRowOf_shape hrow
        obtain ⟨hmem, hename⟩ := RecordSpecification.entity_eq_some he
        exact ⟨e, hmem, mem_recordRowsOf.2 ⟨(hy.records q).2 ⟨v, mem_recordsOf.1 hv, hrow⟩, hname.trans hename.symm, howner⟩⟩
  rw [hsame]
  exact hwritten

/-! ### Branches -/

/-- **The branches of a staging** are read in their order. -/
theorem StagedRows.branches_read (hy : StagedRows b m p at_ members y) (hchecked : Checked members) :
    y.branchRows p = (branchesOf members).map fun v => ⟨p, v⟩ := by
  have hplaces : (branchesOf members).Pairwise fun v w => v.branchId.hex < w.branchId.hex := by
    refine hchecked.pairwise fun a t v w hv hw hlt => ?_
    cases a <;> simp only [reduceCtorEq, Option.some.injEq] at hv
    cases t <;> simp only [reduceCtorEq, Option.some.injEq] at hw
    subst hv hw
    simp only [PortableStoreMember.sortKey, Prod.Lex.toLex_lt_toLex, lt_irrefl, true_and, false_or, and_false,
      or_false] at hlt
    exact hlt
  have hmem : ∀ r, r ∈ (y.branches.rows.filter fun r => r.principalId = p) ↔
      r ∈ (branchesOf members).map fun v => (⟨p, v⟩ : BranchRow) := fun r => by
    rw [List.mem_filter, hy.branches r, List.mem_map, decide_eq_true_eq]
    constructor
    · rintro ⟨⟨v, hv, rfl⟩, -⟩
      exact ⟨v, hv, rfl⟩
    · rintro ⟨v, hv, rfl⟩
      exact ⟨⟨v, hv, rfl⟩, rfl⟩
  have hnodup : ((branchesOf members).map fun v => (⟨p, v⟩ : BranchRow)).Nodup := by
    rw [List.Nodup, List.pairwise_map]
    refine hplaces.imp fun {v w} hlt heq => ?_
    obtain ⟨-, rfl⟩ := BranchRow.mk.inj heq
    exact lt_irrefl _ hlt
  rw [Content.branchRows]
  refine Sorting.insertionSort_eq (fun v w => le_total _ _) (fun v w u => le_trans)
    ((List.perm_ext_iff_of_nodup (y.branches.keyed.of_map.filter _) hnodup).2 hmem) ?_ fun v hv w hw hvw hwv => ?_
  · rw [List.pairwise_map]
    exact hplaces.imp fun hlt => Uuid.hex_le_iff.1 (le_of_lt hlt)
  · obtain ⟨v, hmemv, rfl⟩ := List.mem_map.1 hv
    obtain ⟨w, hmemw, rfl⟩ := List.mem_map.1 hw
    have hid : v.branchId = w.branchId := Uuid.int_injective (le_antisymm hvw hwv)
    rw [List.inj_on_of_nodup_map hchecked.distinct hmemv hmemw hid]

theorem mapM_map_some {α β : Type} {f : α → β} {decode : β → Option α} {l : List α}
    (h : ∀ a ∈ l, decode (f a) = some a) : (l.map f).mapM decode = some l := by
  induction l with
  | nil => rfl
  | cons a rest ih =>
    rw [List.map_cons, List.mapM_cons, h a List.mem_cons_self, ih fun v hv => h v (List.mem_cons_of_mem _ hv)]
    rfl

theorem StagedRows.branches_decoded (hy : StagedRows b m p at_ members y) (hchecked : Checked members) :
    (y.branchRows p).mapM decodeBranch = some (branchesOf members) := by
  rw [hy.branches_read hchecked]
  exact mapM_map_some fun v hv => if_pos (hy.revisions v hv)

/-! ### Events and memberships -/

theorem Collation.of_backend (h : Collation collate) : Collation (collation b collate) := by
  cases b with
  | sqlite =>
    have hle : ∀ g h, collation .sqlite collate g h = true ↔ g ≤ h := fun g h => by simp [collation]
    simp only [collation_iff, hle]
    exact ⟨le_total, fun g h k => le_trans, fun g h => le_antisymm⟩
  | postgresql => exact h

/-- By id, in the order of their texts, and then by what is left. -/
def IdThenBy {α : Type} (id : α → Uuid) (rest : α → α → Prop) : α → α → Prop :=
  Sorting.ThenBy id (fun i j => i.hex ≤ j.hex) rest

instance {α : Type} {id : α → Uuid} {rest : α → α → Prop} [DecidableRel rest] : DecidableRel (IdThenBy id rest) :=
  inferInstanceAs (DecidableRel (Sorting.ThenBy id (fun i j => i.hex ≤ j.hex) rest))

theorem IdThenBy.total {α : Type} {id : α → Uuid} {rest : α → α → Prop} (h : ∀ a b, rest a b ∨ rest b a) (a b : α) :
    IdThenBy id rest a b ∨ IdThenBy id rest b a :=
  Sorting.ThenBy.total (fun _ _ => le_total _ _) h a b

theorem IdThenBy.trans {α : Type} {id : α → Uuid} {rest : α → α → Prop}
    (h : ∀ a b c, rest a b → rest b c → rest a c) (a b c : α) (hab : IdThenBy id rest a b) (hbc : IdThenBy id rest b c) :
    IdThenBy id rest a c := by
  refine Sorting.ThenBy.trans (fun i j k hij hjk => ?_) (fun i j hij hji => ?_) h a b c hab hbc
  · exact le_trans hij hjk
  · exact Uuid.hex_injective (le_antisymm hij hji)

theorem IdThenBy.antisymm {α : Type} {id : α → Uuid} {rest : α → α → Prop} {a b : α} (hab : IdThenBy id rest a b)
    (hba : IdThenBy id rest b a) : id a = id b ∧ rest a b ∧ rest b a := by
  refine Sorting.ThenBy.antisymm (fun i j hij hji => ?_) hab hba
  exact Uuid.hex_injective (le_antisymm hij hji)

/-- The order the events are read in. -/
def EventLe (collate : String → String → Bool) : HistoryRow → HistoryRow → Prop :=
  Sorting.ThenBy HistoryRow.entityName (fun g h => collate g h = true)
    (IdThenBy HistoryRow.recordId fun q r => q.recordVersion ≤ r.recordVersion)

instance (collate : String → String → Bool) : DecidableRel (EventLe collate) :=
  inferInstanceAs (DecidableRel (Sorting.ThenBy HistoryRow.entityName (fun g h => collate g h = true)
    (IdThenBy HistoryRow.recordId fun q r => q.recordVersion ≤ r.recordVersion)))

theorem EventLe.total (h : Collation collate) (q r : HistoryRow) : EventLe collate q r ∨ EventLe collate r q :=
  Sorting.ThenBy.total h.total (IdThenBy.total fun _ _ => le_total _ _) q r

theorem EventLe.trans (h : Collation collate) (q r s : HistoryRow) (hqr : EventLe collate q r)
    (hrs : EventLe collate r s) : EventLe collate q s := by
  unfold EventLe at *
  refine Sorting.ThenBy.trans h.trans h.antisymm (fun q r s => ?_) q r s hqr hrs
  exact IdThenBy.trans (fun q r s (hqr : q.recordVersion ≤ r.recordVersion) hrs => hqr.trans hrs) q r s

/-- The order the memberships are read in. -/
def MembershipLe (collate : String → String → Bool) : MembershipRow → MembershipRow → Prop :=
  IdThenBy MembershipRow.branchId (Sorting.ThenBy MembershipRow.entityName (fun g h => collate g h = true)
    (IdThenBy MembershipRow.recordId fun q r => q.role.value ≤ r.role.value))

instance (collate : String → String → Bool) : DecidableRel (MembershipLe collate) :=
  inferInstanceAs (DecidableRel (IdThenBy MembershipRow.branchId
    (Sorting.ThenBy MembershipRow.entityName (fun g h => collate g h = true)
      (IdThenBy MembershipRow.recordId fun q r => q.role.value ≤ r.role.value))))

theorem MembershipLe.total (h : Collation collate) (q r : MembershipRow) :
    MembershipLe collate q r ∨ MembershipLe collate r q :=
  IdThenBy.total (Sorting.ThenBy.total h.total (IdThenBy.total fun _ _ => le_total _ _)) q r

theorem MembershipLe.trans (h : Collation collate) (q r s : MembershipRow) (hqr : MembershipLe collate q r)
    (hrs : MembershipLe collate r s) : MembershipLe collate q s := by
  unfold MembershipLe at *
  refine IdThenBy.trans (fun q r s => ?_) q r s hqr hrs
  refine Sorting.ThenBy.trans h.trans h.antisymm (fun q r s => ?_) q r s
  exact IdThenBy.trans (fun q r s (hqr : q.role.value ≤ r.role.value) hrs => hqr.trans hrs) q r s

theorem MembershipLe.antisymm (h : Collation collate) {q r : MembershipRow} (hqr : MembershipLe collate q r)
    (hrq : MembershipLe collate r q) :
    q.branchId = r.branchId ∧ q.entityName = r.entityName ∧ q.recordId = r.recordId := by
  unfold MembershipLe at hqr hrq
  obtain ⟨hbranch, hqr, hrq⟩ := IdThenBy.antisymm hqr hrq
  obtain ⟨hname, hqr, hrq⟩ := Sorting.ThenBy.antisymm h.antisymm hqr hrq
  exact ⟨hbranch, hname, (IdThenBy.antisymm hqr hrq).1⟩

/-- Names that stand in the order of their characters stand so in the collation. -/
def Collates (collate : String → String → Bool) (g h : String) : Prop := g ≤ h → collate g h = true

theorem eventLe_iff {g h : RecordHistoryEvent} :
    EventLe collate (historyRowOf b p g) (historyRowOf b p h) ↔
      if g.entityName.1 = h.entityName.1 then
        if g.recordId = h.recordId then g.recordVersion.1 ≤ h.recordVersion.1 else g.recordId.hex ≤ h.recordId.hex
      else collate g.entityName.1 h.entityName.1 = true := Iff.rfl

/-- **The events are read in their order** just where the collation agrees with it. -/
theorem histories_sorted_iff (b : StorageBackend) (p : String) (hcollate : Collation collate) (hchecked : Checked members) :
    ((historiesOf members).map (historyRowOf b p)).Pairwise (EventLe collate) ↔
      ∀ g ∈ historiesOf members, ∀ h ∈ historiesOf members, Collates collate g.entityName.1 h.entityName.1 := by
  have hsorted : (historiesOf members).Pairwise fun g h =>
      toLex (g.entityName.1, toLex (g.recordId.hex, g.recordVersion.1)) <
        toLex (h.entityName.1, toLex (h.recordId.hex, h.recordVersion.1)) := by
    refine hchecked.pairwise fun a t v w hv hw hlt => ?_
    cases a <;> simp only [reduceCtorEq, Option.some.injEq] at hv
    cases t <;> simp only [reduceCtorEq, Option.some.injEq] at hw
    subst hv hw
    simp only [PortableStoreMember.sortKey, Prod.Lex.toLex_lt_toLex, lt_irrefl, true_and, false_or, and_false,
      or_false] at hlt ⊢
    exact hlt
  rw [List.pairwise_map]
  constructor
  · intro hread g hg h hh hle
    rcases hle.lt_or_eq with hlt | heq
    · have hne : g.entityName.1 ≠ h.entityName.1 := ne_of_lt hlt
      rcases Sorting.rel_of_pairwise (hread.and hsorted) hg hh with rfl | ⟨hrel, -⟩ | ⟨-, hback⟩
      · exact absurd rfl hne
      · rwa [eventLe_iff, if_neg hne] at hrel
      · rcases Prod.Lex.toLex_lt_toLex.1 hback with hback | ⟨heq, -⟩
        · exact absurd hlt (lt_asymm hback)
        · exact absurd heq.symm hne
    · rw [heq]
      exact (hcollate.total _ _).elim id id
  · intro hagrees
    refine hsorted.imp_of_mem fun {g h} hg hh hlt => ?_
    rcases Prod.Lex.toLex_lt_toLex.1 hlt with hname | ⟨hname, hrest⟩
    · have hne : g.entityName.1 ≠ h.entityName.1 := ne_of_lt hname
      rw [eventLe_iff, if_neg hne]
      exact hagrees g hg h hh (le_of_lt hname)
    · have hsame : g.entityName.1 = h.entityName.1 := hname
      rw [eventLe_iff, if_pos hsame]
      rcases Prod.Lex.toLex_lt_toLex.1 hrest with hid | ⟨hid, hversion⟩
      · rw [if_neg fun heq => ne_of_lt hid (congrArg Uuid.hex heq)]
        exact le_of_lt hid
      · have hids : g.recordId = h.recordId := Uuid.hex_injective hid
        rw [if_pos hids]
        exact le_of_lt hversion

theorem StagedRows.historyRowsOf_eq (hy : StagedRows b m p at_ members y) :
    historyRowsOf y p collate =
      ((historiesOf members).map (historyRowOf b p)).insertionSort (EventLe collate) := by
  have hall : (y.history.filter fun h => h.principalId = p) = (historiesOf members).map (historyRowOf b p) := by
    rw [hy.history, List.filter_eq_self]
    intro h hh
    obtain ⟨g, -, rfl⟩ := List.mem_map.1 hh
    exact decide_eq_true rfl
  rw [historyRowsOf, hall]
  rfl

/-- What an event's row says of where it stands. -/
theorem decodeHistory_place {s : RecordSpecification} {r : HistoryRow} {g : RecordHistoryEvent}
    (h : decodeHistory b s r = some g) :
    g.entityName.1 = r.entityName ∧ g.recordId = r.recordId ∧ g.recordVersion.1 = r.recordVersion := by
  simp only [decodeHistory, Option.bind_eq_bind, Option.bind_eq_some_iff] at h
  obtain ⟨before, -, after, -, h⟩ := h
  obtain ⟨-, hevent⟩ := Option.ite_none_left_eq_some.1 h
  simp only [historyEvent, Option.bind_eq_bind, Option.bind_eq_some_iff] at hevent
  obtain ⟨before, -, after, -, hevent⟩ := hevent
  split_ifs at hevent
  obtain rfl := Option.some.inj hevent
  exact ⟨rfl, rfl, rfl⟩

/-- What an event's row says of its documents. -/
theorem decodeHistory_documents {s : RecordSpecification} {r : HistoryRow} {g : RecordHistoryEvent}
    (h : decodeHistory b s r = some g) : readSnapshotFields s g.entityName.1 r.beforeJson = some g.before ∧
      readSnapshotFields s g.entityName.1 r.afterJson = some g.after ∧
      (b = .sqlite → g.kind = .update → g.before.isSome = true ∧ g.after.isSome = true) := by
  simp only [decodeHistory, Option.bind_eq_bind, Option.bind_eq_some_iff] at h
  obtain ⟨before, hbefore, after, hafter, h⟩ := h
  have hread : readSnapshotFields s r.entityName r.beforeJson = some before := (Option.ite_none_left_eq_some.1 hbefore).2
  have hread' : readSnapshotFields s r.entityName r.afterJson = some after := (Option.ite_none_left_eq_some.1 hafter).2
  obtain ⟨hnot, hevent⟩ := Option.ite_none_left_eq_some.1 h
  simp only [historyEvent, hread, hread', Option.bind_eq_bind, Option.bind_some] at hevent
  split_ifs at hevent with hshape
  obtain rfl := Option.some.inj hevent
  refine ⟨hread, hread', ?_⟩
  rintro rfl hkind
  have hsides : ¬ (before.isNone = true ∨ after.isNone = true) := fun hnone => hnot ⟨rfl, .inr ⟨hkind, hnone⟩⟩
  cases before <;> cases after <;> simp_all

/-- The place of an event. -/
def HistoryRow.place (r : HistoryRow) : String × Uuid × ℕ := (r.entityName, r.recordId, r.recordVersion)

/-- **Events that are read as those staged** are read from their rows in the
order of the members. -/
theorem StagedRows.historyRowsOf_of_read {s : RecordSpecification} {read : List RecordHistoryEvent}
    (hy : StagedRows b m p at_ members y) (hchecked : Checked members)
    (hread : (historyRowsOf y p collate).mapM (decodeHistory b s) = some read)
    (hequal : List.Forall₂ (fun g h => equalEvents g h = true) read (historiesOf members)) :
    historyRowsOf y p collate = (historiesOf members).map (historyRowOf b p) := by
  have hplaces : ((historiesOf members).map fun h => (h.entityName.1, h.recordId, h.recordVersion.1)).Nodup := by
    rw [List.Nodup, List.pairwise_map]
    refine hchecked.pairwise fun a t v w hv hw hlt heq => ?_
    cases a <;> simp only [reduceCtorEq, Option.some.injEq] at hv
    cases t <;> simp only [reduceCtorEq, Option.some.injEq] at hw
    subst hv hw
    obtain ⟨hname, hrest⟩ := Prod.mk.inj heq
    obtain ⟨hid, hversion⟩ := Prod.mk.inj hrest
    exact absurd (sortKey_history hname hid hversion) (ne_of_lt hlt)
  have hkeys : (historyRowsOf y p collate).map HistoryRow.place =
      (historiesOf members).map fun h => (h.entityName.1, h.recordId, h.recordVersion.1) := by
    refine (map_eq_of_forall₂ (mapM_eq_some hread) fun r g hg => ?_).trans
      (map_eq_of_forall₂ (f := fun g => (g.entityName.1, g.recordId, g.recordVersion.1)) hequal fun g h hgh => ?_)
    · obtain ⟨hname, hid, hversion⟩ := decodeHistory_place hg
      rw [HistoryRow.place, hname, hid, hversion]
    · simp only [equalEvents, Bool.and_eq_true, decide_eq_true_eq] at hgh
      obtain ⟨⟨⟨⟨⟨⟨hname, hid⟩, hversion⟩, -⟩, -⟩, -⟩, -⟩ := hgh
      rw [hname, hid, hversion]
  have hperm : (historyRowsOf y p collate).Perm ((historiesOf members).map (historyRowOf b p)) := by
    rw [hy.historyRowsOf_eq]
    exact List.perm_insertionSort _ _
  refine @Sorting.eq_of_keys _ _ _ _ HistoryRow.place hperm ?_ ?_
  · rw [List.map_map]
    exact hplaces
  · rw [hkeys, List.map_map]
    rfl

theorem membershipLe_iff {v w : BranchMembership} :
    MembershipLe collate (membershipRowOf p at_ v) (membershipRowOf p at_ w) ↔
      if v.branchId = w.branchId then
        if v.entityName.1 = w.entityName.1 then
          if v.recordId = w.recordId then v.role.value ≤ w.role.value else v.recordId.hex ≤ w.recordId.hex
        else collate v.entityName.1 w.entityName.1 = true
      else v.branchId.hex ≤ w.branchId.hex := Iff.rfl

/-- **The memberships are read in their order** just where the collation agrees with it. -/
theorem memberships_sorted_iff (p : String) (at_ : Instant) (hcollate : Collation collate) (hchecked : Checked members) :
    ((membershipsOf members).map (membershipRowOf p at_)).Pairwise (MembershipLe collate) ↔
      ∀ v ∈ membershipsOf members, ∀ w ∈ membershipsOf members, v.branchId = w.branchId →
        Collates collate v.entityName.1 w.entityName.1 := by
  have hsorted : (membershipsOf members).Pairwise fun v w =>
      toLex (v.branchId.hex, toLex (v.entityName.1, toLex (v.recordId.hex, v.role.value))) <
        toLex (w.branchId.hex, toLex (w.entityName.1, toLex (w.recordId.hex, w.role.value))) := by
    refine hchecked.pairwise fun a t v w hv hw hlt => ?_
    cases a <;> simp only [reduceCtorEq, Option.some.injEq] at hv
    cases t <;> simp only [reduceCtorEq, Option.some.injEq] at hw
    subst hv hw
    simp only [PortableStoreMember.sortKey, Prod.Lex.toLex_lt_toLex, lt_irrefl, true_and, false_or] at hlt ⊢
    exact hlt
  rw [List.pairwise_map]
  constructor
  · intro hread v hv w hw hbranch hle
    rcases hle.lt_or_eq with hlt | heq
    · have hne : v.entityName.1 ≠ w.entityName.1 := ne_of_lt hlt
      rcases Sorting.rel_of_pairwise (hread.and hsorted) hv hw with rfl | ⟨hrel, -⟩ | ⟨-, hback⟩
      · exact absurd rfl hne
      · rwa [membershipLe_iff, if_pos hbranch, if_neg hne] at hrel
      · rcases Prod.Lex.toLex_lt_toLex.1 hback with hback | ⟨-, hback⟩
        · exact absurd (congrArg Uuid.hex hbranch) (ne_of_gt hback)
        · rcases Prod.Lex.toLex_lt_toLex.1 hback with hback | ⟨heq, -⟩
          · exact absurd hlt (lt_asymm hback)
          · exact absurd heq.symm hne
    · rw [heq]
      exact (hcollate.total _ _).elim id id
  · intro hagrees
    refine hsorted.imp_of_mem fun {v w} hv hw hlt => ?_
    rcases Prod.Lex.toLex_lt_toLex.1 hlt with hbranch | ⟨hbranch, hrest⟩
    · rw [membershipLe_iff, if_neg fun heq => ne_of_lt hbranch (congrArg Uuid.hex heq)]
      exact le_of_lt hbranch
    · have heq : v.branchId = w.branchId := Uuid.hex_injective hbranch
      rw [membershipLe_iff, if_pos heq]
      rcases Prod.Lex.toLex_lt_toLex.1 hrest with hname | ⟨hname, hrest⟩
      · have hne : v.entityName.1 ≠ w.entityName.1 := ne_of_lt hname
        rw [if_neg hne]
        exact hagrees v hv w hw heq (le_of_lt hname)
      · have hsame : v.entityName.1 = w.entityName.1 := hname
        rw [if_pos hsame]
        rcases Prod.Lex.toLex_lt_toLex.1 hrest with hid | ⟨hid, hrole⟩
        · rw [if_neg fun heq => ne_of_lt hid (congrArg Uuid.hex heq)]
          exact le_of_lt hid
        · have hids : v.recordId = w.recordId := Uuid.hex_injective hid
          rw [if_pos hids]
          exact le_of_lt hrole

theorem decodeMembership_row (v : BranchMembership) : decodeMembership (membershipRowOf p at_ v) = some v :=
  dif_pos v.entityName.2

/-- The rows of the memberships, in whatever order they are. -/
theorem StagedRows.membershipRows_perm (hy : StagedRows b m p at_ members y) (hchecked : Checked members) :
    (y.memberships.rows.filter fun r => r.principalId = p).Perm ((membershipsOf members).map (membershipRowOf p at_)) := by
  have hnodup : ((membershipsOf members).map (membershipRowOf p at_)).Nodup := by
    refine List.Nodup.of_map decodeMembership ?_
    rw [List.map_map]
    have hsome : decodeMembership ∘ membershipRowOf p at_ = some := funext decodeMembership_row
    rw [hsome]
    exact (List.Nodup.of_map _ hchecked.memberships).map (Option.some_injective _)
  refine (List.perm_ext_iff_of_nodup (y.memberships.keyed.of_map.filter _) hnodup).2 fun r => ?_
  rw [List.mem_filter, hy.memberships r, List.mem_map, decide_eq_true_eq]
  constructor
  · rintro ⟨⟨v, hv, rfl⟩, -⟩
    exact ⟨v, hv, rfl⟩
  · rintro ⟨v, hv, rfl⟩
    exact ⟨⟨v, hv, rfl⟩, rfl⟩

/-- Where the collation agrees, they are read in the order of the members. -/
theorem StagedRows.membershipRowsOf_eq (hy : StagedRows b m p at_ members y) (hchecked : Checked members)
    (hcollate : Collation collate) (hsorted : ((membershipsOf members).map (membershipRowOf p at_)).Pairwise
      (MembershipLe collate)) : membershipRowsOf y p collate = (membershipsOf members).map (membershipRowOf p at_) := by
  refine Sorting.insertionSort_eq (MembershipLe.total hcollate) (MembershipLe.trans hcollate)
    (hy.membershipRows_perm hchecked) hsorted fun q hq r hr hqr hrq => ?_
  obtain ⟨v, hv, rfl⟩ := List.mem_map.1 hq
  obtain ⟨w, hw, rfl⟩ := List.mem_map.1 hr
  obtain ⟨hbranch, hname, hid⟩ := MembershipLe.antisymm hcollate hqr hrq
  have hkey : (v.branchId, v.identity) = (w.branchId, w.identity) :=
    congrArg₂ Prod.mk hbranch (congrArg₂ Prod.mk hname hid)
  rw [List.inj_on_of_nodup_map hchecked.memberships hv hw hkey]

/-- Memberships that are read as those staged are read from their rows in the order of the members. -/
theorem StagedRows.membershipRowsOf_of_read (hy : StagedRows b m p at_ members y) (hchecked : Checked members)
    (hread : (membershipRowsOf y p collate).mapM decodeMembership = some (membershipsOf members)) :
    membershipRowsOf y p collate = (membershipsOf members).map (membershipRowOf p at_) := by
  refine @Sorting.eq_of_keys _ _ _ _ decodeMembership
    ((List.perm_insertionSort _ _).trans (hy.membershipRows_perm hchecked)) ?_ ?_
  · have hsome : decodeMembership ∘ membershipRowOf p at_ = some := funext decodeMembership_row
    rw [List.map_map, hsome]
    exact (List.Nodup.of_map _ hchecked.memberships).map (Option.some_injective _)
  · have hsome : decodeMembership ∘ membershipRowOf p at_ = some := funext decodeMembership_row
    rw [List.map_map, hsome]
    exact map_eq_of_forall₂ (mapM_eq_some hread) fun r v hv => hv

end rows

/-! ## Observed -/

/-- What a store gives back of its members, each in its place. -/
structure GivesBack (b : StorageBackend) (m : ManifestV2) (collate : String → String → Bool)
    (members : List PortableStoreMember) : Prop where
  records : ∀ v ∈ recordsOf members, ∀ e, (compileRecordSpecification m).entity v.entityName.1 = some e →
    AllGiven (decide (b = .sqlite)) e v.fields ∧ (b = .postgresql → AllSpelled e v.fields)
  documents : ∀ h ∈ historiesOf members, ∀ e, (compileRecordSpecification m).entity h.entityName.1 = some e →
    ∀ o, h.before = some o ∨ h.after = some o →
      AllGiven (decide (b = .postgresql)) e o ∧ (b = .postgresql → AllBelow e o)
  updates : b = .sqlite → ∀ h ∈ historiesOf members, h.kind = .update → h.before.isSome = true ∧ h.after.isSome = true
  events : ∀ g ∈ historiesOf members, ∀ h ∈ historiesOf members,
    Collates (collation b collate) g.entityName.1 h.entityName.1
  memberships : ∀ v ∈ membershipsOf members, ∀ w ∈ membershipsOf members, v.branchId = w.branchId →
    Collates (collation b collate) v.entityName.1 w.entityName.1

section observed

variable {b : StorageBackend} {m : ManifestV2} {p : String} {at_ : Instant} {collate : String → String → Bool}
  {members : List PortableStoreMember} {y : Content}

theorem valid_member {s : RecordSpecification} {a : PortableStoreMember} (h : validatePortableMembers members s = true)
    (ha : a ∈ members) : validMember s a = true := by
  simp only [validatePortableMembers, Bool.and_eq_true] at h
  exact List.all_eq_true.1 h.1.1.1.1.1.1.2 a ha

/-- **A staging is observed** just where the store gives every member back in its place. -/
theorem observe_iff (hcollate : Collation collate) (hstage : stage b m p at_ members = some y) :
    observeMembers b m collate p members y = true ↔ GivesBack b m collate members := by
  have hy := stagedRows_of_stage hstage
  obtain ⟨hvalid, -⟩ := Option.ite_none_right_eq_some.1 hstage
  have hchecked := checked_of_valid hvalid
  have hsections := eq_sections ((List.pairwise_map.1 hchecked.sorted).imp rank_le_of_lt)
  have hcollation : Collation (collation b collate) := hcollate.of_backend
  -- each record, and each event, for itself
  have hrecord := fun v (hv : v ∈ recordsOf members) q (hq : recordRowOf b m p v = some q) =>
    decodeRecord_equal_iff (valid_member hvalid (mem_recordsOf.1 hv)) (hy.versions v (mem_recordsOf.1 hv)) hq
  have hrecords := mapM_given_iff (hy.records_read hchecked) hrecord
  have hevent : ∀ h ∈ historiesOf members, ∀ r, r = historyRowOf b p h →
      ((∃ g, decodeHistory b (compileRecordSpecification m) r = some g ∧ equalEvents g h = true) ↔
        (∀ e, (compileRecordSpecification m).entity h.entityName.1 = some e → ∀ o, h.before = some o ∨ h.after = some o →
          AllGiven (decide (b = .postgresql)) e o ∧ (b = .postgresql → AllBelow e o)) ∧
        (b = .sqlite → h.kind = .update → h.before.isSome = true ∧ h.after.isSome = true)) := by
    rintro h hh r rfl
    have hmember := valid_member hvalid (mem_historiesOf.1 hh)
    have hentity := hmember
    rw [validMember, Bool.and_eq_true, Bool.and_eq_true] at hentity
    obtain ⟨e, he⟩ := Option.isSome_iff_exists.1 hentity.1.1
    rw [decodeHistory_equal_iff hmember (hy.eventVersions h (mem_historiesOf.1 hh)) he, he]
    simp only [Option.some.injEq, forall_eq']
  have hwritten : List.Forall₂ (fun h r => r = historyRowOf b p h) (historiesOf members)
      ((historiesOf members).map (historyRowOf b p)) := List.forall₂_map_right_iff.2 (List.forall₂_same.2 fun h _ => rfl)
  have hevents := mapM_given_iff hwritten hevent
  rw [observeMembers, hvalid, Bool.true_and, Option.any_eq_true]
  constructor
  · rintro ⟨read, hread, hequal⟩
    obtain ⟨hreadRecords, hreadEvents, -, hreadMemberships, -⟩ := snapshotMembers_eq_some.1 hread
    obtain ⟨hequalRecords, hequalEvents, -, hequalMemberships⟩ := sections_of_equal (listEqual_iff.1 hequal)
    have hrows := hy.historyRowsOf_of_read hchecked hreadEvents hequalEvents
    rw [hequalMemberships] at hreadMemberships
    have hrows' := hy.membershipRowsOf_of_read hchecked hreadMemberships
    have hgiven := hevents.1 ⟨_, hrows ▸ hreadEvents, hequalEvents⟩
    refine ⟨fun v hv => hrecords.1 ⟨_, hreadRecords, hequalRecords⟩ v hv, fun h hh => (hgiven h hh).1,
      fun hb h hh => (hgiven h hh).2 hb, ?_, ?_⟩
    · rw [← histories_sorted_iff b p hcollation hchecked, ← hrows, hy.historyRowsOf_eq]
      exact Sorting.pairwise_sorted (EventLe.total hcollation) (EventLe.trans hcollation) _
    · rw [← memberships_sorted_iff p at_ hcollation hchecked, ← hrows']
      exact Sorting.pairwise_sorted (MembershipLe.total hcollation) (MembershipLe.trans hcollation) _
  · intro hgives
    obtain ⟨records, hreadRecords, hequalRecords⟩ := hrecords.2 hgives.records
    obtain ⟨events, hreadEvents, hequalEvents⟩ := hevents.2 fun h hh =>
      ⟨hgives.documents h hh, fun hb => hgives.updates hb h hh⟩
    have hrows : historyRowsOf y p (collation b collate) = (historiesOf members).map (historyRowOf b p) := by
      rw [hy.historyRowsOf_eq]
      exact ((histories_sorted_iff b p hcollation hchecked).2 hgives.events).insertionSort_eq
    have hrows' := hy.membershipRowsOf_eq hchecked hcollation
      ((memberships_sorted_iff p at_ hcollation hchecked).2 hgives.memberships)
    refine ⟨records.map .record ++ events.map .history ++ (branchesOf members).map .branch ++
      (membershipsOf members).map .branchMembership, snapshotMembers_eq_some.2 ?_, listEqual_iff.2 ?_⟩
    · rw [recordsOf_sections, historiesOf_sections, branchesOf_sections, membershipsOf_sections, hrows, hrows']
      exact ⟨hreadRecords, hreadEvents, hy.branches_decoded hchecked,
        mapM_map_some fun v _ => decodeMembership_row v, rfl⟩
    · have hall : List.Forall₂ (fun a t => equalMembers a t = true)
          (records.map .record ++ events.map .history ++ (branchesOf members).map .branch ++
            (membershipsOf members).map .branchMembership)
          ((recordsOf members).map .record ++ (historiesOf members).map .history ++ (branchesOf members).map .branch ++
            (membershipsOf members).map .branchMembership) := by
        refine List.rel_append (List.rel_append (List.rel_append ?_ ?_) ?_) ?_
        · rwa [List.forall₂_map_left_iff, List.forall₂_map_right_iff]
        · rwa [List.forall₂_map_left_iff, List.forall₂_map_right_iff]
        · rw [List.forall₂_map_left_iff, List.forall₂_map_right_iff]
          exact List.forall₂_same.2 fun v _ => decide_eq_true rfl
        · rw [List.forall₂_map_left_iff, List.forall₂_map_right_iff]
          exact List.forall₂_same.2 fun v _ => decide_eq_true rfl
      rwa [← hsections] at hall

/-! ## Members that a store has given -/

/-- The documents of an event are as their columns keep them. -/
def HistoryRow.DocumentsKept (b : StorageBackend) (h : HistoryRow) : Prop :=
  (∀ text ∈ h.beforeJson, ∃ o, text = snapshot b o) ∧ ∀ text ∈ h.afterJson, ∃ o, text = snapshot b o

/-- So are those of every event. -/
def DocumentsKept (b : StorageBackend) (x : Content) : Prop := ∀ h ∈ x.history, h.DocumentsKept b

/-- The stores of a backend: what commands come to, from an empty store or
from a staging, whoever gives them and whatever the manifest has become. -/
inductive Carried (b : StorageBackend) : Content → Prop
  | empty : Carried b .empty
  | operated {x : Content} (s : RecordSpecification) (caller : Caller) (t : Readings) (c : Command) :
      Carried b x → Carried b (committed b s caller t x c)
  | staged {m : ManifestV2} {p : String} {at_ : Instant} {members : List PortableStoreMember} {y : Content} :
      stage b m p at_ members = some y → Carried b y

variable {x : Content}

/-- The members that a store gives stand in the order they are read in. -/
theorem collates_of_snapshot {s : RecordSpecification} (hcollate : Collation collate)
    (hread : snapshotMembers b s collate p x = some members) (hchecked : Checked members) :
    (∀ g ∈ historiesOf members, ∀ h ∈ historiesOf members, Collates (collation b collate) g.entityName.1 h.entityName.1) ∧
      ∀ v ∈ membershipsOf members, ∀ w ∈ membershipsOf members, v.branchId = w.branchId →
        Collates (collation b collate) v.entityName.1 w.entityName.1 := by
  have hcollation : Collation (collation b collate) := hcollate.of_backend
  obtain ⟨-, hevents, -, hmemberships, -⟩ := snapshotMembers_eq_some.1 hread
  rw [← histories_sorted_iff b p hcollation hchecked,
    ← memberships_sorted_iff p default hcollation hchecked, List.pairwise_map, List.pairwise_map]
  constructor
  · have hsorted : (historyRowsOf x p (collation b collate)).Pairwise (EventLe (collation b collate)) :=
      Sorting.pairwise_sorted (EventLe.total hcollation) (EventLe.trans hcollation) _
    refine pairwise_of_forall₂ (mapM_eq_some hevents) hsorted fun r g r' h hg hh hle => ?_
    obtain ⟨hname, hid, hversion⟩ := decodeHistory_place hg
    obtain ⟨hname', hid', hversion'⟩ := decodeHistory_place hh
    rw [eventLe_iff, hname, hid, hversion, hname', hid', hversion']
    exact hle
  · have hsorted : (membershipRowsOf x p (collation b collate)).Pairwise (MembershipLe (collation b collate)) :=
      Sorting.pairwise_sorted (MembershipLe.total hcollation) (MembershipLe.trans hcollation) _
    refine pairwise_of_forall₂ (mapM_eq_some hmemberships) hsorted fun r v r' w hv hw hle => ?_
    unfold decodeMembership at hv hw
    split_ifs at hv hw
    obtain rfl := Option.some.inj hv
    obtain rfl := Option.some.inj hw
    exact hle

theorem documentsKept_map {h : HistoryRow} {before after : Option FrozenJsonObject}
    (hbefore : h.beforeJson = before.map (snapshot b)) (hafter : h.afterJson = after.map (snapshot b)) :
    h.DocumentsKept b := by
  have hmap : ∀ (o : Option FrozenJsonObject) (text : List Char), text ∈ o.map (snapshot b) → ∃ o', text = snapshot b o' :=
    fun o text htext => by
      obtain ⟨o', -, rfl⟩ := Option.map_eq_some_iff.1 htext
      exact ⟨o', rfl⟩
  rw [HistoryRow.DocumentsKept, hbefore, hafter]
  exact ⟨hmap before, hmap after⟩

section documents

variable {s : RecordSpecification} {caller : Caller} {t : Readings} {r : Result} {x₁ : Content}

theorem DocumentsKept.append {h : HistoryRow} (hx : DocumentsKept b x) (hhistory : x₁.history = x.history)
    (happend : x₁.appendHistory h = some y) (hkept : h.DocumentsKept b) : DocumentsKept b y := by
  obtain ⟨-, heq, -⟩ := Content.appendHistory_eq_some happend
  intro h' hh'
  rw [heq, hhistory, List.mem_append, List.mem_singleton] at hh'
  rcases hh' with hold | rfl
  · exact hx h' hold
  · exact hkept

theorem DocumentsKept.appendEvent {v : RecordValue} {kind : HistoryKind} {before after : Option FrozenJsonObject}
    {now : Instant} (hx : DocumentsKept b x) (hhistory : x₁.history = x.history)
    (happend : Data.appendEvent b p v kind before after now x₁ = .ok y) : DocumentsKept b y :=
  hx.append hhistory (require_eq_ok.1 happend) (documentsKept_map rfl rfl)

theorem assignTarget_documents {c : AssignBranchRecordsCommand} {target : BranchAssignmentTarget}
    {fields : FrozenJsonObject} {ref : String × Uuid × ℕ} (hx : DocumentsKept b x)
    (hop : assignTarget b caller t c target fields x = .ok (y, ref)) : DocumentsKept b y := by
  simp only [assignTarget, bind_eq_ok, require_eq_ok] at hop
  obtain ⟨⟨x₁, changed⟩, hmapping, hop⟩ := hop
  obtain ⟨-, hhistory₁, -⟩ := applyMapping_eq_some hmapping
  cases changed with
  | none =>
    simp only [pure, Except.pure, Except.ok.injEq, Prod.mk.injEq] at hop
    obtain ⟨rfl, -⟩ := hop
    intro h hh
    exact hx h (hhistory₁ ▸ hh)
  | some kind =>
    simp only [bind_eq_ok, require_eq_ok, pure, Except.pure, Except.ok.injEq, Prod.mk.injEq] at hop
    obtain ⟨x₂, hupdate, x₃, happend, rfl, -⟩ := hop
    obtain ⟨-, -, -, hhistory₂, -⟩ := Content.updateRow_eq_some hupdate
    exact hx.append (hhistory₂.trans hhistory₁) happend
      (@documentsKept_map _ _ (some fields) (some fields) rfl rfl)

theorem assignTargets_documents {c : AssignBranchRecordsCommand} :
    ∀ {checked : List (BranchAssignmentTarget × FrozenJsonObject)} {x y : Content} {refs : List (String × Uuid × ℕ)},
      DocumentsKept b x → assignTargets b caller t c checked x = .ok (y, refs) → DocumentsKept b y
  | [], x, y, refs, hx, hop => by
    simp only [assignTargets, Except.ok.injEq, Prod.mk.injEq] at hop
    obtain ⟨rfl, -⟩ := hop
    exact hx
  | (target, fields) :: rest, x, y, refs, hx, hop => by
    simp only [assignTargets, bind_eq_ok, pure, Except.pure, Except.ok.injEq, Prod.mk.injEq] at hop
    obtain ⟨⟨x₁, ref⟩, hfirst, ⟨x₂, refs₂⟩, hrest, rfl, -⟩ := hop
    exact assignTargets_documents (assignTarget_documents hx hfirst) hrest

/-- **Every operation writes documents as their columns keep them.** -/
theorem operate_documents {c : Command} (hx : DocumentsKept b x) (hop : operate b s caller t x c = .ok (y, r)) :
    DocumentsKept b y := by
  cases c with
  | createRecord c =>
    simp only [operate, createRecord, insertRecord, bind_eq_ok, require_eq_ok, check_eq_ok, pure, Except.pure,
      Except.ok.injEq, Prod.mk.injEq] at hop
    obtain ⟨_, -, _, -, _, -, x₁, ⟨_, -, _, -, hinsert⟩, x₂, happend, rfl, -⟩ := hop
    exact hx.appendEvent (Content.insertRow_eq_some hinsert).2.1 happend
  | updateRecord c =>
    simp only [operate, updateRecord, bind_eq_ok, require_eq_ok, check_eq_ok, pure, Except.pure, Except.ok.injEq,
      Prod.mk.injEq] at hop
    obtain ⟨_, -, _, -, _, -, _, -, _, -, _, -, _, -, x₁, hupdate, x₂, happend, rfl, -⟩ := hop
    obtain ⟨-, -, -, hhistory, -⟩ := Content.updateRow_eq_some hupdate
    exact hx.appendEvent hhistory happend
  | deleteRecord c =>
    simp only [operate, deleteRecord, bind_eq_ok, require_eq_ok, check_eq_ok, pure, Except.pure, Except.ok.injEq,
      Prod.mk.injEq] at hop
    obtain ⟨_, -, _, -, x₁, hdelete, _, -, x₂, happend, rfl, -⟩ := hop
    obtain ⟨-, -, -, hhistory, -⟩ := Content.deleteRow_eq_some hdelete
    exact hx.appendEvent hhistory happend
  | createBranch c =>
    simp only [operate, createBranch, bind_eq_ok, require_eq_ok, check_eq_ok, pure, Except.pure, Except.ok.injEq,
      Prod.mk.injEq] at hop
    obtain ⟨_, -, _, -, _, -, _, -, rfl, -⟩ := hop
    exact hx
  | updateBranch c =>
    simp only [operate, updateBranch, bind_eq_ok, require_eq_ok, check_eq_ok] at hop
    obtain ⟨_, -, _, -, _, -, _, -, _, -, _, -, hop⟩ := hop
    split_ifs at hop
    · obtain ⟨rfl, -⟩ := Prod.mk.inj (Except.ok.inj hop)
      exact hx
    · simp only [bind_eq_ok, require_eq_ok, pure, Except.pure, Except.ok.injEq, Prod.mk.injEq] at hop
      obtain ⟨_, -, rfl, -⟩ := hop
      exact hx
  | assignBranchRecords c =>
    obtain ⟨checked, refs, -, htargets, -⟩ := assignRecords_eq_ok hop
    exact assignTargets_documents hx htargets

/-- **The documents of every store** are as their columns keep them. -/
theorem Carried.documentsKept (hx : Carried b x) : DocumentsKept b x := by
  induction hx with
  | empty => exact fun h hh => absurd hh List.not_mem_nil
  | @operated x s caller t c _ ih =>
    unfold committed
    split
    · rename_i hop
      exact operate_documents ih hop
    · exact ih
  | staged hstage =>
    intro h hh
    rw [(stagedRows_of_stage hstage).history] at hh
    obtain ⟨v, -, rfl⟩ := List.mem_map.1 hh
    exact documentsKept_map rfl rfl

end documents

/-- **What a store has given is given back** by another of its kind: its
members, staged, are observed. -/
theorem observe_moved (hcollate : Collation collate) (hx : Carried b x)
    (hread : snapshotMembers b (compileRecordSpecification m) collate p x = some members)
    (hstage : stage b m p at_ members = some y) : observeMembers b m collate p members y = true := by
  obtain ⟨hvalid, -⟩ := Option.ite_none_right_eq_some.1 hstage
  obtain ⟨hreadRecords, hreadEvents, -⟩ := snapshotMembers_eq_some.1 hread
  obtain ⟨hevents, hmemberships⟩ := collates_of_snapshot hcollate hread (checked_of_valid hvalid)
  have hdocument : ∀ {entityName : String} {e : RecordEntity} {text : Option (List Char)} {o : FrozenJsonObject},
      (∀ t ∈ text, ∃ o', t = snapshot b o') → (compileRecordSpecification m).entity entityName = some e →
      readSnapshotFields (compileRecordSpecification m) entityName text = some (some o) →
      AllGiven (decide (b = .postgresql)) e o ∧ (b = .postgresql → AllBelow e o) := by
    intro entityName e text o htext he hfields
    cases text with
    | none => exact absurd hfields (by simp [readSnapshotFields])
    | some text =>
      obtain ⟨o', rfl⟩ := htext text rfl
      obtain ⟨e', hnormal⟩ := normalised_of_read hfields
      obtain rfl := Option.some.inj (he.symm.trans hnormal.entity)
      refine ⟨hnormal.allGiven, fun hb => ?_⟩
      subst hb
      exact allBelow_of_read hfields he
  refine (observe_iff hcollate hstage).2 ⟨fun v hv e he => ?_, fun h hh e he o ho => ?_, fun hb h hh => ?_, hevents,
    hmemberships⟩
  · obtain ⟨r, -, hdecode⟩ := exists_of_forall₂ (mapM_eq_some hreadRecords).flip hv
    obtain ⟨hfields, hentity, -⟩ := decodeRecord_row hdecode
    obtain ⟨e', hnormal, -⟩ := decodeFields_value hfields
    rw [hentity] at he
    obtain rfl := Option.some.inj (he.symm.trans hnormal.entity)
    refine ⟨hnormal.allGiven, fun hb => ?_⟩
    subst hb
    exact allSpelled_of_decodeFields hfields he
  · obtain ⟨r, hr, hdecode⟩ := exists_of_forall₂ (mapM_eq_some hreadEvents).flip hh
    obtain ⟨hbefore, hafter, -⟩ := decodeHistory_documents hdecode
    rw [historyRowsOf, List.mem_insertionSort] at hr
    obtain ⟨hkeptBefore, hkeptAfter⟩ := hx.documentsKept r (List.mem_of_mem_filter hr)
    rcases ho with ho | ho
    · exact hdocument hkeptBefore he (ho ▸ hbefore)
    · exact hdocument hkeptAfter he (ho ▸ hafter)
  · obtain ⟨r, -, hdecode⟩ := exists_of_forall₂ (mapM_eq_some hreadEvents).flip hh
    exact (decodeHistory_documents hdecode).2.2 hb

end observed

/-! ## A note that is moved -/

namespace Noted

def noteSpecification : RecordSpecification := compileRecordSpecification noteManifest

def noteMembers : List PortableStoreMember :=
  (snapshotMembers .sqlite noteSpecification (fun g h => g ≤ h) "alice" noted).getD []

def moved : Content := (stage .sqlite noteManifest "alice" default noteMembers).getD .empty

/-- The note is read, and goes through. -/
theorem moves : (snapshotMembers .sqlite noteSpecification (fun g h => g ≤ h) "alice" noted).isSome = true ∧
    (stage .sqlite noteManifest "alice" default noteMembers).isSome = true := by decide +kernel

theorem collated : Collation fun g h => g ≤ h where
  total g h := by simpa using le_total g h
  trans g h k hgh hhk := decide_eq_true (le_trans (of_decide_eq_true hgh) (of_decide_eq_true hhk))
  antisymm g h hgh hhg := le_antisymm (of_decide_eq_true hgh) (of_decide_eq_true hhg)

theorem noted_carried : Carried .sqlite noted := by
  obtain ⟨r, hr⟩ := created_eq
  have hnoted : committed .sqlite noteSpecification alice readings .empty createNote = noted := by
    rw [created] at hr
    rw [committed, noteSpecification, hr]
  rw [← hnoted]
  exact Carried.empty.operated _ _ _ _

theorem note_read : snapshotMembers .sqlite noteSpecification (fun g h => g ≤ h) "alice" noted = some noteMembers := by
  obtain ⟨l, hl⟩ := Option.isSome_iff_exists.1 moves.1
  rw [noteMembers, hl, Option.getD_some]

theorem note_staged : stage .sqlite noteManifest "alice" default noteMembers = some moved := by
  obtain ⟨y, hy⟩ := Option.isSome_iff_exists.1 moves.2
  rw [moved, hy, Option.getD_some]

end Noted

open Noted in
theorem observe_moved_note :
    observeMembers .sqlite noteManifest (fun g h => g ≤ h) "alice" noteMembers moved = true :=
  observe_moved collated noted_carried note_read note_staged

open Noted in
theorem observe_iff_note : observeMembers .sqlite noteManifest (fun g h => g ≤ h) "alice" noteMembers moved = true ↔
    GivesBack .sqlite noteManifest (fun g h => g ≤ h) noteMembers :=
  observe_iff collated note_staged

end Data

end Aipcs

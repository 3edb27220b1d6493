import Aipcs.Data.Evidence
import Aipcs.Data.Runs

/-!
# Data — what the cells of a store hold

Every cell of a record holds nothing, or what a value of its field's type
is written as. An operation leaves the cells it finds, or writes the
columns of fields that it has checked (`operate_rewrites`); an evolution
adds columns. So this holds of every store (`written_of_reachable`).
-/

namespace Aipcs

namespace Data

open Manifest Portable Relational Records Registry Store.Mutating

/-! ## What an operation does to the cells -/

/-- The cells of a row are those it had, or the columns of checked fields. -/
def Rewrites (b : StorageBackend) (s : RecordSpecification) (x y : Content) : Prop :=
  ∀ en id row', y.records.find? (en, id) = some row' →
    (∃ row, x.records.find? (en, id) = some row ∧ row.cells = row'.cells) ∨
      ∃ e fields, Normalised s en e fields ∧ encodeFields b e fields = some row'.cells

section rewrites

variable {b : StorageBackend} {s : RecordSpecification} {x y z : Content} {caller : Caller} {t : Readings} {r : Result}

theorem rewrites_of_records (h : y.records = x.records) : Rewrites b s x y := by
  intro en id row' hrow'
  rw [h] at hrow'
  exact .inl ⟨row', hrow', rfl⟩

theorem Rewrites.trans (h : Rewrites b s x y) (h' : Rewrites b s y z) : Rewrites b s x z := by
  intro en id row'' hrow''
  rcases h' en id row'' hrow'' with ⟨row', hrow', hcells'⟩ | hfields
  · rcases h en id row' hrow' with ⟨row, hrow, hcells⟩ | ⟨e, fields, hfields, hcells⟩
    · exact .inl ⟨row, hrow, hcells.trans hcells'⟩
    · exact .inr ⟨e, fields, hfields, hcells.trans (congrArg some hcells')⟩
  · exact .inr hfields

/-- A row is written, and the others are left alone. -/
theorem rewrites_of_row {en : String} {id : Uuid} {row' : RecordRow} (hself : y.records.find? (en, id) = some row')
    (hothers : ∀ key, key ≠ (en, id) → y.records.find? key = x.records.find? key)
    (hcells : (∃ row, x.records.find? (en, id) = some row ∧ row.cells = row'.cells) ∨
      ∃ e fields, Normalised s en e fields ∧ encodeFields b e fields = some row'.cells) : Rewrites b s x y := by
  intro en' id' row'' hrow''
  by_cases hkey : (en', id') = (en, id)
  · obtain ⟨rfl, rfl⟩ := Prod.mk.inj hkey
    obtain rfl := Option.some.inj (hself.symm.trans hrow'')
    exact hcells
  · rw [hothers _ hkey] at hrow''
    exact .inl ⟨row'', hrow'', rfl⟩

theorem createRecord_rewrites {c : CreateRecordCommand} (hop : createRecord b s caller t c x = .ok (y, r)) :
    Rewrites b s x y := by
  simp only [createRecord, insertRecord, appendEvent, bind_eq_ok, require_eq_ok, check_eq_ok, pure, Except.pure,
    Except.ok.injEq, Prod.mk.injEq] at hop
  obtain ⟨record, hrecord, value, hvalue, -, -, x₁, ⟨e, he, cells, hcells, hinsert⟩, x₂, happend, rfl, -⟩ := hop
  obtain ⟨hentity, -, -, -, -, -, hfields⟩ := buildRecord_eq_some hvalue
  obtain ⟨e', hnormal⟩ := acceptFields_normalised hrecord
  rw [← hentity] at hnormal
  rw [hfields] at hcells
  obtain rfl := Option.some.inj (hnormal.entity.symm.trans he)
  obtain ⟨-, -, hrow₁, hothers₁⟩ := Content.insertRow_eq_some hinsert
  obtain ⟨hrecords₂, -, -⟩ := Content.appendHistory_eq_some happend
  rw [← hrecords₂] at hrow₁ hothers₁
  exact rewrites_of_row hrow₁ hothers₁ (.inr ⟨e', record, hnormal, hcells⟩)

theorem updateRecord_rewrites {c : UpdateRecordCommand} (hop : updateRecord b s caller t c x = .ok (y, r)) :
    Rewrites b s x y := by
  simp only [updateRecord, appendEvent, bind_eq_ok, require_eq_ok, check_eq_ok, pure, Except.pure,
    Except.ok.injEq, Prod.mk.injEq] at hop
  obtain ⟨-, -, before, hbefore, fields, hfields, -, -, after, hafter, e, he, cells, hcells, x₁, hupdate, x₂,
    happend, rfl, -⟩ := hop
  simp only [selectRecord, bind_eq_ok, require_eq_ok, check_eq_ok, pure, Except.pure, Except.ok.injEq] at hbefore
  obtain ⟨row, hrow, before', hbefore, -, -, rfl⟩ := hbefore
  obtain ⟨-, hentity, -, -⟩ := decodeRecord_eq_some hbefore
  obtain ⟨hentity', -, -, -, -, -, hfields'⟩ := buildRecord_eq_some hafter
  obtain ⟨-, hkey, -⟩ := Content.recordRow_eq_some.1 hrow
  obtain ⟨o, -, haccept⟩ := Option.bind_eq_some_iff.1 hfields
  obtain ⟨e', hnormal⟩ := acceptFields_normalised haccept
  have hname : after.entityName.1 = c.entityName.1 := by
    rw [hentity', hentity]
    exact (Prod.mk.inj hkey).1
  rw [hname] at he hupdate
  rw [hfields'] at hcells
  obtain rfl := Option.some.inj (hnormal.entity.symm.trans he)
  obtain ⟨row', -, -, -, hrow₁, hothers₁⟩ := Content.updateRow_eq_some hupdate
  obtain ⟨hrecords₂, -, -⟩ := Content.appendHistory_eq_some happend
  rw [← hrecords₂] at hrow₁ hothers₁
  exact rewrites_of_row hrow₁ hothers₁ (.inr ⟨e', fields, hnormal, hcells⟩)

theorem deleteRecord_rewrites {c : DeleteRecordCommand} (hop : deleteRecord b s caller t c x = .ok (y, r)) :
    Rewrites b s x y := by
  simp only [deleteRecord, appendEvent, bind_eq_ok, require_eq_ok, check_eq_ok, pure, Except.pure,
    Except.ok.injEq, Prod.mk.injEq] at hop
  obtain ⟨-, -, before, -, x₁, hdelete, terminal, -, x₂, happend, rfl, -⟩ := hop
  obtain ⟨-, -, -, -, hnone, hothers⟩ := Content.deleteRow_eq_some hdelete
  obtain ⟨hrecords₂, -, -⟩ := Content.appendHistory_eq_some happend
  intro en id row' hrow'
  rw [hrecords₂] at hrow'
  by_cases hkey : (en, id) = (c.entityName.1, c.recordId)
  · rw [hkey, hnone] at hrow'
    exact absurd hrow' (by simp)
  · rw [hothers _ hkey] at hrow'
    exact .inl ⟨row', hrow', rfl⟩

/-- An assignment moves a record to its next version, and leaves its cells. -/
theorem assignTarget_rewrites {c : AssignBranchRecordsCommand} {target : BranchAssignmentTarget}
    {fields : FrozenJsonObject} {ref : String × Uuid × ℕ}
    (hop : assignTarget b caller t c target fields x = .ok (y, ref)) : Rewrites b s x y := by
  simp only [assignTarget, bind_eq_ok, require_eq_ok] at hop
  obtain ⟨⟨x₁, changed⟩, hmapping, hop⟩ := hop
  obtain ⟨hrecords₁, -, -⟩ := applyMapping_eq_some hmapping
  cases changed with
  | none =>
    simp only [pure, Except.pure, Except.ok.injEq, Prod.mk.injEq] at hop
    obtain ⟨rfl, -⟩ := hop
    exact rewrites_of_records hrecords₁
  | some kind =>
    simp only [bind_eq_ok, require_eq_ok, pure, Except.pure, Except.ok.injEq, Prod.mk.injEq] at hop
    obtain ⟨x₂, hupdate, x₃, happend, rfl, -⟩ := hop
    obtain ⟨row, hrow, -, -, hrow₂, hothers₂⟩ := Content.updateRow_eq_some hupdate
    obtain ⟨hrecords₃, -, -⟩ := Content.appendHistory_eq_some happend
    obtain ⟨hfind, -⟩ := Option.filter_eq_some_iff.1 hrow
    refine (rewrites_of_records hrecords₁).trans (Rewrites.trans ?_ (rewrites_of_records hrecords₃))
    exact rewrites_of_row hrow₂ hothers₂ (.inl ⟨row, hfind, rfl⟩)

theorem assignTargets_rewrites {c : AssignBranchRecordsCommand} :
    ∀ {checked : List (BranchAssignmentTarget × FrozenJsonObject)} {x y : Content} {refs : List (String × Uuid × ℕ)},
      assignTargets b caller t c checked x = .ok (y, refs) → Rewrites b s x y
  | [], x, y, refs, hop => by
    simp only [assignTargets, Except.ok.injEq, Prod.mk.injEq] at hop
    exact rewrites_of_records (by rw [hop.1])
  | (target, fields) :: rest, x, y, refs, hop => by
    simp only [assignTargets, bind_eq_ok, pure, Except.pure, Except.ok.injEq, Prod.mk.injEq] at hop
    obtain ⟨⟨x₁, ref⟩, hfirst, ⟨x₂, refs₂⟩, hrest, rfl, -⟩ := hop
    exact (assignTarget_rewrites hfirst).trans (assignTargets_rewrites hrest)

/-- **What an operation writes has been checked.** -/
theorem operate_rewrites {c : Command} (hop : operate b s caller t x c = .ok (y, r)) : Rewrites b s x y := by
  cases c with
  | createRecord c => exact createRecord_rewrites hop
  | updateRecord c => exact updateRecord_rewrites hop
  | deleteRecord c => exact deleteRecord_rewrites hop
  | createBranch c =>
    simp only [operate, createBranch, bind_eq_ok, require_eq_ok, check_eq_ok, pure, Except.pure, Except.ok.injEq,
      Prod.mk.injEq] at hop
    obtain ⟨-, -, branch, -, -, -, branches, -, rfl, -⟩ := hop
    exact rewrites_of_records rfl
  | updateBranch c =>
    simp only [operate, updateBranch, bind_eq_ok, require_eq_ok, check_eq_ok] at hop
    obtain ⟨-, -, row, -, -, -, -, -, -, -, -, -, hop⟩ := hop
    split_ifs at hop
    · obtain ⟨rfl, -⟩ := Prod.mk.inj (Except.ok.inj hop)
      exact rewrites_of_records rfl
    · simp only [bind_eq_ok, require_eq_ok, pure, Except.pure, Except.ok.injEq, Prod.mk.injEq] at hop
      obtain ⟨next, -, rfl, -⟩ := hop
      exact rewrites_of_records rfl
  | assignBranchRecords c =>
    simp only [operate, assignRecords, bind_eq_ok, require_eq_ok, check_eq_ok, pure, Except.pure, Except.ok.injEq,
      Prod.mk.injEq] at hop
    obtain ⟨-, -, -, -, branch, -, -, -, checked, -, ⟨x₁, refs⟩, htargets, rfl, -⟩ := hop
    exact assignTargets_rewrites htargets

end rewrites

/-! ## Cells of a field's type -/

/-- The cell holds nothing, or what a value of the field's type is written as. -/
def Holds (b : StorageBackend) (f : RecordField) (c : SqlValue) : Prop :=
  c = .null ∨ ∃ v c', matchesType v f.type = true ∧ encodeField b f v = some c' ∧ columnValue b c' = c

/-- The row has a cell for every field, and none under other names. -/
structure Written (b : StorageBackend) (e : RecordEntity) (cells : List (String × SqlValue)) : Prop where
  columns : ∀ f ∈ e.domainFields, Holds b f (cellOf cells f.name)
  others : ∀ n, n ∉ e.domainFields.map (·.name) → cells.lookup n = none

/-- Every row of the store is written so. -/
def Content.Written (b : StorageBackend) (s : RecordSpecification) (x : Content) : Prop :=
  ∀ en id row, x.records.find? (en, id) = some row → ∃ e, s.entity en = some e ∧ Data.Written b e row.cells

section written

variable {b : StorageBackend} {s s' : RecordSpecification} {x y : Content} {en : String} {e e' : RecordEntity}
  {fields : FrozenJsonObject} {cells : List (String × SqlValue)}

/-- **Checked fields are written by their types.** -/
theorem Normalised.written (h : Normalised s en e fields) (hcells : encodeFields b e fields = some cells) :
    Written b e cells where
  columns f hf := by
    obtain ⟨c, hc, hlookup⟩ := lookup_collect hcells h.nodup hf
    obtain ⟨c', hc', rfl⟩ := Option.map_eq_some_iff.1 hc
    rw [cellOf, hlookup, Option.getD_some]
    rcases h.matchesType hf (h.fieldValue_eq hf).1 with hnull | htype
    · rw [hnull] at hc'
      obtain rfl := Option.some.inj hc'
      exact .inl rfl
    · exact .inr ⟨_, c', htype, hc', rfl⟩
  others _ hn := lookup_collect_eq_none hcells hn

theorem Rewrites.written (h : Rewrites b s x y) (hx : x.Written b s) : y.Written b s := by
  intro en id row' hrow'
  rcases h en id row' hrow' with ⟨row, hrow, hcells⟩ | ⟨e, fields, hnormal, hcells⟩
  · obtain ⟨e, he, hwritten⟩ := hx en id row hrow
    exact ⟨e, he, hcells ▸ hwritten⟩
  · exact ⟨e, hnormal.entity, hnormal.written hcells⟩

/-- A cell is written by the type of its field. -/
theorem Holds.congr {f f' : RecordField} {c : SqlValue} (h : Holds b f c) (htype : f'.type = f.type) : Holds b f' c := by
  have hencode : encodeField b f' = encodeField b f := by
    unfold encodeField
    rw [htype]
  unfold Holds
  rw [hencode, htype]
  exact h

/-- **A row without the new columns is written still.** -/
theorem Written.extend (h : Written b e cells) (hnodup : (e'.domainFields.map (·.name)).Nodup)
    (hfields : ∀ f ∈ e.domainFields, ∃ f' ∈ e'.domainFields, f'.name = f.name ∧ f'.type = f.type) :
    Written b e' cells where
  columns f' hf' := by
    by_cases hold : f'.name ∈ e.domainFields.map (·.name)
    · obtain ⟨f, hf, hname⟩ := List.mem_map.1 hold
      obtain ⟨f'', hf'', hname'', htype⟩ := hfields f hf
      obtain rfl : f'' = f' := List.inj_on_of_nodup_map hnodup hf'' hf' (hname''.trans hname)
      rw [← hname]
      exact (h.columns f hf).congr htype
    · rw [cellOf, h.others _ hold]
      exact .inl rfl
  others n hn := h.others n fun hold => by
    obtain ⟨f, hf, rfl⟩ := List.mem_map.1 hold
    obtain ⟨f', hf', hname, -⟩ := hfields f hf
    exact hn (hname ▸ List.mem_map_of_mem hf')

theorem Content.Written.extend (h : x.Written b s) (hs : Extends s s') : x.Written b s' := by
  intro en id row hrow
  obtain ⟨e, he, hwritten⟩ := h en id row hrow
  obtain ⟨e', he', hnodup, hfields⟩ := hs.entity en e he
  exact ⟨e', he', hwritten.extend hnodup hfields⟩

end written

/-! ## Every store -/

/-- **A change keeps every cell of its field's type.** -/
theorem Change.written {h h' : Holdings} (hc : Change h h') (hw : h.content.Written .sqlite h.specification) :
    h'.content.Written .sqlite h'.specification := by
  cases hc with
  | operated hop => exact (operate_rewrites hop).written hw
  | evolved ht => exact hw.extend (extends_of_accepted (classifyTransition_eq_some ht))

theorem written_of_changes {h h' : Holdings} (hc : Relation.ReflTransGen Change h h')
    (hw : h.content.Written .sqlite h.specification) : h'.content.Written .sqlite h'.specification := by
  induction hc with
  | refl => exact hw
  | tail _ hstep ih => exact hstep.written ih

theorem written_empty (b : StorageBackend) (s : RecordSpecification) : Content.Written b s .empty :=
  fun _ _ _ hrow => nomatch hrow

/-- **Every run of mutations keeps every cell of its field's type.** -/
theorem written_of_reachable {hash : String → ℤ} {namespace_ : String} {m : ManifestV2}
    {g : Sessions (World Holdings) (E := Call Holdings) Call.Reply Mutation Outcome}
    (hg : (storeMutations hash namespace_ m).Reachable g) :
    g.world.content.content.Written .sqlite g.world.content.specification :=
  written_of_changes (run_chained hg).changes (written_empty _ _)

end Data

end Aipcs

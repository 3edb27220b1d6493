import Aipcs.Lifecycle.Catalog
import Aipcs.Store.DomainPlan

/-!
# Lifecycle — what a catalog keeps along a plan

The catalog refines the store of layouts. A statement that goes through
over the layouts goes through over the catalog, which then holds the
layouts it should; and every text in it says the layout it stands for,
however many columns have been written into it.
-/

namespace Aipcs

open Manifest Relational Store

/-- What a statement says. -/
def Store.Ddl.statement : Store.Ddl → Lifecycle.ServiceStore.Statement
  | .createTable e relationships => .createTable (readTable e relationships)
  | .addColumn a => .addColumn a.entity (columnLayout a.field)
  | .createIndex i => .createIndex (indexLayout i)

namespace Lifecycle

/-! ## Names -/

section names

variable {s : String}

theorem toLower_of_identifier {c : Char} (hc : (('a' ≤ c && c ≤ 'z') || ('0' ≤ c && c ≤ '9') || c = '_') = true) :
    c.toLower = c := by
  simp only [Bool.or_eq_true, Bool.and_eq_true, decide_eq_true_eq, Char.le_def, UInt32.le_iff_toNat_le] at hc
  refine dif_neg ?_
  simp only [ge_iff_le, UInt32.le_iff_toNat_le]
  rcases hc with (h | h) | rfl
  · have : 'a'.val.toNat = 97 := rfl
    have : 'Z'.val.toNat = 90 := rfl
    omega
  · have : '9'.val.toNat = 57 := rfl
    have : 'A'.val.toNat = 65 := rfl
    omega
  · decide

/-- An identifier is in lower case. -/
theorem toLower_identifier (h : isIdentifier s = true) : s.toList.map Char.toLower = s.toList := by
  unfold isIdentifier at h
  split at h
  · exact absurd h (by simp)
  · next c rest hs =>
    simp only [Bool.and_eq_true, List.all_eq_true] at h
    rw [hs, List.map_cons, toLower_of_identifier (by simp [h.1.1]), List.map_congr_left (g := id) fun x hx => ?_, List.map_id]
    exact toLower_of_identifier (h.2 x hx)

theorem lowerStarts_sqlite (h : isIdentifier s = true) : lowerStarts s "sqlite_" = isSqliteReserved s := by
  rw [lowerStarts, toLower_identifier h, isSqliteReserved]

theorem lowerStarts_reserved (h : isIdentifier s = true) : lowerStarts s RESERVED_PREFIX = false := by
  rw [lowerStarts, toLower_identifier h]
  unfold isIdentifier at h
  split at h
  · exact absurd h (by simp)
  · next c rest hs =>
    rw [hs]
    have hreserved : RESERVED_PREFIX.toList = '_' :: "_aipcs_".toList := rfl
    have hc : c ≠ '_' := by
      rintro rfl
      exact absurd h (by simp)
    rw [hreserved, List.isPrefixOf, Bool.and_eq_false_iff]
    exact .inl (beq_eq_false_iff_ne.2 hc.symm)

theorem toList_autoindex (table : String) :
    (autoindex table).toList = "sqlite_autoindex_".toList ++ table.toList ++ "_1".toList := by
  unfold autoindex
  exact String.toList_append.trans (congrArg (· ++ "_1".toList) String.toList_append)

theorem lowerStarts_autoindex (table : String) : lowerStarts (autoindex table) "sqlite_" = true := by
  have hreserved : "sqlite_".toList <+: "sqlite_autoindex_".toList.map Char.toLower := by decide
  rw [lowerStarts, toList_autoindex, List.map_append, List.map_append]
  exact List.isPrefixOf_iff_prefix.2 (List.prefix_append_of_prefix (List.prefix_append_of_prefix hreserved))

theorem autoindex_injective {a b : String} (h : autoindex a = autoindex b) : a = b := by
  have hlist := congrArg String.toList h
  rw [toList_autoindex, toList_autoindex, List.append_left_inj, List.append_right_inj] at hlist
  exact String.toList_inj.1 hlist

theorem lowerStarts_foundation : ∀ n ∈ FOUNDATION_INDEX_XINFO, lowerStarts n "sqlite_" = true := by decide

end names

namespace Catalog

variable {c : Catalog}

/-- What a row of the catalog is. -/
theorem mem_rows {r : SchemaRow} : r ∈ c.rows ↔ r ∈ c.foundation.rows ∨
    (∃ t ∈ c.tables, r = ⟨.table, t.layout.name, t.layout.name, some t.sql⟩ ∨
      keyed t.layout = true ∧ r = ⟨.index, autoindex t.layout.name, t.layout.name, none⟩) ∨
    ∃ i ∈ c.indices, r = ⟨.index, i.layout.name, i.layout.table, some i.sql⟩ := by
  rw [rows, List.append_assoc, List.mem_append, List.mem_append, List.mem_flatMap, List.mem_map]
  refine or_congr Iff.rfl (or_congr (exists_congr fun t => and_congr_right fun _ => ?_)
    (exists_congr fun i => and_congr_right fun _ => eq_comm))
  rw [List.mem_cons]
  refine or_congr Iff.rfl ?_
  split_ifs with hkeyed <;> simp [hkeyed]

/-- Every other name is one of the two reserved kinds. -/
theorem name_cases {r : SchemaRow} (hr : r ∈ c.rows) : (∃ t ∈ c.tables, r.name = t.layout.name) ∨
    (∃ i ∈ c.indices, r.name = i.layout.name) ∨ lowerStarts r.name "sqlite_" = true ∨
    lowerStarts r.name RESERVED_PREFIX = true := by
  rcases mem_rows.1 hr with hr | ⟨t, ht, rfl | ⟨-, rfl⟩⟩ | ⟨i, hi, rfl⟩
  · rcases c.foundation.reserved r hr with h | h
    · exact .inr (.inr (.inr h))
    · exact .inr (.inr (.inl (lowerStarts_foundation _ h)))
  · exact .inl ⟨t, ht, rfl⟩
  · exact .inr (.inr (.inl (lowerStarts_autoindex _)))
  · exact .inr (.inl ⟨i, hi, rfl⟩)

/-! ## Refinement -/

/-- The layouts of the catalog. -/
def schema (c : Catalog) : SchemaLayout := ⟨c.tables.map (·.layout), c.indices.map (·.layout)⟩

/-- The store of layouts that the catalog stands for. -/
def store (c : Catalog) : ServiceStore Unit := { foundation := .ready, schema := c.schema }

theorem free_of_store {name : String} (hname : isIdentifier name = true) (hreserved : isSqliteReserved name = false)
    (h : c.store.hasName name = false) : c.free name = true := by
  obtain ⟨htables, hindices⟩ := ServiceStore.hasName_eq_false.1 h
  rw [free, lowerStarts_sqlite hname, hreserved, Bool.not_false, Bool.true_and, List.all_eq_true]
  intro r hr
  rw [decide_eq_true_eq]
  rintro rfl
  rcases name_cases hr with ⟨t, ht, heq⟩ | ⟨i, hi, heq⟩ | hstarts | hstarts
  · exact htables _ (List.mem_map_of_mem ht) heq.symm
  · exact hindices _ (List.mem_map_of_mem hi) heq.symm
  · rw [lowerStarts_sqlite hname, hreserved] at hstarts
    exact absurd hstarts (by simp)
  · rw [lowerStarts_reserved hname] at hstarts
    exact absurd hstarts (by simp)

/-- The table of a name is the one whose layout has it. -/
theorem find_store (name : String) :
    (c.store.schema.tables.find? fun t => t.name = name) = (c.table? name).map (·.layout) := by
  rw [store, schema, table?, List.find?_map]
  rfl

end Catalog

/-! ## Texts -/

/-- The text of the table says its layout. -/
structure StoredTable.Written (t : StoredTable) : Prop where
  columns : t.layout.columns ≠ []
  head : Lexes t.columnsSql (headWords t.layout)
  rest : Lexes t.restSql (restWords t.layout)
  ends : closed (t.restSql.dropWhile isSqlSpace) = true

namespace StoredTable.Written

variable {t : StoredTable}

theorem tokens_sql (h : t.Written) : tokens t.sql = some (headWords t.layout ++ restWords t.layout) :=
  (h.head.append h.rest (closed_of_dropWhile h.ends)).eq_tokens

/-- A table as it is created. -/
theorem create {e : RelationalEntity} (he : e.Valid) {relationships : List RelationalRelationship}
    (hr : ∀ r ∈ relationships, r.Valid) :
    StoredTable.Written ⟨readTable e relationships, Store.columnsSql e, Store.restSql relationships⟩ where
  columns := by
    rw [readTable, ne_eq, List.map_eq_nil_iff]
    exact List.ne_nil_of_length_pos he.length.1
  head := lexes_columnsSql he relationships
  rest := lexes_restSql hr e
  ends := by cases relationships <;> rfl

/-- A table that a column is written into. -/
theorem addColumn (R : Rewriting) (h : t.Written) {f : RelationalField} (hf : f.Valid) :
    StoredTable.Written ⟨{ t.layout with columns := t.layout.columns ++ [columnLayout f] },
      (R.add t.columnsSql t.restSql (fieldDeclaration f)).1, (R.add t.columnsSql t.restSql (fieldDeclaration f)).2⟩ where
  columns := by simp
  head := by
    obtain ⟨before, after, hbefore, hafter, heq⟩ := R.inserts t.columnsSql t.restSql (fieldDeclaration f)
    have hcolumn : Lexes (before ++ ',' :: (after ++ fieldDeclaration f)) ([','] :: columnWords (columnLayout f)) :=
      (((lexes_field hf).spaces hafter).punctuation rfl).spaces hbefore
    have hwords : headWords { t.layout with columns := t.layout.columns ++ [columnLayout f] } =
        headWords t.layout ++ [','] :: columnWords (columnLayout f) := by
      rw [headWords, commaWords_append h.columns, ← List.append_assoc]
      rfl
    rw [heq, hwords]
    exact h.head.append hcolumn (closed_spaces hbefore rfl)
  rest := h.rest.congr (R.keeps _ _ _).symm
  ends := by
    rw [R.keeps]
    exact h.ends

end StoredTable.Written

/-- The key of a valid entity. -/
theorem key_fields {e : RelationalEntity} (he : e.Valid) : (e.fields.filter (·.primaryKey)).map (·.name) = ["id"] := by
  have hnodup : ((e.fields.filter (·.primaryKey)).map (·.name)).Nodup :=
    he.distinct.sublist (List.filter_sublist.map _)
  have hid : (e.fields.filter (·.primaryKey)).map (·.name) = List.replicate (e.fields.filter (·.primaryKey)).length "id" := by
    rw [List.eq_replicate_iff, List.length_map]
    refine ⟨rfl, fun name hname => ?_⟩
    obtain ⟨f, hf, rfl⟩ := List.mem_map.1 hname
    obtain ⟨hf, hkey⟩ := List.mem_filter.1 hf
    exact he.onlyKey f hf hkey
  have hpos : 0 < (e.fields.filter (·.primaryKey)).length := by
    have hmem := he.managed { name := "id", type := .uuid, required := true, primaryKey := true } (by decide)
    exact List.length_pos_of_mem (List.mem_filter.2 ⟨hmem, rfl⟩)
  rw [hid, List.nodup_replicate] at hnodup
  rw [hid, show (e.fields.filter (·.primaryKey)).length = 1 by omega]
  rfl

theorem keys_readTable {e : RelationalEntity} (he : e.Valid) (relationships : List RelationalRelationship) :
    ((readTable e relationships).columns.filter (·.primaryKey)).length ≤ 1 := by
  rw [readTable, List.filter_map, List.length_map, ← List.length_map (f := fun f : RelationalField => f.name)]
  exact (congrArg List.length (key_fields he)).le

namespace Catalog

variable {c : Catalog} (R : Rewriting)

/-- Every text of the catalog says the layout it stands for. -/
structure Written (c : Catalog) : Prop where
  tables : ∀ t ∈ c.tables, t.Written
  indices : ∀ i ∈ c.indices, ∃ j, i = ⟨indexLayout j, createIndexSql j⟩
  tableNames : (c.tables.map (·.layout.name)).Nodup
  indexNames : (c.indices.map (·.layout.name)).Nodup

/-- A statement over the catalog. -/
structure Executed (c : Catalog) (left : ServiceStore Unit) (next : Catalog) : Prop where
  foundation : next.foundation = c.foundation
  store : next.store = left
  written : next.Written

theorem createTable_refines (hc : c.Written) {e : RelationalEntity} {relationships : List RelationalRelationship}
    {left : ServiceStore Unit} (hd : (Ddl.createTable e relationships).Valid)
    (h : c.store.execute (Ddl.createTable e relationships).statement = some left) :
    ∃ next, c.execute R (.createTable e relationships) = some next ∧ c.Executed left next := by
  obtain ⟨he, hreserved, hrelationships⟩ := hd
  have hfree : c.store.hasName e.name = false := by
    by_contra hnot
    rw [Bool.not_eq_false] at hnot
    rw [Ddl.statement, ServiceStore.execute, readTable, if_pos hnot] at h
    exact absurd h (by simp)
  have hleft : left = { c.store with schema := { c.store.schema with
      tables := c.store.schema.tables ++ [readTable e relationships] } } := by
    rw [Ddl.statement, ServiceStore.execute, readTable, hfree] at h
    exact (Option.some.inj h).symm
  have hnames : ((readTable e relationships).columns.map (·.name)).Nodup := by
    rw [readTable, List.map_map]
    exact he.distinct
  have hsources : (readTable e relationships).foreignKeys.all (fun k =>
      (readTable e relationships).columns.any fun x => x.name = k.field) = true := by
    rw [readTable, List.all_map, List.all_eq_true]
    intro r hr
    obtain ⟨f, hf, hname⟩ := (hrelationships r hr).2
    exact List.any_eq_true.2 ⟨columnLayout f, List.mem_map_of_mem hf, decide_eq_true hname⟩
  refine ⟨_, if_pos ⟨free_of_store he.name hreserved hfree, hnames, keys_readTable he _, hsources⟩, rfl, ?_,
    fun t ht => ?_, hc.indices, ?_, hc.indexNames⟩
  · rw [hleft, store, schema, List.map_append]
    rfl
  · rcases List.mem_append.1 ht with ht | ht
    · exact hc.tables t ht
    · rw [List.mem_singleton.1 ht]
      exact .create he fun r hr => (hrelationships r hr).1
  · rw [List.map_append, List.nodup_append]
    refine ⟨hc.tableNames, List.nodup_singleton _, fun x hx y hy => ?_⟩
    obtain ⟨t, ht, rfl⟩ := List.mem_map.1 hx
    rw [List.mem_singleton.1 hy]
    exact (ServiceStore.hasName_eq_false.1 hfree).1 t.layout (List.mem_map_of_mem ht)

/-- A table, with the column where it is the one. -/
def written (a : FieldAddition) (t : StoredTable) : StoredTable :=
  if t.layout.name = a.entity then
    let text := R.add t.columnsSql t.restSql (fieldDeclaration a.field)
    ⟨{ t.layout with columns := t.layout.columns ++ [columnLayout a.field] }, text.1, text.2⟩
  else t

theorem addColumn_refines (hc : c.Written) {a : FieldAddition} {left : ServiceStore Unit} (hd : (Ddl.addColumn a).Valid)
    (h : c.store.execute (Ddl.addColumn a).statement = some left) :
    ∃ next, c.execute R (.addColumn a) = some next ∧ c.Executed left next := by
  rw [Ddl.statement, ServiceStore.execute, find_store] at h
  obtain ⟨l, hl, hrest⟩ := Option.bind_eq_some_iff.1 h
  obtain ⟨t, hfind, rfl⟩ := Option.map_eq_some_iff.1 hl
  obtain ⟨u, hguard, hleft⟩ := Option.bind_eq_some_iff.1 hrest
  obtain ⟨hnull, hkey, hfresh⟩ := (Option.guard_eq_some' u).1 hguard
  have hexecuted : c.execute R (.addColumn a) = some { c with tables := c.tables.map (written R a) } := by
    rw [execute, hfind]
    exact if_pos ⟨hnull, hkey, hfresh⟩
  have hname : ∀ x, (written R a x).layout.name = x.layout.name := fun x => by
    rw [written]
    split_ifs <;> rfl
  refine ⟨_, hexecuted, rfl, ?_, fun x hx => ?_, hc.indices, ?_, hc.indexNames⟩
  · rw [← Option.some.inj hleft, store, schema, ServiceStore.withColumn, List.map_map, store, schema, List.map_map]
    congr 2
    refine List.map_congr_left fun x _ => ?_
    rw [Function.comp_apply, Function.comp_apply, written]
    split_ifs <;> rfl
  · obtain ⟨y, hy, rfl⟩ := List.mem_map.1 hx
    rw [written]
    split_ifs
    · exact (hc.tables y hy).addColumn R hd
    · exact hc.tables y hy
  · have hnames : (c.tables.map (written R a)).map (·.layout.name) = c.tables.map (·.layout.name) := by
      rw [List.map_map]
      exact List.map_congr_left fun x _ => hname x
    rw [hnames]
    exact hc.tableNames

theorem createIndex_refines (hc : c.Written) {i : RelationalIndex} {left : ServiceStore Unit} (hd : (Ddl.createIndex i).Valid)
    (h : c.store.execute (Ddl.createIndex i).statement = some left) :
    ∃ next, c.execute R (.createIndex i) = some next ∧ c.Executed left next := by
  rw [Ddl.statement, ServiceStore.execute, find_store] at h
  obtain ⟨l, hl, hrest⟩ := Option.bind_eq_some_iff.1 h
  obtain ⟨t, hfind, rfl⟩ := Option.map_eq_some_iff.1 hl
  obtain ⟨u, hguard, hleft⟩ := Option.bind_eq_some_iff.1 hrest
  obtain ⟨hname, hfields⟩ := (Option.guard_eq_some' u).1 hguard
  obtain ⟨-, -, hleft⟩ := Option.bind_eq_some_iff.1 hleft
  have hexecuted : c.execute R (.createIndex i) =
      some { c with indices := c.indices ++ [⟨indexLayout i, createIndexSql i⟩] } := by
    have hfind' : c.table? i.entity = some t := hfind
    rw [execute, hfind']
    exact if_pos ⟨free_of_store hd.1.name.1 hd.2 hname, hfields⟩
  refine ⟨_, hexecuted, rfl, ?_, hc.tables, fun x hx => ?_, hc.tableNames, ?_⟩
  · rw [← Option.some.inj hleft, store, schema, List.map_append]
    rfl
  · rcases List.mem_append.1 hx with hx | hx
    · exact hc.indices x hx
    · exact ⟨i, List.mem_singleton.1 hx⟩
  · rw [List.map_append, List.nodup_append]
    refine ⟨hc.indexNames, List.nodup_singleton _, fun x hx y hy => ?_⟩
    obtain ⟨j, hj, rfl⟩ := List.mem_map.1 hx
    rw [List.mem_singleton.1 hy]
    exact (ServiceStore.hasName_eq_false.1 hname).2 j.layout (List.mem_map_of_mem hj)

/-- **The catalog refines the store of layouts**, statement by statement. -/
theorem execute_refines (hc : c.Written) {d : Ddl} {left : ServiceStore Unit} (hd : d.Valid)
    (h : c.store.execute d.statement = some left) : ∃ next, c.execute R d = some next ∧ c.Executed left next := by
  cases d with
  | createTable e relationships => exact createTable_refines R hc hd h
  | addColumn a => exact addColumn_refines R hc hd h
  | createIndex i => exact createIndex_refines R hc hd h

/-- **And plan by plan.** -/
theorem executeAll_refines {plan : List Ddl} (hplan : ∀ d ∈ plan, d.Valid) (hc : c.Written) {left : ServiceStore Unit}
    (h : c.store.executeAll (plan.map Ddl.statement) = some left) :
    ∃ next, c.executeAll R plan = some next ∧ c.Executed left next := by
  induction plan generalizing c with
  | nil => exact ⟨c, rfl, rfl, Option.some.inj h, hc⟩
  | cons d plan ih =>
    rw [List.map_cons, ServiceStore.executeAll_cons] at h
    obtain ⟨middle, hmiddle, h⟩ := Option.bind_eq_some_iff.1 h
    obtain ⟨c', hc', hfoundation, rfl, hwritten⟩ := execute_refines R hc (hplan d List.mem_cons_self) hmiddle
    obtain ⟨next, hnext, hexecuted⟩ := ih (fun x hx => hplan x (List.mem_cons_of_mem _ hx)) hwritten h
    refine ⟨next, ?_, hexecuted.foundation.trans hfoundation, hexecuted.store, hexecuted.written⟩
    rw [executeAll, List.foldlM_cons, hc']
    exact hnext

end Catalog

/-! ## Chains of transitions -/

theorem statement_layoutDdl (s : RelationalSpecification) :
    (layoutDdl s).map Ddl.statement = layoutPlan (layout s) := by
  rw [layoutDdl, layoutPlan, layout, List.map_append, List.map_map, List.map_map, List.map_map, List.map_map]
  rfl

theorem statement_transitionDdl (t : RelationalTransition) :
    (transitionDdl t).map Ddl.statement = transitionPlan t := by
  rw [transitionDdl, transitionPlan, List.map_append, List.map_append, List.map_map, List.map_map, List.map_map]
  rfl

/-- The catalog of a store without a schema. -/
def Catalog.bare (f : FoundationRows) : Catalog := ⟨f, [], []⟩

/-- The catalog stands for the manifest. -/
structure Catalog.Holds (c : Catalog) (m : ManifestV2) : Prop where
  written : c.Written
  same : c.schema.Same (layout (compileManifest m))

section chains

variable (R : Rewriting) {c : Catalog} {a b m : ManifestV2}

/-- **A materialise on a bare store.** -/
theorem holds_materialised (f : FoundationRows) (m : ManifestV2) :
    ∃ c, (Catalog.bare f).executeAll R (layoutDdl (compileManifest m)) = some c ∧ c.Holds m := by
  have hbare : (Catalog.bare f).Written :=
    ⟨fun _ ht => absurd ht List.not_mem_nil, fun _ hi => absurd hi List.not_mem_nil, List.nodup_nil, List.nodup_nil⟩
  have hexecuted := @ServiceStore.executeAll_layoutPlan _ _ (Catalog.bare f).store m rfl fun _ => rfl
  rw [← statement_layoutDdl] at hexecuted
  obtain ⟨c, hc, -, hstore, hwritten⟩ := Catalog.executeAll_refines R (layoutDdl_valid m) hbare hexecuted
  refine ⟨c, hc, hwritten, ?_⟩
  have hschema : c.schema = layout (compileManifest m) := congrArg ServiceStore.schema hstore
  rw [hschema]
  exact .refl _

/-- **An accepted transition on a store that stands for its source.** -/
theorem holds_evolved (hc : c.Holds a) {x : RelationalTransition} (hx : buildTransition a b = some x) :
    ∃ c', c.executeAll R (transitionDdl x) = some c' ∧ c'.Holds b := by
  have haccepted := classifyTransition_eq_some ((buildTransition_eq a b).symm.trans hx)
  have hexecuted := @ServiceStore.executeAll_transitionPlan _ _ c.store _ _ _ haccepted hc.same
  -- no row stands in the way of a unique index
  have hdistinct : ∀ i ∈ x.additions.indices, i.unique = true →
      ServiceStore.DistinctOn (c.store.rows i.entity) i.fields := fun _ _ _ => List.Pairwise.nil
  rw [if_pos hdistinct, ← statement_transitionDdl] at hexecuted
  obtain ⟨c', hc', -, hstore, hwritten⟩ := Catalog.executeAll_refines R (transitionDdl_valid haccepted) hc.written hexecuted
  refine ⟨c', hc', hwritten, ?_⟩
  have hschema : c'.schema = ServiceStore.grown x c.schema := congrArg ServiceStore.schema hstore
  rw [hschema]
  exact ServiceStore.grown_same haccepted hc.same

end chains

end Lifecycle

end Aipcs

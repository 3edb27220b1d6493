import Aipcs.Lifecycle.CatalogRuns
import Mathlib.Data.List.DropRight

/-!
# Lifecycle — the inspector's answers

A catalog that stands for a manifest is found ready for it, whichever way
its tables have grown. For a manifest before it that had another
structure it is found incompatible.
-/

namespace Aipcs

namespace Lifecycle

open Manifest Relational Store

namespace Catalog

/-- The catalog as the inspector of a manifest finds it. -/
def inspect (c : Catalog) (m : ManifestV2) : Option DomainSchemaStatus :=
  (buildDomainSchemaLayout (compileManifest m)).map c.inspectDomain

/-- The DDL of a manifest, executed on a store without a schema. -/
def materialise (R : Rewriting) (f : FoundationRows) (m : ManifestV2) : Option Catalog := do
  let l ← buildDomainSchemaLayout (compileManifest m)
  (bare f).executeAll R l.ddl

/-- The DDL of one transition. -/
def evolve (R : Rewriting) (c : Catalog) (current target : ManifestV2) : Option Catalog := do
  let t ← buildTransition current target
  let l ← buildDomainTransitionLayout t
  c.executeAll R l.ddl

/-- The DDL of each transition of a chain. -/
def evolveAll (R : Rewriting) (c : Catalog) : List ManifestV2 → Option Catalog
  | a :: b :: rest => (c.evolve R a b).bind fun next => next.evolveAll R (b :: rest)
  | _ => some c

end Catalog

/-! ## Rows by name -/

section rows

variable {c : Catalog}

theorem rowNamed_any {rows : List SchemaRow} {name : String} {P : SchemaRow → Bool} (hsome : ∃ r ∈ rows, r.name = name)
    (hall : ∀ r ∈ rows, r.name = name → P r = true) : (Catalog.rowNamed rows name).any P = true := by
  obtain ⟨r, hr, hname⟩ := hsome
  obtain ⟨x, hx⟩ := Option.isSome_iff_exists.1
    (List.find?_isSome.2 ⟨r, List.mem_reverse.2 hr, decide_eq_true hname⟩ : (Catalog.rowNamed rows name).isSome)
  rw [show Catalog.rowNamed rows name = some x from hx, Option.any_some]
  exact hall x (List.mem_reverse.1 (List.mem_of_find?_eq_some hx)) (by simpa using List.find?_some hx)

theorem sameNames_iff {a b : List String} : Catalog.sameNames a b = true ↔ ∀ n, n ∈ a ↔ n ∈ b := by
  simp only [Catalog.sameNames, Bool.and_eq_true, List.all_eq_true, decide_eq_true_eq]
  exact ⟨fun h n => ⟨h.1 n, h.2 n⟩, fun h => ⟨fun n => (h n).1, fun n => (h n).2⟩⟩

/-- No name has both of the reserved prefixes. -/
theorem not_sqlite_of_reserved {name : String} (h : lowerStarts name RESERVED_PREFIX = true) :
    lowerStarts name "sqlite_" = false := by
  have hreserved : RESERVED_PREFIX.toList = '_' :: "_aipcs_".toList := rfl
  have hsqlite : "sqlite_".toList = 's' :: "qlite_".toList := rfl
  rw [lowerStarts, hreserved, List.isPrefixOf_iff_prefix] at h
  rw [lowerStarts, hsqlite, Bool.eq_false_iff, ne_eq, List.isPrefixOf_iff_prefix]
  obtain ⟨rest, hrest⟩ := h
  rw [← hrest, List.cons_append, List.cons_prefix_cons]
  exact fun hboth => absurd hboth.1 (by decide)

/-- The index of a domain table is not one of the foundation's. -/
theorem autoindex_notMem {name : String} (h : isIdentifier name = true) : autoindex name ∉ FOUNDATION_INDEX_XINFO := by
  have hfoundation : ∀ n ∈ FOUNDATION_INDEX_XINFO, (n.toList.drop 17).head? = some '_' := by decide
  intro hmem
  have hdrop : (autoindex name).toList.drop 17 = name.toList ++ "_1".toList := by
    rw [toList_autoindex, List.append_assoc]
    rfl
  have hhead := hfoundation _ hmem
  rw [hdrop] at hhead
  unfold isIdentifier at h
  split at h
  · exact absurd h (by simp)
  · next c rest hs =>
    rw [hs, List.cons_append, List.head?_cons, Option.some.injEq] at hhead
    rw [hhead] at h
    exact absurd h (by simp)

end rows

/-! ## What a catalog of a manifest has -/

theorem indexLayout_injective {i j : RelationalIndex} (h : indexLayout i = indexLayout j) : i = j := by
  obtain ⟨hname, htable, hfields, hunique⟩ := IndexLayout.mk.inj h
  cases i
  cases j
  simp only at hname htable hfields hunique
  rw [hname, htable, hfields, hunique]

/-- The key is a text, so that it has an index of its own. -/
theorem keyed_entity {e : RelationalEntity} (he : e.Valid) (relationships : List RelationalRelationship) :
    Catalog.keyed (tableLayout relationships e) = true := by
  have hmem := he.managed { name := "id", type := .uuid, required := true, primaryKey := true } (by decide)
  exact List.any_eq_true.2 ⟨_, List.mem_map_of_mem hmem, rfl⟩

namespace Catalog.Holds

variable {c : Catalog} {m : ManifestV2}

theorem table_entity (hc : c.Holds m) {t : StoredTable} (ht : t ∈ c.tables) :
    ∃ e ∈ (compileManifest m).entities, t.layout = tableLayout (compileManifest m).relationships e := by
  obtain ⟨e, he, heq⟩ := List.mem_map.1 ((hc.same.1 t.layout).1 (List.mem_map_of_mem ht))
  exact ⟨e, he, heq.symm⟩

theorem entity_table (hc : c.Holds m) {e : RelationalEntity} (he : e ∈ (compileManifest m).entities) :
    ∃ t ∈ c.tables, t.layout = tableLayout (compileManifest m).relationships e :=
  List.mem_map.1 ((hc.same.1 _).2 (List.mem_map_of_mem he))

/-- The table of an entity. -/
theorem table?_entity (hc : c.Holds m) {e : RelationalEntity} (he : e ∈ (compileManifest m).entities) :
    ∃ t, c.table? e.name = some t ∧ t.layout = tableLayout (compileManifest m).relationships e ∧ t.Written := by
  obtain ⟨t, ht, hlayout⟩ := hc.entity_table he
  refine ⟨t, (find?_name_eq_some_iff hc.written.tableNames).2 ⟨ht, ?_⟩, hlayout, hc.written.tables t ht⟩
  rw [hlayout]
  rfl

theorem mem_indices (hc : c.Holds m) {x : StoredIndex} :
    x ∈ c.indices ↔ ∃ i ∈ (compileManifest m).indices, x = ⟨indexLayout i, createIndexSql i⟩ := by
  constructor
  · intro hx
    obtain ⟨j, rfl⟩ := hc.written.indices x hx
    obtain ⟨i, hi, heq⟩ := List.mem_map.1 ((hc.same.2 (indexLayout j)).1 (List.mem_map_of_mem hx))
    exact ⟨i, hi, by rw [indexLayout_injective heq]⟩
  · rintro ⟨i, hi, rfl⟩
    obtain ⟨x, hx, heq⟩ := List.mem_map.1 ((hc.same.2 (indexLayout i)).2 (List.mem_map_of_mem hi))
    obtain ⟨j, rfl⟩ := hc.written.indices x hx
    rwa [← indexLayout_injective heq]

/-- The internal rows are the foundation's, and the implicit indices. -/
theorem mem_internalRows (hc : c.Holds m) {r : SchemaRow} : r ∈ c.internalRows ↔
    (r ∈ c.foundation.rows ∧ r.name ∈ FOUNDATION_INDEX_XINFO) ∨
      ∃ e ∈ (compileManifest m).entities, r = ⟨.index, autoindex e.name, e.name, none⟩ := by
  have hvalid := compileManifest_valid m
  rw [internalRows, List.mem_filter, mem_rows]
  constructor
  · rintro ⟨hr | ⟨t, ht, rfl | ⟨-, rfl⟩⟩ | ⟨x, hx, rfl⟩, hsqlite⟩
    · refine .inl ⟨hr, (c.foundation.reserved r hr).resolve_left fun hreserved => ?_⟩
      rw [not_sqlite_of_reserved hreserved] at hsqlite
      exact absurd hsqlite (by simp)
    · obtain ⟨e, he, heq⟩ := hc.table_entity ht
      have hname : t.layout.name = e.name := by rw [heq]; rfl
      rw [hname, lowerStarts_sqlite (hvalid.entities e he).name, hvalid.entityReserved e he] at hsqlite
      exact absurd hsqlite (by simp)
    · obtain ⟨e, he, heq⟩ := hc.table_entity ht
      exact .inr ⟨e, he, by rw [heq]; rfl⟩
    · obtain ⟨i, hi, rfl⟩ := hc.mem_indices.1 hx
      rw [show (indexLayout i).name = i.name from rfl, lowerStarts_sqlite (hvalid.indices i hi).name.1,
        hvalid.indexReserved i hi] at hsqlite
      exact absurd hsqlite (by simp)
  · rintro (⟨hr, hname⟩ | ⟨e, he, rfl⟩)
    · exact ⟨.inl hr, lowerStarts_foundation _ hname⟩
    · obtain ⟨t, ht, heq⟩ := hc.entity_table he
      refine ⟨.inr (.inl ⟨t, ht, .inr ⟨?_, ?_⟩⟩), lowerStarts_autoindex _⟩
      · rw [heq]
        exact keyed_entity (hvalid.entities e he) _
      · rw [heq]
        rfl

/-- The rows of the domain are its tables and its explicit indices. -/
theorem mem_objectRows (hc : c.Holds m) {r : SchemaRow} : r ∈ c.objectRows ↔
    (∃ t ∈ c.tables, r = ⟨.table, t.layout.name, t.layout.name, some t.sql⟩) ∨
      ∃ i ∈ (compileManifest m).indices, r = ⟨.index, i.name, i.entity, some (createIndexSql i)⟩ := by
  have hvalid := compileManifest_valid m
  rw [objectRows, List.mem_filter, mem_rows, Bool.not_eq_true', Bool.or_eq_false_iff]
  constructor
  · rintro ⟨hr | ⟨t, ht, rfl | ⟨-, rfl⟩⟩ | ⟨x, hx, rfl⟩, hsqlite, hreserved⟩
    · rcases c.foundation.reserved r hr with h | h
      · rw [h] at hreserved
        exact absurd hreserved (by simp)
      · rw [lowerStarts_foundation _ h] at hsqlite
        exact absurd hsqlite (by simp)
    · exact .inl ⟨t, ht, rfl⟩
    · rw [lowerStarts_autoindex] at hsqlite
      exact absurd hsqlite (by simp)
    · obtain ⟨i, hi, rfl⟩ := hc.mem_indices.1 hx
      exact .inr ⟨i, hi, rfl⟩
  · rintro (⟨t, ht, rfl⟩ | ⟨i, hi, rfl⟩)
    · obtain ⟨e, he, heq⟩ := hc.table_entity ht
      have hname : t.layout.name = e.name := by rw [heq]; rfl
      refine ⟨.inr (.inl ⟨t, ht, .inl rfl⟩), ?_, ?_⟩
      · rw [hname, lowerStarts_sqlite (hvalid.entities e he).name, hvalid.entityReserved e he]
      · rw [hname, lowerStarts_reserved (hvalid.entities e he).name]
    · refine ⟨.inr (.inr ⟨_, hc.mem_indices.2 ⟨i, hi, rfl⟩, rfl⟩), ?_, ?_⟩
      · rw [lowerStarts_sqlite (hvalid.indices i hi).name.1, hvalid.indexReserved i hi]
      · rw [lowerStarts_reserved (hvalid.indices i hi).name.1]

/-! ## The checks, one by one -/

section checks

variable {l : DomainSchemaLayout}

theorem internal_names (hc : c.Holds m) (hl : Builds (compileManifest m) l) :
    sameNames (c.internalRows.map (·.name))
      (FOUNDATION_INDEX_XINFO ++ l.tables.map (·.implicitPrimaryKeyIndex.info.name)) = true := by
  rw [sameNames_iff, hl.tables]
  intro n
  rw [List.mem_map, List.mem_append, List.map_map, List.mem_map]
  constructor
  · rintro ⟨r, hr, rfl⟩
    rcases hc.mem_internalRows.1 hr with ⟨-, h⟩ | ⟨e, he, rfl⟩
    · exact .inl h
    · exact .inr ⟨e, he, rfl⟩
  · rintro (h | ⟨e, he, rfl⟩)
    · obtain ⟨r, hr, rfl⟩ := List.mem_map.1 (c.foundation.internal n h)
      exact ⟨r, hc.mem_internalRows.2 (.inl ⟨hr, h⟩), rfl⟩
    · exact ⟨_, hc.mem_internalRows.2 (.inr ⟨e, he, rfl⟩), rfl⟩

theorem autoindexes (hc : c.Holds m) (hl : Builds (compileManifest m) l) : l.tables.all c.autoindexMatches = true := by
  rw [hl.tables, List.all_map, List.all_eq_true]
  intro e he
  refine rowNamed_any ⟨_, hc.mem_internalRows.2 (.inr ⟨e, he, rfl⟩), rfl⟩ fun r hr hname => ?_
  rcases hc.mem_internalRows.1 hr with ⟨-, h⟩ | ⟨f, hf, rfl⟩
  · rw [hname] at h
    exact absurd h (autoindex_notMem ((compileManifest_valid m).entities e he).name)
  · have hsame : f.name = e.name := autoindex_injective hname
    simp [domainTable, hsame]

theorem object_names (hc : c.Holds m) (hl : Builds (compileManifest m) l) :
    sameNames (c.objectRows.map (·.name)) (l.tables.map (·.name) ++ l.indices.map (·.2.info.name)) = true := by
  rw [sameNames_iff, hl.tables, hl.index_names]
  intro n
  rw [List.mem_map, List.mem_append, List.map_map, List.mem_map, List.mem_map]
  constructor
  · rintro ⟨r, hr, rfl⟩
    rcases hc.mem_objectRows.1 hr with ⟨t, ht, rfl⟩ | ⟨i, hi, rfl⟩
    · obtain ⟨e, he, heq⟩ := hc.table_entity ht
      refine .inl ⟨e, he, ?_⟩
      rw [heq]
      rfl
    · exact .inr ⟨i, hi, rfl⟩
  · rintro (⟨e, he, rfl⟩ | ⟨i, hi, rfl⟩)
    · obtain ⟨t, ht, heq⟩ := hc.entity_table he
      refine ⟨_, hc.mem_objectRows.2 (.inl ⟨t, ht, rfl⟩), ?_⟩
      rw [heq]
      rfl
    · exact ⟨_, hc.mem_objectRows.2 (.inr ⟨i, hi, rfl⟩), rfl⟩

/-- A table's row. -/
theorem table_row (hc : c.Holds m) {e : RelationalEntity} (he : e ∈ (compileManifest m).entities) {r : SchemaRow}
    (hr : r ∈ c.objectRows) (hname : r.name = e.name) : ∃ t : StoredTable, t.Written ∧
      t.layout = tableLayout (compileManifest m).relationships e ∧ r = ⟨.table, e.name, e.name, some t.sql⟩ := by
  rcases hc.mem_objectRows.1 hr with ⟨t, ht, rfl⟩ | ⟨i, hi, rfl⟩
  · obtain ⟨f, hf, heq⟩ := hc.table_entity ht
    have hsame : f = e := by
      refine eq_of_name_eq nodup_entities hf he (Eq.trans ?_ hname)
      rw [heq]
      rfl
    subst hsame
    refine ⟨t, hc.written.tables t ht, heq, ?_⟩
    rw [show t.layout.name = f.name from hname]
  · exact absurd hname (index_name_ne_entity_name he hi)

theorem table_exists (hc : c.Holds m) {e : RelationalEntity} (he : e ∈ (compileManifest m).entities) :
    ∃ r ∈ c.objectRows, r.name = e.name := by
  obtain ⟨t, ht, heq⟩ := hc.entity_table he
  refine ⟨_, hc.mem_objectRows.2 (.inl ⟨t, ht, rfl⟩), ?_⟩
  rw [heq]
  rfl

/-- **The text kept of a table is the text expected**, up to white space. -/
theorem table_text (hc : c.Holds m) {e : RelationalEntity} (he : e ∈ (compileManifest m).entities) :
    ((rowNamed c.objectRows e.name).any fun r => r.type = .table && r.tblName = e.name &&
      r.sql.any fun text => sqlTokensEqual text (domainTable (compileManifest m).relationships e).sql) = true := by
  have hvalid := compileManifest_valid m
  have hentity := hvalid.entities e he
  refine rowNamed_any (hc.table_exists he) fun r hr hname => ?_
  obtain ⟨t, ht, heq, rfl⟩ := hc.table_row he hr hname
  -- the expected text is that of a table just created
  have hfresh : StoredTable.Written ⟨readTable e ((compileManifest m).relationships.filter fun r => r.sourceEntity = e.name),
      columnsSql e, restSql ((compileManifest m).relationships.filter fun r => r.sourceEntity = e.name)⟩ :=
    .create hentity fun r hr => hvalid.relationships r (List.mem_filter.1 hr).1
  have htext : (domainTable (compileManifest m).relationships e).sql = columnsSql e ++
      restSql ((compileManifest m).relationships.filter fun r => r.sourceEntity = e.name) :=
    createTableSql_eq (List.ne_nil_of_length_pos hentity.length.1) _
  have hexpected : tokens (domainTable (compileManifest m).relationships e).sql = tokens t.sql := by
    have hwords := hfresh.tokens_sql
    rw [StoredTable.sql] at hwords
    rw [htext, hwords, ht.tokens_sql, heq]
    rfl
  have hequal : sqlTokensEqual t.sql (domainTable (compileManifest m).relationships e).sql = true := by
    rw [sqlTokensEqual, hexpected, ht.tokens_sql, Option.isSome_some, decide_eq_true rfl, Bool.and_true]
  rw [Option.any_some, hequal, decide_eq_true rfl, decide_eq_true rfl, Bool.and_true, Bool.and_true]

theorem table_xinfo (hc : c.Holds m) {e : RelationalEntity} (he : e ∈ (compileManifest m).entities) :
    c.tableXinfo e.name = (domainTable (compileManifest m).relationships e).xinfo := by
  obtain ⟨t, ht, heq, -⟩ := hc.table?_entity he
  rw [tableXinfo, ht]
  simp only [heq, tableLayout, domainTable, List.zipIdx_map, List.map_map]
  refine List.map_congr_left fun p hp => ?_
  have hfield := ((compileManifest_valid m).entities e he).fields p.1 (List.fst_mem_of_mem_zipIdx hp)
  have hnull : (p.1.required || p.1.primaryKey) = p.1.required := by
    cases hkey : p.1.primaryKey with
    | false => rw [Bool.or_false]
    | true => rw [hfield.primaryKey hkey, Bool.true_or]
  simp [columnLayout, hnull]

theorem table_keys (hc : c.Holds m) {e : RelationalEntity} (he : e ∈ (compileManifest m).entities) :
    c.foreignKeyList e.name = (domainTable (compileManifest m).relationships e).foreignKeys := by
  obtain ⟨t, ht, heq, -⟩ := hc.table?_entity he
  rw [foreignKeyList, ht]
  simp only [heq, tableLayout, domainTable, ← List.map_reverse, List.zipIdx_map, List.map_map]
  rfl

theorem perm_tables (hc : c.Holds m) : (c.tables.map (·.layout)).Perm
    ((compileManifest m).entities.map (tableLayout (compileManifest m).relationships)) := by
  refine (List.perm_ext_iff_of_nodup ?_ ?_).2 hc.same.1
  · refine List.Nodup.of_map TableLayout.name ?_
    rw [List.map_map]
    exact hc.written.tableNames
  · exact List.Nodup.of_map _ (@named_layout m)

theorem perm_indices (hc : c.Holds m) :
    c.indices.Perm ((compileManifest m).indices.map fun i => ⟨indexLayout i, createIndexSql i⟩) := by
  refine (List.perm_ext_iff_of_nodup hc.written.indexNames.of_map ?_).2 fun x => ?_
  · refine List.Nodup.of_map (fun x : StoredIndex => x.layout.name) ?_
    rw [List.map_map]
    exact nodup_indices
  · rw [hc.mem_indices, List.mem_map]
    exact exists_congr fun i => and_congr_right fun _ => eq_comm

/-- **The indices of a table**, in whatever order. -/
theorem table_indices (hc : c.Holds m) (hl : Builds (compileManifest m) l) (e : RelationalEntity) :
    (c.indexList e.name).Perm ((l.allIndices.filter fun i => i.table = e.name).map (·.info)) := by
  have hcreated : ((c.indices.filter fun i => i.layout.table = e.name).map fun i =>
      (⟨i.layout.name, i.layout.unique, .created, false⟩ : IndexInfo)).Perm
      (((l.indices.map Prod.snd).filter fun i => i.table = e.name).map (·.info)) := by
    have hpairs : ((l.indices.map Prod.snd).filter fun i => i.table = e.name).map (·.info) =
        ((l.indices.map fun x => (x.2.table, x.2.info)).filter fun p => p.1 = e.name).map Prod.snd := by
      rw [List.filter_map, List.filter_map, List.map_map, List.map_map]
      rfl
    rw [hpairs, hl.index_infos]
    refine ((hc.perm_indices.filter _).map _).trans (List.Perm.of_eq ?_)
    rw [List.filter_map, List.filter_map, List.map_map, List.map_map]
    rfl
  have himplicit : ((c.tables.filter fun t => t.layout.name = e.name && keyed t.layout).map fun t =>
      (⟨autoindex t.layout.name, true, .primaryKey, false⟩ : IndexInfo)).Perm
      (((l.tables.map (·.implicitPrimaryKeyIndex)).filter fun i => i.table = e.name).map (·.info)) := by
    have hlayouts : (c.tables.filter fun t => t.layout.name = e.name && keyed t.layout).map (fun t =>
        (⟨autoindex t.layout.name, true, .primaryKey, false⟩ : IndexInfo)) =
        ((c.tables.map (·.layout)).filter fun t => t.name = e.name && keyed t).map fun t =>
          ⟨autoindex t.name, true, .primaryKey, false⟩ := by
      rw [List.filter_map, List.map_map]
      rfl
    rw [hlayouts, hl.tables]
    refine ((hc.perm_tables.filter _).map _).trans (List.Perm.of_eq ?_)
    rw [List.filter_map, List.map_map, List.map_map, List.filter_map, List.map_map]
    have hkeyed : (compileManifest m).entities.filter ((fun t : TableLayout => decide (t.name = e.name) && keyed t) ∘
        tableLayout (compileManifest m).relationships) = (compileManifest m).entities.filter fun f => f.name = e.name := by
      refine List.filter_congr fun f hf => ?_
      rw [Function.comp_apply, keyed_entity ((compileManifest_valid m).entities f hf), Bool.and_true]
      rfl
    rw [hkeyed]
    rfl
  rw [indexList, DomainSchemaLayout.allIndices, List.filter_append, List.map_append]
  exact hcreated.append himplicit

theorem tables_match (hc : c.Holds m) (hl : Builds (compileManifest m) l) : l.tables.all (c.tableMatches l) = true := by
  rw [hl.tables, List.all_map, List.all_eq_true]
  intro e he
  rw [Function.comp_apply, tableMatches, Bool.and_eq_true, Bool.and_eq_true, Bool.and_eq_true, decide_eq_true_eq,
    decide_eq_true_eq, decide_eq_true_eq]
  exact ⟨⟨⟨hc.table_text he, hc.table_xinfo he⟩, hc.table_keys he⟩, hc.table_indices hl e⟩

theorem indices_match (hc : c.Holds m) (hl : Builds (compileManifest m) l) :
    l.indices.all (fun i => c.indexMatches i.2) = true := by
  rw [List.all_eq_true]
  intro x hx
  obtain ⟨i, hi, hx⟩ := hl.mem_indices hx
  obtain ⟨-, -, -, rfl⟩ := domainIndex_eq_some hx
  refine rowNamed_any ⟨_, hc.mem_objectRows.2 (.inr ⟨i, hi, rfl⟩), rfl⟩ fun r hr hname => ?_
  rcases hc.mem_objectRows.1 hr with ⟨t, ht, rfl⟩ | ⟨j, hj, rfl⟩
  · obtain ⟨e, he, heq⟩ := hc.table_entity ht
    have hentity : e.name = i.name := by
      refine Eq.trans ?_ hname
      rw [heq]
      rfl
    exact absurd hentity.symm (index_name_ne_entity_name he hi)
  · obtain rfl := eq_of_name_eq nodup_indices hj hi hname
    simp

/-- The columns of an index. -/
theorem created_xinfo (hc : c.Holds m) {i : RelationalIndex} (hi : i ∈ (compileManifest m).indices)
    {e : RelationalEntity} (he : e ∈ (compileManifest m).entities) (hname : e.name = i.entity) :
    c.indexXinfo i.name = indexColumns (e.fields.map (·.name)) i.fields := by
  have hfind : (c.indices.find? fun x => x.layout.name = i.name) = some ⟨indexLayout i, createIndexSql i⟩ :=
    (find?_name_eq_some_iff hc.written.indexNames).2 ⟨hc.mem_indices.2 ⟨i, hi, rfl⟩, rfl⟩
  obtain ⟨t, ht, heq, -⟩ := hc.table?_entity he
  rw [hname] at ht
  have hcolumns : t.layout.columns.map (·.name) = e.fields.map (·.name) := by
    rw [heq, tableLayout, List.map_map]
    rfl
  rw [indexXinfo, hfind]
  simp only [indexLayout, ht, hcolumns]

/-- The columns of an implicit index. -/
theorem implicit_xinfo (hc : c.Holds m) {e : RelationalEntity} (he : e ∈ (compileManifest m).entities) :
    c.indexXinfo (autoindex e.name) = indexColumns (e.fields.map (·.name)) ["id"] := by
  have hvalid := compileManifest_valid m
  have hnone : (c.indices.find? fun x => x.layout.name = autoindex e.name) = none := by
    rw [List.find?_eq_none]
    intro x hx hname
    obtain ⟨i, hi, rfl⟩ := hc.mem_indices.1 hx
    have hsqlite := lowerStarts_autoindex e.name
    rw [← of_decide_eq_true hname, show (indexLayout i).name = i.name from rfl,
      lowerStarts_sqlite (hvalid.indices i hi).name.1, hvalid.indexReserved i hi] at hsqlite
    exact absurd hsqlite (by simp)
  obtain ⟨u, hu, hlayout⟩ := hc.entity_table he
  have hsome : (c.tables.find? fun t => keyed t.layout && autoindex t.layout.name = autoindex e.name).isSome := by
    rw [List.find?_isSome]
    refine ⟨u, hu, ?_⟩
    rw [hlayout, keyed_entity (hvalid.entities e he), Bool.true_and]
    exact decide_eq_true rfl
  obtain ⟨t, ht⟩ := Option.isSome_iff_exists.1 hsome
  have hfound := List.find?_some ht
  rw [Bool.and_eq_true, decide_eq_true_eq] at hfound
  -- the table found is the entity's
  have heq : t = u := by
    refine List.inj_on_of_nodup_map hc.written.tableNames (List.mem_of_find?_eq_some ht) hu ?_
    rw [autoindex_injective hfound.2, hlayout]
    rfl
  have hcolumns : t.layout.columns.map (·.name) = e.fields.map (·.name) := by
    rw [heq, hlayout, tableLayout, List.map_map]
    rfl
  have hkey : (t.layout.columns.filter (·.primaryKey)).map (·.name) = ["id"] := by
    rw [heq, hlayout, tableLayout, List.filter_map, List.map_map]
    exact key_fields (hvalid.entities e he)
  rw [indexXinfo, hnone, ht]
  simp only [hcolumns, hkey]

theorem xinfo_match (hc : c.Holds m) (hl : Builds (compileManifest m) l) :
    l.allIndices.all (fun i => decide (c.indexXinfo i.info.name = i.xinfo)) = true := by
  rw [DomainSchemaLayout.allIndices, List.all_append, Bool.and_eq_true, List.all_map, List.all_map, hl.tables,
    List.all_map, List.all_eq_true, List.all_eq_true]
  constructor
  · intro x hx
    obtain ⟨i, hi, hx⟩ := hl.mem_indices hx
    obtain ⟨e, he, hname, rfl⟩ := domainIndex_eq_some hx
    exact decide_eq_true (hc.created_xinfo hi he hname)
  · exact fun e he => decide_eq_true (hc.implicit_xinfo he)

theorem clean (hc : c.Holds m) : c.foreignKeysClean = true := by
  have hvalid := compileManifest_valid m
  rw [foreignKeysClean, List.all_eq_true]
  intro t ht
  rw [List.all_eq_true]
  intro k hk
  obtain ⟨e, he, heq⟩ := hc.table_entity ht
  rw [heq] at hk
  obtain ⟨r, hr, rfl⟩ := List.mem_map.1 hk
  -- the target's key is where the relationship leads
  obtain ⟨f, hf, -, hkey⟩ := (hvalid.endpoints r (List.mem_filter.1 hr).1).target
  obtain ⟨d, hd, hfield⟩ := Option.bind_eq_some_iff.1 hf
  obtain ⟨hmem, hname⟩ := (find?_name_eq_some_iff nodup_entities).1 hd
  obtain ⟨p, hp, hlayout, -⟩ := hc.table?_entity hmem
  have hfound : c.table? (foreignKeyLayout r).target = some p := by
    rw [← hp, hname]
    rfl
  have hcolumn : p.layout.columns.any (fun x => x.name = (foreignKeyLayout r).targetField && x.primaryKey) = true := by
    rw [hlayout, List.any_eq_true]
    refine ⟨columnLayout f, List.mem_map_of_mem (List.mem_of_find?_eq_some hfield), ?_⟩
    have hfname : f.name = r.targetField := by simpa using List.find?_some hfield
    simp [columnLayout, foreignKeyLayout, hkey, hfname]
  rw [hfound, Option.all_some, hcolumn, Bool.true_or]

theorem objects_ne_nil (hc : c.Holds m) : c.objectRows.map (·.name) ≠ [] := by
  obtain ⟨e, he⟩ := List.exists_mem_of_ne_nil _ (@entities_ne_nil m)
  obtain ⟨r, hr, -⟩ := hc.table_exists he
  exact List.ne_nil_of_mem (List.mem_map_of_mem hr)

/-- **A catalog is found ready for the manifest it stands for.** -/
theorem inspectDomain_ready (hc : c.Holds m) (hl : Builds (compileManifest m) l) : c.inspectDomain l = .ready := by
  unfold inspectDomain
  simp only [hc.objects_ne_nil, hc.internal_names hl, hc.autoindexes hl, hc.object_names hl, hc.tables_match hl,
    hc.indices_match hl, hc.xinfo_match hl, hc.clean, if_false, Bool.not_true, Bool.false_eq_true]

/-! ## Another manifest's layout -/

/-- The columns of a table are as many as its entity's fields. -/
theorem fields_of_matches {e f : RelationalEntity} (hc : c.Holds m) (hf : f ∈ (compileManifest m).entities)
    (hname : e.name = f.name) {relationships : List RelationalRelationship}
    (h : c.tableXinfo e.name = (domainTable relationships e).xinfo) : f.fields.length = e.fields.length := by
  have hlength := congrArg List.length (((hc.table_xinfo hf).symm.trans (hname ▸ rfl)).trans h)
  simpa [domainTable] using hlength

end checks

end Catalog.Holds

/-- The structure of two specifications is one. -/
def SameStructure (s t : RelationalSpecification) : Prop :=
  s.entities = t.entities ∧ s.relationships = t.relationships ∧ s.indices = t.indices

instance (s t : RelationalSpecification) : Decidable (SameStructure s t) := inferInstanceAs (Decidable (_ ∧ _))

section earlier

variable {c : Catalog} {a b : ManifestV2} {l : DomainSchemaLayout}

/-- An entity of the target is found in what the inspector of the source looks for. -/
theorem entity_of_ready (hc : c.Holds b) (ha : Builds (compileManifest a) l)
    (hext : Extends (compileManifest a) (compileManifest b))
    (hnames : Catalog.sameNames (c.objectRows.map (·.name)) (l.tables.map (·.name) ++ l.indices.map (·.2.info.name)) = true)
    (hmatch : l.tables.all (c.tableMatches l) = true) {f : RelationalEntity} (hf : f ∈ (compileManifest b).entities) :
    f ∈ (compileManifest a).entities := by
  obtain ⟨r, hr, hrname⟩ := hc.table_exists hf
  have hmem := (sameNames_iff.1 hnames f.name).1 (hrname ▸ List.mem_map_of_mem hr)
  rw [List.mem_append, ha.tables, ha.index_names, List.map_map] at hmem
  rcases hmem with hmem | hmem
  · obtain ⟨e, he, hname⟩ := List.mem_map.1 hmem
    replace hname : e.name = f.name := hname
    obtain ⟨g, hg, hename, added, hfields, -⟩ := hext.entities e he
    obtain rfl := eq_of_name_eq nodup_entities hg hf (hename.symm.trans hname)
    -- it has not grown, for the columns are as many
    rw [ha.tables, List.all_map, List.all_eq_true] at hmatch
    have htable := hmatch e he
    rw [Function.comp_apply, Catalog.tableMatches, Bool.and_eq_true, Bool.and_eq_true, Bool.and_eq_true, decide_eq_true_eq,
      decide_eq_true_eq, decide_eq_true_eq] at htable
    have hlength := hc.fields_of_matches hf hname htable.1.1.2
    have hnone : added = [] := by
      rw [hfields, List.length_append] at hlength
      exact List.length_eq_zero_iff.1 (by omega)
    rw [hnone, List.append_nil] at hfields
    have heq : e = g := by
      cases e
      cases g
      simp only at hname hfields
      rw [hname, hfields]
    rwa [← heq]
  · obtain ⟨i, hi, hname⟩ := List.mem_map.1 hmem
    exact absurd hname (index_name_ne_entity_name hf (hext.indices i hi))

theorem index_of_ready (hc : c.Holds b) (ha : Builds (compileManifest a) l)
    (hext : Extends (compileManifest a) (compileManifest b))
    (hnames : Catalog.sameNames (c.objectRows.map (·.name)) (l.tables.map (·.name) ++ l.indices.map (·.2.info.name)) = true)
    {j : RelationalIndex} (hj : j ∈ (compileManifest b).indices) : j ∈ (compileManifest a).indices := by
  have hrow := hc.mem_objectRows.2 (.inr ⟨j, hj, rfl⟩)
  have hmem := (sameNames_iff.1 hnames j.name).1 (List.mem_map_of_mem hrow)
  rw [List.mem_append, ha.tables, ha.index_names, List.map_map] at hmem
  rcases hmem with hmem | hmem
  · obtain ⟨e, he, hname⟩ := List.mem_map.1 hmem
    obtain ⟨g, hg, hename, -⟩ := hext.entities e he
    exact absurd (Eq.trans hname.symm hename) (index_name_ne_entity_name hg hj)
  · obtain ⟨i, hi, hname⟩ := List.mem_map.1 hmem
    rwa [← eq_of_name_eq nodup_indices (hext.indices i hi) hj hname]

/-- What has been compared where nothing was found to differ. -/
theorem names_of_compatible (hc : c.Holds b) (h : c.inspectDomain l ≠ .incompatible) :
    Catalog.sameNames (c.objectRows.map (·.name)) (l.tables.map (·.name) ++ l.indices.map (·.2.info.name)) = true ∧
      l.tables.all (c.tableMatches l) = true := by
  have hobjects := hc.objects_ne_nil
  unfold Catalog.inspectDomain at h
  simp only [hobjects, if_false] at h
  split_ifs at h with hinternal hauto hnames htables <;> first | exact absurd rfl h | skip
  all_goals exact ⟨by simpa using hnames, by simpa using htables⟩

/-- Lists in name order with the same entries are one. -/
theorem eq_of_mem_iff {α : Type} {name : α → String} {s t : List α} (hs : (s.map name).Pairwise (· ≤ ·))
    (ht : (t.map name).Pairwise (· ≤ ·)) (hsn : (s.map name).Nodup) (htn : (t.map name).Nodup)
    (h : ∀ x, x ∈ s ↔ x ∈ t) : s = t :=
  eq_of_sorted hs ht htn ((List.perm_ext_iff_of_nodup hsn.of_map htn.of_map).2 h)

/-- **A manifest before that had another structure is refused.** -/
theorem inspectDomain_earlier (hc : c.Holds b) (ha : Builds (compileManifest a) l)
    (hext : Extends (compileManifest a) (compileManifest b))
    (hdiff : ¬ SameStructure (compileManifest a) (compileManifest b)) : c.inspectDomain l = .incompatible := by
  by_contra hnot
  obtain ⟨hnames, hmatch⟩ := names_of_compatible hc hnot
  have hvalid := compileManifest_valid a
  have htarget := compileManifest_valid b
  have hentities : ∀ e, e ∈ (compileManifest a).entities ↔ e ∈ (compileManifest b).entities := by
    refine fun e => ⟨fun he => ?_, fun he => entity_of_ready hc ha hext hnames hmatch he⟩
    obtain ⟨f, hf, hgrown⟩ := hext.entities e he
    have hkept := entity_of_ready hc ha hext hnames hmatch hf
    rwa [eq_of_name_eq nodup_entities he hkept hgrown.name]
  have hindices : ∀ i, i ∈ (compileManifest a).indices ↔ i ∈ (compileManifest b).indices :=
    fun i => ⟨hext.indices i, fun hi => index_of_ready hc ha hext hnames hi⟩
  have hrelationships : ∀ r, r ∈ (compileManifest a).relationships ↔ r ∈ (compileManifest b).relationships := by
    refine fun r => ⟨hext.relationships r, fun hr => ?_⟩
    by_contra hadded
    -- a relationship that is added starts at an entity that is added
    obtain ⟨f, hf, -⟩ := (htarget.endpoints r hr).source
    obtain ⟨d, hd, -⟩ := Option.bind_eq_some_iff.1 hf
    obtain ⟨hmem, hname⟩ := (find?_name_eq_some_iff nodup_entities).1 hd
    exact hext.added r hr hadded d ((hentities d).2 hmem) hname.symm
  exact hdiff ⟨eq_of_mem_iff hvalid.sorted.1 htarget.sorted.1 nodup_entities nodup_entities hentities,
    eq_of_mem_iff hvalid.sorted.2.1 htarget.sorted.2.1 nodup_relationships nodup_relationships hrelationships,
    eq_of_mem_iff hvalid.sorted.2.2 htarget.sorted.2.2 nodup_indices nodup_indices hindices⟩

end earlier

/-! ## Chains -/

section chains

variable (R : Rewriting) {c : Catalog}

theorem inspect_holds {m : ManifestV2} (hc : c.Holds m) : c.inspect m = some .ready := by
  obtain ⟨l, hl, hbuilds⟩ := buildDomainSchemaLayout_eq m
  rw [Catalog.inspect, hl, Option.map_some, hc.inspectDomain_ready hbuilds]

theorem inspect_earlier {a b : ManifestV2} (hc : c.Holds b) (hext : Extends (compileManifest a) (compileManifest b))
    (hdiff : ¬ SameStructure (compileManifest a) (compileManifest b)) : c.inspect a = some .incompatible := by
  obtain ⟨l, hl, hbuilds⟩ := buildDomainSchemaLayout_eq a
  rw [Catalog.inspect, hl, Option.map_some, inspectDomain_earlier hc hbuilds hext hdiff]

theorem materialise_holds (f : FoundationRows) (m : ManifestV2) :
    ∃ c, Catalog.materialise R f m = some c ∧ c.Holds m := by
  obtain ⟨l, hl, hbuilds⟩ := buildDomainSchemaLayout_eq m
  obtain ⟨c, hc, hholds⟩ := holds_materialised R f m
  refine ⟨c, ?_, hholds⟩
  rw [Catalog.materialise, hl, Option.bind_eq_bind, Option.bind_some, hbuilds.ddl, hc]

theorem evolve_holds {a b : ManifestV2} (hc : c.Holds a) {x : RelationalTransition} (hx : buildTransition a b = some x) :
    ∃ c', c.evolve R a b = some c' ∧ c'.Holds b := by
  obtain ⟨l, hl, hddl⟩ := buildDomainTransitionLayout_eq hx
  obtain ⟨c', hc', hholds⟩ := holds_evolved R hc hx
  refine ⟨c', ?_, hholds⟩
  rw [Catalog.evolve, hx, Option.bind_eq_bind, Option.bind_some, hl, Option.bind_eq_bind, Option.bind_some, hddl, hc']

/-- The target is accepted after the current manifest. -/
def Succeeds (current target : ManifestV2) : Prop := (buildTransition current target).isSome

/-- A chain leaves a catalog that stands for its last manifest, which
extends all the others. -/
theorem evolveAll_holds {a : ManifestV2} {ms : List ManifestV2} (hchain : List.IsChain Succeeds (a :: ms)) (hc : c.Holds a) :
    ∃ c', c.evolveAll R (a :: ms) = some c' ∧ c'.Holds ((a :: ms).getLast (List.cons_ne_nil a ms)) ∧
      ∀ m ∈ a :: ms, Extends (compileManifest m) (compileManifest ((a :: ms).getLast (List.cons_ne_nil a ms))) := by
  induction ms generalizing a c with
  | nil => exact ⟨c, rfl, hc, fun m hm => by rw [List.mem_singleton.1 hm]; exact .refl _⟩
  | cons b ms ih =>
    obtain ⟨hsucceeds, hrest⟩ := List.isChain_cons_cons.1 hchain
    obtain ⟨x, hx⟩ := Option.isSome_iff_exists.1 hsucceeds
    obtain ⟨next, hnext, hholds⟩ := evolve_holds R hc hx
    obtain ⟨c', hc', hlast, hextends⟩ := ih hrest hholds
    have haccepted := classifyTransition_eq_some ((buildTransition_eq a b).symm.trans hx)
    refine ⟨c', ?_, hlast, fun m hm => ?_⟩
    · rw [Catalog.evolveAll, hnext, Option.bind_some, hc']
    · rcases List.mem_cons.1 hm with rfl | hm
      · exact haccepted.extends_.trans (hextends b List.mem_cons_self)
      · exact hextends m hm

/-- **A store that has evolved is a store freshly materialised**, to the
inspector: both are ready for the last manifest of the chain, and the
manifests before it that had another structure are refused. -/
theorem evolution_is_materialisation (f : FoundationRows) (a : ManifestV2) (ms : List ManifestV2)
    (hchain : List.IsChain Succeeds (a :: ms)) :
    ∃ evolved fresh, (Catalog.materialise R f a).bind (fun c => c.evolveAll R (a :: ms)) = some evolved ∧
      Catalog.materialise R f ((a :: ms).getLast (List.cons_ne_nil a ms)) = some fresh ∧
      evolved.inspect ((a :: ms).getLast (List.cons_ne_nil a ms)) = some .ready ∧
      fresh.inspect ((a :: ms).getLast (List.cons_ne_nil a ms)) = some .ready ∧
      ∀ m ∈ a :: ms, ¬ SameStructure (compileManifest m)
        (compileManifest ((a :: ms).getLast (List.cons_ne_nil a ms))) → evolved.inspect m = some .incompatible := by
  obtain ⟨c, hc, hholds⟩ := materialise_holds R f a
  obtain ⟨evolved, hevolved, hlast, hextends⟩ := evolveAll_holds R hchain hholds
  obtain ⟨fresh, hfresh, hfreshHolds⟩ := materialise_holds R f ((a :: ms).getLast (List.cons_ne_nil a ms))
  refine ⟨evolved, fresh, ?_, hfresh, inspect_holds hlast, inspect_holds hfreshHolds, fun m hm hdiff => ?_⟩
  · rw [hc, Option.bind_some, hevolved]
  · exact inspect_earlier hlast (hextends m hm) hdiff

end chains

/-! ## Notes that gain a column -/

namespace Growing

/-- The column comes after the last one and the white space that follows it. -/
def sqlite : Rewriting where
  add columns rest column :=
    (columns ++ (rest.takeWhile isSqlSpace ++ ',' :: ([' '] ++ column)), rest.dropWhile isSqlSpace)
  inserts _ rest _ := ⟨rest.takeWhile isSqlSpace, [' '], List.all_takeWhile, rfl, rfl⟩
  keeps _ rest _ := List.dropWhile_idempotent _ rest

def foundation : FoundationRows where
  rows := ⟨.table, "__aipcs_service_store_migration", "__aipcs_service_store_migration", some []⟩ ::
    FOUNDATION_INDEX_XINFO.map fun n => ⟨.index, n, "__aipcs_service_store_migration", none⟩
  reserved := by decide
  internal := by decide

def noteEntity : EntityDefinition where
  name := "note"
  attributes := SERVER_MANAGED_FIELDS

def first : ManifestV2 where
  schemaVersion := 1
  entities := [noteEntity]
  valid := by decide

def second : ManifestV2 where
  schemaVersion := 2
  entities := [{ noteEntity with attributes := SERVER_MANAGED_FIELDS ++ [{ name := "label", type := .string }] }]
  migrationHistory := [⟨1, 2, ["notes have labels"]⟩]
  valid := by decide

theorem evolution_is_materialisation_label : ∃ evolved fresh,
    (Catalog.materialise sqlite foundation first).bind (fun c => c.evolveAll sqlite [first, second]) = some evolved ∧
      Catalog.materialise sqlite foundation second = some fresh ∧ evolved.inspect second = some .ready ∧
      fresh.inspect second = some .ready ∧ evolved.inspect first = some .incompatible := by
  have hchain : List.IsChain Succeeds [first, second] := .cons_cons (by rfl) (.singleton _)
  obtain ⟨evolved, fresh, hevolved, hfresh, hready, hfreshReady, hearlier⟩ :=
    evolution_is_materialisation sqlite foundation first [second] hchain
  exact ⟨evolved, fresh, hevolved, hfresh, hready, hfreshReady, hearlier first List.mem_cons_self (by decide)⟩

end Growing

end Lifecycle

end Aipcs

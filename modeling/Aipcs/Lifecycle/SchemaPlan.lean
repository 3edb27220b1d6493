import Aipcs.Lifecycle.ServiceStore

/-!
# Lifecycle — when a plan goes through

Each kind of statement, run over a list of its kind; and from these the
two plans. A layout is created on a store without a schema whatever it
is. A transition is carried out on the layout it starts from exactly when
the rows are distinct on every unique index it adds.
-/

namespace Aipcs

namespace Lifecycle

open Manifest Relational Store

namespace ServiceStore

variable {V : Type} [DecidableEq V] {st : ServiceStore V}

theorem executeAll_append (p q : List Statement) :
    st.executeAll (p ++ q) = (st.executeAll p).bind fun left => left.executeAll q := by
  rw [executeAll, List.foldlM_append]
  rfl

theorem executeAll_cons (x : Statement) (p : List Statement) :
    st.executeAll (x :: p) = (st.execute x).bind fun left => left.executeAll p := by
  rw [executeAll, List.foldlM_cons]
  rfl

@[simp] theorem executeAll_nil : st.executeAll [] = some st := rfl

omit [DecidableEq V] in
theorem hasName_eq_false {name : String} : st.hasName name = false ↔
    (∀ t ∈ st.schema.tables, t.name ≠ name) ∧ ∀ i ∈ st.schema.indices, i.name ≠ name := by
  simp [hasName]

/-! ## Tables -/

/-- Tables under free names are created. -/
theorem executeAll_createTable {ts : List TableLayout} (hfree : ∀ t ∈ ts, st.hasName t.name = false)
    (hnames : (ts.map (·.name)).Nodup) : st.executeAll (ts.map .createTable) =
      some { st with schema := { st.schema with tables := st.schema.tables ++ ts } } := by
  induction ts generalizing st with
  | nil => simp
  | cons t ts ih =>
    obtain ⟨hnew, hrest⟩ := List.nodup_cons.1 hnames
    have hcreated : st.execute (.createTable t) =
        some { st with schema := { st.schema with tables := st.schema.tables ++ [t] } } := by
      simp [execute, hfree t List.mem_cons_self]
    rw [List.map_cons, executeAll_cons, hcreated, Option.bind_some, ih (fun u hu => ?_) hrest]
    · simp
    · have hu' := hasName_eq_false.1 (hfree u (List.mem_cons_of_mem _ hu))
      refine hasName_eq_false.2 ⟨fun x hx => ?_, hu'.2⟩
      rcases List.mem_append.1 hx with hx | hx
      · exact hu'.1 x hx
      · rw [List.mem_singleton.1 hx]
        exact fun hsame => hnew (List.mem_map.2 ⟨u, hu, hsame.symm⟩)

/-! ## Columns -/

/-- A table with its share of the columns that are added. -/
def extended (cs : List (String × ColumnLayout)) (t : TableLayout) : TableLayout :=
  { t with columns := t.columns ++ (cs.filter fun c => c.1 = t.name).map Prod.snd }

theorem extended_nil : extended [] = id := by
  funext t
  simp [extended]

theorem extended_cons (c : String × ColumnLayout) (cs : List (String × ColumnLayout)) (t : TableLayout) :
    extended (c :: cs) t =
      extended cs (if t.name = c.1 then { t with columns := t.columns ++ [c.2] } else t) := by
  by_cases h : t.name = c.1
  · simp [extended, h]
  · rw [if_neg h, extended, extended, List.filter_cons_of_neg (by simpa using Ne.symm h)]

/-- Optional columns under names that stay distinct are added. -/
theorem executeAll_addColumn {cs : List (String × ColumnLayout)}
    (htable : ∀ c ∈ cs, ∃ t ∈ st.schema.tables, t.name = c.1)
    (hoptional : ∀ c ∈ cs, c.2.notNull = false ∧ c.2.primaryKey = false)
    (hnames : ∀ t ∈ st.schema.tables, ((extended cs t).columns.map (·.name)).Nodup) :
    st.executeAll (cs.map fun c => .addColumn c.1 c.2) =
      some { st with schema := { st.schema with tables := st.schema.tables.map (extended cs) } } := by
  induction cs generalizing st with
  | nil => simp [extended_nil]
  | cons c cs ih =>
    have hadded : st.execute (.addColumn c.1 c.2) = some { st with
        schema := { st.schema with tables := withColumn st.schema.tables c.1 c.2 } } := by
      obtain ⟨t, hfind⟩ : ∃ t, (st.schema.tables.find? fun t => t.name = c.1) = some t := by
        obtain ⟨t, ht, hname⟩ := htable c List.mem_cons_self
        exact Option.isSome_iff_exists.1 (List.find?_isSome.2 ⟨t, ht, by simpa using hname⟩)
      have hname : t.name = c.1 := by simpa using List.find?_some hfind
      have hdistinct := hnames t (List.mem_of_find?_eq_some hfind)
      rw [extended_cons, if_pos hname, extended, List.map_append, List.map_append] at hdistinct
      -- the new name is not among those before it
      have hfresh : ∀ x ∈ t.columns, ¬ x.name = c.2.name := by
        intro x hx hsame
        have hdisjoint := List.disjoint_of_nodup_append (List.nodup_append.1 hdistinct).1
        exact hdisjoint (List.mem_map_of_mem hx) (by simp [hsame])
      simp [execute, hfind, guard, hoptional c List.mem_cons_self, if_pos hfresh]
    have hstep : ∀ t, extended (c :: cs) t =
        extended cs (if t.name = c.1 then { t with columns := t.columns ++ [c.2] } else t) :=
      extended_cons c cs
    rw [List.map_cons, executeAll_cons, hadded, Option.bind_some, ih]
    · simp only [withColumn, List.map_map, Option.some.injEq]
      rw [show extended cs ∘ _ = extended (c :: cs) from funext fun t => (hstep t).symm]
    · intro x hx
      obtain ⟨t, ht, hname⟩ := htable x (List.mem_cons_of_mem _ hx)
      refine ⟨_, List.mem_map.2 ⟨t, ht, rfl⟩, ?_⟩
      split_ifs
      · exact hname
      · exact hname
    · exact fun x hx => hoptional x (List.mem_cons_of_mem _ hx)
    · intro u hu
      obtain ⟨t, ht, rfl⟩ := List.mem_map.1 hu
      rw [← hstep]
      exact hnames t ht

/-! ## Indices -/

/-- Indices under free names over columns there are are created where the
rows are distinct on the unique ones. -/
theorem executeAll_createIndex {is : List IndexLayout} (hfree : ∀ i ∈ is, st.hasName i.name = false)
    (hnames : (is.map (·.name)).Nodup)
    (hfields : ∀ i ∈ is, ∃ t, (st.schema.tables.find? fun t => t.name = i.table) = some t ∧
      ∀ f ∈ i.fields, ∃ c ∈ t.columns, c.name = f) : st.executeAll (is.map .createIndex) =
        if ∀ i ∈ is, i.unique = true → DistinctOn (st.rows i.table) i.fields then
          some { st with schema := { st.schema with indices := st.schema.indices ++ is } }
        else none := by
  induction is generalizing st with
  | nil => simp
  | cons i is ih =>
    obtain ⟨hnew, hrest⟩ := List.nodup_cons.1 hnames
    obtain ⟨t, hfind, hcolumns⟩ := hfields i List.mem_cons_self
    rw [List.map_cons, executeAll_cons]
    by_cases hdistinct : i.unique = true → DistinctOn (st.rows i.table) i.fields
    · have hcreated : st.execute (.createIndex i) =
          some { st with schema := { st.schema with indices := st.schema.indices ++ [i] } } := by
        simp [execute, hfind, guard, hfree i List.mem_cons_self, if_pos hcolumns, if_pos hdistinct]
      rw [hcreated, Option.bind_some, ih (fun j hj => ?_) hrest]
      · have hall : (∀ j ∈ i :: is, j.unique = true → DistinctOn (st.rows j.table) j.fields) ↔
            ∀ j ∈ is, j.unique = true → DistinctOn (st.rows j.table) j.fields := by
          rw [List.forall_mem_cons]
          exact and_iff_right hdistinct
        rw [if_congr hall rfl rfl]
        simp
      · exact fun j hj => hfields j (List.mem_cons_of_mem _ hj)
      · have hj' := hasName_eq_false.1 (hfree j (List.mem_cons_of_mem _ hj))
        refine hasName_eq_false.2 ⟨hj'.1, fun x hx => ?_⟩
        rcases List.mem_append.1 hx with hx | hx
        · exact hj'.2 x hx
        · rw [List.mem_singleton.1 hx]
          exact fun hsame => hnew (List.mem_map.2 ⟨j, hj, hsame.symm⟩)
    · have hrefused : st.execute (.createIndex i) = none := by
        simp [execute, hfind, guard, hdistinct]
      rw [hrefused, Option.bind_none, if_neg fun h => hdistinct (h i List.mem_cons_self)]

/-- The table of a name, where one table has it. -/
theorem find_table {tables : List TableLayout} {t : TableLayout} (ht : t ∈ tables)
    (hone : ∀ u ∈ tables, u.name = t.name → u = t) :
    (tables.find? fun u => u.name = t.name) = some t := by
  obtain ⟨u, hu⟩ := Option.isSome_iff_exists.1
    (List.find?_isSome.2 ⟨t, ht, decide_eq_true rfl⟩ : (tables.find? fun u => u.name = t.name).isSome)
  rw [hu, hone u (List.mem_of_find?_eq_some hu) (by simpa using List.find?_some hu)]

/-- Every index of a layout finds its table, among tables that are the layout's. -/
theorem index_table {m : ManifestV2} {tables : List TableLayout}
    (htables : ∀ t, t ∈ tables ↔ t ∈ (layout (compileManifest m)).tables) {i : RelationalIndex}
    (hi : i ∈ (compileManifest m).indices) :
    ∃ t, (tables.find? fun t => t.name = (indexLayout i).table) = some t ∧
      ∀ f ∈ (indexLayout i).fields, ∃ c ∈ t.columns, c.name = f := by
  obtain ⟨e, he, hname, hfields⟩ := index_fields hi
  have hmem : tableLayout (compileManifest m).relationships e ∈ (layout (compileManifest m)).tables :=
    List.mem_map_of_mem he
  refine ⟨tableLayout (compileManifest m).relationships e, ?_, fun f hf => ?_⟩
  · have hfind := find_table ((htables _).2 hmem) fun u hu hsame =>
      named_layout.eq ((htables u).1 hu) hmem hsame
    rwa [show (tableLayout (compileManifest m).relationships e).name = (indexLayout i).table from hname]
      at hfind
  · obtain ⟨x, hx, hxname⟩ := hfields f hf
    exact ⟨columnLayout x, List.mem_map_of_mem hx, hxname⟩

/-! ## A layout -/

/-- **A layout goes onto a store that has none.** -/
theorem executeAll_layoutPlan {m : ManifestV2} (hempty : st.schema = .empty)
    (hrows : ∀ n, st.rows n = []) : st.executeAll (layoutPlan (layout (compileManifest m))) =
      some { st with schema := layout (compileManifest m) } := by
  have hnone : ∀ name, st.hasName name = false := fun name => by
    rw [hasName_eq_false, hempty]
    exact ⟨fun _ h => absurd h List.not_mem_nil, fun _ h => absurd h List.not_mem_nil⟩
  rw [layoutPlan, executeAll_append, executeAll_createTable (fun t _ => hnone t.name) named_layout,
    Option.bind_some, executeAll_createIndex, if_pos]
  · simp [hempty, SchemaLayout.empty]
  · intro i _ _
    rw [hrows]
    exact List.Pairwise.nil
  · intro i hi
    obtain ⟨j, hj, rfl⟩ := List.mem_map.1 hi
    refine hasName_eq_false.2 ⟨fun t ht => ?_, fun x hx => ?_⟩
    · rw [hempty] at ht
      obtain ⟨e, he, rfl⟩ := List.mem_map.1 ht
      exact (index_name_ne_entity_name he hj).symm
    · rw [hempty] at hx
      exact absurd hx List.not_mem_nil
  · have hname : (fun x : IndexLayout => x.name) ∘ indexLayout = fun i => i.name := rfl
    rw [layout, List.map_map, hname]
    exact nodup_indices
  · intro i hi
    obtain ⟨j, hj, rfl⟩ := List.mem_map.1 hi
    refine index_table (fun t => ?_) hj
    rw [hempty]
    exact Iff.rfl

/-! ## A transition -/

/-- The columns a transition adds, with their tables. -/
def addedColumns (t : RelationalTransition) : List (String × ColumnLayout) :=
  t.additions.fields.map fun f => (f.entity, columnLayout f.field)

/-- The tables and indices a transition leaves. -/
def grown (t : RelationalTransition) (l : SchemaLayout) : SchemaLayout where
  tables := (l.tables ++ t.additions.entities.map (tableLayout t.target.relationships)).map
    (extended (addedColumns t))
  indices := l.indices ++ t.additions.indices.map indexLayout

section transition

variable {a b : ManifestV2} {t : RelationalTransition}

theorem extended_columns {relationships : List RelationalRelationship} {e : RelationalEntity} :
    (extended (addedColumns t) (tableLayout relationships e)).columns = e.fields.map columnLayout ++
      (t.additions.fields.filter fun f => f.entity = e.name).map fun f => columnLayout f.field := by
  simp only [extended, addedColumns, tableLayout, List.filter_map, List.map_map]
  rfl

/-- An old table, grown, is the target's. -/
theorem extended_old (h : Accepted a b t) {e : RelationalEntity} (he : e ∈ (compileManifest a).entities) :
    ∃ f ∈ (compileManifest b).entities, f.name = e.name ∧
      extended (addedColumns t) (tableLayout (compileManifest a).relationships e) =
        tableLayout (compileManifest b).relationships f := by
  obtain ⟨d, hd, rfl⟩ := mem_entities.1 he
  obtain ⟨d', hd', hname, added, hfields, -, hfilter⟩ := h.entity_added hd
  refine ⟨entity d', mem_entities.2 ⟨d', hd', rfl⟩, hname, ?_⟩
  have hname' : (entity d').name = (entity d).name := hname
  have hcolumns := @extended_columns t (compileManifest a).relationships (entity d)
  rw [show (entity d).name = d.name from rfl, hfilter, List.map_map] at hcolumns
  have hkeys : ((compileManifest a).relationships.filter fun r => r.sourceEntity = (entity d).name) =
      (compileManifest b).relationships.filter fun r => r.sourceEntity = (entity d').name := by
    rw [hname', relationships_of_entity h he]
  rw [TableLayout.mk.injEq]
  refine ⟨hname'.symm, hcolumns.trans ?_, congrArg (List.map foreignKeyLayout) hkeys⟩
  rw [tableLayout, hfields, List.map_append]
  rfl

/-- A new table gains no columns. -/
theorem extended_new (h : Accepted a b t) {relationships : List RelationalRelationship}
    {e : RelationalEntity} (he : isNewEntity a e.name = true) :
    extended (addedColumns t) (tableLayout relationships e) = tableLayout relationships e := by
  have hcolumns := @extended_columns t relationships e
  rw [h.filter_new he, List.map_nil, List.append_nil] at hcolumns
  rw [TableLayout.mk.injEq]
  exact ⟨rfl, hcolumns, rfl⟩

/-- What becomes of a table of the store, and of one the transition brings. -/
theorem extended_mem (h : Accepted a b t) {l : SchemaLayout} (hl : l.Same (layout (compileManifest a)))
    {x : TableLayout}
    (hx : x ∈ l.tables ++ t.additions.entities.map (tableLayout t.target.relationships)) :
    ∃ f ∈ (compileManifest b).entities, f.name = x.name ∧
      extended (addedColumns t) x = tableLayout (compileManifest b).relationships f := by
  rcases List.mem_append.1 hx with hx | hx
  · obtain ⟨e, he, rfl⟩ := List.mem_map.1 ((hl.1 x).1 hx)
    exact extended_old h he
  · obtain ⟨e, he, rfl⟩ := List.mem_map.1 hx
    rw [h.entities, List.mem_filter] at he
    exact ⟨e, he.1, rfl, by rw [extended_new h he.2, h.target]⟩

/-- **The layout a transition leaves is its target's.** -/
theorem grown_same (h : Accepted a b t) {l : SchemaLayout} (hl : l.Same (layout (compileManifest a))) :
    (grown t l).Same (layout (compileManifest b)) := by
  refine ⟨fun x => ⟨fun hx => ?_, fun hx => ?_⟩, fun i => ⟨fun hi => ?_, fun hi => ?_⟩⟩
  · obtain ⟨y, hy, rfl⟩ := List.mem_map.1 hx
    obtain ⟨f, hf, -, heq⟩ := extended_mem h hl hy
    rw [heq]
    exact List.mem_map_of_mem hf
  · obtain ⟨f, hf, rfl⟩ := List.mem_map.1 hx
    by_cases hnew : isNewEntity a f.name = true
    · refine List.mem_map.2 ⟨tableLayout t.target.relationships f, List.mem_append_right _ ?_, ?_⟩
      · rw [h.entities]
        exact List.mem_map_of_mem (List.mem_filter.2 ⟨hf, hnew⟩)
      · rw [extended_new h hnew, h.target]
    · rw [isNewEntity_iff] at hnew
      push Not at hnew
      obtain ⟨d, hd, hname⟩ := hnew
      have he : entity d ∈ (compileManifest a).entities := mem_entities.2 ⟨d, hd, rfl⟩
      obtain ⟨g, hg, hgname, heq⟩ := extended_old h he
      have hsame : g = f := eq_of_name_eq nodup_entities hg hf (hgname.trans hname)
      refine List.mem_map.2 ⟨_, List.mem_append_left _ ((hl.1 _).2 (List.mem_map_of_mem he)), ?_⟩
      rw [heq, hsame]
  · rcases List.mem_append.1 hi with hi | hi
    · obtain ⟨j, hj, rfl⟩ := List.mem_map.1 ((hl.2 i).1 hi)
      exact List.mem_map_of_mem (h.extends_.indices j hj)
    · obtain ⟨j, hj, rfl⟩ := List.mem_map.1 hi
      exact List.mem_map_of_mem (h.mem_additions_indices.1 hj).1
  · obtain ⟨j, hj, rfl⟩ := List.mem_map.1 hi
    by_cases hnew : ∀ k ∈ (compileManifest a).indices, k.name ≠ j.name
    · exact List.mem_append_right _ (List.mem_map_of_mem (h.mem_additions_indices.2 ⟨hj, hnew⟩))
    · push Not at hnew
      obtain ⟨k, hk, hname⟩ := hnew
      have hsame : k = j := eq_of_name_eq nodup_indices (h.extends_.indices k hk) hj hname
      exact List.mem_append_left _ ((hl.2 _).2 (List.mem_map_of_mem (hsame ▸ hk)))

omit [DecidableEq V] in
theorem newTables_free (h : Accepted a b t) (hl : st.schema.Same (layout (compileManifest a))) :
    ∀ x ∈ t.additions.entities.map (tableLayout t.target.relationships),
      st.hasName x.name = false := by
  intro x hx
  obtain ⟨e, he, rfl⟩ := List.mem_map.1 hx
  rw [h.entities, List.mem_filter] at he
  refine hasName_eq_false.2 ⟨fun y hy => ?_, fun i hi => ?_⟩
  · obtain ⟨f, hf, rfl⟩ := List.mem_map.1 ((hl.1 y).1 hy)
    obtain ⟨d, hd, rfl⟩ := mem_entities.1 hf
    exact isNewEntity_iff.1 he.2 d hd
  · obtain ⟨j, hj, rfl⟩ := List.mem_map.1 ((hl.2 i).1 hi)
    exact index_name_ne_entity_name he.1 (h.extends_.indices j hj)

theorem newTables_nodup (h : Accepted a b t) :
    ((t.additions.entities.map (tableLayout t.target.relationships)).map (·.name)).Nodup := by
  have hname : (fun x : TableLayout => x.name) ∘ tableLayout t.target.relationships =
      fun e => e.name := rfl
  rw [List.map_map, hname, h.entities]
  exact nodup_entities.sublist (List.filter_sublist.map _)

omit [DecidableEq V] in
theorem addedColumns_table (h : Accepted a b t) (hl : st.schema.Same (layout (compileManifest a))) :
    ∀ c ∈ addedColumns t, ∃ x ∈ st.schema.tables ++ t.additions.entities.map
      (tableLayout t.target.relationships), x.name = c.1 := by
  intro c hc
  obtain ⟨f, hf, rfl⟩ := List.mem_map.1 hc
  obtain ⟨d, hd, hname⟩ := h.field_entity hf
  have hmem : tableLayout (compileManifest a).relationships (entity d) ∈
      (layout (compileManifest a)).tables := List.mem_map_of_mem (mem_entities.2 ⟨d, hd, rfl⟩)
  exact ⟨_, List.mem_append_left _ ((hl.1 _).2 hmem), hname⟩

theorem addedColumns_optional (h : Accepted a b t) :
    ∀ c ∈ addedColumns t, c.2.notNull = false ∧ c.2.primaryKey = false := by
  intro c hc
  obtain ⟨f, hf, rfl⟩ := List.mem_map.1 hc
  obtain ⟨d, hd, hname⟩ := h.field_entity hf
  obtain ⟨-, -, -, added, -, hoptional, hfilter⟩ := h.entity_added hd
  have hmem : f ∈ added.map (FieldAddition.mk d.name) := by
    rw [← hfilter]
    exact List.mem_filter.2 ⟨hf, by simpa using hname.symm⟩
  obtain ⟨x, hx, rfl⟩ := List.mem_map.1 hmem
  obtain ⟨hrequired, hkey⟩ := hoptional x hx
  simp [columnLayout, hrequired, hkey]

omit [DecidableEq V] in
theorem addedColumns_nodup (h : Accepted a b t) (hl : st.schema.Same (layout (compileManifest a))) :
    ∀ x ∈ st.schema.tables ++ t.additions.entities.map (tableLayout t.target.relationships),
      ((extended (addedColumns t) x).columns.map (·.name)).Nodup := by
  intro x hx
  obtain ⟨f, hf, -, heq⟩ := extended_mem h hl hx
  have hname : (fun c : ColumnLayout => c.name) ∘ columnLayout = fun f => f.name := rfl
  rw [heq, tableLayout, List.map_map, hname]
  exact nodup_fields hf

omit [DecidableEq V] in
theorem newIndices_free (h : Accepted a b t) (hl : st.schema.Same (layout (compileManifest a))) :
    ∀ i ∈ t.additions.indices.map indexLayout, ServiceStore.hasName
      { st with schema := ⟨(grown t st.schema).tables, st.schema.indices⟩ } i.name = false := by
  intro i hi
  obtain ⟨j, hj, rfl⟩ := List.mem_map.1 hi
  obtain ⟨hj, hnew⟩ := h.mem_additions_indices.1 hj
  refine hasName_eq_false.2 ⟨fun x hx => ?_, fun k hk => ?_⟩
  · obtain ⟨f, hf, rfl⟩ := List.mem_map.1 (((grown_same h hl).1 x).1 hx)
    exact (index_name_ne_entity_name hf hj).symm
  · obtain ⟨k', hk', rfl⟩ := List.mem_map.1 ((hl.2 k).1 hk)
    exact hnew k' hk'

theorem newIndices_nodup (h : Accepted a b t) :
    ((t.additions.indices.map indexLayout).map (·.name)).Nodup := by
  have hname : (fun x : IndexLayout => x.name) ∘ indexLayout = fun i => i.name := rfl
  rw [List.map_map, hname]
  exact h.nodup_additions_indices

omit [DecidableEq V] in
theorem newIndices_table (h : Accepted a b t) (hl : st.schema.Same (layout (compileManifest a))) :
    ∀ i ∈ t.additions.indices.map indexLayout,
      ∃ x, ((grown t st.schema).tables.find? fun x => x.name = i.table) = some x ∧
        ∀ f ∈ i.fields, ∃ c ∈ x.columns, c.name = f := by
  intro i hi
  obtain ⟨j, hj, rfl⟩ := List.mem_map.1 hi
  exact index_table (grown_same h hl).1 (h.mem_additions_indices.1 hj).1

/-- **When a transition goes through**: on the layout it starts from, where
the rows are distinct on each unique index that it adds. -/
theorem executeAll_transitionPlan (h : Accepted a b t)
    (hl : st.schema.Same (layout (compileManifest a))) : st.executeAll (transitionPlan t) =
      if ∀ i ∈ t.additions.indices, i.unique = true → DistinctOn (st.rows i.entity) i.fields then
        some { st with schema := grown t st.schema }
      else none := by
  have hgrown := grown_same h hl
  have htables : st.executeAll (t.additions.entities.map fun e =>
      .createTable (tableLayout t.target.relationships e)) = some { st with schema :=
        ⟨st.schema.tables ++ t.additions.entities.map (tableLayout t.target.relationships),
          st.schema.indices⟩ } := by
    rw [← executeAll_createTable (newTables_free h hl) (newTables_nodup h), List.map_map]
    rfl
  have hcolumns : ServiceStore.executeAll { st with schema :=
        ⟨st.schema.tables ++ t.additions.entities.map (tableLayout t.target.relationships),
          st.schema.indices⟩ }
      (t.additions.fields.map fun f => .addColumn f.entity (columnLayout f.field)) =
        some { st with schema := ⟨(grown t st.schema).tables, st.schema.indices⟩ } := by
    rw [show (t.additions.fields.map fun f => Statement.addColumn f.entity (columnLayout f.field)) =
      (addedColumns t).map fun c => .addColumn c.1 c.2 by rw [addedColumns, List.map_map]; rfl]
    exact executeAll_addColumn (addedColumns_table h hl) (addedColumns_optional h)
      (addedColumns_nodup h hl)
  have hindices := executeAll_createIndex (newIndices_free h hl) (newIndices_nodup h)
    (newIndices_table h hl)
  rw [List.map_map] at hindices
  rw [transitionPlan, executeAll_append, executeAll_append, htables, Option.bind_some, hcolumns,
    Option.bind_some]
  refine hindices.trans (if_congr ?_ rfl rfl)
  rw [List.forall_mem_map]
  rfl

/-- References lead where they led: what is new has no rows. -/
theorem clean_grown (h : Accepted a b t) (hs : st.Sound)
    (hl : st.schema.Same (layout (compileManifest a))) :
    ServiceStore.foreignKeysClean { st with schema := grown t st.schema } = true := by
  have hclean := hs.references
  rw [foreignKeysClean, List.all_eq_true] at hclean ⊢
  intro x hx
  obtain ⟨y, hy, rfl⟩ := List.mem_map.1 hx
  rcases List.mem_append.1 hy with hy | hy
  · exact hclean y hy
  · have hempty : st.rows y.name = [] := hs.tables y.name fun z hz => by
      exact (hasName_eq_false.1 (newTables_free h hl y hy)).1 z hz
    rw [List.all_eq_true]
    intro k _
    change (st.rows y.name).all _ = true
    rw [hempty]
    rfl

end transition

/-- A store without tables has no rows. -/
theorem rows_eq_nil (hs : st.Sound) (hempty : st.schema = .empty) (n : String) :
    st.rows n = [] :=
  hs.tables n fun _ ht => absurd (hempty ▸ ht) List.not_mem_nil

theorem clean_of_no_rows (hrows : ∀ n, st.rows n = []) : st.foreignKeysClean = true := by
  simp [foreignKeysClean, hrows]

end ServiceStore

end Lifecycle

end Aipcs

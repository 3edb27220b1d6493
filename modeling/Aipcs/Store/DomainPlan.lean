import Aipcs.Store.DomainLayout

/-!
# Store — the layouts of manifests are built

No check of the two builders stands in the way of a manifest, or of a
transition that is accepted. What they give is what the specification
says: a table an entity, an index an index.
-/

namespace Aipcs

namespace Store

open Manifest Relational

/-- The entity's table, with the relationships that start there. -/
def createEntity (s : RelationalSpecification) (e : RelationalEntity) : Ddl :=
  .createTable e (s.relationships.filter fun r => r.sourceEntity = e.name)

/-- The statements of a specification. -/
def layoutDdl (s : RelationalSpecification) : List Ddl := s.entities.map (createEntity s) ++ s.indices.map .createIndex

/-- The statements of a transition. -/
def transitionDdl (t : RelationalTransition) : List Ddl :=
  t.additions.entities.map (createEntity t.target) ++ t.additions.fields.map .addColumn ++
    t.additions.indices.map .createIndex

/-- The parts of a statement are valid, and its name is not reserved. -/
def Ddl.Valid : Ddl → Prop
  | .createTable e relationships => e.Valid ∧ isSqliteReserved e.name = false ∧
      ∀ r ∈ relationships, r.Valid ∧ ∃ f ∈ e.fields, f.name = r.sourceField
  | .addColumn a => a.field.Valid
  | .createIndex i => i.Valid ∧ isSqliteReserved i.name = false

/-- What is built of a specification. -/
structure Builds (s : RelationalSpecification) (l : DomainSchemaLayout) : Prop where
  tables : l.tables = s.entities.map (domainTable s.relationships)
  indices : List.Forall₂ (fun i x => domainIndex s.entities i = some x) s.indices l.indices
  ddl : l.ddl = layoutDdl s

section builds

variable {s : RelationalSpecification} {l : DomainSchemaLayout}

/-- What an index is built into. -/
theorem domainIndex_eq_some {entities : List RelationalEntity} {i : RelationalIndex} {x : RelationalIndex × DomainIndexLayout}
    (h : domainIndex entities i = some x) : ∃ e ∈ entities, e.name = i.entity ∧
      x = (i, ⟨i.entity, some (createIndexSql i), ⟨i.name, i.unique, .created, false⟩,
        indexColumns (e.fields.map (·.name)) i.fields⟩) := by
  obtain ⟨e, he, rfl⟩ := Option.map_eq_some_iff.1 h
  exact ⟨e, List.mem_of_find?_eq_some he, by simpa using List.find?_some he, rfl⟩

/-- What is read of every index's layout from the index alone. -/
theorem Builds.map_indices {β : Type} (h : Builds s l) {f : RelationalIndex × DomainIndexLayout → β} {g : RelationalIndex → β}
    (hfg : ∀ i x, domainIndex s.entities i = some x → f x = g i) : l.indices.map f = s.indices.map g := by
  have hsame : List.Forall₂ (fun i x => g i = f x) s.indices l.indices :=
    h.indices.imp fun i x hx => (hfg i x hx).symm
  have heq : s.indices.map g = l.indices.map f :=
    List.forall₂_eq_eq_eq ▸ List.forall₂_map_left_iff.2 (List.forall₂_map_right_iff.2 hsame)
  exact heq.symm

theorem Builds.index_fst (h : Builds s l) : l.indices.map Prod.fst = s.indices := by
  refine (h.map_indices (g := id) fun i x hx => ?_).trans (List.map_id _)
  obtain ⟨e, -, -, rfl⟩ := domainIndex_eq_some hx
  rfl

theorem Builds.index_names (h : Builds s l) : l.indices.map (·.2.info.name) = s.indices.map (·.name) := by
  refine h.map_indices fun i x hx => ?_
  obtain ⟨e, -, -, rfl⟩ := domainIndex_eq_some hx
  rfl

theorem Builds.index_infos (h : Builds s l) : l.indices.map (fun x => (x.2.table, x.2.info)) =
    s.indices.map fun i => (i.entity, ⟨i.name, i.unique, .created, false⟩) := by
  refine h.map_indices fun i x hx => ?_
  obtain ⟨e, -, -, rfl⟩ := domainIndex_eq_some hx
  rfl

theorem Builds.mem_indices (h : Builds s l) {x : RelationalIndex × DomainIndexLayout} (hx : x ∈ l.indices) :
    ∃ i ∈ s.indices, domainIndex s.entities i = some x := exists_of_forall₂ h.indices.flip hx

end builds

section manifests

variable {m a b : ManifestV2}

theorem buildCheckedLayout_eq (m : ManifestV2) :
    ∃ l, buildCheckedLayout (compileManifest m) = some l ∧ Builds (compileManifest m) l := by
  have hfound : ∀ i ∈ (compileManifest m).indices, ∃ x, domainIndex (compileManifest m).entities i = some x := by
    intro i hi
    obtain ⟨e, he, hname, -⟩ := index_fields hi
    rw [← Option.isSome_iff_exists, domainIndex, Option.isSome_map, List.find?_isSome]
    exact ⟨e, he, decide_eq_true hname⟩
  obtain ⟨indices, hindices⟩ := mapM_isSome_iff.2 hfound
  have hbuilt : Builds (compileManifest m) ⟨(compileManifest m).schemaVersion,
      (compileManifest m).entities.map (domainTable (compileManifest m).relationships), indices,
      layoutDdl (compileManifest m)⟩ := ⟨rfl, mapM_eq_some hindices, rfl⟩
  have hddl : ((compileManifest m).entities.map (domainTable (compileManifest m).relationships)).map (·.statement) ++
      indices.map (fun p => .createIndex p.1) = layoutDdl (compileManifest m) := by
    have hfst : indices.map Prod.fst = (compileManifest m).indices := hbuilt.index_fst
    rw [layoutDdl, ← hfst, List.map_map, List.map_map]
    rfl
  refine ⟨_, ?_, hbuilt⟩
  rw [buildCheckedLayout, hindices, ← hddl]
  rfl

/-- **A manifest has a layout.** -/
theorem buildDomainSchemaLayout_eq (m : ManifestV2) :
    ∃ l, buildDomainSchemaLayout (compileManifest m) = some l ∧ Builds (compileManifest m) l := by
  rw [buildDomainSchemaLayout, detachedSpecification, if_pos (compileManifest_valid m), Option.bind_some]
  exact buildCheckedLayout_eq m

/-- What the factory has checked of a transition. -/
theorem buildTransition_checks {x : RelationalTransition} (hx : buildTransition a b = some x) :
    x.current = compileManifest a ∧ x.target = compileManifest b ∧
      (compileManifest b).schemaVersion = (compileManifest a).schemaVersion + 1 ∧
      expectedAdditions (compileManifest a) (compileManifest b) = some x.additions ∧
      (∀ c ∈ x.metadataChanges, c.Valid) ∧ x.metadataChanges = sortedChanges x.metadataChanges ∧
      x.metadataChanges.Nodup ∧ (!(x.additions.isEmpty && x.metadataChanges.isEmpty)) = true := by
  simp only [buildTransition, compileManifestChecked_eq, build, Option.bind_eq_bind, Option.bind_some,
    Option.bind_eq_some_iff, guard_eq_some_iff, exists_const] at hx
  obtain ⟨y, -, -, hvalid, hsorted, hnodup, hversion, expected, hexpected, rfl, hsome, hx⟩ := hx
  obtain rfl := Option.some.inj hx
  exact ⟨rfl, rfl, hversion, hexpected, hvalid, hsorted, hnodup, hsome⟩

theorem createEntity_valid {e : RelationalEntity} (he : e ∈ (compileManifest m).entities) :
    (createEntity (compileManifest m) e).Valid := by
  have hvalid := compileManifest_valid m
  refine ⟨hvalid.entities e he, hvalid.entityReserved e he, fun r hr => ?_⟩
  obtain ⟨hr, hsource⟩ := List.mem_filter.1 hr
  refine ⟨hvalid.relationships r hr, ?_⟩
  -- the relationship's source is a field of this very entity
  obtain ⟨f, hf, -⟩ := (hvalid.endpoints r hr).source
  obtain ⟨d, hd, hfield⟩ := Option.bind_eq_some_iff.1 hf
  obtain ⟨hmem, hname⟩ := (find?_name_eq_some_iff nodup_entities).1 hd
  obtain rfl := eq_of_name_eq nodup_entities hmem he (hname.trans (of_decide_eq_true hsource))
  exact ⟨f, List.mem_of_find?_eq_some hfield, by simpa using List.find?_some hfield⟩

theorem createIndex_valid {i : RelationalIndex} (hi : i ∈ (compileManifest m).indices) : (Ddl.createIndex i).Valid :=
  ⟨(compileManifest_valid m).indices i hi, (compileManifest_valid m).indexReserved i hi⟩

theorem layoutDdl_valid (m : ManifestV2) : ∀ d ∈ layoutDdl (compileManifest m), d.Valid := by
  intro d hd
  rcases List.mem_append.1 hd with hd | hd
  · obtain ⟨e, he, rfl⟩ := List.mem_map.1 hd
    exact createEntity_valid he
  · obtain ⟨i, hi, rfl⟩ := List.mem_map.1 hd
    exact createIndex_valid hi

theorem transitionDdl_valid {x : RelationalTransition} (hx : Accepted a b x) : ∀ d ∈ transitionDdl x, d.Valid := by
  intro d hd
  rcases List.mem_append.1 hd with hd | hd
  · rcases List.mem_append.1 hd with hd | hd
    · obtain ⟨e, he, rfl⟩ := List.mem_map.1 hd
      rw [hx.entities] at he
      rw [hx.target]
      exact createEntity_valid (List.mem_filter.1 he).1
    · obtain ⟨f, hf, rfl⟩ := List.mem_map.1 hd
      -- an added field is one of the target's
      obtain ⟨d, hd, hname⟩ := hx.field_entity hf
      obtain ⟨d', hd', -, added, hfields, -, hfilter⟩ := hx.entity_added hd
      have hmem : f ∈ added.map (FieldAddition.mk d.name) := by
        rw [← hfilter]
        exact List.mem_filter.2 ⟨hf, decide_eq_true hname.symm⟩
      obtain ⟨y, hy, rfl⟩ := List.mem_map.1 hmem
      refine (entity_valid (b.valid.entities d' hd')).fields y ?_
      rw [hfields]
      exact List.mem_append_right _ hy
  · obtain ⟨i, hi, rfl⟩ := List.mem_map.1 hd
    exact createIndex_valid (hx.mem_additions_indices.1 hi).1

/-- **An accepted transition has a layout.** -/
theorem buildDomainTransitionLayout_eq {x : RelationalTransition} (hx : buildTransition a b = some x) :
    ∃ l, buildDomainTransitionLayout x = some l ∧ l.ddl = transitionDdl x := by
  obtain ⟨hcurrent, htarget, hversion, hexpected, hvalid, hsorted, hnodup, hsome⟩ := buildTransition_checks hx
  have haccepted := classifyTransition_eq_some ((buildTransition_eq a b).symm.trans hx)
  obtain ⟨currentLayout, hcurrentLayout, -⟩ := buildCheckedLayout_eq a
  obtain ⟨targetLayout, htargetLayout, hbuilds⟩ := buildCheckedLayout_eq b
  have htables : (x.additions.entities.mapM fun e => (targetLayout.tables.find? fun t => t.name = e.name).map (·.statement)) =
      some (x.additions.entities.map (createEntity x.target)) := by
    refine mapM_of_forall₂ (List.forall₂_map_right_iff.2 (List.forall₂_same.2 fun e he => ?_))
    rw [haccepted.entities] at he
    have hfind : ((compileManifest b).entities.find? fun f => f.name = e.name) = some e :=
      (find?_name_eq_some_iff nodup_entities).2 ⟨(List.mem_filter.1 he).1, rfl⟩
    rw [hbuilds.tables, List.find?_map, Option.map_map, htarget]
    exact congrArg _ hfind
  have hindices : (x.additions.indices.mapM fun i =>
      (targetLayout.indices.find? fun y => y.1.name = i.name).map fun y => Ddl.createIndex y.1) =
      some (x.additions.indices.map .createIndex) := by
    refine mapM_of_forall₂ (List.forall₂_map_right_iff.2 (List.forall₂_same.2 fun i hi => ?_))
    have hfind : ((compileManifest b).indices.find? fun j => j.name = i.name) = some i :=
      (find?_name_eq_some_iff nodup_indices).2 ⟨(haccepted.mem_additions_indices.1 hi).1, rfl⟩
    rw [← hbuilds.index_fst, List.find?_map] at hfind
    obtain ⟨y, hy, rfl⟩ := Option.map_eq_some_iff.1 hfind
    exact Option.map_eq_some_iff.2 ⟨y, hy, rfl⟩
  refine ⟨⟨currentLayout, targetLayout, transitionDdl x⟩, ?_, rfl⟩
  simp only [buildDomainTransitionLayout, hcurrent, htarget, detachedSpecification, compileManifest_valid, if_true,
    Option.bind_eq_bind, Option.bind_some, hexpected, hcurrentLayout, htargetLayout, htables, hindices,
    Option.bind_eq_some_iff, guard_eq_some_iff, exists_const]
  refine ⟨hversion, trivial, hvalid, hsorted, hnodup, hsome, ?_⟩
  rw [transitionDdl, htarget]
  rfl

end manifests

end Store

end Aipcs

import Aipcs.Relational.Transition

/-!
# Store — the SQLite layout of a specification

What a specification is as tables and indices. SQLite keeps no logical
types, so two specifications may have one layout. A layout grows along
the transitions: `SchemaLayout.Extends` is a preorder, a transition's
target extends its source, and two layouts that extend each other through
a third are all three one.
-/

namespace Aipcs

namespace Store

open Manifest Relational

inductive SqliteType where
  | text
  | integer
  | real
deriving DecidableEq

/-- `_SQLITE_TYPES`. -/
def sqliteType : LogicalType → SqliteType
  | .string | .datetime | .uuid | .stringList => .text
  | .integer | .boolean => .integer
  | .number => .real

/-- A column, as its declaration has it. -/
structure ColumnLayout where
  name : String
  type : SqliteType
  notNull : Bool
  primaryKey : Bool
deriving DecidableEq

/-- A named foreign key, both its actions `RESTRICT`. -/
structure ForeignKeyLayout where
  name : String
  field : String
  target : String
  targetField : String
deriving DecidableEq

/-- A table; its implicit primary-key index is named after it. -/
structure TableLayout where
  name : String
  columns : List ColumnLayout
  foreignKeys : List ForeignKeyLayout
deriving DecidableEq

/-- An explicit index. -/
structure IndexLayout where
  name : String
  table : String
  fields : List String
  unique : Bool
deriving DecidableEq

/-- The domain's tables and explicit indices. -/
structure SchemaLayout where
  tables : List TableLayout
  indices : List IndexLayout
deriving DecidableEq

/-- `_field_declaration`. -/
def columnLayout (f : RelationalField) : ColumnLayout :=
  ⟨f.name, sqliteType f.logicalType, f.required || f.primaryKey, f.primaryKey⟩

/-- `_foreign_key_declaration`. -/
def foreignKeyLayout (r : RelationalRelationship) : ForeignKeyLayout :=
  ⟨r.name, r.sourceField, r.targetEntity, r.targetField⟩

/-- `_table_layout`. -/
def tableLayout (relationships : List RelationalRelationship) (e : RelationalEntity) : TableLayout :=
  ⟨e.name, e.fields.map columnLayout,
    (relationships.filter fun r => r.sourceEntity = e.name).map foreignKeyLayout⟩

/-- `_index_layout`. -/
def indexLayout (i : RelationalIndex) : IndexLayout := ⟨i.name, i.entity, i.fields, i.unique⟩

/-- `build_domain_schema_layout`. -/
def layout (s : RelationalSpecification) : SchemaLayout :=
  ⟨s.entities.map (tableLayout s.relationships), s.indices.map indexLayout⟩

/-! ## Sameness and growth -/

/-- A table with columns added at its end. -/
def TableLayout.ExtendedBy (t u : TableLayout) : Prop :=
  u.name = t.name ∧ u.foreignKeys = t.foreignKeys ∧ ∃ added, u.columns = t.columns ++ added

theorem TableLayout.ExtendedBy.refl (t : TableLayout) : t.ExtendedBy t :=
  ⟨rfl, rfl, [], (List.append_nil _).symm⟩

theorem TableLayout.ExtendedBy.trans {t u v : TableLayout} (h : t.ExtendedBy u)
    (k : u.ExtendedBy v) : t.ExtendedBy v := by
  obtain ⟨hname, hkeys, added, hadded⟩ := h
  obtain ⟨kname, kkeys, more, hmore⟩ := k
  exact ⟨kname.trans hname, kkeys.trans hkeys, added ++ more, by
    rw [hmore, hadded, List.append_assoc]⟩

theorem TableLayout.ExtendedBy.antisymm {t u : TableLayout} (h : t.ExtendedBy u)
    (k : u.ExtendedBy t) : t = u := by
  obtain ⟨hname, hkeys, added, hadded⟩ := h
  obtain ⟨-, -, more, hmore⟩ := k
  rw [hadded, List.append_assoc] at hmore
  obtain ⟨rfl, -⟩ := List.append_eq_nil_iff.1 (List.append_right_eq_self.1 hmore.symm)
  rw [List.append_nil] at hadded
  cases t
  cases u
  simp only at hname hkeys hadded
  rw [hname, hkeys, hadded]

namespace SchemaLayout

variable {a b c : SchemaLayout}

/-- The layout of a store without domain objects. -/
def empty : SchemaLayout := ⟨[], []⟩

/-- The same objects, in whatever order. -/
def Same (a b : SchemaLayout) : Prop :=
  (∀ t, t ∈ a.tables ↔ t ∈ b.tables) ∧ ∀ i, i ∈ a.indices ↔ i ∈ b.indices

instance (a b : SchemaLayout) : Decidable (a.Same b) :=
  decidable_of_iff (((∀ t ∈ a.tables, t ∈ b.tables) ∧ ∀ t ∈ b.tables, t ∈ a.tables) ∧
      (∀ i ∈ a.indices, i ∈ b.indices) ∧ ∀ i ∈ b.indices, i ∈ a.indices)
    (and_congr (forall_and.symm.trans (forall_congr' fun _ => iff_def.symm))
      (forall_and.symm.trans (forall_congr' fun _ => iff_def.symm)))

theorem Same.refl (a : SchemaLayout) : a.Same a := ⟨fun _ => Iff.rfl, fun _ => Iff.rfl⟩

theorem Same.symm (h : a.Same b) : b.Same a := ⟨fun t => (h.1 t).symm, fun i => (h.2 i).symm⟩

theorem Same.trans (h : a.Same b) (k : b.Same c) : a.Same c :=
  ⟨fun t => (h.1 t).trans (k.1 t), fun i => (h.2 i).trans (k.2 i)⟩

/-- No two tables have one name. -/
def Named (a : SchemaLayout) : Prop := (a.tables.map (·.name)).Nodup

theorem Named.eq (h : a.Named) {t u : TableLayout} (ht : t ∈ a.tables) (hu : u ∈ a.tables)
    (hname : t.name = u.name) : t = u := List.inj_on_of_nodup_map h ht hu hname

/-- The second layout has all the first has, tables perhaps with more columns. -/
structure Extends (a b : SchemaLayout) : Prop where
  tables : ∀ t ∈ a.tables, ∃ u ∈ b.tables, t.ExtendedBy u
  indices : ∀ i ∈ a.indices, i ∈ b.indices

theorem Same.extends_ (h : a.Same b) : Extends a b :=
  ⟨fun t ht => ⟨t, (h.1 t).1 ht, .refl t⟩, fun i hi => (h.2 i).1 hi⟩

theorem Extends.refl (a : SchemaLayout) : Extends a a := (Same.refl a).extends_

theorem Extends.trans (h : Extends a b) (k : Extends b c) : Extends a c := by
  refine ⟨fun t ht => ?_, fun i hi => k.indices i (h.indices i hi)⟩
  obtain ⟨u, hu, htu⟩ := h.tables t ht
  obtain ⟨v, hv, huv⟩ := k.tables u hu
  exact ⟨v, hv, htu.trans huv⟩

/-- **Layouts that extend each other are the same.** -/
theorem Extends.same (h : Extends a b) (k : Extends b a) (ha : a.Named) (hb : b.Named) :
    a.Same b := by
  have hside : ∀ {x y : SchemaLayout}, Extends x y → Extends y x → x.Named →
      ∀ t ∈ x.tables, t ∈ y.tables := fun hxy hyx hx t ht => by
    obtain ⟨u, hu, htu⟩ := hxy.tables t ht
    obtain ⟨v, hv, huv⟩ := hyx.tables u hu
    -- the way there and back ends at a table of the same name, which is the same table
    obtain rfl := hx.eq ht hv (htu.trans huv).1.symm
    rwa [htu.antisymm huv]
  exact ⟨fun t => ⟨hside h k ha t, hside k h hb t⟩, fun i => ⟨h.indices i, k.indices i⟩⟩

/-- A layout with a table does not shrink to none. -/
theorem Extends.tables_ne_nil (h : Extends a b) (ha : a.tables ≠ []) : b.tables ≠ [] := by
  obtain ⟨t, ht⟩ := List.exists_mem_of_ne_nil _ ha
  obtain ⟨u, hu, -⟩ := h.tables t ht
  exact List.ne_nil_of_mem hu

end SchemaLayout

/-! ## Layouts of manifests -/

section manifests

variable {a b : ManifestV2} {t : RelationalTransition}

theorem named_layout : (layout (compileManifest a)).Named := by
  have hname : (fun x : TableLayout => x.name) ∘ tableLayout (compileManifest a).relationships =
      fun e => e.name := rfl
  rw [SchemaLayout.Named, layout, List.map_map, hname]
  exact nodup_entities

theorem layout_tables_ne_nil : (layout (compileManifest a)).tables ≠ [] := by
  rw [layout, ne_eq, List.map_eq_nil_iff]
  exact entities_ne_nil

/-- Relationships stand in the order of their names. -/
theorem pairwise_relationships :
    (compileManifest a).relationships.Pairwise fun r s => r.name ≤ s.name := by
  rw [compileManifest, List.pairwise_map]
  exact List.pairwise_insertionSort (r := fun r s : RelationshipDefinition => r.name ≤ s.name) _

/-- An entity keeps its foreign keys along a transition, in their order. -/
theorem relationships_of_entity (h : Accepted a b t) {e : RelationalEntity}
    (he : e ∈ (compileManifest a).entities) :
    (compileManifest b).relationships.filter (fun r => r.sourceEntity = e.name) =
      (compileManifest a).relationships.filter fun r => r.sourceEntity = e.name := by
  have hext := h.extends_
  have hsorted : ∀ m : ManifestV2, ((compileManifest m).relationships.filter fun r =>
      r.sourceEntity = e.name).Pairwise fun r s => r.name ≤ s.name :=
    fun m => pairwise_relationships.filter _
  refine List.Perm.eq_of_pairwise ?_ (hsorted b) (hsorted a) ?_
  · intro r s hr hs hrs hsr
    -- names tell relationships apart in the target, where both are
    exact eq_of_name_eq nodup_relationships (List.mem_filter.1 hr).1
      (hext.relationships s (List.mem_filter.1 hs).1) (le_antisymm hrs hsr)
  · refine (List.perm_ext_iff_of_nodup ?_ ?_).2 fun r => ?_
    · exact (List.Nodup.of_map _ nodup_relationships).filter _
    · exact (List.Nodup.of_map _ nodup_relationships).filter _
    · rw [List.mem_filter, List.mem_filter, decide_eq_true_eq]
      constructor
      · rintro ⟨hr, hsource⟩
        refine ⟨?_, hsource⟩
        by_contra hnot
        exact hext.added r hr hnot e he hsource
      · rintro ⟨hr, hsource⟩
        exact ⟨hext.relationships r hr, hsource⟩

/-- **A transition's layout extends the one before.** -/
theorem layout_extends (h : Accepted a b t) :
    (layout (compileManifest a)).Extends (layout (compileManifest b)) := by
  have hext := h.extends_
  refine ⟨fun x hx => ?_, fun i hi => ?_⟩
  · obtain ⟨e, he, rfl⟩ := List.mem_map.1 hx
    obtain ⟨f, hf, hname, added, hfields, -⟩ := hext.entities e he
    refine ⟨tableLayout _ f, List.mem_map.2 ⟨f, hf, rfl⟩, hname.symm, ?_, added.map columnLayout, ?_⟩
    · rw [tableLayout, tableLayout, ← hname, relationships_of_entity h he]
    · rw [tableLayout, tableLayout, hfields, List.map_append]
  · obtain ⟨j, hj, rfl⟩ := List.mem_map.1 hi
    exact List.mem_map.2 ⟨j, hext.indices j hj, rfl⟩

end manifests

end Store

end Aipcs

import Aipcs.Lifecycle.Coordinator
import Aipcs.Store.Layout

/-!
# Lifecycle — a service's store

The SQLite store of one service, as the catalogue and the domain schema
act on it: how far its foundation is, its domain schema and its rows. Each
operation is one transaction, or for `migrate` a few; what is modelled
here is what it answers and leaves when nothing else goes wrong. How many
instructions the engine's two checks take is a parameter.
-/

namespace Aipcs

namespace Lifecycle

open Manifest Relational Store

/-! ## Stores -/

/-- The exact states a foundation passes through. An absent one is no
file, or an empty file. -/
inductive Foundation where
  | absent
  | preparedDelete
  | preparedWal
  | cleanR2
  | preparedR3
  | ready
deriving DecidableEq

/-- The status `inspect_connection` gives the state. -/
def Foundation.status : Foundation → MigrationStatus
  | .absent => .uninitialised
  | .preparedDelete | .preparedWal | .preparedR3 => .dirty
  | .cleanR2 => .outdated
  | .ready => .ready

/-- A row: the stored value of each field, `none` where it is null. -/
abbrev Row (V : Type) : Type := String → Option V

/-- A service's store, over the values `V` that cells hold. A journal is
what a crash leaves before the store keeps a write-ahead log. -/
structure ServiceStore (V : Type) where
  foundation : Foundation := .absent
  journal : Bool := false
  schema : SchemaLayout := .empty
  rows : String → List (Row V) := fun _ => []

/-- How many instructions `PRAGMA quick_check(1)` and `PRAGMA
foreign_key_check` take over a store. -/
structure Engine (V : Type) where
  quickCheck : ServiceStore V → ℕ
  foreignKeyCheck : ServiceStore V → ℕ

/-- The budget of either check, which is interrupted when it has used it up. -/
def CHECK_BUDGET : ℕ := 100000

namespace ServiceStore

variable {V : Type} [DecidableEq V]

/-! ## Constraints over the rows -/

/-- Two rows agree in every field of an index, and none of them is null. -/
def sameKey (fields : List String) (r s : Row V) : Bool :=
  fields.all fun f => (r f).isSome && r f = s f

/-- A unique index over the fields holds. -/
def DistinctOn (rows : List (Row V)) (fields : List String) : Prop :=
  rows.Pairwise fun r s => sameKey fields r s = false

instance (rows : List (Row V)) (fields : List String) : Decidable (DistinctOn rows fields) :=
  inferInstanceAs (Decidable (List.Pairwise _ _))

variable (st : ServiceStore V)

/-- `PRAGMA foreign_key_check` finds nothing. -/
def foreignKeysClean : Bool :=
  st.schema.tables.all fun t => t.foreignKeys.all fun k => (st.rows t.name).all fun r =>
    (r k.field).all fun v => (st.rows k.target).any fun p => p k.targetField = some v

/-- What the engine keeps of a store: a value stands in a column there
is, and every reference leads somewhere. -/
structure Sound : Prop where
  tables : ∀ name, (∀ t ∈ st.schema.tables, t.name ≠ name) → st.rows name = []
  columns : ∀ name, ∀ r ∈ st.rows name, ∀ f, (r f).isSome = true →
    ∃ t ∈ st.schema.tables, t.name = name ∧ ∃ c ∈ t.columns, c.name = f
  references : st.foreignKeysClean = true

/-- The store is served as it is, without another step of its foundation. -/
def Usable : Prop := st.foundation = .ready ∧ st.journal = false

/-! ## Statements -/

/-- The statements of the two DDL plans. -/
inductive Statement where
  | createTable (t : TableLayout)
  | addColumn (table : String) (c : ColumnLayout)
  | createIndex (i : IndexLayout)

/-- The name is a table's or an index's. -/
def hasName (name : String) : Bool :=
  st.schema.tables.any (fun t => t.name = name) || st.schema.indices.any fun i => i.name = name

/-- The tables with a column added to one of them. -/
def withColumn (tables : List TableLayout) (table : String) (c : ColumnLayout) : List TableLayout :=
  tables.map fun t => if t.name = table then { t with columns := t.columns ++ [c] } else t

/-- A statement executed, or nothing when the engine refuses it. -/
def execute : Statement → Option (ServiceStore V)
  | .createTable t =>
    if st.hasName t.name then none
    else some { st with schema := { st.schema with tables := st.schema.tables ++ [t] } }
  | .addColumn table c => do
    let t ← st.schema.tables.find? fun t => t.name = table
    -- an added column can be neither a key nor required
    guard (c.notNull = false ∧ c.primaryKey = false ∧ t.columns.all fun x => x.name ≠ c.name)
    some { st with schema := { st.schema with tables := withColumn st.schema.tables table c } }
  | .createIndex i => do
    let t ← st.schema.tables.find? fun t => t.name = i.table
    guard (st.hasName i.name = false ∧ i.fields.all fun f => t.columns.any fun c => c.name = f)
    guard (i.unique = true → DistinctOn (st.rows i.table) i.fields)
    some { st with schema := { st.schema with indices := st.schema.indices ++ [i] } }

/-- A plan executed. -/
def executeAll (plan : List Statement) : Option (ServiceStore V) := plan.foldlM execute st

end ServiceStore

open ServiceStore in
/-- `layout.ddl`. -/
def layoutPlan (l : SchemaLayout) : List Statement :=
  l.tables.map .createTable ++ l.indices.map .createIndex

open ServiceStore in
/-- The DDL of `build_domain_transition_layout`. -/
def transitionPlan (t : RelationalTransition) : List Statement :=
  t.additions.entities.map (fun e => .createTable (tableLayout t.target.relationships e)) ++
    t.additions.fields.map (fun f => .addColumn f.entity (columnLayout f.field)) ++
    t.additions.indices.map fun i => .createIndex (indexLayout i)

namespace ServiceStore

variable {V : Type} [DecidableEq V] (engine : Engine V) (st : ServiceStore V)

/-! ## The domain schema -/

/-- `_inspect_domain`. -/
def inspectDomain (l : SchemaLayout) : Answer DomainSchemaStatus :=
  if st.schema.tables = [] ∧ st.schema.indices = [] then .value .unmaterialised
  else if ¬ st.schema.Same l then .value .incompatible
  else if CHECK_BUDGET ≤ engine.foreignKeyCheck st then .raised .migration
  else .value (if st.foreignKeysClean then .ready else .incompatible)

/-- What keeps a schema operation from the store: `_acquire_existing` and
`_require_ready_foundation`. -/
def blocked : Option StorageError :=
  if st.journal then some .transientJournal
  else if st.foundation ≠ .ready then some .migration
  else if CHECK_BUDGET ≤ engine.quickCheck st then some .migration
  else none

/-- `inspect`. -/
def inspect (s : RelationalSpecification) : Answer DomainSchemaStatus :=
  match st.blocked engine with
  | some error => .raised error
  | none => st.inspectDomain engine (layout s)

/-- A plan executed and committed where the foundation still is ready and
the schema is the one aimed at; rolled back otherwise. -/
def apply (plan : List Statement) (l : SchemaLayout) :
    Answer DomainSchemaStatus × ServiceStore V :=
  match st.executeAll plan with
  | none => (.raised .migration, st)
  | some left =>
    match left.blocked engine, left.inspectDomain engine l with
    | none, .value .ready => (.value .ready, left)
    | _, _ => (.raised .migration, st)

/-- `materialise`. -/
def materialise (s : RelationalSpecification) : Answer DomainSchemaStatus × ServiceStore V :=
  if s.schemaVersion ≠ 1 then (.raised .contract, st)
  else
    match st.blocked engine with
    | some error => (.raised error, st)
    | none =>
      match st.inspectDomain engine (layout s) with
      | .value .unmaterialised => st.apply engine (layoutPlan (layout s)) (layout s)
      | reply => (reply, st)

/-- `evolve`. -/
def evolve (t : RelationalTransition) : Answer DomainSchemaStatus × ServiceStore V :=
  match st.blocked engine with
  | some error => (.raised error, st)
  | none =>
    match st.inspectDomain engine (layout t.target) with
    | .value .ready => (.value .ready, st)
    | .value _ =>
      match st.inspectDomain engine (layout t.current) with
      | .value .ready => st.apply engine (transitionPlan t) (layout t.target)
      | .value _ => (.value .incompatible, st)
      | reply => (reply, st)
    | reply => (reply, st)

/-! ## The foundation -/

/-- `inspect_migration`. -/
def inspectMigration : Answer MigrationState :=
  if st.journal then .raised .transientJournal
  else if st.foundation = .ready ∧ CHECK_BUDGET ≤ engine.quickCheck st then .raised .migration
  else .value ⟨true, st.foundation.status⟩

/-- `migrate`: the store is taken up to the last step, which is committed
where the check passes. -/
def migrate : Answer MigrationState × ServiceStore V :=
  let left := { st with foundation := .ready, journal := false }
  if st.foundation = .ready then (left.inspectMigration engine, left)
  else if CHECK_BUDGET ≤ engine.quickCheck left then
    (.raised .migration, { st with foundation := .preparedR3, journal := false })
  else (.value ⟨true, .ready⟩, left)

/-! ## What an operation leaves -/

variable {engine} {st} {left : ServiceStore V}

theorem execute_eq_some {x : Statement} (h : st.execute x = some left) :
    left.foundation = st.foundation ∧ left.journal = st.journal ∧ left.rows = st.rows := by
  cases x with
  | createTable t =>
    simp only [execute] at h
    by_cases hname : st.hasName t.name = true
    · rw [if_pos hname] at h
      exact absurd h (by simp)
    · rw [if_neg hname] at h
      obtain rfl := Option.some.inj h
      exact ⟨rfl, rfl, rfl⟩
  | addColumn table c =>
    simp only [execute, Option.bind_eq_bind, Option.bind_eq_some_iff] at h
    obtain ⟨t, -, -, -, heq⟩ := h
    obtain rfl := Option.some.inj heq
    exact ⟨rfl, rfl, rfl⟩
  | createIndex i =>
    simp only [execute, Option.bind_eq_bind, Option.bind_eq_some_iff] at h
    obtain ⟨t, -, -, -, -, -, heq⟩ := h
    obtain rfl := Option.some.inj heq
    exact ⟨rfl, rfl, rfl⟩

/-- A plan acts on the schema alone. -/
theorem executeAll_eq_some {plan : List Statement} (h : st.executeAll plan = some left) :
    left.foundation = st.foundation ∧ left.journal = st.journal ∧ left.rows = st.rows := by
  induction plan generalizing st with
  | nil =>
    obtain rfl := Option.some.inj h
    exact ⟨rfl, rfl, rfl⟩
  | cons x plan ih =>
    rw [executeAll, List.foldlM_cons] at h
    obtain ⟨next, hx, h⟩ := Option.bind_eq_some_iff.1 h
    obtain ⟨hf, hj, hr⟩ := execute_eq_some hx
    obtain ⟨hf', hj', hr'⟩ := ih h
    exact ⟨hf'.trans hf, hj'.trans hj, hr'.trans hr⟩

/-- **When a layout is found ready.** -/
theorem inspectDomain_ready {l : SchemaLayout} : st.inspectDomain engine l = .value .ready ↔
    ¬ (st.schema.tables = [] ∧ st.schema.indices = []) ∧ st.schema.Same l ∧
      st.foreignKeysClean = true ∧ engine.foreignKeyCheck st < CHECK_BUDGET := by
  unfold inspectDomain
  by_cases hempty : st.schema.tables = [] ∧ st.schema.indices = []
  · simp [hempty]
  by_cases hsame : st.schema.Same l
  · by_cases hbudget : CHECK_BUDGET ≤ engine.foreignKeyCheck st
    · simp [hempty, hsame, hbudget]
    · cases hclean : st.foreignKeysClean <;> simp [hempty, hsame, hbudget, Nat.lt_of_not_le]
  · simp [hempty, hsame]

/-- **A statement adds to the schema.** -/
theorem execute_extends {x : Statement} (h : st.execute x = some left) :
    st.schema.Extends left.schema := by
  cases x with
  | createTable t =>
    simp only [execute] at h
    by_cases hname : st.hasName t.name = true
    · rw [if_pos hname] at h
      exact absurd h (by simp)
    · rw [if_neg hname] at h
      obtain rfl := Option.some.inj h
      exact ⟨fun u hu => ⟨u, List.mem_append_left _ hu, .refl u⟩, fun _ hi => hi⟩
  | addColumn table c =>
    simp only [execute, Option.bind_eq_bind, Option.bind_eq_some_iff] at h
    obtain ⟨t, -, -, -, heq⟩ := h
    obtain rfl := Option.some.inj heq
    refine ⟨fun u hu => ⟨_, List.mem_map.2 ⟨u, hu, rfl⟩, ?_⟩, fun _ hi => hi⟩
    split_ifs
    · exact ⟨rfl, rfl, [c], rfl⟩
    · exact .refl u
  | createIndex i =>
    simp only [execute, Option.bind_eq_bind, Option.bind_eq_some_iff] at h
    obtain ⟨t, -, -, -, -, -, heq⟩ := h
    obtain rfl := Option.some.inj heq
    exact ⟨fun u hu => ⟨u, hu, .refl u⟩, fun _ hi => List.mem_append_left _ hi⟩

theorem executeAll_extends {plan : List Statement} (h : st.executeAll plan = some left) :
    st.schema.Extends left.schema := by
  induction plan generalizing st with
  | nil =>
    obtain rfl := Option.some.inj h
    exact .refl _
  | cons x plan ih =>
    rw [executeAll, List.foldlM_cons] at h
    obtain ⟨next, hx, h⟩ := Option.bind_eq_some_iff.1 h
    exact (execute_extends hx).trans (ih h)

/-- Soundness is of the schema and the rows. -/
theorem Sound.congr (hs : st.Sound) (hschema : left.schema = st.schema) (hrows : left.rows = st.rows) :
    left.Sound := by
  cases st
  cases left
  simp only at hschema hrows
  subst hschema hrows
  exact ⟨hs.tables, hs.columns, hs.references⟩

/-- A plan leaves a sound store sound where the references still lead somewhere. -/
theorem Sound.executeAll {plan : List Statement} (hs : st.Sound) (h : st.executeAll plan = some left)
    (hclean : left.foreignKeysClean = true) : left.Sound := by
  obtain ⟨-, -, hrows⟩ := executeAll_eq_some h
  have hext := executeAll_extends h
  refine ⟨fun name hname => ?_, fun name r hr f hf => ?_, hclean⟩
  · rw [hrows]
    refine hs.tables name fun t ht hsame => ?_
    obtain ⟨u, hu, huname, -⟩ := hext.tables t ht
    exact hname u hu (huname.trans hsame)
  · rw [hrows] at hr
    obtain ⟨t, ht, htname, c, hc, hcname⟩ := hs.columns name r hr f hf
    obtain ⟨u, hu, huname, -, added, hadded⟩ := hext.tables t ht
    refine ⟨u, hu, huname.trans htname, c, ?_, hcname⟩
    rw [hadded]
    exact List.mem_append_left _ hc

theorem inspectDomain_unmaterialised {l : SchemaLayout}
    (h : st.inspectDomain engine l = .value .unmaterialised) :
    st.schema.tables = [] ∧ st.schema.indices = [] := by
  by_contra hempty
  unfold inspectDomain at h
  rw [if_neg hempty] at h
  split_ifs at h <;> exact absurd (Answer.value.inj h) (by simp)

/-- What a plan has committed: a store that can be used, with the layout
aimed at and references that lead somewhere. -/
structure Commits (st : ServiceStore V) (plan : List Statement) (l : SchemaLayout)
    (left : ServiceStore V) : Prop where
  executed : st.executeAll plan = some left
  same : left.schema.Same l
  clean : left.foreignKeysClean = true
  usable : left.Usable

omit [DecidableEq V] in
theorem usable_of_blocked (h : st.blocked engine = none) : st.Usable := by
  unfold blocked at h
  split_ifs at h with hjournal hfoundation
  exact ⟨not_not.1 hfoundation, Bool.eq_false_of_not_eq_true hjournal⟩

/-- What is committed of a plan is the layout aimed at. -/
theorem apply_cases {plan : List Statement} {l : SchemaLayout} :
    (st.apply engine plan l).2 = st ∨ st.Commits plan l (st.apply engine plan l).2 := by
  unfold apply
  cases hplan : st.executeAll plan with
  | none => exact .inl rfl
  | some left =>
    dsimp only
    split
    · rename_i hblocked hready
      obtain ⟨-, hsame, hclean, -⟩ := inspectDomain_ready.1 hready
      exact .inr ⟨hplan, hsame, hclean, usable_of_blocked hblocked⟩
    · exact .inl rfl

/-- **A materialise** leaves the store, or gives one without a schema the
layout of the specification. -/
theorem materialise_cases {s : RelationalSpecification} :
    (st.materialise engine s).2 = st ∨
      (st.schema.tables = [] ∧ st.schema.indices = []) ∧
        st.Commits (layoutPlan (layout s)) (layout s) (st.materialise engine s).2 := by
  unfold materialise
  split_ifs
  · exact .inl rfl
  · split
    · exact .inl rfl
    · split
      · rename_i hempty
        rcases @apply_cases V _ engine st (layoutPlan (layout s)) (layout s) with h | h
        · exact .inl h
        · exact .inr ⟨inspectDomain_unmaterialised hempty, h⟩
      · exact .inl rfl

/-- **An evolve** leaves the store, or takes the layout of the current
specification, which is not that of the target, to the target's. -/
theorem evolve_cases {t : RelationalTransition} :
    (st.evolve engine t).2 = st ∨
      (st.schema.Same (layout t.current) ∧ ¬ st.schema.Same (layout t.target)) ∧
        st.Commits (transitionPlan t) (layout t.target) (st.evolve engine t).2 := by
  unfold evolve
  split
  · exact .inl rfl
  · cases htarget : st.inspectDomain engine (layout t.target) with
    | malformed => exact .inl rfl
    | raised error => exact .inl rfl
    | value found =>
      by_cases hfound : found = .ready
      · subst hfound
        exact .inl rfl
      cases hcurrent : st.inspectDomain engine (layout t.current) with
      | malformed => cases found <;> exact .inl rfl
      | raised error => cases found <;> exact .inl rfl
      | value status =>
        by_cases hstatus : status = .ready
        · subst hstatus
          have hready := inspectDomain_ready.1 hcurrent
          -- the rows being clean, the target's layout would have been found ready
          have hnot : ¬ st.schema.Same (layout t.target) := fun hsame => hfound
            (Answer.value.inj (htarget.symm.trans (inspectDomain_ready.2 ⟨hready.1, hsame, hready.2.2⟩)))
          have heq : (st.apply engine (transitionPlan t) (layout t.target)).2 = st ∨ _ := apply_cases
          rcases heq with h | h
          · left
            cases found <;> first | exact absurd rfl hfound | exact h
          · right
            refine ⟨⟨hready.2.1, hnot⟩, ?_⟩
            cases found <;> first | exact absurd rfl hfound | exact h
        · left
          cases found <;> cases status <;> first | exact absurd rfl hfound | exact absurd rfl hstatus | rfl

end ServiceStore

end Lifecycle

end Aipcs

import Aipcs.Lifecycle.Guarded
import Aipcs.Lifecycle.ServiceStore
import Aipcs.Registry.Freeze

/-!
# Lifecycle — runs over one registry and its stores

The registry and the service stores, and how they serve the calls of
runs: `serve` when nothing goes wrong, `Serves` in whatever way it does,
other writers changing the rows of the stores between two calls. The
system is any number of runs of any commands, begun, stalled and given up
at any call.
-/

namespace Aipcs

namespace Lifecycle

open Registry Relational Store Program

/-- The registry, and the stores under their namespaces. -/
structure World (V : Type) where
  registry : Database
  stores : String → ServiceStore V

namespace World

variable {V : Type} (w : World V)

/-- The store a locator leads to. -/
def store (l : ServiceStoreLocator) : ServiceStore V := w.stores l.namespace_

/-- The store of a service. -/
def storeOf (id : Uuid) : ServiceStore V := w.stores (serviceNamespace id)

def withStore (l : ServiceStoreLocator) (st : ServiceStore V) : World V :=
  { w with stores := Function.update w.stores l.namespace_ st }

@[simp] theorem registry_withStore {l : ServiceStoreLocator} {st : ServiceStore V} :
    (w.withStore l st).registry = w.registry := rfl

variable {w} {l : ServiceStoreLocator} {st : ServiceStore V}

theorem stores_withStore_self : (w.withStore l st).stores l.namespace_ = st :=
  Function.update_self ..

theorem stores_withStore_of_ne {n : String} (h : n ≠ l.namespace_) :
    (w.withStore l st).stores n = w.stores n := Function.update_of_ne h ..

theorem storeOf_withStore_self {id : Uuid} (h : l.namespace_ = serviceNamespace id) :
    (w.withStore l st).storeOf id = st := by
  rw [storeOf, ← h, stores_withStore_self]

theorem storeOf_withStore_of_ne {id id' : Uuid} (h : l.namespace_ = serviceNamespace id)
    (hne : id' ≠ id) : (w.withStore l st).storeOf id' = w.storeOf id' := by
  refine stores_withStore_of_ne fun hname => hne ?_
  exact serviceNamespace_injective (hname.trans h)

/-- A store put back where it was. -/
theorem withStore_store : w.withStore l (w.store l) = w := by
  rw [withStore, store, Function.update_eq_self]

end World

/-! ## Serving calls -/

section Serving

variable {V : Type} [DecidableEq V] (engine : Engine V)

/-- What `_admit` computes in its transaction. -/
def admitted (d : Database) (c : LifecycleCommand) :
    Option ((LifecycleOutcome × Option Service) × Database) :=
  (d.resolveOrAdmit c).map fun r =>
    ((r.1, match r.1 with
      | .prepared i => r.2.service i.principalId i.serviceId
      | _ => none), r.2)

/-- A registry transaction; what raises in it comes out as a migration error. -/
def onRegistry {α : Type} (w : World V) : Option (α × Database) → Transaction α × World V
  | some (a, d) => (.ended a none, { w with registry := d })
  | none => (.raised .migration, w)

/-- An operation on the store a locator leads to. -/
def onStore {α : Type} (w : World V) (l : ServiceStoreLocator)
    (f : ServiceStore V → Answer α × ServiceStore V) : Answer α × World V :=
  if l.backend = .sqlite then ((f (w.store l)).1, w.withStore l (f (w.store l)).2)
  else (.raised .contract, w)

/-- A call served when nothing goes wrong, the clock reading `at_`. -/
def serve (at_ : Instant) (w : World V) : (c : Call) → c.Reply × World V
  | .admission c => onRegistry w (admitted w.registry c)
  | .allocate id => (.value (⟨.sqlite, true⟩, ⟨.sqlite, serviceNamespace id⟩), w)
  | .inspectMigration l => onStore w l fun st => (st.inspectMigration engine, st)
  | .migrate l => onStore w l fun st => st.migrate engine
  | .inspect l s => onStore w l fun st => (st.inspect engine s, st)
  | .materialise l s => onStore w l fun st => st.materialise engine s
  | .evolve l t => onStore w l fun st => st.evolve engine t
  | .now => (.value at_, w)
  | .finalizeCompleted c => onRegistry w (w.registry.finalizeCompleted c)
  | .finalizeRecoveryRequired i _ => onRegistry w (w.registry.finalizeRecoveryRequired i)

/-- Replies by which a call fails. -/
def Answer.Failed {α : Type} : Answer α → Prop
  | .value _ => False
  | _ => True

def Transaction.Failed {α : Type} : Transaction α → Prop
  | .ended _ none => False
  | _ => True

def Failed : (c : Call) → c.Reply → Prop
  | .admission _, (r : Transaction _) => r.Failed
  | .allocate _, (r : Answer _) => r.Failed
  | .inspectMigration _, (r : Answer _) => r.Failed
  | .migrate _, (r : Answer _) => r.Failed
  | .inspect _ _, (r : Answer _) => r.Failed
  | .materialise _ _, (r : Answer _) => r.Failed
  | .evolve _ _, (r : Answer _) => r.Failed
  | .now, (r : Answer _) => r.Failed
  | .finalizeCompleted _, (r : Transaction _) => r.Failed
  | .finalizeRecoveryRequired _ _, (r : Transaction _) => r.Failed

/-- What a migration that breaks off leaves of a store. -/
structure Migrating (st st' : ServiceStore V) : Prop where
  schema : st'.schema = st.schema
  rows : st'.rows = st.rows
  usable : st.Usable → st'.Usable

/-- What a call that fails may leave: what it found, what it was to do, or
a foundation taken part of the way. -/
inductive Leaves (w : World V) : Call → World V → Prop
  | nothing {c : Call} : Leaves w c w
  | effect {c : Call} (at_ : Instant) : Leaves w c (serve engine at_ w c).2
  | part {l : ServiceStoreLocator} {st : ServiceStore V} : Migrating (w.store l) st →
      Leaves w (.migrate l) (w.withStore l st)

/-- What other writers do to the rows, under the schema there is. -/
structure Written (w w' : World V) : Prop where
  registry : w'.registry = w.registry
  stores : ∀ n, w'.stores n = w.stores n ∨
    ∃ rows, w'.stores n = { w.stores n with rows } ∧ (w'.stores n).Sound

/-- A call served. -/
def Serves (w : World V) (c : Call) (r : c.Reply) (w' : World V) : Prop :=
  ∃ u, Written w u ∧
    ((∃ at_, serve engine at_ u c = (r, w')) ∨ Failed c r ∧ Leaves engine u c w')

/-! ## The system -/

/-- Every service has a live identity. -/
def Live (d : Database) : Prop :=
  ∀ id s, d.services.find? id = some s → ∃ identity name backend, d.identities.find? id = some identity ∧
    identity.principalId = s.principalId ∧ identity.state = .live name backend

/-- No claim is pending, and the stores are what the registry says. -/
structure Settled (w : World V) : Prop where
  claims : ∀ r ∈ w.registry.claims.rows, r.pending = false
  live : Live w.registry
  sound : ∀ n, (w.stores n).Sound
  seeded : ∀ id s, w.registry.services.find? id = some s → s.designState = .seeded →
    (w.storeOf id).schema = .empty
  materialised : ∀ id s, w.registry.services.find? id = some s → s.designState = .materialised →
    s.storage = some .sqlite ∧ (w.storeOf id).Usable ∧
      ∀ m, s.manifest = some m → (w.storeOf id).schema.Same (layout (compileManifest m))

/-- Runs of the coordinator, from a settled world. -/
def lifecycles : System (Interleaved (World V) Call.Reply ExecutionResult) (Turn Call.Reply ExecutionResult) :=
  Interleaved.interleaving Settled (fun p => ∃ command, p = execute command) (Serves engine)

end Serving

end Lifecycle

end Aipcs

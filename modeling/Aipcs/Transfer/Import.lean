import Aipcs.Coordinator.Run
import Aipcs.Data.Observation
import Aipcs.Registry.Ledger

/-!
# Transfer — imports beside every other run

A run of `import_bundle` admits its claim in the registry, stages the
bundle's members in a service store, observes them there, and publishes
the service. Each step is one transaction of the registry or of a store,
and between two of them other imports, the coordinator's other runs and
the registry's other clients may take steps, data commands may change a
store whose fence is open, and a run may stop for good.
-/

namespace Aipcs

namespace Transfer

open Manifest Records Registry Store Coordinator Data

/-! ## Service stores -/

/-- A service store: its tables, the row of its fence, and how many other
replays it holds. -/
structure StoreRows where
  content : Content
  fence : Option WriteAdmissionFence
  replays : ℕ

namespace StoreRows

/-- `_read_fence`. -/
def found (x : StoreRows) : WriteAdmissionFence := x.fence.getD INITIAL_FENCE

/-- A store that has just been migrated. -/
def created : StoreRows := ⟨.empty, none, 0⟩

/-- `_has_logical_state`. -/
def hasLogicalState (x : StoreRows) : Bool :=
  !x.content.history.isEmpty || !x.content.branches.rows.isEmpty || !x.content.memberships.rows.isEmpty ||
    x.fence.isSome || x.replays ≠ 0 || !x.content.records.rows.isEmpty

end StoreRows

/-! ## Bundles -/

/-- `PortableBundleContent`. -/
structure PortableBundleContent where
  service : Service
  members : List PortableStoreMember
  exportFence : Option WriteAdmissionFence
  seeded : service.designState = .seeded → members = [] ∧ exportFence = none
  quiesced : service.designState = .materialised → service.operationalStatus ≠ .active
  fenced : service.designState = .materialised → ∃ f, exportFence = some f ∧ f.state = .closed
  checked : service.designState = .materialised → ∀ m, service.manifest = some m →
    validatePortableMembers members (compileRecordSpecification m) = true

/-- `_source` of a service that is to be quiesced. -/
def source (s : Service) : Option ManifestV2 :=
  if s.designState = .materialised ∧ s.storage = some .sqlite ∧ s.operationalStatus ≠ .active then s.manifest
  else none

/-- `observe`, of the store that the service names. -/
def observed (content : PortableBundleContent) (store : Option StoreRows) : Bool :=
  match source content.service, content.exportFence, store with
  | some m, some fence, some x =>
    fence.state = .closed && x.found = fence &&
      observeMembers .sqlite m (fun g h => g ≤ h) content.service.principalId.1 content.members x.content
  | _, _, _ => false

/-- The command that `import_bundle` makes for a bundle. -/
def importCommand (principalId : PrincipalId) (createdVia : CreatedVia) (content : PortableBundleContent)
    (root : Root) (key : IdempotencyKey) : Option ImportCommand :=
  if h : isIdentifier content.service.domainName = true then
    some ⟨principalId, createdVia, ⟨principalId, content.service.serviceId, content.service.domainName, h⟩,
      .sqlite, root, key, rfl⟩
  else none

/-- `_receipt` of an import. -/
def importReceipt (c : ImportCommand) (s : Service) (at_ : Instant) (receiptId : Uuid) : TransferReceipt where
  receiptId := receiptId
  kind := .import_
  principalId := s.principalId
  serviceId := s.serviceId
  bundleRootSha256 := c.bundleRootSha256.1
  storageBackend := .sqlite
  serviceRevision := s.serviceRevision
  operationalStatus := s.operationalStatus
  verification := .verified
  createdAt := at_
  root := c.bundleRootSha256.2
  revision := s.revision

/-! ## One import -/

/-- Where an import stands. One that has not begun, or that has returned
or crashed, is `outside`. -/
inductive ImportState where
  | outside
  | migrating (c : ImportCommand) (content : PortableBundleContent)
  | inserting (c : ImportCommand) (content : PortableBundleContent)
  | comparing (c : ImportCommand) (content : PortableBundleContent)
  | excusing (c : ImportCommand) (content : PortableBundleContent)
  | observing (c : ImportCommand) (content : PortableBundleContent)
  | publishing (c : ImportCommand) (content : PortableBundleContent)
  | recovering (c : ImportCommand)

/-- One step of an import, with what the environment decides about it:
what a call comes to, and whether the store is there to be read. -/
inductive ImportEvent where
  | admission (principalId : PrincipalId) (createdVia : CreatedVia) (content : PortableBundleContent)
      (root : Root) (key : IdempotencyKey) (now : Instant) (fate : Fate)
  | migrate (fate : Fate)
  | insert (fate : Fate)
  | compare (sees returns : Bool)
  | observe (sees : Bool)
  | publish (receiptId : Option Uuid) (at_ : Instant) (fate : Fate)
  | recover (fate : Fate)
  | crash

/-- The registry and the service stores, absent where there is none. -/
structure Shared where
  registry : Database
  stores : Uuid → Option StoreRows

/-- What an import does first once it is admitted. -/
def firstStep (c : ImportCommand) (content : PortableBundleContent) : ImportState :=
  if content.service.designState = .materialised then .migrating c content else .publishing c content

/-- The registry that a transaction leaves. -/
def ended (d : Database) (operation : Option (AuthorityOutcome × Database)) (fate : Fate) : Database :=
  match operation with
  | some (outcome, left) => if Coordinator.committed outcome && fate.effective then left else d
  | none => d

/-- A store as a call leaves it, unless it has no effect. -/
def Shared.call (g : Shared) (id : Uuid) (left : StoreRows) (fate : Fate) : Shared :=
  if fate.effective then { g with stores := Function.update g.stores id (some left) } else g

/-- The intent that the admission of an import hands out, and the registry. -/
def admittedImport (d : Database) (c : ImportCommand) (now : Instant) : Option (ImportCommand × Database) :=
  match d.resolveOrPrepare (.import_ c) now with
  | some (.prepared (.import_ stored), prepared) => some (stored, prepared)
  | _ => none

/-- What `stage` makes of a store without logical state, or nothing where it raises. -/
def staged (content : PortableBundleContent) : Option StoreRows := do
  let m ← source content.service
  let fence ← content.exportFence
  let y ← stage .sqlite m content.service.principalId.1 content.service.updatedAt content.members
  return ⟨y, some fence, 0⟩

/-- One step of an import. Events that do not fit where it stands are no steps. -/
def advanceImport (g : Shared) : ImportState → ImportEvent → Option (Shared × ImportState)
  | _, .crash => some (g, .outside)
  | .outside, .admission principalId createdVia content root key now fate => do
    let c ← importCommand principalId createdVia content root key
    match admittedImport g.registry c now with
    | some (stored, prepared) =>
      match fate with
      | .done => some ({ g with registry := prepared }, firstStep stored content)
      | .unseen => some ({ g with registry := prepared }, .outside)
      | .lost => some (g, .outside)
    | none => some (g, .outside)
  -- `stage`
  | .migrating c content, .migrate fate =>
    if (source content.service).isNone then some (g, .excusing c content)
    else
      some (g.call content.service.serviceId ((g.stores content.service.serviceId).getD .created) fate,
        if fate = .done then .inserting c content else .excusing c content)
  | .inserting c content, .insert fate =>
    match g.stores content.service.serviceId with
    | some x =>
      if x.hasLogicalState then some (g, if fate = .done then .comparing c content else .excusing c content)
      else
        match staged content with
        | some y =>
          some (g.call content.service.serviceId y fate,
            if fate = .done then .observing c content else .excusing c content)
        | none => some (g, .excusing c content)
    | none => some (g, .excusing c content)
  | .comparing c content, .compare sees returns =>
    some (g, if ¬ returns ∨ (g.stores content.service.serviceId).isNone then .excusing c content
      else if sees && observed content (g.stores content.service.serviceId) then .observing c content
      else .recovering c)
  -- `observe`, after an exception and before the service is published
  | .excusing c content, .observe sees =>
    some (g, if sees && observed content (g.stores content.service.serviceId) then .observing c content else .outside)
  | .observing c content, .observe sees =>
    some (g, if sees && observed content (g.stores content.service.serviceId) then .publishing c content else .outside)
  | .publishing c content, .publish receiptId at_ fate =>
    match receiptId with
    | some id =>
      let published := g.registry.publishImport c content.service (importReceipt c content.service at_ id)
      some ({ g with registry := ended g.registry published fate }, .outside)
    | none => some (g, .recovering c)
  | .recovering c, .recover fate =>
    some ({ g with registry := ended g.registry (g.registry.markRecoveryRequired (.import_ c)) fate }, .outside)
  | _, _ => none

/-! ## Every run -/

/-- The registry with its clients, the stores, the coordinator's runs and
its imports. -/
structure Installation where
  clients : Clients
  stores : Uuid → Option StoreRows
  runs : ℕ → RunState
  imports : ℕ → ImportState

/-- One step: another client's transaction, a run's or an import's step,
a store made for a service, or a data command. -/
inductive Move where
  | client (q : Registry.Request)
  | portable (run : ℕ) (e : Event)
  | import_ (run : ℕ) (e : ImportEvent)
  | found (id : Uuid)
  | operate (id : Uuid) (left : Content)

namespace Installation

variable (w : Installation)

def registry : Database := w.clients.database

/-- The registry and the stores, as an import finds them. -/
def shared : Shared := ⟨w.clients.database, w.stores⟩

/-- The registry and the fences, as the coordinator's other runs find them. -/
def fences : Coordinator.Shared := ⟨w.clients.database, fun id => (w.stores id).map (·.found)⟩

/-- A store whose fence is left so, or which is removed. -/
def refence : Option StoreRows → Option WriteAdmissionFence → Option StoreRows
  | some x, some fence => some { x with fence := if fence = x.found then x.fence else some fence }
  | _, _ => none

end Installation

/-- The intent that a run's admission hands out. -/
def grantedRun (d : Database) : RunState → Event → Option RegistryAuthorityCommand
  | .outside, .admission request now fate =>
    if fate.effective then (admitted d request now).map (·.1) else none
  | _, _ => none

/-- The intent that an import's admission hands out. -/
def grantedImport (d : Database) : ImportState → ImportEvent → Option RegistryAuthorityCommand
  | .outside, .admission principalId createdVia content root key now fate =>
    if fate.effective then
      ((importCommand principalId createdVia content root key).bind fun c => admittedImport d c now).map
        fun r => .import_ r.1
    else none
  | _, _ => none

/-- **One step of an installation.** -/
inductive Step : Installation → Move → Installation → Prop
  | client {w : Installation} {q : Registry.Request} {clients : Clients} : q.intent = none →
      requests.step w.clients q clients → Step w (.client q) { w with clients }
  | portable {w : Installation} {run : ℕ} {e : Event} {g : Coordinator.Shared} {r : RunState} :
      advance .sqlite w.fences (w.runs run) e = some (g, r) →
      Step w (.portable run e)
        { w with
          clients := ⟨g.registry, (grantedRun w.registry (w.runs run) e).toList ++ w.clients.held⟩
          stores := fun id => Installation.refence (w.stores id) (g.stores id)
          runs := Function.update w.runs run r }
  | import_ {w : Installation} {run : ℕ} {e : ImportEvent} {g : Shared} {r : ImportState} :
      advanceImport w.shared (w.imports run) e = some (g, r) →
      Step w (.import_ run e)
        { w with
          clients := ⟨g.registry, (grantedImport w.registry (w.imports run) e).toList ++ w.clients.held⟩
          stores := g.stores
          imports := Function.update w.imports run r }
  | found {w : Installation} {id : Uuid} : w.stores id = none →
      Step w (.found id) { w with stores := Function.update w.stores id (some .created) }
  -- `_mutate_once` finds the fence open in its transaction, and leaves a replay
  | operate {w : Installation} {id : Uuid} {x : StoreRows} {left : Content} : w.stores id = some x →
      x.found.state = .open_ →
      Step w (.operate id left)
        { w with stores := Function.update w.stores id (some { x with content := left, replays := x.replays + 1 }) }

/-- A registry that runs of its clients come to, with any stores, and no run begun. -/
structure Installation.Initial (w : Installation) : Prop where
  registry : registryRuns.Reachable w.clients
  runs : ∀ run, w.runs run = .outside
  imports : ∀ run, w.imports run = .outside

/-- Every run of an installation. -/
def installation : System Installation Move where
  init := Installation.Initial
  step := Step

end Transfer

end Aipcs

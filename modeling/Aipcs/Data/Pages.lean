import Aipcs.Common.Keyset
import Aipcs.Data.Constraints
import Aipcs.Data.Maintenance
import Aipcs.Data.Reads
import Aipcs.Data.Traversal

/-!
# Data — traversals of records and branches

`list_records`, `search_records` and `list_branches` ask for the rows after
an id, in the order of the ids, one more than the page takes. Each page is
read of one content that was committed (`reads_atomic`); between two pages
a store may become any other. The engine's comparisons decide which rows a
search finds.
-/

namespace Aipcs

namespace Data

open Manifest Portable Relational Records Registry Store.Mutating

/-- What is asked for page by page, whatever its own page says. -/
inductive ListQuery where
  | records (entityName : EntityName) (branch : Option (Uuid × BranchRole))
  | search (q : SearchRecordsQuery)
  | branches (q : ListBranchesQuery)

/-- The query of a page. -/
def ListQuery.query (page : PageRequest Uuid) : ListQuery → Query
  | .records entityName branch => .listRecords entityName branch page
  | .search q => .searchRecords { q with page }
  | .branches q => .listBranches { q with page }

inductive Item where
  | record (v : RecordValue)
  | branch (v : BranchValue)

def Item.id : Item → Uuid
  | .record v => v.recordId
  | .branch v => v.branchId

/-- The page that a read gives, and where the next one begins. -/
def Found.items : Found → Option (List Item × Option Uuid)
  | .records page => some (page.rows.map .record, page.next)
  | .branches page => some (page.rows.map .branch, page.next)
  | _ => none

section listing

variable (b : StorageBackend) (engine : Engine) (s : RecordSpecification) (principalId : String) (l : ListQuery)

/-- A page that the store gives. -/
def fetch (x : Content) (position : Option Uuid) (limit : ℕ) : Option (List Item × Option Uuid) :=
  if h : 1 ≤ limit ∧ limit ≤ MAX_PAGE_LIMIT then
    match readAt b engine s principalId x (l.query ⟨limit, position, h⟩) with
    | .ok found => found.items
    | .error _ => none
  else none

/-- The filters of a search, each with its field. -/
def filterFields (q : SearchRecordsQuery) : Option (List (RecordField × RecordFilter)) :=
  q.filters.mapM fun f => (recordField s.entities f.entityName f.fieldName).map fun field => (field, f)

/-- The branches that a query selects. -/
def Content.selectedBranches (x : Content) (q : ListBranchesQuery) : List BranchRow :=
  (x.branchRows principalId).filter fun r => (q.status.all fun s => r.value.status = s) &&
    (q.branchType.all fun t => r.value.branchType.any fun t' => t'.1 = t.1) &&
      q.parentBranchId.all fun p => r.value.parentBranchId = some p

/-- The rows of a content that are asked for, each with its id and what it is read as. -/
def listedRows (x : Content) : List (Uuid × Option Item) :=
  let records := fun rows : List RecordRow => rows.map fun r => (r.id, (decodeRecord b s r).map Item.record)
  match l with
  | .records entityName branch => records (x.pageRows principalId entityName.1 engine [] branch none)
  | .search q => records (((filterFields s q).map fun filters =>
      x.pageRows principalId q.entityName.1 engine filters q.branch none).getD [])
  | .branches q => (x.selectedBranches principalId q).map fun r => (r.value.branchId, some (.branch r.value))

end listing

variable {b : StorageBackend} {engine : Engine} {s : RecordSpecification} {principalId : String} {l : ListQuery}
  {x : Content} {entityName : String} {filters : List (RecordField × RecordFilter)} {branch : Option (Uuid × BranchRole)}
  {position : Option Uuid} {limit : ℕ}

/-! ## The rows of a listing -/

theorem ascending_pageRows :
    Ascending (fun r : RecordRow => r.id.int) (x.pageRows principalId entityName engine filters branch position) :=
  List.Pairwise.sublist List.filter_sublist ascending_ownedRows

/-- The branches of an owner ascend. -/
theorem ascending_branchRows : Ascending (fun r : BranchRow => r.value.branchId.int) (x.branchRows principalId) := by
  refine Ascending.insertionSort ?_
  have hrows := x.branches.keyed.sublist ((List.filter_sublist (l := x.branches.rows) (p := fun r : BranchRow =>
    decide (r.principalId = principalId))).map BranchRow.key)
  rw [List.nodup_iff_pairwise_ne, List.pairwise_map] at hrows ⊢
  exact hrows.imp fun hne hid => hne (Uuid.int_injective hid)

/-- The rows after a position are those of the listing that lie after it. -/
theorem pageRows_position : x.pageRows principalId entityName engine filters branch position =
    (x.pageRows principalId entityName engine filters branch none).filter fun r =>
      position.all fun p => p.int < r.id.int := by
  rw [Content.pageRows, Content.pageRows, List.filter_filter]
  refine List.filter_congr fun r _ => ?_
  simp only [Option.all_none, Bool.true_and, Bool.and_assoc]

theorem selectedBranches_position {q : ListBranchesQuery} : ((x.branchRows principalId).filter fun b =>
    (position.all fun p => p.int < b.value.branchId.int) && (q.status.all fun s => b.value.status = s) &&
      ((q.branchType.map (·.1)).all fun t => b.value.branchType.any fun t' => t'.1 = t) &&
      q.parentBranchId.all fun p => b.value.parentBranchId = some p) =
    (x.selectedBranches principalId q).filter fun r => position.all fun p => p.int < r.value.branchId.int := by
  rw [Content.selectedBranches, List.filter_filter]
  refine List.filter_congr fun r _ => ?_
  simp only [Option.all_map, Bool.and_assoc]

/-- Each record of a listing is read from its row. -/
theorem ascending_records {rows : List RecordRow} (h : Ascending (fun r : RecordRow => r.id.int) rows) :
    Ascending (fun r : Uuid × Option Item => r.1.int) (rows.map fun r => (r.id, (decodeRecord b s r).map Item.record)) :=
  List.pairwise_map.2 h

theorem placed_records {rows : List RecordRow} : ∀ r ∈ rows.map fun r => (r.id, (decodeRecord b s r).map Item.record),
    ∀ v ∈ r.2, v.id = r.1 := by
  rintro r hr v hv
  obtain ⟨row, -, rfl⟩ := List.mem_map.1 hr
  obtain ⟨value, hvalue, rfl⟩ := Option.map_eq_some_iff.1 hv
  exact (decodeRecord_row hvalue).2.2.1

/-- The rows that are asked for, page by page. -/
def ListQuery.listing (b : StorageBackend) (engine : Engine) (s : RecordSpecification) (principalId : String)
    (l : ListQuery) : Keyset.Listing Content Uuid Item where
  rows := listedRows b engine s principalId l
  rank := Uuid.int
  place := Item.id
  ascending x := by
    cases l with
    | records entityName branch => exact ascending_records ascending_pageRows
    | search q =>
      refine ascending_records ?_
      cases filterFields s q with
      | none => exact .nil
      | some filters => exact ascending_pageRows
    | branches q => exact List.pairwise_map.2 (List.Pairwise.sublist List.filter_sublist ascending_branchRows)
  placed x := by
    cases l with
    | records entityName branch => exact placed_records
    | search q => exact placed_records
    | branches q =>
      rintro r hr v hv
      obtain ⟨row, -, rfl⟩ := List.mem_map.1 hr
      obtain rfl := Option.some.inj hv
      rfl

/-! ## The pages that a store gives -/

/-- A read that has been let through gives what its own statements give. -/
theorem at_operation {q : Query} {found : Found} (hq : ∀ state, awaits b state q = false)
    (h : readAt b engine s principalId x q = .ok found) : (operation b s q).at_ engine principalId x = .ok found := by
  change (read b s q).at_ engine principalId x = .ok found at h
  obtain ⟨-, h⟩ := at_check.1 h
  obtain ⟨state, -, h⟩ := bind_eq_ok.1 (at_bind ▸ h)
  obtain ⟨-, h⟩ := at_check.1 h
  obtain ⟨domain, -, h⟩ := bind_eq_ok.1 (at_bind ▸ h)
  obtain ⟨-, h⟩ := at_check.1 h
  rwa [hq state] at h

/-- A page that is read of the rows that one statement answers. -/
theorem at_page {ρ κ : Type} {p : Read (Page ρ κ)} {f : Page ρ κ → Found} {found : Found}
    (h : (f <$> p).at_ engine principalId x = .ok found) :
    ∃ page, p.at_ engine principalId x = .ok page ∧ found = f page := by
  rw [at_map] at h
  cases hp : p.at_ engine principalId x with
  | error code =>
    rw [hp] at h
    exact absurd h (by simp [Functor.map, Except.map])
  | ok page =>
    rw [hp] at h
    exact ⟨page, rfl, (Except.ok.inj h).symm⟩

theorem at_map_ok {α β : Type} {p : Read α} {f : α → β} {a : α} (h : p.at_ engine principalId x = .ok a) :
    (f <$> p).at_ engine principalId x = .ok (f a) := by
  rw [at_map, h]
  rfl

/-- The page of rows that are read one by one. -/
theorem page_of_pageOf {ρ σ : Type} {rows : List ρ} {decode : ρ → Option σ} {item : σ → Item} {key : ρ → Uuid}
    {page : Page σ Uuid} {L : Keyset.Listing Content Uuid Item} (hlimit : 1 ≤ limit)
    (h : pageOf limit decode key (rows.take (limit + 1)) = .ok page)
    (hafter : L.after x position = rows.map fun r => (key r, (decode r).map item)) :
    L.Page x position limit (page.rows.map item) page.next := by
  obtain ⟨hvalues, hnext⟩ := (pageOf_eq_ok hlimit).1 h
  refine ⟨?_, ?_⟩
  · rw [hafter, ← List.map_take, List.map_map, List.map_map]
    have hread := mapM_eq_some hvalues
    generalize rows.take limit = taken, page.rows = values at hread
    induction hread with
    | nil => rfl
    | cons hone _ ih => rw [List.map_cons, List.map_cons, ih, Function.comp_apply, hone]; rfl
  · rw [hafter, hnext, List.length_map, List.getElem?_map, Option.map_map]
    rfl

theorem after_records {rows : List RecordRow} {L : Keyset.Listing Content Uuid Item} (hrank : L.rank = Uuid.int)
    (hrows : L.rows x = rows.map fun r => (r.id, (decodeRecord b s r).map Item.record)) :
    L.after x position = (rows.filter fun r => position.all fun p => p.int < r.id.int).map fun r =>
      (r.id, (decodeRecord b s r).map Item.record) := by
  rw [Keyset.Listing.after, hrows, hrank, List.filter_map]
  rfl

/-- **What the store gives are the pages of the listing.** -/
theorem gives_fetch : (l.listing b engine s principalId).Gives (fetch b engine s principalId l) := by
  intro x position limit values next hlimit h
  unfold fetch at h
  split_ifs at h with hbounds
  split at h
  rotate_left
  · exact absurd h (by simp)
  rename_i found hread
  cases l with
  | records entityName branch =>
    obtain ⟨page, hpage, rfl⟩ := at_page (at_operation (fun _ => rfl) hread)
    obtain ⟨rfl, rfl⟩ := Prod.mk.inj (Option.some.inj h)
    refine page_of_pageOf hlimit hpage ?_
    rw [pageRows_position]
    exact after_records rfl rfl
  | search q =>
    have hop := at_operation (fun _ => rfl) hread
    obtain ⟨filters, hfilters, hop⟩ := bind_eq_ok.1 (at_bind ▸ hop)
    obtain ⟨page, hpage, rfl⟩ := at_page hop
    obtain ⟨rfl, rfl⟩ := Prod.mk.inj (Option.some.inj h)
    refine page_of_pageOf hlimit hpage ?_
    rw [pageRows_position]
    refine after_records rfl ?_
    have hfields : filterFields s q = some filters := require_eq_ok.1 hfilters
    change listedRows b engine s principalId (.search q) x = _
    simp only [listedRows, hfields, Option.map_some, Option.getD_some]
  | branches q =>
    obtain ⟨page, hpage, rfl⟩ := at_page (at_operation (fun _ => rfl) hread)
    obtain ⟨rfl, rfl⟩ := Prod.mk.inj (Option.some.inj h)
    refine page_of_pageOf hlimit hpage ?_
    rw [selectedBranches_position]
    change ((x.selectedBranches principalId q).map _).filter _ = _
    rw [List.filter_map]
    rfl

/-- What a ready store gives of a read that it admits. -/
theorem readAt_of_ready {q : Query} (hadmitted : admitted s q = true) (hready : engine.foundation = .ready)
    (hdomain : engine.domain = true) (hq : ∀ state, awaits b state q = false) :
    readAt b engine s principalId x q = (operation b s q).at_ engine principalId x := by
  change (read b s q).at_ engine principalId x = _
  rw [read, at_bind, at_given, hadmitted]
  change (Read.given (check .storageMigrationRequired
    (awaits b engine.foundation q || decide (engine.foundation = .ready))) >>= fun _ => _).at_ engine principalId x = _
  rw [at_bind, at_given, hq, Bool.false_or, decide_eq_true hready]
  change (Read.given (check .storageMigrationRequired engine.domain) >>= fun _ => _).at_ engine principalId x = _
  rw [at_bind, at_given, hdomain]
  change Read.at_ engine principalId x (if awaits b engine.foundation q then _ else _) = _
  rw [hq]
  rfl

/-- A page is given of rows that can each be read. -/
theorem exists_pageOf {ρ σ : Type} {rows : List ρ} {decode : ρ → Option σ} {key : ρ → Uuid} (hlimit : 1 ≤ limit)
    (h : ∀ r ∈ rows, (decode r).isSome = true) : ∃ page, pageOf limit decode key (rows.take (limit + 1)) = .ok page := by
  obtain ⟨values, hvalues⟩ := mapM_isSome_iff.2 fun r hr => Option.isSome_iff_exists.1 (h r (List.mem_of_mem_take hr))
  exact ⟨⟨values, _⟩, (pageOf_eq_ok hlimit).2 ⟨hvalues, rfl⟩⟩

/-- A store that is ready gives every page of rows that can be read. -/
theorem fetch_isSome (hadmitted : ∀ page, admitted s (l.query page) = true) (hready : engine.foundation = .ready)
    (hdomain : engine.domain = true) (hread : ∀ r ∈ listedRows b engine s principalId l x, r.2.isSome = true)
    (hlimit : 1 ≤ limit ∧ limit ≤ MAX_PAGE_LIMIT) : (fetch b engine s principalId l x position limit).isSome = true := by
  have hgiven : ∀ found, readAt b engine s principalId x (l.query ⟨limit, position, hlimit⟩) = .ok found →
      found.items.isSome = true → (fetch b engine s principalId l x position limit).isSome = true := by
    intro found hfound hitems
    rw [fetch, dif_pos hlimit, hfound]
    exact hitems
  have hrecords : ∀ rows : List RecordRow, (∀ r ∈ rows.map fun r => (r.id, (decodeRecord b s r).map Item.record),
      r.2.isSome = true) → ∀ r ∈ rows.filter fun r => position.all fun p => p.int < r.id.int,
        (decodeRecord b s r).isSome = true := by
    intro rows hrows r hr
    have hone := hrows _ (List.mem_map_of_mem (List.mem_of_mem_filter hr))
    rwa [Option.isSome_map] at hone
  cases l with
  | records entityName branch =>
    have hrows := hrecords _ hread
    rw [← pageRows_position] at hrows
    obtain ⟨page, hpage⟩ := @exists_pageOf limit _ _ _ _ (fun r : RecordRow => r.id) hlimit.1 hrows
    refine hgiven (.records page) ?_ rfl
    exact (readAt_of_ready (hadmitted _) hready hdomain fun _ => rfl).trans (at_map_ok hpage)
  | search q =>
    obtain ⟨filters, hfilters⟩ : ∃ filters, filterFields s q = some filters := by
      refine mapM_isSome_iff.2 fun f hf => ?_
      have hvalid := List.all_eq_true.1 (hadmitted ⟨limit, position, hlimit⟩) f hf
      obtain ⟨field, hfield⟩ := Option.isSome_iff_exists.1 hvalid
      obtain ⟨field, hfield, -⟩ := Option.bind_eq_some_iff.1 hfield
      exact ⟨(field, f), by rw [hfield, Option.map_some]⟩
    simp only [listedRows, hfilters, Option.map_some, Option.getD_some] at hread
    have hrows := hrecords _ hread
    rw [← pageRows_position] at hrows
    obtain ⟨page, hpage⟩ := @exists_pageOf limit _ _ _ _ (fun r : RecordRow => r.id) hlimit.1 hrows
    refine hgiven (.records page) ?_ rfl
    refine (readAt_of_ready (hadmitted _) hready hdomain fun _ => rfl).trans ?_
    change (Read.given (require .internalError (filterFields s q)) >>= fun filters => _).at_ engine principalId x = _
    rw [at_bind, at_given, hfilters]
    exact at_map_ok hpage
  | branches q =>
    obtain ⟨page, hpage⟩ := @exists_pageOf limit _ _ ((x.selectedBranches principalId q).filter fun r =>
      position.all fun p => p.int < r.value.branchId.int) (fun r => some r.value) (·.value.branchId) hlimit.1
        fun _ _ => rfl
    rw [← selectedBranches_position] at hpage
    refine hgiven (.branches page) ?_ rfl
    exact (readAt_of_ready (hadmitted _) hready hdomain fun _ => rfl).trans (at_map_ok hpage)

/-! ## Every traversal -/

/-- A traversal of a listing. Between two pages the store may become any other. -/
def listTraversals (b : StorageBackend) (engine : Engine) (s : RecordSpecification) (principalId : String)
    (l : ListQuery) : System (Keyset.World Content Uuid Item) (Keyset.Event Content) :=
  Keyset.traversals (fetch b engine s principalId l)

/-- **Traversals of records and branches.** Whatever the store becomes
between two pages, a traversal gives the items in the order of their ids,
each as some content lists it; when it ends, every id that has been listed
throughout has been given, once. On a store that stands still it ends with
the page on which the limits come up to the number of rows that are left,
and it does come to its end where the store is ready and its rows can be
read. -/
theorem pages_traversed {w : Keyset.World Content Uuid Item} (h : (listTraversals b engine s principalId l).Reachable w) :
    (w.read.map fun v => v.id.int).Pairwise (· < ·) ∧
    (∀ v ∈ w.read, ∃ x ∈ w.states, (v.id, some v) ∈ listedRows b engine s principalId l x) ∧
    (w.ended = true → ∀ id, (∀ x ∈ w.states, id ∈ (listedRows b engine s principalId l x).map Prod.fst) →
      ∃ v, w.read.filter (fun v => v.id = id) = [v]) ∧
    (∀ limits w', limits ≠ [] → Keyset.Pages (fetch b engine s principalId l) w limits w' →
      (w'.ended = true ↔ ((l.listing b engine s principalId).after w.state w.position).length ≤ limits.sum) ∧
        limits.length ≤ max 1 ((l.listing b engine s principalId).after w.state w.position).length) ∧
    (w.ended = false → (∀ page, admitted s (l.query page) = true) → engine.foundation = .ready → engine.domain = true →
      (∀ r ∈ listedRows b engine s principalId l w.state, r.2.isSome = true) →
        ∀ limit, 1 ≤ limit ∧ limit ≤ MAX_PAGE_LIMIT → ∃ n w', Keyset.Pages (fetch b engine s principalId l) w (List.replicate n limit) w' ∧ w'.ended = true) := by
  have htraversed := Keyset.traversed gives_fetch h
  refine ⟨List.pairwise_map.2 htraversed.ascending, htraversed.listed, fun hended id hid => htraversed.once hended hid,
    fun limits w' hlimits hpages => hpages.standing gives_fetch ?_ hlimits,
    fun hover hadmitted hready hdomain hread limit hlimit => Keyset.Pages.ends gives_fetch hlimit.1 hover fun position =>
      fetch_isSome hadmitted hready hdomain hread hlimit⟩
  cases hpages with
  | nil => exact absurd rfl hlimits
  | cons hstep _ =>
    cases hstep
    assumption

/-! ## A traversal of one note -/

namespace OnePage

open Noted Counted

def before : Keyset.World Content Uuid Item := ⟨kept .sqlite, [kept .sqlite], none, [], false⟩

abbrev everyNote : ListQuery := .records note none

theorem note_listed :
    (fetch .sqlite Counted.engine notes "alice" everyNote (kept .sqlite) none 1).any (fun p => p.2.isNone) = true ∧
      (listedRows .sqlite Counted.engine notes "alice" everyNote (kept .sqlite)).map Prod.fst = [readings.newId] := by
  decide +kernel

/-- The one page of the notes. -/
theorem reachable : ∃ w, (listTraversals .sqlite Counted.engine notes "alice" everyNote).Reachable w ∧ w.ended = true ∧
    w.states = [kept .sqlite] := by
  obtain ⟨⟨values, next⟩, hpage, hnext⟩ := (Option.any_eq_true _ _).1 note_listed.1
  have hreach : (listTraversals .sqlite Counted.engine notes "alice" everyNote).Reachable before :=
    .init ⟨rfl, rfl, rfl, rfl⟩
  exact ⟨_, hreach.next (.page rfl le_rfl hpage), hnext, rfl⟩

end OnePage

open OnePage Counted Noted in
theorem pages_traversed_note : ∃ w, (listTraversals .sqlite Counted.engine notes "alice" everyNote).Reachable w ∧
    ∃ v, w.read.filter (fun v => v.id = readings.newId) = [v] := by
  obtain ⟨w, hw, hended, hstates⟩ := reachable
  refine ⟨w, hw, (pages_traversed hw).2.2.1 hended _ fun x hx => ?_⟩
  rw [hstates, List.mem_singleton] at hx
  rw [hx, note_listed.2]
  exact List.mem_singleton_self _

end Data

end Aipcs

import Aipcs.Data.Queries
import Aipcs.Data.Runs

/-!
# Data — reads while others commit

A read runs in a transaction of its own: SQLite's has one snapshot,
PostgreSQL's `BEGIN READ ONLY` sees at each statement what is committed
then. Most reads ask the tables once; the summary and the maintenance scan
ask them many times, and in PostgreSQL may be told of several states.
-/

namespace Aipcs

namespace Data

open Manifest Portable Relational Records Registry Store.Mutating Program Reading

/-- What the transaction that a store reads in sees. -/
def isolation : StorageBackend → Isolation
  | .sqlite => .snapshot
  | .postgresql => .statement

/-- Does the read ask the tables but once? -/
def Query.single : Query → Bool
  | .serviceSummary _ | .maintenanceScan .. => false
  | _ => true

/-- A mutation of anyone commits. -/
def Commits (b : StorageBackend) (s : RecordSpecification) (x y : Content) : Prop :=
  ∃ caller t c r, operate b s caller t x c = .ok (y, r)

/-- A read of a principal, from any content, while mutations commit. -/
def reads (b : StorageBackend) (engine : Engine) (s : RecordSpecification) (principalId : String) (q : Query) :
    System (Reading Content Statement.Answer (Except DataFailureCode Found)) (Event Statement) :=
  reading (engine.answer principalId) Statement.varies (isolation b) (Commits b s) (read b s q).run

/-- What a read returns of a content that stays as it is. -/
def readAt (b : StorageBackend) (engine : Engine) (s : RecordSpecification) (principalId : String) (x : Content)
    (q : Query) : Except DataFailureCode Found :=
  evalAt (engine.answer principalId) x (read b s q).run

/-! ## The reads that ask once -/

section single

variable {α β : Type} {e : Statement}

theorem once_given_bind {r : Except DataFailureCode α} {f : α → Read β}
    (h : ∀ a, r = .ok a → Once Statement.varies (f a).run) : Once Statement.varies (Read.given r >>= f).run := by
  cases r with
  | error code => trivial
  | ok a => exact h a rfl

theorem once_ask_fixed {f : e.Answer → Read β} (he : e.varies = false)
    (h : ∀ r, Once Statement.varies (f r).run) : Once Statement.varies (Read.ask e >>= f).run := by
  change if e.varies then _ else _
  rw [if_neg (by simp [he])]
  exact h

/-- What follows a statement is computed from its answer. -/
theorem once_ask_given {f : e.Answer → Except DataFailureCode β} :
    Once Statement.varies (Read.ask e >>= fun r => Read.given (f r)).run := by
  change if e.varies then ∀ r : e.Answer, ∃ a, (Read.given (f r)).run = .ret a else _
  split
  · exact fun r => ⟨f r, rfl⟩
  · exact fun r => trivial

theorem once_map {p : Read α} {f : α → β} (h : Once Statement.varies p.run) :
    Once Statement.varies (f <$> p).run := by
  have hmap : (f <$> p).run = p.run >>= fun r => .ret (r.map f) := by
    change (p.run >>= fun r => _) = _
    congr 1
    funext r
    cases r <;> rfl
  rw [hmap]
  exact h.map _

end single

variable {b : StorageBackend} {s : RecordSpecification} {q : Query}

/-- **A read that is neither a summary nor a scan asks the tables once.** -/
theorem once_operation (hq : q.single = true) : Once Statement.varies (operation b s q).run := by
  cases q with
  | getRecord entityName id => exact once_map once_ask_given
  | listRecords entityName branch page => exact once_map once_ask_given
  | searchRecords q => exact once_given_bind fun _ _ => once_map once_ask_given
  | recordHistory entityName recordId page => exact once_map once_ask_given
  | listBranches q => exact once_map once_ask_given
  | serviceSummary q => exact absurd hq (by simp [Query.single])
  | maintenanceScan q now => exact absurd hq (by simp [Query.single])

theorem once_read (hq : q.single = true) : Once Statement.varies (read b s q).run := by
  refine once_given_bind fun _ _ => once_ask_fixed rfl fun state => once_given_bind fun _ _ =>
    once_ask_fixed rfl fun domain => once_given_bind fun _ _ => ?_
  split
  · trivial
  · exact once_operation hq

section runs

variable {engine : Engine} {principalId : String}
  {g : Reading Content Statement.Answer (Except DataFailureCode Found)} {found : Except DataFailureCode Found}

/-- What a calm read returns is what one content gives. -/
theorem readAt_of_calm (hg : (reads b engine s principalId q).ReachableUnder (Calm (isolation b)) g)
    (hfound : g.rest = some (.ret found)) : ∃ x ∈ g.committed, found = readAt b engine s principalId x q :=
  Reading.atomic (fun x y _ _ he => engine.answer_fixed principalId x y he) hg hfound

/-- Every run of SQLite's reads is calm, and so is every run of a read that asks once. -/
theorem calm_of_reachable (hq : b = .sqlite ∨ q.single = true) (hg : (reads b engine s principalId q).Reachable g) :
    (reads b engine s principalId q).ReachableUnder (Calm (isolation b)) g := by
  rcases hq with rfl | hq
  · exact hg.mono fun _ _ _ _ => .inl rfl
  · exact (calm_of_once (once_read hq) hg).1

/-- **Reads are atomic where nothing is committed between the statements
of a transaction without a snapshot.** Whatever mutations commit meanwhile,
a read gives what it gives of one of the contents committed between its
start and its end: in SQLite always, and in PostgreSQL for the record, the
lists, the searches, the histories and the branches always, and for a
summary or a scan in the runs without a commit between two of its
statements over the tables. -/
theorem reads_atomic :
    (∀ g found, (reads b engine s principalId q).ReachableUnder (Calm (isolation b)) g →
      g.rest = some (.ret found) → ∃ x ∈ g.committed, found = readAt b engine s principalId x q) ∧
    (b = .sqlite ∨ q.single = true → ∀ g found, (reads b engine s principalId q).Reachable g →
      g.rest = some (.ret found) → ∃ x ∈ g.committed, found = readAt b engine s principalId x q) :=
  ⟨fun _ _ hg hfound => readAt_of_calm hg hfound,
    fun hq _ _ hg hfound => readAt_of_calm (calm_of_reachable hq hg) hfound⟩

end runs

/-! ## A note is deleted while it is counted -/

namespace Counted

open Noted

abbrev notes : RecordSpecification := compileRecordSpecification noteManifest

/-- The tables that an operation leaves. -/
def left (r : Except DataFailureCode (Content × Result)) : Content := (r.toOption.map Prod.fst).getD .empty

theorem commits_left {b : StorageBackend} {x : Content} {c : Command}
    (h : (operate b notes alice readings x c).toOption.isSome = true) :
    Commits b notes x (left (operate b notes alice readings x c)) := by
  refine ⟨alice, readings, c, ?_⟩
  cases hr : operate b notes alice readings x c with
  | error code =>
    rw [hr] at h
    exact absurd h (by simp [Except.toOption])
  | ok p => exact ⟨p.2, rfl⟩

/-- The note is there. -/
def kept (b : StorageBackend) : Content := left (operate b notes alice readings .empty createNote)

def deleteNote : Command := .deleteRecord ⟨note, readings.newId, .first⟩

/-- The note is gone. -/
def gone (b : StorageBackend) : Content := left (operate b notes alice readings (kept b) deleteNote)

theorem commits_gone (b : StorageBackend) : Commits b notes (kept b) (gone b) :=
  commits_left (by cases b <;> decide +kernel)

/-- The notes have neither facets nor conditions: nothing is left to the engine. -/
def engine : Engine := ⟨.ready, true, fun _ _ _ _ => true, fun _ _ => [], fun _ _ => false, fun _ _ => false⟩

def counting : Query := .serviceSummary ⟨[], by simp, by simp⟩

/-- The summary is asked for, the note is counted, the deletion commits, and the other statements are answered. -/
def schedule (b : StorageBackend) : List (Option Content) := [none, none, none, some (gone b), none, none]

def before (b : StorageBackend) : Reading Content Statement.Answer (Except DataFailureCode Found) :=
  start (kept b) (read b notes counting).run

def elapsed (b : StorageBackend) : Reading Content Statement.Answer (Except DataFailureCode Found) :=
  (schedule b).foldl (turn (engine.answer "alice") Statement.varies (isolation b)) (before b)

theorem reachable_elapsed (b : StorageBackend) : (reads b engine notes "alice" counting).Reachable (elapsed b) :=
  reachable_turns (.init ⟨kept b, rfl⟩) ⟨commits_gone b, trivial⟩

/-- The notes that a summary counts, and those without a branch. -/
def counts : Except DataFailureCode Found → Option (List (String × ℕ) × ℕ)
  | .ok (.summary v) => some (v.recordCounts, v.unbranchedRecordCount)
  | _ => none

/-- What a read has returned. -/
def returned : Option (Program Statement.Answer (Except DataFailureCode Found)) → Option (Except DataFailureCode Found)
  | some (.ret found) => some found
  | _ => none

theorem rest_elapsed {b : StorageBackend} {found : Except DataFailureCode Found}
    (h : returned (elapsed b).rest = some found) : (elapsed b).rest = some (.ret found) := by
  unfold returned at h
  split at h
  · next hrest =>
    obtain rfl := Option.some.inj h
    exact hrest
  · exact absurd h (by simp)

end Counted

open Counted in
/-- SQLite's summary is one of its snapshot. -/
theorem reads_atomic_counted : ∃ g found, (reads .sqlite engine notes "alice" counting).Reachable g ∧
    g.rest = some (.ret found) ∧ counts found = some ([("note", 1)], 1) ∧
    ∃ x ∈ g.committed, found = readAt .sqlite engine notes "alice" x counting := by
  have hcounts : (returned (elapsed .sqlite).rest).bind counts = some ([("note", 1)], 1) := by decide +kernel
  obtain ⟨found, hfound, hcounts⟩ := Option.bind_eq_some_iff.1 hcounts
  exact ⟨elapsed .sqlite, found, reachable_elapsed .sqlite, rest_elapsed hfound, hcounts,
    reads_atomic.2 (.inl rfl) _ _ (reachable_elapsed .sqlite) (rest_elapsed hfound)⟩

open Counted in
/-- PostgreSQL's counts a note, and then none without a branch: there was never such a store. -/
theorem summary_not_atomic : ∃ g found, (reads .postgresql engine notes "alice" counting).Reachable g ∧
    g.rest = some (.ret found) ∧ counts found = some ([("note", 1)], 0) ∧
    ∀ x ∈ g.committed, found ≠ readAt .postgresql engine notes "alice" x counting := by
  have hcounts : (returned (elapsed .postgresql).rest).bind counts = some ([("note", 1)], 0) := by decide +kernel
  obtain ⟨found, hfound, hcounts⟩ := Option.bind_eq_some_iff.1 hcounts
  have hkept : counts (readAt .postgresql engine notes "alice" (kept .postgresql) counting) =
      some ([("note", 1)], 1) := by decide +kernel
  have hgone : counts (readAt .postgresql engine notes "alice" (gone .postgresql) counting) =
      some ([("note", 0)], 0) := by decide +kernel
  refine ⟨elapsed .postgresql, found, reachable_elapsed .postgresql, rest_elapsed hfound, hcounts, ?_⟩
  rintro x hx rfl
  have hx : x ∈ [kept .postgresql, gone .postgresql] := hx
  rcases List.mem_cons.1 hx with rfl | hx
  · exact absurd (hcounts.symm.trans hkept) (by simp)
  · obtain rfl := List.mem_singleton.1 hx
    exact absurd (hcounts.symm.trans hgone) (by simp)

end Data

end Aipcs

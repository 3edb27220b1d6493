import Aipcs.Common.NumberedLog
import Aipcs.Data.Queries
import Aipcs.Data.Runs
import Aipcs.Relational.Exact

/-!
# Data — traversals of the history

An event is numbered when it is inserted, and `record_history` asks for the
events after a number. SQLite's transactions write one at a time
(`BEGIN IMMEDIATE`); PostgreSQL's draw their numbers from an identity
sequence and commit in any order, those on one record after each other.
-/

namespace Aipcs

namespace Data

open Manifest Portable Relational Records Registry Store.Mutating NumberedLog

/-- How the events of a store come to be numbered. -/
def writers : StorageBackend → Writers
  | .sqlite => .one
  | .postgresql => .many

/-- The history's `WHERE`, but for the position. -/
def selects (principalId entityName : String) (recordId : Option Uuid) (h : HistoryRow) : Bool :=
  decide (h.principalId = principalId) && decide (h.entityName = entityName) && recordId.all fun id => h.recordId = id

/-- An event that a page can give. -/
def readable (b : StorageBackend) (s : RecordSpecification) (h : HistoryRow) : Bool := (decodeHistory b s h).isSome

/-- A traversal of the history while mutations are committed. -/
def traversals (b : StorageBackend) (s : RecordSpecification) (principalId entityName : String)
    (recordId : Option Uuid) : System (NumberedLog.World HistoryRow) (NumberedLog.Event HistoryRow) :=
  log (writers b) HistoryRow.identity (selects principalId entityName recordId) (readable b s)

variable {b : StorageBackend} {s : RecordSpecification} {principalId entityName : String} {recordId : Option Uuid}
  {w w' : NumberedLog.World HistoryRow}

/-! ## The pages are those of `record_history` -/

/-- What the tables of a store answer, whose events are numbered in turn. -/
theorem rowsAfter_eq_historyRows {x : Content} {position : Option ℕ}
    (hvisible : w.visible = (x.history.zipIdx 1).map fun p => (p.2, p.1)) :
    w.rowsAfter (selects principalId entityName recordId) position =
      x.historyRows principalId entityName recordId position := by
  have hnumbers : (w.visible.map Prod.fst).Pairwise (· < ·) := by
    rw [hvisible, List.map_map]
    have hrange : (x.history.zipIdx 1).map (Prod.fst ∘ fun p => (p.2, p.1)) = List.range' 1 x.history.length :=
      List.zipIdx_map_snd 1 x.history
    rw [hrange]
    exact List.pairwise_lt_range'
  have hfilter : (w.visible.filter fun p => selects principalId entityName recordId p.2 &&
      position.all fun n => n < p.1) = x.historyRows principalId entityName recordId position := by
    rw [Content.historyRows, ← hvisible]
    refine List.filter_congr fun p _ => ?_
    rw [selects, Bool.and_assoc, Bool.and_assoc, Bool.and_assoc, Bool.and_comm (Option.all _ recordId)]
    simp only [Bool.and_assoc]
  rw [World.rowsAfter, hfilter]
  refine List.Pairwise.insertionSort_eq (List.Pairwise.imp le_of_lt ?_)
  rw [← hfilter]
  exact (List.pairwise_map.1 hnumbers).filter _

/-- A page, of rows of which one more than its limit is asked for. -/
theorem pageOf_eq_ok {ρ σ κ : Type} {limit : ℕ} {decode : ρ → Option σ} {position : ρ → κ} {rows : List ρ}
    {page : Page σ κ} (hlimit : 1 ≤ limit) : pageOf limit decode position (rows.take (limit + 1)) = .ok page ↔
      (rows.take limit).mapM decode = some page.rows ∧
        page.next = if limit < rows.length then (rows[limit - 1]?).map position else none := by
  have hshort : limit < (rows.take (limit + 1)).length ↔ limit < rows.length := by
    rw [List.length_take]
    omega
  simp only [pageOf, bind_eq_ok, require_eq_ok, pure, Except.pure, Except.ok.injEq, List.take_take,
    Nat.min_eq_left (Nat.le_succ limit), hshort, List.getElem?_take_of_lt (show limit - 1 < limit + 1 by omega)]
  constructor
  · rintro ⟨values, hvalues, rfl⟩
    exact ⟨hvalues, rfl⟩
  · rintro ⟨hvalues, hnext⟩
    exact ⟨page.rows, hvalues, by rw [← hnext]⟩

/-- **A page of a traversal is what `record_history` returns** of the rows
after the position, with the position that it says comes next. -/
theorem page_iff {request : PageRequest ℕ} (hposition : request.position = w.position)
    {answer : Unit → (e : Statement) → e.Answer}
    (hanswer : ∀ position limit, answer () (.history entityName recordId position limit) =
      (w.rowsAfter (selects principalId entityName recordId) position).take limit) :
    (∃ page, Program.evalAt answer () (recordHistory b s entityName recordId request).run = .ok page ∧
      w' = { w with
        position := page.next
        pages := w.pages ++ [(w.rowsAfter (selects principalId entityName recordId) w.position).take request.limit]
        ended := page.next.isNone }) ↔
    (∀ p ∈ (w.rowsAfter (selects principalId entityName recordId) w.position).take request.limit,
      readable b s p.2 = true) ∧
    w' = { w with
      position := if request.limit < (w.rowsAfter (selects principalId entityName recordId) w.position).length then
        ((w.rowsAfter (selects principalId entityName recordId) w.position)[request.limit - 1]?).map Prod.fst else none
      pages := w.pages ++ [(w.rowsAfter (selects principalId entityName recordId) w.position).take request.limit]
      ended := !decide (request.limit < (w.rowsAfter (selects principalId entityName recordId) w.position).length) } := by
  have hrun : Program.evalAt answer () (recordHistory b s entityName recordId request).run =
      pageOf request.limit (fun p => decodeHistory b s p.2) (·.1)
        ((w.rowsAfter (selects principalId entityName recordId) w.position).take (request.limit + 1)) := by
    rw [← hposition, ← hanswer]
    rfl
  have hover : ∀ rows : List (ℕ × HistoryRow), (if request.limit < rows.length then
      (rows[request.limit - 1]?).map Prod.fst else none).isNone = !decide (request.limit < rows.length) := by
    intro rows
    by_cases hlt : request.limit < rows.length
    · rw [if_pos hlt, List.getElem?_eq_getElem (by omega), decide_eq_true hlt]
      rfl
    · rw [if_neg hlt, decide_eq_false hlt]
      rfl
  rw [hrun]
  simp only [pageOf_eq_ok request.bounds.1]
  constructor
  · rintro ⟨page, ⟨hvalues, hnext⟩, rfl⟩
    refine ⟨fun p hp => Option.isSome_iff_exists.2 (mapM_isSome_iff.1 ⟨page.rows, hvalues⟩ p hp), ?_⟩
    rw [hnext, hover]
  · rintro ⟨hreadable, rfl⟩
    obtain ⟨values, hvalues⟩ := mapM_isSome_iff.2 fun p hp => Option.isSome_iff_exists.1 (hreadable p hp)
    refine ⟨⟨values, if request.limit < _ then _ else none⟩, ⟨hvalues, rfl⟩, ?_⟩
    rw [hover]

/-- **Traversals are complete** in SQLite always; in PostgreSQL where
transactions commit the events of the selection in the order of their
numbers, as they do where the query names a record. -/
theorem history_traversal (s : RecordSpecification) (principalId entityName : String) (recordId : Option Uuid)
    (w : NumberedLog.World HistoryRow) :
    ((traversals .sqlite s principalId entityName recordId).Reachable w →
      Complete (selects principalId entityName recordId) w) ∧
    ((traversals .postgresql s principalId entityName recordId).ReachableUnder
      (Orderly (selects principalId entityName recordId)) w → Complete (selects principalId entityName recordId) w) ∧
    (recordId.isSome = true → (traversals .postgresql s principalId entityName recordId).Reachable w →
      Complete (selects principalId entityName recordId) w) := by
  refine ⟨complete_of_one, complete_of_orderly, fun hrecord => complete_of_subject fun h h' hh hh' => ?_⟩
  obtain ⟨id, rfl⟩ := Option.isSome_iff_exists.1 hrecord
  simp only [selects, Bool.and_eq_true, decide_eq_true_eq, Option.all_some] at hh hh'
  rw [HistoryRow.identity, HistoryRow.identity, hh.1.1, hh.1.2, hh.2, hh'.1.1, hh'.1.2, hh'.2]

/-! ## An event that is never given -/

namespace Lost

open Noted (alice noteManifest createNote)

abbrev notes : RecordSpecification := compileRecordSpecification noteManifest

def at_ (i : ℕ) : Readings := ⟨default, ⟨i % 4 + 1, by omega, by omega⟩⟩

/-- The event of the creation of a note. -/
def event (i : ℕ) : HistoryRow :=
  ((operate .postgresql notes alice (at_ i) .empty createNote).toOption.bind fun r => r.1.history.head?).getD
    ⟨"", "", (at_ i).newId, 0, .create, none, none, (at_ i).now⟩

/-- Every note has its first event, which can be read. -/
theorem event_written : ∀ i < 4, (operate .postgresql notes alice (at_ i) .empty createNote).toOption.isSome = true ∧
    selects "alice" "note" none (event i) = true ∧ readable .postgresql notes (event i) = true ∧
    (event i).recordId = (at_ i).newId := by
  decide +kernel

theorem identity_event {i j : ℕ} (hi : i < 4) (hj : j < 4) (hne : (at_ i).newId ≠ (at_ j).newId) :
    (event i).identity ≠ (event j).identity := fun h => by
  obtain ⟨-, -, -, hid⟩ := event_written i hi
  obtain ⟨-, -, -, hid'⟩ := event_written j hj
  exact hne (hid.symm.trans ((congrArg (fun k : RecordIdentity => k.2.2) h).trans hid'))

end Lost

open Lost in
/-- Four notes are created in PostgreSQL, and the first event is never given. -/
theorem history_loses : ¬ ∀ b w, (traversals b notes "alice" "note" none).Reachable w →
    Complete (selects "alice" "note" none) w := by
  intro h
  have hevents : ∀ r ∈ [event 0, event 1, event 2, event 3], selects "alice" "note" none r = true ∧
      readable .postgresql notes r = true := by
    simp only [List.forall_mem_cons, List.not_mem_nil, false_implies, implies_true, and_true]
    exact ⟨⟨(event_written 0 (by omega)).2.1, (event_written 0 (by omega)).2.2.1⟩,
      ⟨(event_written 1 (by omega)).2.1, (event_written 1 (by omega)).2.2.1⟩,
      ⟨(event_written 2 (by omega)).2.1, (event_written 2 (by omega)).2.2.1⟩,
      (event_written 3 (by omega)).2.1, (event_written 3 (by omega)).2.2.1⟩
  obtain ⟨w, hw, hlost⟩ := many_lose (fun r hr => (hevents r hr).1) (fun r hr => (hevents r hr).2)
    ⟨identity_event (by omega) (by omega) (by decide), identity_event (by omega) (by omega) (by decide)⟩
  exact hlost (h .postgresql w hw)

open Lost in
/-- The traversal of one note's history, once its event has been given. -/
theorem history_traversal_note : ∃ w, (traversals .postgresql notes "alice" "note" (some (at_ 0).newId)).Reachable w ∧
    w.read = [(1, event 0)] ∧ Complete (selects "alice" "note" (some (at_ 0).newId)) w := by
  obtain ⟨-, -, hreadable, -⟩ := event_written 0 (by omega)
  have hselects : selects "alice" "note" (some (at_ 0).newId) (event 0) = true := by decide +kernel
  have hwritten := @write_through _ _ HistoryRow.identity (selects "alice" "note" (some (at_ 0).newId))
    (readable .postgresql notes) _ 0 (event 0) (.init rfl) rfl fun _ _ _ hl => nomatch hl
  have hread := @read_page _ _ _ _ _ _ _ 1 [(1, event 0)] hwritten rfl le_rfl
    (by simp [World.rowsAfter, World.visible, hselects]) (by simp [hreadable])
  exact ⟨_, hread, rfl, (history_traversal notes "alice" "note" (some (at_ 0).newId) _).2.2 rfl hread⟩

end Data

end Aipcs

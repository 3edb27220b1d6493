import Mathlib.Data.List.Basic
import Mathlib.Data.List.Chain
import Mathlib.Data.List.Range

/-!
# Chronicles — versioned entries of one thing

A thing that comes into being, changes and goes, and the entries written
about it: each has a version and the states before and after. `Recount`
says that the entries tell one life, from nothing to the stage the thing
is at; what they look like one by one follows from it.
-/

namespace Aipcs

/-- An entry: no state before it where the thing begins, none after it
where the thing ends. -/
structure Entry (S : Type) where
  version : ℕ
  before : Option S
  after : Option S

/-- The stages of a life. -/
inductive Stage (S : Type) where
  | absent
  | live (version : ℕ) (state : S)
  | gone (version : ℕ)

variable {S : Type}

namespace Stage

/-- The version and the state of what is there. -/
def current : Stage S → Option (ℕ × S)
  | .live v s => some (v, s)
  | _ => none

/-- How many entries have been written. -/
def written : Stage S → ℕ
  | .absent => 0
  | .live v _ => v
  | .gone v => v

/-- One entry written. -/
inductive Advance : Stage S → Entry S → Stage S → Prop
  | opened (s : S) : Advance .absent ⟨1, none, some s⟩ (.live 1 s)
  | changed (v : ℕ) (s s' : S) : Advance (.live v s) ⟨v + 1, some s, some s'⟩ (.live (v + 1) s')
  | closed (v : ℕ) (s : S) : Advance (.live v s) ⟨v + 1, some s, none⟩ (.gone (v + 1))

variable {a b c : Stage S} {e : Entry S}

theorem Advance.version (h : Advance a e b) : e.version = a.written + 1 ∧ b.written = e.version := by
  cases h <;> exact ⟨rfl, rfl⟩

theorem Advance.before (h : Advance a e b) : e.before = a.current.map Prod.snd := by
  cases h <;> rfl

theorem Advance.after (h : Advance a e b) : e.after = b.current.map Prod.snd := by
  cases h <;> rfl

/-- Nothing follows an end. -/
theorem Advance.ended (h : Advance a e b) (he : e.after = none) {e' : Entry S} : ¬ Advance b e' c := by
  cases h with
  | opened s => exact absurd he (by simp)
  | changed v s s' => exact absurd he (by simp)
  | closed v s =>
    intro h'
    cases h'

theorem Advance.begun (h : Advance a e b) : e.before = none ↔ a.written = 0 ∧ a.current = none := by
  cases h with
  | opened s => exact ⟨fun _ => ⟨rfl, rfl⟩, fun _ => rfl⟩
  | changed v s s' => simp [current]
  | closed v s => simp [current]

end Stage

open Stage

/-- The entries tell a life that has come to this stage. -/
inductive Recount : List (Entry S) → Stage S → Prop
  | nil : Recount [] .absent
  | snoc {es : List (Entry S)} {e : Entry S} {a b : Stage S} : Recount es a → Advance a e b →
      Recount (es ++ [e]) b

/-- The entries folded: the state that the last one leaves. -/
def Entry.fold (es : List (Entry S)) : Option S := es.foldl (fun _ e => e.after) none

namespace Recount

variable {es : List (Entry S)} {a b : Stage S} {e : Entry S}

theorem eq_absent (h : Recount es a) (hlen : es.length = 0) : a = .absent := by
  cases h with
  | nil => rfl
  | snoc _ _ => exact absurd hlen (by simp)

/-- The versions count the entries, from one on. -/
theorem versions (h : Recount es a) : es.map (·.version) = List.range' 1 es.length ∧
    a.written = es.length := by
  induction h with
  | nil => exact ⟨rfl, rfl⟩
  | @snoc es e a b _ hstep ih =>
    obtain ⟨hmap, hlen⟩ := ih
    obtain ⟨hversion, hwritten⟩ := hstep.version
    refine ⟨?_, ?_⟩
    · rw [List.map_append, hmap, List.length_append, List.length_singleton, List.range'_1_concat,
        List.map_singleton, hversion, hlen, Nat.add_comm 1]
    · rw [hwritten, hversion, hlen, List.length_append, List.length_singleton]

/-- **The fold of the entries is the state that is there.** -/
theorem fold (h : Recount es a) : Entry.fold es = a.current.map Prod.snd := by
  cases h with
  | nil => rfl
  | snoc _ hstep => rw [Entry.fold, List.foldl_append, List.foldl_cons, List.foldl_nil, hstep.after]

/-- Only the first entry has nothing before it. -/
theorem before_eq_none (h : Recount es a) {i : ℕ} (hi : i < es.length) :
    es[i].before = none ↔ i = 0 := by
  induction h with
  | nil => exact absurd hi (by simp)
  | @snoc es e a b hes hstep ih =>
    rw [List.length_append, List.length_singleton] at hi
    rcases Nat.lt_succ_iff_lt_or_eq.1 hi with hlt | rfl
    · rw [List.getElem_append_left hlt]
      exact ih hlt
    · rw [List.getElem_append_right le_rfl]
      simp only [Nat.sub_self, List.getElem_singleton]
      rw [hstep.begun, hes.versions.2]
      constructor
      · exact fun h => h.1
      · intro hlen
        obtain rfl := hes.eq_absent hlen
        exact ⟨hlen, rfl⟩

/-- Only the last entry may have nothing after it. -/
theorem after_eq_none (h : Recount es a) {i : ℕ} (hi : i < es.length) (hafter : es[i].after = none) :
    i + 1 = es.length := by
  induction h with
  | nil => exact absurd hi (by simp)
  | @snoc es e a b hes hstep ih =>
    rw [List.length_append, List.length_singleton] at hi ⊢
    rcases Nat.lt_succ_iff_lt_or_eq.1 hi with hlt | rfl
    · rw [List.getElem_append_left hlt] at hafter
      -- an end among the earlier entries is the last of them, and admits no other
      have hlast := ih hlt hafter
      cases hes with
      | nil => exact absurd hlt (by simp)
      | @snoc es e' a' _ hes' hstep' =>
        rw [List.length_append, List.length_singleton, Nat.add_right_cancel_iff] at hlast
        subst hlast
        rw [List.getElem_append_right le_rfl] at hafter
        simp only [Nat.sub_self, List.getElem_singleton] at hafter
        exact absurd hstep (hstep'.ended hafter)
    · rfl

/-- **Every entry begins where the one before it ended.** -/
theorem linked (h : Recount es a) {i : ℕ} (hi : i + 1 < es.length) :
    es[i + 1].before = es[i].after := by
  induction h with
  | nil => exact absurd hi (by simp)
  | @snoc es e a b hes hstep ih =>
    rw [List.length_append, List.length_singleton] at hi
    rcases Nat.lt_succ_iff_lt_or_eq.1 hi with hlt | heq
    · rw [List.getElem_append_left hlt, List.getElem_append_left (by omega)]
      exact ih hlt
    · rw [List.getElem_append_right (by omega), List.getElem_append_left (by omega)]
      simp only [heq, Nat.sub_self, List.getElem_singleton]
      rw [hstep.before]
      cases hes with
      | nil => exact absurd heq (by simp)
      | @snoc es e' a' _ hes' hstep' =>
        rw [List.length_append, List.length_singleton, Nat.add_right_cancel_iff] at heq
        subst heq
        rw [List.getElem_append_right le_rfl]
        simp only [Nat.sub_self, List.getElem_singleton]
        exact hstep'.after.symm

/-- The last entry ends where the thing stands. -/
theorem last (h : Recount es a) {i : ℕ} (hi : i + 1 = es.length) :
    es[i].after = a.current.map Prod.snd := by
  cases h with
  | nil => exact absurd hi (by simp)
  | @snoc es e a' _ hes hstep =>
    rw [List.length_append, List.length_singleton, Nat.add_right_cancel_iff] at hi
    subst hi
    rw [List.getElem_append_right le_rfl]
    simp only [Nat.sub_self, List.getElem_singleton]
    exact hstep.after

end Recount

end Aipcs

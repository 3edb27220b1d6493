import Mathlib.Data.List.Basic
import Mathlib.Order.Lattice

/-!
# Inserts — a list taken in one by one

A list is taken in element by element, each of which may be refused. What
is held of the elements so far is kept by every insert (`held_foldlM`);
where it tells whether the next one fits, the whole list is taken in just
where every element fits after those before it (`Inserting.isSome_iff`).
An element that refers to others fits where they are held already or are
itself; in a list sorted by a key that is where none it refers to has a
greater key (`refersBack_iff`).
-/

namespace Aipcs

namespace Inserts

variable {σ α : Type} {insert : σ → α → Option σ} {Held : List α → σ → Prop} {Fits : List α → α → Prop}
  {l done rest : List α} {s s' : σ}

/-- An insert is held too, with what was held before it. -/
def Keeps (insert : σ → α → Option σ) (Held : List α → σ → Prop) : Prop :=
  ∀ done a s s', Held done s → insert s a = some s' → Held (done ++ [a]) s'

/-- **What a run holds**, by induction on the list. -/
theorem held_foldlM (h : Keeps insert Held) (hs : Held done s) (hs' : rest.foldlM insert s = some s') :
    Held (done ++ rest) s' := by
  induction rest generalizing done s with
  | nil =>
    obtain rfl := Option.some.inj hs'
    rwa [List.append_nil]
  | cons a rest ih =>
    rw [List.foldlM_cons, Option.bind_eq_bind, Option.bind_eq_some_iff] at hs'
    obtain ⟨t, ht, hs'⟩ := hs'
    have hrest := ih (h done a s t hs ht) hs'
    rwa [List.append_assoc, List.singleton_append] at hrest

/-- What is held after some elements of a list tells whether the next one
is taken in. -/
structure Inserting (insert : σ → α → Option σ) (Held : List α → σ → Prop) (Fits : List α → α → Prop)
    (l : List α) : Prop where
  keeps : Keeps insert Held
  goes : ∀ done a rest, l = done ++ a :: rest → ∀ s, Held done s → ((∃ s', insert s a = some s') ↔ Fits done a)

/-- **A list is taken in** just where every element fits after those
before it. -/
theorem Inserting.run (h : Inserting insert Held Fits l) :
    ∀ rest done, l = done ++ rest → ∀ s, Held done s →
      ((∃ s', rest.foldlM insert s = some s') ↔ ∀ before a after, rest = before ++ a :: after → Fits (done ++ before) a) := by
  intro rest
  induction rest with
  | nil => exact fun done _ s _ => ⟨fun _ before a after hnil => absurd hnil (by simp), fun _ => ⟨s, rfl⟩⟩
  | cons a rest ih =>
    intro done hl s hs
    have hnext : l = (done ++ [a]) ++ rest := by rw [hl, List.append_assoc, List.singleton_append]
    constructor
    · rintro ⟨s', hs'⟩ before a' after heq
      rw [List.foldlM_cons, Option.bind_eq_bind, Option.bind_eq_some_iff] at hs'
      obtain ⟨t, ht, hs'⟩ := hs'
      rcases before with _ | ⟨b, before⟩
      · obtain ⟨rfl, -⟩ := List.cons.inj heq
        rw [List.append_nil]
        exact (h.goes done a rest hl s hs).1 ⟨t, ht⟩
      · obtain ⟨rfl, htail⟩ := List.cons.inj heq
        have hfit := (ih (done ++ [a]) hnext t (h.keeps done a s t hs ht)).1 ⟨s', hs'⟩ before a' after htail
        rwa [List.append_assoc, List.singleton_append] at hfit
    · intro hfits
      have hfit : Fits done a := by simpa using hfits [] a rest rfl
      obtain ⟨t, ht⟩ := (h.goes done a rest hl s hs).2 hfit
      obtain ⟨s', hs'⟩ := (ih (done ++ [a]) hnext t (h.keeps done a s t hs ht)).2 fun before a' after heq => by
        have hfit' := hfits (a :: before) a' after (by rw [heq, List.cons_append])
        rwa [List.append_assoc, List.singleton_append]
      refine ⟨s', ?_⟩
      rw [List.foldlM_cons, ht]
      exact hs'

theorem Inserting.isSome_iff (h : Inserting insert Held Fits l) (hs : Held [] s) :
    (∃ s', l.foldlM insert s = some s') ↔ ∀ before a after, l = before ++ a :: after → Fits before a :=
  h.run l [] rfl s hs

/-! ## References -/

/-- **References that lead back**: in a list sorted by a key, those an
element refers to are before it or it is one itself just where none of
them has a greater key. -/
theorem refersBack_iff {κ : Type} [LinearOrder κ] {key : α → κ} {refers : α → α → Prop}
    (hsorted : (l.map key).Pairwise (· < ·)) :
    (∀ before a after, l = before ++ a :: after → ∀ t ∈ l, refers a t → t ∈ before ++ [a]) ↔
      ∀ a ∈ l, ∀ t ∈ l, refers a t → key t ≤ key a := by
  rw [List.pairwise_map] at hsorted
  constructor
  · intro hback a ha t ht hrefers
    obtain ⟨before, after, rfl⟩ := List.append_of_mem ha
    rcases List.mem_append.1 (hback before a after rfl t ht hrefers) with hmem | hmem
    · exact le_of_lt ((List.pairwise_append.1 hsorted).2.2 t hmem a List.mem_cons_self)
    · rw [List.mem_singleton.1 hmem]
  · rintro hback before a after rfl t ht hrefers
    have hle := hback a (by simp) t ht hrefers
    rcases List.mem_append.1 ht with hmem | hmem
    · exact List.mem_append_left _ hmem
    · rcases List.mem_cons.1 hmem with rfl | hmem
      · exact List.mem_append_right _ (List.mem_singleton_self _)
      · have hlt := (List.pairwise_cons.1 (List.pairwise_append.1 hsorted).2.1).1 t hmem
        exact absurd hle (not_le_of_gt hlt)

end Inserts

end Aipcs

import Mathlib.Data.List.Nodup
import Mathlib.Data.List.Basic

/-!
# Keyed tables

Rows of which no two have one key, with the statements a database runs
over them: look up by key, insert, update in place and delete. A table
carries the distinctness of its keys, so a row that is in it is the row
its key finds.
-/

namespace Aipcs

variable {ρ κ : Type} [DecidableEq κ] {key : ρ → κ}

/-- Rows told apart by their keys. -/
structure Table (key : ρ → κ) where
  rows : List ρ
  keyed : (rows.map key).Nodup

namespace Table

/-- A table of one row. -/
def single (r : ρ) : Table key := ⟨[r], List.nodup_singleton _⟩

/-- The row of a key. -/
def find? (t : Table key) (k : κ) : Option ρ := t.rows.find? fun r => key r = k

/-- `INSERT`, refused when the key is taken. -/
def insert (t : Table key) (r : ρ) : Option (Table key) :=
  if h : key r ∈ t.rows.map key then none
  else some ⟨r :: t.rows, List.nodup_cons.mpr ⟨h, t.keyed⟩⟩

/-- `UPDATE`: every row replaced by a row of its key. -/
def update (t : Table key) (f : ρ → ρ) (hf : ∀ r, key (f r) = key r) : Table key where
  rows := t.rows.map f
  keyed := by
    rw [List.map_map, show key ∘ f = key from funext hf]
    exact t.keyed

/-- `UPDATE` of the one row that has the key of a given one. -/
def set (t : Table key) (r : ρ) : Table key :=
  t.update (fun x => if key x = key r then r else x) fun x => by
    by_cases h : key x = key r
    · rw [if_pos h, h]
    · rw [if_neg h]

/-- `DELETE` of the rows that are not to be kept. -/
def keep (t : Table key) (p : ρ → Bool) : Table key where
  rows := t.rows.filter p
  keyed := (t.keyed.sublist ((List.filter_sublist).map key))

/-- The table without rows. -/
def empty : Table key := ⟨[], List.nodup_nil⟩

/-! ## What a lookup sees -/

variable {t u : Table key} {r s : ρ} {k : κ}

theorem find?_eq_some : t.find? k = some r ↔ r ∈ t.rows ∧ key r = k := by
  constructor
  · intro h
    exact ⟨List.mem_of_find?_eq_some h, by simpa using List.find?_some h⟩
  · rintro ⟨hmem, rfl⟩
    obtain ⟨x, hx⟩ : ∃ x, t.find? (key r) = some x :=
      Option.isSome_iff_exists.mp (List.find?_isSome.mpr ⟨r, hmem, by simp⟩)
    have hkey : key x = key r := by simpa using List.find?_some hx
    rw [hx, List.inj_on_of_nodup_map t.keyed (List.mem_of_find?_eq_some hx) hmem hkey]

theorem find?_eq_none : t.find? k = none ↔ ∀ r ∈ t.rows, key r ≠ k := by
  simp [find?, List.find?_eq_none]

theorem mem_of_find? (h : t.find? k = some r) : r ∈ t.rows := (find?_eq_some.mp h).1

theorem key_of_find? (h : t.find? k = some r) : key r = k := (find?_eq_some.mp h).2

theorem find?_of_mem (h : r ∈ t.rows) : t.find? (key r) = some r := find?_eq_some.mpr ⟨h, rfl⟩

omit [DecidableEq κ] in
/-- Rows of one key are one row. -/
theorem eq_of_key (hr : r ∈ t.rows) (hs : s ∈ t.rows) (h : key r = key s) : r = s :=
  List.inj_on_of_nodup_map t.keyed hr hs h

@[simp] theorem find?_empty : (empty : Table key).find? k = none := rfl

/-- An insert goes through exactly on a free key, and adds the row. -/
theorem insert_eq_some : t.insert r = some u ↔
    t.find? (key r) = none ∧ u.rows = r :: t.rows := by
  rw [find?_eq_none, insert]
  by_cases h : key r ∈ t.rows.map key
  · rw [dif_pos h]
    obtain ⟨x, hx, hk⟩ := List.mem_map.mp h
    exact ⟨fun h => absurd h (by simp), fun h' => absurd hk (h'.1 x hx)⟩
  · rw [dif_neg h]
    constructor
    · intro hu
      obtain rfl := Option.some.inj hu
      exact ⟨fun x hx hk => h (List.mem_map.mpr ⟨x, hx, hk⟩), rfl⟩
    · rintro ⟨-, hu⟩
      cases u
      simp only at hu
      simp only [hu]

/-- An insert on a free key goes through. -/
theorem insert_isSome (h : t.find? (key r) = none) : ∃ u, t.insert r = some u := by
  have hfree : key r ∉ t.rows.map key := fun hmem => by
    obtain ⟨x, hx, hk⟩ := List.mem_map.mp hmem
    exact find?_eq_none.mp h x hx hk
  exact ⟨_, dif_neg hfree⟩

theorem mem_insert (h : t.insert r = some u) : s ∈ u.rows ↔ s = r ∨ s ∈ t.rows := by
  rw [(insert_eq_some.mp h).2, List.mem_cons]

theorem find?_insert_self (h : t.insert r = some u) : u.find? (key r) = some r :=
  find?_of_mem ((mem_insert h).mpr (.inl rfl))

theorem find?_insert_of_ne (h : t.insert r = some u) (hk : k ≠ key r) : u.find? k = t.find? k := by
  rw [find?, find?, (insert_eq_some.mp h).2, List.find?_cons_of_neg (by simpa using hk.symm)]

theorem mem_set : s ∈ (t.set r).rows ↔
    (s = r ∧ ∃ x ∈ t.rows, key x = key r) ∨ (s ∈ t.rows ∧ key s ≠ key r) := by
  simp only [set, update, List.mem_map]
  constructor
  · rintro ⟨x, hx, rfl⟩
    by_cases h : key x = key r
    · rw [if_pos h]
      exact .inl ⟨rfl, x, hx, h⟩
    · rw [if_neg h]
      exact .inr ⟨hx, h⟩
  · rintro (⟨rfl, x, hx, h⟩ | ⟨hs, h⟩)
    · exact ⟨x, hx, if_pos h⟩
    · exact ⟨s, hs, if_neg h⟩

theorem find?_set_self (h : t.find? (key r) = some s) : (t.set r).find? (key r) = some r :=
  find?_of_mem (mem_set.mpr (.inl ⟨rfl, s, mem_of_find? h, key_of_find? h⟩))

theorem find?_set_of_ne (hk : k ≠ key r) : (t.set r).find? k = t.find? k := by
  refine Option.ext fun s => ?_
  rw [find?_eq_some, find?_eq_some, mem_set]
  constructor
  · rintro ⟨⟨rfl, -⟩ | ⟨hs, -⟩, rfl⟩
    · exact absurd rfl hk
    · exact ⟨hs, rfl⟩
  · rintro ⟨hs, rfl⟩
    exact ⟨.inr ⟨hs, hk⟩, rfl⟩

omit [DecidableEq κ] in
theorem mem_keep {p : ρ → Bool} : s ∈ (t.keep p).rows ↔ s ∈ t.rows ∧ p s = true := List.mem_filter

/-- An update in place changes what a key finds, not where it is found. -/
theorem find?_update {f : ρ → ρ} {hf : ∀ r, key (f r) = key r} :
    (t.update f hf).find? k = (t.find? k).map f := by
  refine Option.ext fun s => ?_
  rw [find?_eq_some, Option.map_eq_some_iff]
  constructor
  · rintro ⟨hs, rfl⟩
    obtain ⟨x, hx, rfl⟩ := List.mem_map.mp hs
    exact ⟨x, by rw [hf]; exact find?_of_mem hx, rfl⟩
  · rintro ⟨x, hx, rfl⟩
    exact ⟨List.mem_map.mpr ⟨x, mem_of_find? hx, rfl⟩, (hf x).trans (key_of_find? hx)⟩

/-- After a deletion a key finds what it found, where that was kept. -/
theorem find?_keep {p : ρ → Bool} : (t.keep p).find? k = (t.find? k).filter p := by
  refine Option.ext fun s => ?_
  rw [find?_eq_some, mem_keep, Option.filter_eq_some_iff, find?_eq_some]
  constructor
  · rintro ⟨⟨hs, hp⟩, hk⟩
    exact ⟨⟨hs, hk⟩, hp⟩
  · rintro ⟨⟨hs, hk⟩, hp⟩
    exact ⟨⟨hs, hp⟩, hk⟩

end Table

/-! ## Pairs -/

/-- Where no two pairs have one key, a key's value is the one it is paired with. -/
theorem lookup_eq_some_iff_mem {α β : Type} [BEq α] [LawfulBEq α] {l : List (α × β)} (h : (l.map Prod.fst).Nodup) {k : α}
    {v : β} : l.lookup k = some v ↔ (k, v) ∈ l := by
  induction l with
  | nil => simp
  | cons p l ih =>
    obtain ⟨k', v'⟩ := p
    rw [List.map_cons, List.nodup_cons] at h
    rw [List.lookup_cons, List.mem_cons, Prod.mk.injEq]
    rcases hk : k == k' with _ | _
    · have hne : k ≠ k' := fun he => absurd (beq_iff_eq.2 he) (by simp [hk])
      simp only [hne, false_and, false_or]
      exact ih h.2
    · obtain rfl := beq_iff_eq.1 hk
      have hnot : (k, v) ∉ l := fun hmem => h.1 (List.mem_map.2 ⟨_, hmem, rfl⟩)
      simp only [Option.some.injEq, true_and, hnot, or_false]
      exact eq_comm

/-- Pairs in another order have the same values. -/
theorem lookup_perm {α β : Type} [BEq α] [LawfulBEq α] {l l' : List (α × β)} (hp : l.Perm l')
    (h : (l.map Prod.fst).Nodup) (k : α) : l.lookup k = l'.lookup k := by
  refine Option.ext fun v => ?_
  rw [lookup_eq_some_iff_mem h, lookup_eq_some_iff_mem (((hp.map Prod.fst).nodup_iff).1 h), hp.mem_iff]

end Aipcs

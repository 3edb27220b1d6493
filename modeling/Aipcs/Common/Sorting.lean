import Mathlib.Data.List.Sort

/-!
# Sorting — one order of a list

A list that is sorted is the one that a sort of its elements gives, in
whatever order they come (`insertionSort_eq`). `ThenBy` compares by a key
first, and by what is left where two have one key. Elements that keep their
keys are sorted before or after they are mapped (`mapM_insertionSort`), and
lists that are related element by element are so when they are sorted
(`forall₂_insertionSort`).
-/

namespace Aipcs

namespace Sorting

variable {α κ : Type} {l l' : List α} {key : α → κ}

theorem pairwise_sorted {r : α → α → Prop} [DecidableRel r] (htotal : ∀ a b, r a b ∨ r b a)
    (htrans : ∀ a b c, r a b → r b c → r a c) (l : List α) : (l.insertionSort r).Pairwise r := by
  have : Std.Total r := ⟨htotal⟩
  have : IsTrans α r := ⟨htrans⟩
  exact List.pairwise_insertionSort r l

/-- **A sorted list is what a sort of its elements gives**, where no two
of them stand before each other. -/
theorem insertionSort_eq {r : α → α → Prop} [DecidableRel r] (htotal : ∀ a b, r a b ∨ r b a)
    (htrans : ∀ a b c, r a b → r b c → r a c) (hperm : l.Perm l') (hsorted : l'.Pairwise r)
    (hanti : ∀ a ∈ l', ∀ b ∈ l', r a b → r b a → a = b) : l.insertionSort r = l' := by
  have hsort := pairwise_sorted htotal htrans l
  have hall : (l.insertionSort r).Perm l' := (List.perm_insertionSort r l).trans hperm
  exact hall.eq_of_pairwise (fun a b ha hb => hanti a (hall.mem_iff.1 ha) b hb) hsort hsorted

/-- Two orders of the same elements are one where their keys come in one
order. -/
theorem eq_of_keys (hperm : l.Perm l') (hnodup : (l'.map key).Nodup) (hkeys : l.map key = l'.map key) : l = l' := by
  have hinj := List.inj_on_of_nodup_map hnodup
  refine List.ext_getElem (by simpa using congrArg List.length hkeys) fun i hi hi' => ?_
  refine hinj (hperm.mem_iff.1 (List.getElem_mem hi)) (List.getElem_mem hi') ?_
  have hget : (l.map key)[i]? = (l'.map key)[i]? := by rw [hkeys]
  simpa [hi, hi'] using hget

/-- Of two elements of a list, each pair of which is related, one is related
to the other. -/
theorem rel_of_pairwise {r : α → α → Prop} {a b : α} (h : l.Pairwise r) (ha : a ∈ l) (hb : b ∈ l) :
    a = b ∨ r a b ∨ r b a := by
  obtain ⟨i, hi, rfl⟩ := List.getElem_of_mem ha
  obtain ⟨j, hj, rfl⟩ := List.getElem_of_mem hb
  rw [List.pairwise_iff_getElem] at h
  rcases Nat.lt_trichotomy i j with hij | rfl | hji
  · exact .inr (.inl (h i j hi hj hij))
  · exact .inl rfl
  · exact .inr (.inr (h j i hj hi hji))

/-! ## Keys in turn -/

section keys

variable [DecidableEq κ] {le : κ → κ → Prop} {rest : α → α → Prop} {a b c : α}

/-- By a key, and where two have one key, by what is left. -/
def ThenBy (key : α → κ) (le : κ → κ → Prop) (rest : α → α → Prop) (a b : α) : Prop :=
  if key a = key b then rest a b else le (key a) (key b)

instance [DecidableRel le] [DecidableRel rest] : DecidableRel (ThenBy key le rest) := fun _ _ =>
  inferInstanceAs (Decidable (ite _ _ _))

theorem ThenBy.total (hle : ∀ j k, le j k ∨ le k j) (hrest : ∀ a b, rest a b ∨ rest b a) (a b : α) :
    ThenBy key le rest a b ∨ ThenBy key le rest b a := by
  by_cases h : key a = key b
  · rw [ThenBy, ThenBy, if_pos h, if_pos h.symm]
    exact hrest a b
  · rw [ThenBy, ThenBy, if_neg h, if_neg (Ne.symm h)]
    exact hle _ _

theorem ThenBy.trans (hle : ∀ i j k, le i j → le j k → le i k) (hanti : ∀ j k, le j k → le k j → j = k)
    (hrest : ∀ a b c, rest a b → rest b c → rest a c) (a b c : α) (hab : ThenBy key le rest a b)
    (hbc : ThenBy key le rest b c) : ThenBy key le rest a c := by
  unfold ThenBy at *
  by_cases h : key a = key b
  · rw [if_pos h] at hab
    by_cases h' : key b = key c
    · rw [if_pos h'] at hbc
      rw [if_pos (h.trans h')]
      exact hrest a b c hab hbc
    · rw [if_neg h'] at hbc
      rw [if_neg (h ▸ h'), h]
      exact hbc
  · rw [if_neg h] at hab
    by_cases h' : key b = key c
    · rw [if_neg (h' ▸ h), ← h']
      exact hab
    · rw [if_neg h'] at hbc
      have hne : key a ≠ key c := fun heq => h (hanti _ _ hab (heq ▸ hbc))
      rw [if_neg hne]
      exact hle _ _ _ hab hbc

/-- Two that stand before each other have one key. -/
theorem ThenBy.antisymm (hanti : ∀ j k, le j k → le k j → j = k) (hab : ThenBy key le rest a b)
    (hba : ThenBy key le rest b a) : key a = key b ∧ rest a b ∧ rest b a := by
  unfold ThenBy at *
  by_cases h : key a = key b
  · rw [if_pos h] at hab
    rw [if_pos h.symm] at hba
    exact ⟨h, hab, hba⟩
  · rw [if_neg h] at hab
    rw [if_neg (Ne.symm h)] at hba
    exact absurd (hanti _ _ hab hba) h

end keys

/-! ## Sorted, then mapped -/

section mapped

variable {α β κ : Type} {key : α → κ} {key' : β → κ} {le : κ → κ → Prop} [DecidableRel le] {f : α → Option β}

/-- An element that keeps its key is put in place before or after it is
mapped. -/
theorem mapM_orderedInsert (hf : ∀ a b, f a = some b → key' b = key a) (a : α) (l : List α) :
    (l.orderedInsert (fun a b => le (key a) (key b)) a).mapM f =
      (f a).bind fun b => (l.mapM f).map fun l' => l'.orderedInsert (fun a b => le (key' a) (key' b)) b := by
  induction l with
  | nil => cases ha : f a <;> simp [ha]
  | cons x l ih =>
    rw [List.orderedInsert]
    split_ifs with hle
    · cases ha : f a with
      | none => simp [ha]
      | some b =>
        cases hx : f x with
        | none => simp [ha, hx]
        | some y =>
          have hkeys : le (key' b) (key' y) := by rwa [hf a b ha, hf x y hx]
          cases hl : l.mapM f <;> simp [ha, hx, hl, List.orderedInsert, hkeys]
    · rw [List.mapM_cons, ih]
      cases ha : f a with
      | none => cases f x <;> simp
      | some b =>
        cases hx : f x with
        | none => simp [hx]
        | some y =>
          have hkeys : ¬ le (key' b) (key' y) := by rwa [hf a b ha, hf x y hx]
          cases hl : l.mapM f <;> simp [hx, hl, List.orderedInsert, hkeys]

/-- **A list is sorted before or after its elements are mapped**, where
each keeps its key. -/
theorem mapM_insertionSort (hf : ∀ a b, f a = some b → key' b = key a) (l : List α) :
    (l.insertionSort fun a b => le (key a) (key b)).mapM f =
      (l.mapM f).map fun l' => l'.insertionSort fun a b => le (key' a) (key' b) := by
  induction l with
  | nil => rfl
  | cons a l ih =>
    rw [List.insertionSort_cons, mapM_orderedInsert hf, ih, List.mapM_cons]
    cases f a with
    | none => rfl
    | some b => cases l.mapM f <;> simp

end mapped

/-! ## Related element by element -/

section related

variable {α β κ : Type} {key : α → κ} {key' : β → κ} {le : κ → κ → Prop} [DecidableRel le] {R : α → β → Prop}
  {l : List α} {l' : List β}

/-- Related elements are put in place among related ones. -/
theorem forall₂_orderedInsert (hR : ∀ a b, R a b → key a = key' b) {a : α} {b : β} (hab : R a b)
    (h : List.Forall₂ R l l') : List.Forall₂ R (l.orderedInsert (fun a b => le (key a) (key b)) a)
      (l'.orderedInsert (fun a b => le (key' a) (key' b)) b) := by
  induction h with
  | nil => exact .cons hab .nil
  | @cons x y l l' hxy hrest ih =>
    rw [List.orderedInsert, List.orderedInsert, hR a b hab, hR x y hxy]
    split_ifs with hle
    · exact .cons hab (.cons hxy hrest)
    · exact .cons hxy ih

/-- **Related lists are so when they are sorted**, where related elements
have one key. -/
theorem forall₂_insertionSort (hR : ∀ a b, R a b → key a = key' b) (h : List.Forall₂ R l l') :
    List.Forall₂ R (l.insertionSort fun a b => le (key a) (key b))
      (l'.insertionSort fun a b => le (key' a) (key' b)) := by
  induction h with
  | nil => exact .nil
  | cons hab _ ih => exact forall₂_orderedInsert hR hab ih

/-- What is found in related lists is related. -/
theorem rel_find? {p : α → Bool} {q : β → Bool} (hp : ∀ a b, R a b → p a = q b) (h : List.Forall₂ R l l') :
    Option.Rel R (l.find? p) (l'.find? q) := by
  induction h with
  | nil => exact .none
  | @cons a b l l' hab _ ih =>
    rw [List.find?_cons, List.find?_cons, hp a b hab]
    cases q b with
    | true => exact .some hab
    | false => exact ih

theorem all_eq_of_forall₂ {p : α → Bool} {q : β → Bool} (hp : ∀ a b, R a b → p a = q b) (h : List.Forall₂ R l l') :
    l.all p = l'.all q := by
  induction h with
  | nil => rfl
  | @cons a b l l' hab _ ih => rw [List.all_cons, List.all_cons, hp a b hab, ih]

theorem any_eq_of_rel {o : Option α} {o' : Option β} {p : α → Bool} {q : β → Bool} (hp : ∀ a b, R a b → p a = q b)
    (h : Option.Rel R o o') : o.any p = o'.any q := by
  cases h with
  | none => rfl
  | some hab => exact hp _ _ hab

theorem isSome_eq_of_rel {o : Option α} {o' : Option β} (h : Option.Rel R o o') : o.isSome = o'.isSome := by
  cases h <;> rfl

end related

end Sorting

end Aipcs

import Mathlib.Data.List.Sort
import Mathlib.Order.Defs.LinearOrder

/-!
# Merging — ascending lists, cut before they are merged

Lists that ascend by a key, and of every key the first entry, in the order
of the keys. `take_gathered` says that cutting the lists beforehand at the
length that is kept changes nothing: what has few enough keys below it in
the union has few enough in each list. A listing that is asked for so many
entries `Cuts` a list where it gives the first so many; listings that cut
their lists may be run one after the other, or gathered.
-/

namespace Aipcs

variable {α β κ : Type} [LinearOrder κ]

/-- The keys ascend, and none stands twice. -/
def Ascending (key : α → κ) (l : List α) : Prop := l.Pairwise fun a b => key a < key b

/-- Two lists as one; of two entries with one key the first list's. -/
def merged (key : α → κ) : List α → List α → List α
  | [], ys => ys
  | x :: xs, [] => x :: xs
  | x :: xs, y :: ys =>
    if key x < key y then x :: merged key xs (y :: ys)
    else if key y < key x then y :: merged key (x :: xs) ys
    else x :: merged key xs ys
termination_by xs ys => xs.length + ys.length

/-- Of every key the first entry. -/
def firsts (key : α → κ) : List α → List α
  | [] => []
  | a :: l => a :: (firsts key l).filter fun b => key b ≠ key a

/-- Of every key the first entry in any of the lists, in the order of the keys. -/
def gathered (key : α → κ) (ls : List (List α)) : List α :=
  (firsts key ls.flatten).insertionSort fun a b => key a ≤ key b

variable {key : α → κ} {a : α} {l xs ys : List α} {ls : List (List α)}

/-! ## Ascending lists -/

theorem Ascending.take (h : Ascending key l) (n : ℕ) : Ascending key (l.take n) :=
  List.Pairwise.sublist (List.take_sublist n l) h

theorem Ascending.nodup (h : Ascending key l) : (l.map key).Nodup := List.pairwise_map.2 (h.imp fun hlt => hlt.ne)

theorem Ascending.distinct (h : Ascending key l) : l.Nodup := h.nodup.of_map

/-- Entries of one key are one entry. -/
theorem Ascending.eq_of_key {b : α} (h : Ascending key l) (ha : a ∈ l) (hb : b ∈ l) (hkey : key a = key b) : a = b :=
  List.inj_on_of_nodup_map h.nodup ha hb hkey

/-- **An ascending list is what is in it.** -/
theorem Ascending.ext (hxs : Ascending key xs) (hys : Ascending key ys) (h : ∀ a, a ∈ xs ↔ a ∈ ys) : xs = ys := by
  have hperm : xs.Perm ys := (List.perm_ext_iff_of_nodup hxs.distinct hys.distinct).2 h
  exact hperm.eq_of_pairwise (fun a b _ _ hab hba => absurd (hab.trans hba) (lt_irrefl _)) hxs hys

theorem Ascending.insertionSort (h : (l.map key).Nodup) :
    Ascending key (l.insertionSort fun a b => key a ≤ key b) := by
  have hsorted : (l.insertionSort fun a b => key a ≤ key b).Pairwise fun a b => key a ≤ key b :=
    List.pairwise_insertionSort (r := fun a b => key a ≤ key b) l
  have hnodup : ((l.insertionSort fun a b => key a ≤ key b).map key).Nodup :=
    (((List.perm_insertionSort _ l).map key).nodup_iff).2 h
  exact (hsorted.and (List.pairwise_map.1 hnodup)).imp fun h => lt_of_le_of_ne h.1 h.2

/-! ## Merging two lists -/

theorem mem_merged (hxs : Ascending key xs) (hys : Ascending key ys) :
    a ∈ merged key xs ys ↔ a ∈ xs ∨ a ∈ ys ∧ ∀ x ∈ xs, key x ≠ key a := by
  induction xs, ys using merged.induct key with
  | case1 ys => simp [merged]
  | case2 x xs => simp [merged]
  | case3 x xs y ys hlt ih =>
    rw [merged, if_pos hlt, List.mem_cons, ih (List.pairwise_cons.1 hxs).2 hys]
    -- what the second list holds comes after x
    have habove : ∀ z ∈ y :: ys, key x ≠ key z := by
      intro z hz
      rcases List.mem_cons.1 hz with rfl | hz
      · exact hlt.ne
      · exact (hlt.trans ((List.pairwise_cons.1 hys).1 z hz)).ne
    rw [List.mem_cons (l := xs), or_assoc, List.forall_mem_cons]
    exact or_congr_right (or_congr_right (and_congr_right fun ha => (and_iff_right (habove a ha)).symm))
  | case4 x xs y ys hle hlt ih =>
    rw [merged, if_neg hle, if_pos hlt, List.mem_cons, ih hxs (List.pairwise_cons.1 hys).2, List.mem_cons]
    have habove : ∀ z ∈ x :: xs, key z ≠ key y := by
      intro z hz
      rcases List.mem_cons.1 hz with rfl | hz
      · exact hlt.ne'
      · exact (hlt.trans ((List.pairwise_cons.1 hxs).1 z hz)).ne'
    constructor
    · rintro (rfl | h | h)
      · exact .inr ⟨List.mem_cons_self, habove⟩
      · exact .inl h
      · exact .inr ⟨List.mem_cons_of_mem _ h.1, h.2⟩
    · rintro (h | ⟨h, hne⟩)
      · exact .inr (.inl h)
      · rcases List.mem_cons.1 h with rfl | h
        · exact .inl rfl
        · exact .inr (.inr ⟨h, hne⟩)
  | case5 x xs y ys hle hle' ih =>
    have heq : key x = key y := le_antisymm (not_lt.1 hle') (not_lt.1 hle)
    rw [merged, if_neg hle, if_neg hle', List.mem_cons, ih (List.pairwise_cons.1 hxs).2 (List.pairwise_cons.1 hys).2,
      List.mem_cons, or_assoc, List.forall_mem_cons]
    refine or_congr_right (or_congr_right ?_)
    constructor
    · rintro ⟨ha, hne⟩
      exact ⟨List.mem_cons_of_mem _ ha, heq ▸ ((List.pairwise_cons.1 hys).1 a ha).ne, hne⟩
    · rintro ⟨ha, hx, hne⟩
      rcases List.mem_cons.1 ha with rfl | ha
      · exact absurd heq hx
      · exact ⟨ha, hne⟩

theorem ascending_merged (hxs : Ascending key xs) (hys : Ascending key ys) : Ascending key (merged key xs ys) := by
  induction xs, ys using merged.induct key with
  | case1 ys => rwa [merged]
  | case2 x xs => rwa [merged]
  | case3 x xs y ys hlt ih =>
    obtain ⟨hx, hxs'⟩ := List.pairwise_cons.1 hxs
    rw [merged, if_pos hlt]
    refine List.pairwise_cons.2 ⟨fun z hz => ?_, ih hxs' hys⟩
    rcases (mem_merged hxs' hys).1 hz with hz | ⟨hz, -⟩
    · exact hx z hz
    · rcases List.mem_cons.1 hz with rfl | hz
      · exact hlt
      · exact hlt.trans ((List.pairwise_cons.1 hys).1 z hz)
  | case4 x xs y ys hle hlt ih =>
    obtain ⟨hy, hys'⟩ := List.pairwise_cons.1 hys
    rw [merged, if_neg hle, if_pos hlt]
    refine List.pairwise_cons.2 ⟨fun z hz => ?_, ih hxs hys'⟩
    rcases (mem_merged hxs hys').1 hz with hz | ⟨hz, -⟩
    · rcases List.mem_cons.1 hz with rfl | hz
      · exact hlt
      · exact hlt.trans ((List.pairwise_cons.1 hxs).1 z hz)
    · exact hy z hz
  | case5 x xs y ys hle hle' ih =>
    obtain ⟨hx, hxs'⟩ := List.pairwise_cons.1 hxs
    obtain ⟨hy, hys'⟩ := List.pairwise_cons.1 hys
    have heq : key x = key y := le_antisymm (not_lt.1 hle') (not_lt.1 hle)
    rw [merged, if_neg hle, if_neg hle']
    refine List.pairwise_cons.2 ⟨fun z hz => ?_, ih hxs' hys'⟩
    rcases (mem_merged hxs' hys').1 hz with hz | ⟨hz, -⟩
    · exact hx z hz
    · exact heq ▸ hy z hz

/-- **Cutting both lists first**, at no less than what is kept. -/
theorem take_merged {n m k : ℕ} (hm : n ≤ m) (hk : n ≤ k) :
    (merged key (xs.take m) (ys.take k)).take n = (merged key xs ys).take n := by
  induction xs, ys using merged.induct key generalizing n m k with
  | case1 ys => rw [List.take_nil, merged, merged, List.take_take, Nat.min_eq_left hk]
  | case2 x xs =>
    -- nothing stands in the second list
    have hnil : ∀ l : List α, merged key l [] = l := fun l => by cases l <;> rw [merged]
    rw [List.take_nil, hnil, hnil, List.take_take, Nat.min_eq_left hm]
  | case3 x xs y ys hlt ih =>
    rcases n with _ | n
    · rfl
    obtain ⟨m, rfl⟩ : ∃ m', m = m' + 1 := ⟨m - 1, by omega⟩
    obtain ⟨k, rfl⟩ : ∃ k', k = k' + 1 := ⟨k - 1, by omega⟩
    have hih := @ih n m (k + 1) (by omega) (by omega)
    rw [List.take_succ_cons] at hih
    rw [List.take_succ_cons, List.take_succ_cons, merged, merged, if_pos hlt, if_pos hlt, List.take_succ_cons,
      List.take_succ_cons, hih]
  | case4 x xs y ys hle hlt ih =>
    rcases n with _ | n
    · rfl
    obtain ⟨m, rfl⟩ : ∃ m', m = m' + 1 := ⟨m - 1, by omega⟩
    obtain ⟨k, rfl⟩ : ∃ k', k = k' + 1 := ⟨k - 1, by omega⟩
    have hih := @ih n (m + 1) k (by omega) (by omega)
    rw [List.take_succ_cons] at hih
    rw [List.take_succ_cons, List.take_succ_cons, merged, merged, if_neg hle, if_neg hle, if_pos hlt, if_pos hlt,
      List.take_succ_cons, List.take_succ_cons, hih]
  | case5 x xs y ys hle hle' ih =>
    rcases n with _ | n
    · rfl
    obtain ⟨m, rfl⟩ : ∃ m', m = m' + 1 := ⟨m - 1, by omega⟩
    obtain ⟨k, rfl⟩ : ∃ k', k = k' + 1 := ⟨k - 1, by omega⟩
    rw [List.take_succ_cons, List.take_succ_cons, merged, merged, if_neg hle, if_neg hle, if_neg hle', if_neg hle',
      List.take_succ_cons, List.take_succ_cons, @ih n m k (by omega) (by omega)]

/-! ## Gathering many lists -/

theorem mem_firsts : a ∈ firsts key l ↔ l.find? (fun b => key b = key a) = some a := by
  induction l with
  | nil => simp [firsts]
  | cons b l ih =>
    rw [firsts, List.mem_cons, List.mem_filter, List.find?_cons, ih]
    by_cases hb : key b = key a
    · rw [decide_eq_true hb]
      simp [hb, eq_comm]
    · rw [decide_eq_false hb]
      have hne : a ≠ b := fun h => hb (h ▸ rfl)
      simp [hne, Ne.symm hb]

theorem nodup_firsts : ((firsts key l).map key).Nodup := by
  induction l with
  | nil => exact List.nodup_nil
  | cons a l ih =>
    rw [firsts, List.map_cons, List.nodup_cons]
    refine ⟨fun h => ?_, ih.sublist (List.filter_sublist.map key)⟩
    obtain ⟨b, hb, hkey⟩ := List.mem_map.1 h
    exact absurd hkey (by simpa using (List.mem_filter.1 hb).2)

theorem mem_gathered : a ∈ gathered key ls ↔ ls.flatten.find? (fun b => key b = key a) = some a := by
  rw [gathered, (List.perm_insertionSort _ _).mem_iff, mem_firsts]

theorem ascending_gathered : Ascending key (gathered key ls) := .insertionSort nodup_firsts

/-- One list more, before the others. -/
theorem gathered_cons (h : Ascending key l) : gathered key (l :: ls) = merged key l (gathered key ls) := by
  refine ascending_gathered.ext (ascending_merged h ascending_gathered) fun a => ?_
  rw [mem_merged h ascending_gathered, mem_gathered, mem_gathered, List.flatten_cons, List.find?_append,
    Option.or_eq_some_iff, List.find?_eq_none]
  refine or_congr ⟨List.mem_of_find?_eq_some, fun ha => ?_⟩ ?_
  · obtain ⟨b, hb⟩ := Option.isSome_iff_exists.1
      (List.find?_isSome.2 ⟨a, ha, decide_eq_true rfl⟩ : (l.find? fun b => decide (key b = key a)).isSome)
    rw [hb, h.eq_of_key (List.mem_of_find?_eq_some hb) ha (by simpa using List.find?_some hb)]
  · rw [and_comm]
    simp

/-- **The lists may be cut first**, each at the length that is kept. -/
theorem take_gathered (h : ∀ l ∈ ls, Ascending key l) (n : ℕ) :
    (gathered key (ls.map (List.take n))).take n = (gathered key ls).take n := by
  induction ls with
  | nil => rfl
  | cons l ls ih =>
    obtain ⟨hl, hls⟩ := List.forall_mem_cons.1 h
    rw [List.map_cons, gathered_cons (hl.take n), gathered_cons hl]
    calc (merged key (l.take n) (gathered key (ls.map (List.take n)))).take n
        = (merged key ((l.take n).take n) ((gathered key (ls.map (List.take n))).take n)).take n :=
          (take_merged le_rfl le_rfl).symm
      _ = (merged key (l.take n) ((gathered key ls).take n)).take n := by rw [List.take_take, Nat.min_self, ih hls]
      _ = (merged key l (gathered key ls)).take n := take_merged le_rfl le_rfl

theorem length_le_gathered (h : ∀ l ∈ ls, Ascending key l) (hl : l ∈ ls) : l.length ≤ (gathered key ls).length := by
  have hsubset : l.map key ⊆ (gathered key ls).map key := fun k hk => by
    obtain ⟨a, ha, rfl⟩ := List.mem_map.1 hk
    have hsome : (ls.flatten.find? fun b => decide (key b = key a)).isSome :=
      List.find?_isSome.2 ⟨a, List.mem_flatten.2 ⟨l, hl, ha⟩, decide_eq_true rfl⟩
    obtain ⟨b, hb⟩ := Option.isSome_iff_exists.1 hsome
    have hkey : key b = key a := by simpa using List.find?_some hb
    exact List.mem_map.2 ⟨b, mem_gathered.2 (by rw [hkey]; exact hb), hkey⟩
  have hlength := (List.subperm_of_subset (h l hl).nodup hsubset).length_le
  rwa [List.length_map, List.length_map] at hlength

/-- **What is gathered**, asked for key by key. -/
theorem gathered_eq_filterMap {keys : List κ} (hkeys : keys.Pairwise (· < ·))
    (hall : ∀ l ∈ ls, ∀ a ∈ l, key a ∈ keys) :
    gathered key ls = keys.filterMap fun k => ls.findSome? fun l => l.find? fun a => key a = k := by
  have hfound : ∀ {k : κ} {a : α}, (ls.flatten.find? fun a => decide (key a = k)) = some a → key a = k :=
    fun h => by simpa using List.find?_some h
  simp only [← List.find?_flatten]
  refine ascending_gathered.ext (List.pairwise_filterMap.2 (hkeys.imp fun hlt a ha b hb => ?_)) fun a => ?_
  · rwa [hfound ha, hfound hb]
  · rw [mem_gathered, List.mem_filterMap]
    constructor
    · intro ha
      obtain ⟨l, hl, hmem⟩ := List.mem_flatten.1 (List.mem_of_find?_eq_some ha)
      exact ⟨key a, hall l hl a hmem, ha⟩
    · rintro ⟨k, -, ha⟩
      rwa [hfound ha]

/-- What keeps the keys may come before or after. -/
theorem gathered_map {key' : β → κ} {f : α → β} (hf : ∀ a, key' (f a) = key a) :
    gathered key' (ls.map (List.map f)) = (gathered key ls).map f := by
  have hfirsts : ∀ l : List α, firsts key' (l.map f) = (firsts key l).map f := by
    intro l
    induction l with
    | nil => rfl
    | cons a l ih =>
      rw [List.map_cons, firsts, firsts, List.map_cons, ih, List.filter_map]
      congr 2
      refine List.filter_congr fun b _ => ?_
      simp only [Function.comp_apply, hf]
  rw [gathered, gathered, ← List.map_flatten, hfirsts,
    List.map_insertionSort (r := fun a b => key a ≤ key b) (s := fun a b => key' a ≤ key' b) f _
      fun a _ b _ => by rw [hf, hf]]

/-! ## Listings with a bound -/

variable {ε : Type} {c : α → Except ε β}

theorem mapM_eq_ok {r : List β} : l.mapM c = .ok r ↔ l.map c = r.map .ok := by
  induction l generalizing r with
  | nil => cases r <;> simp [pure, Except.pure]
  | cons a l ih =>
    rw [List.mapM_cons, List.map_cons]
    cases ha : c a with
    | error e => cases r <;> simp [bind, Except.bind]
    | ok b =>
      cases hl : l.mapM c with
      | error e =>
        refine iff_of_false (by simp [bind, Except.bind]) fun h => ?_
        obtain ⟨b', r, rfl⟩ : ∃ b' r', r = b' :: r' := by
          cases r with
          | nil => exact absurd h (by simp)
          | cons b' r' => exact ⟨b', r', rfl⟩
        exact absurd (hl.symm.trans (ih.2 (List.cons.inj h).2)) (by simp)
      | ok r' =>
        have hr' := ih.1 hl
        cases r with
        | nil => simp [bind, Except.bind, pure, Except.pure]
        | cons b' r =>
          simp only [bind, Except.bind, pure, Except.pure, Except.ok.injEq, List.cons.injEq, List.map_cons, hr']
          refine and_congr_right fun _ => ⟨fun h => by rw [h], fun h => ?_⟩
          exact List.map_injective_iff.2 (fun _ _ h => Except.ok.inj h) h

/-- A listing that is asked for `n` entries gives what the first `n` of a
list become; it may be asked for fewer, and for more where they are all there. -/
structure Cuts (c : α → Except ε β) (fs : List α) (p : ℕ → Except ε (List β)) : Prop where
  built : ∀ {n r}, p n = .ok r → (fs.take n).map c = r.map .ok
  fewer : ∀ {n m r}, n ≤ m → p m = .ok r → ∃ r', p n = .ok r'
  more : ∀ {n m r}, n ≤ m → fs.length < n → p n = .ok r → ∃ r', p m = .ok r'

namespace Cuts

variable {fs gs : List α} {p p' : ℕ → Except ε (List β)} {r r' : List β} {n m : ℕ}

theorem length_eq (h : Cuts c fs p) (hr : p n = .ok r) : r.length = min n fs.length := by
  have hlength := congrArg List.length (h.built hr)
  rw [List.length_map, List.length_map, List.length_take] at hlength
  exact hlength.symm

/-- **What it gives for fewer is the first part of it.** -/
theorem take (h : Cuts c fs p) (hnm : n ≤ m) (hr : p m = .ok r) : p n = .ok (r.take n) := by
  obtain ⟨r', hr'⟩ := h.fewer hnm hr
  have hmap : r'.map Except.ok = (r.take n).map (Except.ok (ε := ε)) := by
    rw [List.map_take, ← h.built hr, ← h.built hr', List.map_take, List.map_take, List.take_take, Nat.min_eq_left hnm]
  rw [hr', List.map_injective_iff.2 (fun _ _ h => Except.ok.inj h) hmap]

/-- **What is less than was asked for is all.** -/
theorem all (h : Cuts c fs p) (hnm : n ≤ m) (hr : p n = .ok r) (hlt : r.length < n) : p m = .ok r := by
  have hlength := h.length_eq hr
  obtain ⟨r', hr'⟩ := h.more hnm (by omega) hr
  have hback := h.take hnm hr'
  rw [hr, List.take_of_length_le (by rw [h.length_eq hr']; omega)] at hback
  rw [hr', hback]

theorem of_mapM : Cuts c fs fun n => (fs.take n).mapM c where
  built := fun h => mapM_eq_ok.1 h
  fewer := fun {n m r} hnm h => by
    have hbuilt := mapM_eq_ok.1 h
    refine ⟨r.take n, mapM_eq_ok.2 ?_⟩
    rw [List.map_take (l := r), ← hbuilt, List.map_take, List.map_take, List.take_take, Nat.min_eq_left hnm]
  more := fun {n m r} hnm hlt h => by
    rw [List.take_of_length_le hlt.le] at h
    exact ⟨r, by rwa [List.take_of_length_le (hlt.le.trans hnm)]⟩

/-- A listing that always fails. -/
theorem of_error {e : ε} : Cuts c fs fun _ => .error e :=
  ⟨fun h => (nomatch h), fun _ h => (nomatch h), fun _ _ h => (nomatch h)⟩

theorem nil : Cuts c [] fun _ => .ok [] where
  built := fun h => by rw [← Except.ok.inj h, List.take_nil, List.map_nil, List.map_nil]
  fewer := fun _ _ => ⟨[], rfl⟩
  more := fun _ _ _ => ⟨[], rfl⟩

end Cuts

/-- One listing after another, which is asked for what the first leaves. -/
def sequel (p p' : ℕ → Except ε (List β)) (n : ℕ) : Except ε (List β) :=
  if n = 0 then .ok []
  else do
    let r ← p n
    let r' ← p' (n - r.length)
    return r ++ r'

theorem sequel_eq_ok {p p' : ℕ → Except ε (List β)} {n : ℕ} {r : List β} : sequel p p' n = .ok r ↔
    n = 0 ∧ r = [] ∨ n ≠ 0 ∧ ∃ r₁ r₂, p n = .ok r₁ ∧ p' (n - r₁.length) = .ok r₂ ∧ r = r₁ ++ r₂ := by
  unfold sequel
  by_cases hn : n = 0
  · simp [hn, eq_comm]
  · cases h₁ : p n with
    | error e => simp [hn, bind, Except.bind]
    | ok r₁ =>
      cases h₂ : p' (n - r₁.length) <;> simp [hn, h₂, bind, Except.bind, pure, Except.pure, eq_comm]

namespace Cuts

variable {fs gs : List α} {p p' : ℕ → Except ε (List β)}

/-- **One after another.** -/
theorem sequel (h : Cuts c fs p) (h' : Cuts c gs p') : Cuts c (fs ++ gs) (sequel p p') where
  built := fun {n r} hr => by
    rcases sequel_eq_ok.1 hr with ⟨rfl, rfl⟩ | ⟨-, r₁, r₂, h₁, h₂, rfl⟩
    · rfl
    · have hlength := h.length_eq h₁
      rw [show n - r₁.length = n - fs.length by omega] at h₂
      rw [List.take_append, List.map_append, List.map_append, h.built h₁, h'.built h₂]
  fewer := fun {n m r} hnm hr => by
    by_cases hn : n = 0
    · exact ⟨[], sequel_eq_ok.2 (.inl ⟨hn, rfl⟩)⟩
    rcases sequel_eq_ok.1 hr with ⟨hm, -⟩ | ⟨-, r₁, r₂, h₁, h₂, rfl⟩
    · omega
    obtain ⟨s₁, hs₁⟩ := h.fewer hnm h₁
    have hlength := h.length_eq h₁
    have hlength' := h.length_eq hs₁
    obtain ⟨s₂, hs₂⟩ := h'.fewer (show n - s₁.length ≤ m - r₁.length by omega) h₂
    exact ⟨s₁ ++ s₂, sequel_eq_ok.2 (.inr ⟨hn, s₁, s₂, hs₁, hs₂, rfl⟩)⟩
  more := fun {n m r} hnm hlt hr => by
    rw [List.length_append] at hlt
    rcases sequel_eq_ok.1 hr with ⟨hn, -⟩ | ⟨hn, r₁, r₂, h₁, h₂, rfl⟩
    · omega
    obtain ⟨s₁, hs₁⟩ := h.more hnm (by omega) h₁
    have hlength := h.length_eq h₁
    have hlength' := h.length_eq hs₁
    obtain ⟨s₂, hs₂⟩ := h'.more (show n - r₁.length ≤ m - s₁.length by omega) (by omega) h₂
    exact ⟨s₁ ++ s₂, sequel_eq_ok.2 (.inr ⟨by omega, s₁, s₂, hs₁, hs₂, rfl⟩)⟩

end Cuts

/-! ## Gathered listings -/

/-- What is built, beside what it is built from. -/
theorem exists_zip {l : List α} {r : List β} (h : l.map c = r.map .ok) :
    ∃ zs : List { z : α × β // c z.1 = .ok z.2 }, zs.map (·.1.1) = l ∧ zs.map (·.1.2) = r := by
  induction l generalizing r with
  | nil =>
    obtain rfl := List.map_eq_nil_iff.1 h.symm
    exact ⟨[], rfl, rfl⟩
  | cons a l ih =>
    cases r with
    | nil => exact absurd h (by simp)
    | cons b r =>
      obtain ⟨hab, hlr⟩ := List.cons.inj h
      obtain ⟨zs, rfl, rfl⟩ := ih hlr
      exact ⟨⟨(a, b), hab⟩ :: zs, rfl, rfl⟩

theorem exists_zips {ls : List (List α)} {rs : List (List β)} (h : ls.map (List.map c) = rs.map (List.map .ok)) :
    ∃ zss : List (List { z : α × β // c z.1 = .ok z.2 }),
      zss.map (List.map (·.1.1)) = ls ∧ zss.map (List.map (·.1.2)) = rs := by
  induction ls generalizing rs with
  | nil =>
    obtain rfl := List.map_eq_nil_iff.1 h.symm
    exact ⟨[], rfl, rfl⟩
  | cons l ls ih =>
    cases rs with
    | nil => exact absurd h (by simp)
    | cons r rs =>
      obtain ⟨hl, hls⟩ := List.cons.inj h
      obtain ⟨zs, rfl, rfl⟩ := exists_zip hl
      obtain ⟨zss, rfl, rfl⟩ := ih hls
      exact ⟨zs :: zss, rfl, rfl⟩

/-- Cut, each entry built, gathered, and cut again. -/
def gather (c : α → Except ε β) (key' : β → κ) (gs : List (List α)) (n : ℕ) : Except ε (List β) := do
  let found ← gs.mapM fun g => (g.take n).mapM c
  return (gathered key' found).take n

theorem gather_eq_ok {key' : β → κ} {gs : List (List α)} {n : ℕ} {r : List β} : gather c key' gs n = .ok r ↔
    ∃ found, (gs.map (List.take n)).map (List.map c) = found.map (List.map .ok) ∧ r = (gathered key' found).take n := by
  have hfound : ∀ found, (gs.mapM fun g => (g.take n).mapM c) = .ok found ↔
      (gs.map (List.take n)).map (List.map c) = found.map (List.map .ok) := by
    intro found
    rw [mapM_eq_ok]
    induction gs generalizing found with
    | nil => cases found <;> simp
    | cons g gs ih =>
      cases found with
      | nil => simp
      | cons r found =>
        simp only [List.map_cons, List.cons.injEq, mapM_eq_ok, ih found]
  unfold gather
  cases h : gs.mapM fun g => (g.take n).mapM c with
  | error e =>
    refine iff_of_false (by simp [bind, Except.bind]) fun ⟨found, hmap, _⟩ => ?_
    exact absurd (h.symm.trans ((hfound found).2 hmap)) (by simp)
  | ok found =>
    simp only [bind, Except.bind, pure, Except.pure, Except.ok.injEq]
    refine ⟨fun hr => ⟨found, (hfound found).1 h, hr.symm⟩, fun ⟨found', hmap, hr⟩ => ?_⟩
    rw [hr, Except.ok.inj (h.symm.trans ((hfound found').2 hmap))]

/-- **Listings gathered.** -/
theorem Cuts.gather {key' : β → κ} {gs : List (List α)} (hasc : ∀ g ∈ gs, Ascending key g)
    (hkey : ∀ {a b}, c a = .ok b → key' b = key a) : Cuts c (gathered key gs) (gather c key' gs) where
  built := fun {n r} hr => by
    obtain ⟨found, hmap, rfl⟩ := gather_eq_ok.1 hr
    obtain ⟨zss, hfst, rfl⟩ := exists_zips hmap
    -- the entries and what they become are gathered alike
    have hentries : Aipcs.gathered key (gs.map (List.take n)) = (Aipcs.gathered (fun z => key z.1.1) zss).map (·.1.1) := by
      rw [← hfst]
      exact gathered_map fun _ => rfl
    have hbuilt : Aipcs.gathered key' (zss.map (List.map (·.1.2))) =
        (Aipcs.gathered (fun z => key z.1.1) zss).map (·.1.2) := gathered_map fun z => hkey z.2
    rw [← take_gathered hasc, hentries, hbuilt, ← List.map_take, ← List.map_take, List.map_map, List.map_map]
    exact List.map_congr_left fun z _ => z.2
  fewer := fun {n m r} hnm hr => by
    obtain ⟨found, hmap, -⟩ := gather_eq_ok.1 hr
    refine ⟨_, gather_eq_ok.2 ⟨found.map (List.take n), ?_, rfl⟩⟩
    have hcut := congrArg (List.map (List.take n)) hmap
    simp only [List.map_map, Function.comp_def, ← List.map_take, List.take_take, Nat.min_eq_left hnm] at hcut ⊢
    exact hcut
  more := fun {n m r} hnm hlt hr => by
    obtain ⟨found, hmap, -⟩ := gather_eq_ok.1 hr
    refine ⟨_, gather_eq_ok.2 ⟨found, ?_, rfl⟩⟩
    rw [← hmap]
    congr 1
    refine List.map_congr_left fun g hg => ?_
    have hle := length_le_gathered hasc hg
    rw [List.take_of_length_le (by omega), List.take_of_length_le (by omega)]

end Aipcs

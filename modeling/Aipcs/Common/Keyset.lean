import Aipcs.Common.Merging
import Aipcs.Common.System
import Mathlib.Algebra.Ring.Nat

/-!
# Keysets — pages of rows that come and go

A listing shows the rows of a state in the order of their keys. A reader
asks for it page by page, each page after the last key of the page
before, while the state changes. A row may come or go anywhere, so a
reader may miss it; but it is given no key twice, and every key that is
listed throughout (`Traversed`). On a state that stands still each page
leaves fewer rows (`Pages.standing`).
-/

namespace Aipcs

namespace Keyset

/-- A listing: the rows that it shows of a state, each with its key and
what is read from it, in the order of the keys. -/
structure Listing (σ κ ν : Type) where
  rows : σ → List (κ × Option ν)
  rank : κ → ℕ
  place : ν → κ
  ascending : ∀ x, Ascending (fun r => rank r.1) (rows x)
  placed : ∀ x, ∀ r ∈ rows x, ∀ v ∈ r.2, place v = r.1

variable {σ κ ν : Type}

namespace Listing

variable (L : Listing σ κ ν)

/-- The rows after a position. -/
def after (x : σ) (position : Option κ) : List (κ × Option ν) :=
  (L.rows x).filter fun r => position.all fun p => L.rank p < L.rank r.1

/-- A page, and the position of the next one when there are more rows. -/
def Page (x : σ) (position : Option κ) (limit : ℕ) (values : List ν) (next : Option κ) : Prop :=
  ((L.after x position).take limit).map Prod.snd = values.map some ∧
    next = if limit < (L.after x position).length then ((L.after x position)[limit - 1]?).map Prod.fst else none

end Listing

/-- The state, those that it has been since the reader began, and the
reader's pages so far. -/
structure World (σ κ ν : Type) where
  state : σ
  states : List σ
  position : Option κ
  pages : List (List ν)
  ended : Bool

inductive Event (σ : Type) where
  | changes (x : σ)
  | reads (limit : ℕ)

/-- What the reader has been given. -/
def World.read (w : World σ κ ν) : List ν := w.pages.flatten

/-- One step: the state changes, or the reader is given its next page. -/
inductive Step (fetch : σ → Option κ → ℕ → Option (List ν × Option κ)) : World σ κ ν → Event σ → World σ κ ν → Prop
  | change {w : World σ κ ν} {x : σ} :
      Step fetch w (.changes x) { w with state := x, states := w.states ++ [x] }
  | page {w : World σ κ ν} {limit : ℕ} {values : List ν} {next : Option κ} : w.ended = false → 1 ≤ limit →
      fetch w.state w.position limit = some (values, next) →
      Step fetch w (.reads limit) { w with position := next, pages := w.pages ++ [values], ended := next.isNone }

/-- Every traversal. -/
def traversals (fetch : σ → Option κ → ℕ → Option (List ν × Option κ)) : System (World σ κ ν) (Event σ) where
  init w := w.states = [w.state] ∧ w.position = none ∧ w.pages = [] ∧ w.ended = false
  step := Step fetch

/-- What is fetched are the listing's pages. -/
def Listing.Gives (L : Listing σ κ ν) (fetch : σ → Option κ → ℕ → Option (List ν × Option κ)) : Prop :=
  ∀ x position limit values next, 1 ≤ limit → fetch x position limit = some (values, next) →
    L.Page x position limit values next

/-- The key is listed in every state so far. -/
def Listing.Throughout (L : Listing σ κ ν) (w : World σ κ ν) (k : κ) : Prop :=
  ∀ x ∈ w.states, k ∈ (L.rows x).map Prod.fst

/-- **What a reader has been given**: values in the order of their keys,
each of a row that some state has listed; and at its position, every key
up to it that has been listed throughout. -/
structure Traversed (L : Listing σ κ ν) (w : World σ κ ν) : Prop where
  ascending : Ascending (fun v => L.rank (L.place v)) w.read
  listed : ∀ v ∈ w.read, ∃ x ∈ w.states, (L.place v, some v) ∈ L.rows x
  current : w.state ∈ w.states
  position : w.ended = false → w.position = (w.read.getLast?).map L.place
  complete : ∀ k, L.Throughout w k → (w.ended = false → ∃ p ∈ w.position, L.rank k ≤ L.rank p) →
    ∃ v ∈ w.read, L.place v = k

variable {L : Listing σ κ ν} {fetch : σ → Option κ → ℕ → Option (List ν × Option κ)} {w w' : World σ κ ν}
  {e : Event σ} {x : σ} {position next : Option κ} {limit : ℕ} {values : List ν}

/-! ## Pages -/

theorem ascending_after : Ascending (fun r => L.rank r.1) (L.after x position) :=
  List.Pairwise.sublist List.filter_sublist (L.ascending x)

theorem mem_after {r : κ × Option ν} :
    r ∈ L.after x position ↔ r ∈ L.rows x ∧ ∀ p ∈ position, L.rank p < L.rank r.1 := by
  rw [Listing.after, List.mem_filter]
  cases position <;> simp

/-- The values of a page are those of its rows. -/
theorem Listing.Page.rows (h : L.Page x position limit values next) :
    (L.after x position).take limit = values.map fun v => (L.place v, some v) := by
  have hplaced : ∀ r ∈ (L.after x position).take limit, ∀ v ∈ r.2, L.place v = r.1 := fun r hr =>
    L.placed x r (mem_after.1 (List.mem_of_mem_take hr)).1
  obtain ⟨hvalues, -⟩ := h
  generalize (L.after x position).take limit = rows at hvalues hplaced
  induction rows generalizing values with
  | nil =>
    rw [List.map_nil, eq_comm, List.map_eq_nil_iff] at hvalues
    rw [hvalues, List.map_nil]
  | cons r rows ih =>
    cases values with
    | nil => exact absurd hvalues (by simp)
    | cons v values =>
      obtain ⟨hv, hrest⟩ := List.cons.inj hvalues
      rw [List.map_cons, ih hrest fun r hr => hplaced r (List.mem_cons_of_mem _ hr),
        hplaced r List.mem_cons_self v hv, ← hv]

/-- Where there are more rows, the next page begins after the last of this one. -/
theorem Listing.Page.next_eq (h : L.Page x position limit values next) (hlimit : 1 ≤ limit)
    (hmore : next.isNone = false) : limit < (L.after x position).length ∧ next = (values.getLast?).map L.place := by
  obtain ⟨-, hnext⟩ := id h
  have hlt : limit < (L.after x position).length := by
    by_contra hge
    rw [if_neg hge] at hnext
    rw [hnext] at hmore
    exact absurd hmore (by simp)
  refine ⟨hlt, ?_⟩
  have hlast := congrArg List.getLast? h.rows
  rw [List.getLast?_take, if_neg (by omega), List.getElem?_eq_getElem (by omega), Option.some_or,
    List.getLast?_map] at hlast
  rw [hnext, if_pos hlt, List.getElem?_eq_getElem (by omega), hlast, Option.map_map]
  rfl

/-- The last page leaves no rows. -/
theorem Listing.Page.length_le (h : L.Page x position limit values next) (hlimit : 1 ≤ limit)
    (hmore : next.isNone = true) : (L.after x position).length ≤ limit := by
  by_contra hgt
  obtain ⟨-, hnext⟩ := h
  rw [if_pos (by omega), List.getElem?_eq_getElem (by omega)] at hnext
  rw [hnext] at hmore
  exact absurd hmore (by simp)

/-- The rows after the next position are those that the page leaves. -/
theorem Listing.Page.after_next (h : L.Page x position limit values next) (hlimit : 1 ≤ limit)
    (hmore : next.isNone = false) : L.after x next = (L.after x position).drop limit := by
  obtain ⟨hlt, -⟩ := h.next_eq hlimit hmore
  obtain ⟨-, hnext⟩ := h
  rw [if_pos hlt, List.getElem?_eq_getElem (by omega), Option.map_some] at hnext
  set last := (L.after x position)[limit - 1] with hlast
  have hmem : last ∈ L.after x position := List.getElem_mem _
  -- what lies after the last row lies after the position
  have hafter : L.after x next = (L.after x position).filter fun r => L.rank last.1 < L.rank r.1 := by
    rw [hnext, Listing.after, Listing.after, List.filter_filter]
    refine List.filter_congr fun r _ => ?_
    have habove := (mem_after.1 hmem).2
    cases position with
    | none => simp
    | some p =>
      have hp := habove p rfl
      simp only [Option.all_some]
      rw [← Bool.decide_and, decide_eq_decide]
      omega
  have hasc : Ascending (fun r => L.rank r.1) (L.after x position) := ascending_after
  have hlow : ∀ r ∈ (L.after x position).take limit, ¬ L.rank last.1 < L.rank r.1 := by
    intro r hr
    obtain ⟨i, hi, rfl⟩ := List.mem_iff_getElem.1 hr
    rw [List.length_take] at hi
    rw [List.getElem_take]
    rcases Nat.lt_or_ge i (limit - 1) with hlt' | hge
    · exact (List.pairwise_iff_getElem.1 hasc i (limit - 1) (by omega) (by omega) hlt').le.not_gt
    · obtain rfl : i = limit - 1 := by omega
      exact lt_irrefl _
  have hhigh : ∀ r ∈ (L.after x position).drop limit, L.rank last.1 < L.rank r.1 := by
    intro r hr
    obtain ⟨i, hi, rfl⟩ := List.mem_iff_getElem.1 hr
    rw [List.length_drop] at hi
    rw [List.getElem_drop]
    exact List.pairwise_iff_getElem.1 hasc (limit - 1) (limit + i) (by omega) (by omega) (by omega)
  rw [hafter]
  conv_lhs => rw [← List.take_append_drop limit (L.after x position), List.filter_append]
  rw [List.filter_eq_nil_iff.2 fun r hr => by simpa using hlow r hr,
    List.filter_eq_self.2 fun r hr => by simpa using hhigh r hr, List.nil_append]

/-! ## Every traversal -/

theorem read_page : World.read { w with position := next, pages := w.pages ++ [values], ended := next.isNone } =
    w.read ++ values := by
  rw [World.read, List.flatten_append, List.flatten_singleton]
  rfl

/-- What has been given stays so when the state changes. -/
theorem Traversed.change (h : Traversed L w) : Traversed L { w with state := x, states := w.states ++ [x] } where
  ascending := h.ascending
  listed v hv := by
    obtain ⟨y, hy, hrow⟩ := h.listed v hv
    exact ⟨y, List.mem_append_left _ hy, hrow⟩
  current := List.mem_append_right _ (List.mem_singleton_self x)
  position := h.position
  complete k hk hover := h.complete k (fun y hy => hk y (List.mem_append_left _ hy)) hover

/-- A page adds the rows that follow. -/
theorem Traversed.page (h : Traversed L w) (hover : w.ended = false) (hlimit : 1 ≤ limit)
    (hpage : L.Page w.state w.position limit values next) :
    Traversed L { w with position := next, pages := w.pages ++ [values], ended := next.isNone } := by
  have hrows := hpage.rows
  have hmem : ∀ v ∈ values, (L.place v, some v) ∈ L.after w.state w.position := fun v hv =>
    List.mem_of_mem_take (hrows ▸ List.mem_map_of_mem hv)
  have hvalues : Ascending (fun v => L.rank (L.place v)) values := by
    have hasc : Ascending (fun r => L.rank r.1) ((L.after w.state w.position).take limit) :=
      ascending_after.take limit
    rw [hrows] at hasc
    rw [Ascending, List.pairwise_map] at hasc
    exact hasc
  refine ⟨?_, ?_, h.current, fun hmore => ?_, fun k hk hend => ?_⟩
  · rw [read_page, Ascending, List.pairwise_append]
    refine ⟨h.ascending, hvalues, fun v hv v' hv' => ?_⟩
    -- the position is the last key given, and the page lies after it
    obtain ⟨last, hlast⟩ : ∃ last, w.read.getLast? = some last :=
      Option.ne_none_iff_exists'.1 fun hnone => List.ne_nil_of_mem hv (List.getLast?_eq_none_iff.1 hnone)
    have hposition := h.position hover
    rw [hlast, Option.map_some] at hposition
    have habove : L.rank (L.place last) < L.rank (L.place v') :=
      (mem_after.1 (hmem v' hv')).2 _ (Option.mem_def.2 hposition)
    obtain ⟨before, hbefore⟩ := List.getLast?_eq_some_iff.1 hlast
    have hasc := h.ascending
    rw [hbefore] at hasc hv
    rcases List.mem_append.1 hv with hv | hv
    · exact ((List.pairwise_append.1 hasc).2.2 v hv last (List.mem_singleton_self last)).trans habove
    · rw [List.mem_singleton.1 hv]
      exact habove
  · intro v hv
    rw [read_page, List.mem_append] at hv
    rcases hv with hold | hnew
    · exact h.listed v hold
    · exact ⟨w.state, h.current, (mem_after.1 (hmem v hnew)).1⟩
  · obtain ⟨hlt, hnext⟩ := hpage.next_eq hlimit hmore
    rw [read_page, hnext, List.getLast?_append]
    cases hlast : values.getLast? with
    | some v => rfl
    | none =>
      -- a page that is not the last has rows
      rw [hlast] at hnext
      rw [hnext] at hmore
      exact absurd hmore (by simp)
  · obtain ⟨⟨k', v⟩, hrow, hkey⟩ := List.mem_map.1 (hk w.state h.current)
    obtain rfl : k' = k := hkey
    by_cases hold : ∃ p ∈ w.position, L.rank k' ≤ L.rank p
    · obtain ⟨u, hu, hplace⟩ := h.complete k' hk fun _ => hold
      exact ⟨u, by rw [read_page]; exact List.mem_append_left _ hu, hplace⟩
    · have hafter : (k', v) ∈ L.after w.state w.position :=
        mem_after.2 ⟨hrow, fun p hp => Nat.lt_of_not_le fun hle => hold ⟨p, hp, hle⟩⟩
      have htaken : (k', v) ∈ (L.after w.state w.position).take limit := by
        cases hmore : next.isNone with
        | true =>
          rw [List.take_of_length_le (hpage.length_le hlimit hmore)]
          exact hafter
        | false =>
          rw [← List.take_append_drop limit (L.after w.state w.position), List.mem_append] at hafter
          refine hafter.resolve_right fun hdrop => ?_
          -- a row that the page leaves lies after the next position
          obtain ⟨p, hp, hle⟩ := hend hmore
          rw [← hpage.after_next hlimit hmore] at hdrop
          exact absurd ((mem_after.1 hdrop).2 p hp) hle.not_gt
      rw [hrows, List.mem_map] at htaken
      obtain ⟨u, hu, hpair⟩ := htaken
      exact ⟨u, by rw [read_page]; exact List.mem_append_right _ hu, congrArg Prod.fst hpair⟩

/-- **Traversals are complete**, whatever changes between their pages. -/
theorem traversed (hfetch : L.Gives fetch) (h : (traversals fetch).Reachable w) : Traversed L w := by
  have hinductive : (traversals fetch).Inductive (fun _ _ => True) (Traversed L) := by
    refine ⟨?_, fun w e w' h _ hstep => ?_⟩
    · rintro w ⟨hstates, hposition, hpages, hended⟩
      have hread : w.read = [] := by rw [World.read, hpages, List.flatten_nil]
      refine ⟨?_, ?_, ?_, fun _ => ?_, fun k _ hover => ?_⟩
      · rw [hread]
        exact .nil
      · rw [hread]
        exact fun v hv => absurd hv List.not_mem_nil
      · rw [hstates]
        exact List.mem_singleton_self _
      · rw [hread, hposition]
        rfl
      · obtain ⟨p, hp, -⟩ := hover hended
        rw [hposition] at hp
        exact absurd hp (Option.not_mem_none _)
    · cases hstep with
      | change => exact h.change
      | page hover hlimit hpage => exact h.page hover hlimit (hfetch _ _ _ _ _ hlimit hpage)
  exact hinductive.reachable h

/-- A traversal that has ended has given every key listed throughout, once. -/
theorem Traversed.once [DecidableEq κ] (h : Traversed L w) (hended : w.ended = true) {k : κ} (hk : L.Throughout w k) :
    ∃ v, w.read.filter (fun v => L.place v = k) = [v] := by
  obtain ⟨v, hv, hplace⟩ := h.complete k hk fun hover => absurd (hover.symm.trans hended) Bool.false_ne_true
  refine ⟨v, ?_⟩
  have hmem : v ∈ w.read.filter (fun v => L.place v = k) := List.mem_filter.2 ⟨hv, decide_eq_true hplace⟩
  have hasc : Ascending (fun v => L.rank (L.place v)) (w.read.filter fun v => L.place v = k) :=
    List.Pairwise.sublist List.filter_sublist h.ascending
  have hall : ∀ u ∈ w.read.filter (fun v => L.place v = k), L.place u = k := fun u hu =>
    of_decide_eq_true (List.mem_filter.1 hu).2
  generalize w.read.filter (fun v => L.place v = k) = given at hmem hasc hall
  cases given with
  | nil => exact absurd hmem List.not_mem_nil
  | cons u rest =>
    cases rest with
    | nil => rw [List.mem_singleton.1 hmem]
    | cons u' rest =>
      have hlt : L.rank (L.place u) < L.rank (L.place u') := (List.pairwise_cons.1 hasc).1 u' List.mem_cons_self
      rw [hall u List.mem_cons_self, hall u' (List.mem_cons_of_mem _ List.mem_cons_self)] at hlt
      exact absurd hlt (lt_irrefl _)

/-! ## A state that stands still -/

/-- Pages, with their limits, one after the other. -/
inductive Pages (fetch : σ → Option κ → ℕ → Option (List ν × Option κ)) : World σ κ ν → List ℕ → World σ κ ν → Prop
  | nil {w : World σ κ ν} : Pages fetch w [] w
  | cons {w m w' : World σ κ ν} {limit : ℕ} {limits : List ℕ} : Step fetch w (.reads limit) m → Pages fetch m limits w' →
      Pages fetch w (limit :: limits) w'

/-- **On a state that stands still** a traversal ends with the page on
which the limits come up to the number of rows, so there are no more pages
than rows, or one. -/
theorem Pages.standing {limits : List ℕ} (hfetch : L.Gives fetch) (h : Pages fetch w limits w') (hover : w.ended = false)
    (hpages : limits ≠ []) : (w'.ended = true ↔ (L.after w.state w.position).length ≤ limits.sum) ∧
      limits.length ≤ max 1 (L.after w.state w.position).length := by
  induction h with
  | nil => exact absurd rfl hpages
  | @cons w m w' limit limits hstep hrest ih =>
    cases hstep with
    | @page _ values next hover hlimit hpage =>
      have hpage := hfetch _ _ _ _ _ hlimit hpage
      cases hrest with
      | nil =>
        rw [List.sum_singleton]
        refine ⟨⟨hpage.length_le hlimit, fun hle => ?_⟩, le_max_left _ _⟩
        by_contra hmore
        have hlt := (hpage.next_eq hlimit (Bool.eq_false_of_not_eq_true hmore)).1
        omega
      | cons hnext hrest =>
        -- another page is asked for, so that this one was not the last
        have hmore : next.isNone = false := by
          cases hnext
          assumption
        obtain ⟨hended, hcount⟩ := ih hmore (List.cons_ne_nil _ _)
        have hlt := (hpage.next_eq hlimit hmore).1
        have hafter := congrArg List.length (hpage.after_next hlimit hmore)
        rw [List.length_drop] at hafter
        rw [hafter] at hended hcount
        rw [List.sum_cons, List.length_cons]
        exact ⟨hended.trans (by omega), by omega⟩

/-- Where each page is given, a traversal comes to its end. -/
theorem Pages.ends (hfetch : L.Gives fetch) (hlimit : 1 ≤ limit) (hover : w.ended = false)
    (hgiven : ∀ position, (fetch w.state position limit).isSome = true) :
    ∃ n w', Pages fetch w (List.replicate n limit) w' ∧ w'.ended = true := by
  induction hleft : (L.after w.state w.position).length using Nat.strongRecOn generalizing w with
  | ind left ih =>
    obtain ⟨⟨values, next⟩, hpage⟩ := Option.isSome_iff_exists.1 (hgiven w.position)
    have hstep := Step.page hover hlimit hpage
    have hrows := hfetch _ _ _ _ _ hlimit hpage
    cases hmore : next.isNone with
    | true => exact ⟨1, _, .cons hstep .nil, hmore⟩
    | false =>
      -- the next page begins further on
      have hlt := (hrows.next_eq hlimit hmore).1
      have hafter := congrArg List.length (hrows.after_next hlimit hmore)
      rw [List.length_drop] at hafter
      obtain ⟨n, w', hpages, hended⟩ := @ih (L.after w.state next).length (by omega)
        { w with position := next, pages := w.pages ++ [values], ended := next.isNone } hmore hgiven rfl
      exact ⟨n + 1, w', .cons hstep hpages, hended⟩

end Keyset

end Aipcs

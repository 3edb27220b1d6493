import Aipcs.Common.Merging
import Aipcs.Common.System

/-!
# Numbered logs — entries numbered when they are written, read when they are committed

Transactions write entries to a log. An entry is numbered when it is
written and visible when its transaction commits; a reader asks for the
visible entries of a selection page by page, each page after the last
number of the page before. `InOrder.complete` says what the reader misses
where transactions commit in the order of their numbers: nothing. Where
there is one writer at a time they do, and so do the writers of one
subject, who wait for each other.
-/

namespace Aipcs

/-- How entries come to be numbered: one transaction writes at a time, and
the number follows the highest in the table; or any number do, and each
number is drawn from a sequence. -/
inductive Writers where
  | one
  | many
deriving DecidableEq

namespace NumberedLog

/-- The log, with the transactions under way, and a reader's pages so far. -/
structure World (ρ : Type) where
  last : ℕ
  txns : ℕ → Option (List (ℕ × ρ))
  committed : List (List (ℕ × ρ))
  position : Option ℕ
  pages : List (List (ℕ × ρ))
  ended : Bool

inductive Event (ρ : Type) where
  | begins (n : ℕ)
  | writes (n : ℕ) (r : ρ)
  | commits (n : ℕ)
  | aborts (n : ℕ)
  | reads (limit : ℕ)

variable {ρ ι : Type}

namespace World

/-- What a reader sees. -/
def visible (w : World ρ) : List (ℕ × ρ) := w.committed.flatten

/-- The visible entries of a selection, as they were committed. -/
def selected (selects : ρ → Bool) (w : World ρ) : List (ℕ × ρ) := w.visible.filter fun p => selects p.2

/-- The entries after a position, by their numbers. -/
def rowsAfter (selects : ρ → Bool) (w : World ρ) (position : Option ℕ) : List (ℕ × ρ) :=
  (w.visible.filter fun p => selects p.2 && position.all fun n => n < p.1).insertionSort fun p q => p.1 ≤ q.1

/-- The number that the next entry of a transaction gets. -/
def number (writers : Writers) (w : World ρ) (own : List (ℕ × ρ)) : ℕ :=
  match writers with
  | .one => ((w.visible ++ own).map Prod.fst).foldr max 0 + 1
  | .many => w.last + 1

/-- What the reader has been given. -/
def read (w : World ρ) : List (ℕ × ρ) := w.pages.flatten

end World

/-- One step. Writers of one subject wait for each other; a page that
cannot be read is not given, and the reader may ask again. -/
inductive Step (writers : Writers) (subject : ρ → ι) (selects readable : ρ → Bool) : World ρ → Event ρ → World ρ → Prop
  | begin {w : World ρ} {n : ℕ} : w.txns n = none → (writers = .one → ∀ m, w.txns m = none) →
      Step writers subject selects readable w (.begins n) { w with txns := Function.update w.txns n (some []) }
  | write {w : World ρ} {n : ℕ} {r : ρ} {own : List (ℕ × ρ)} : w.txns n = some own →
      (∀ m l, m ≠ n → w.txns m = some l → ∀ p ∈ l, subject p.2 ≠ subject r) →
      Step writers subject selects readable w (.writes n r)
        { w with last := w.number writers own, txns := Function.update w.txns n (some (own ++ [(w.number writers own, r)])) }
  | commit {w : World ρ} {n : ℕ} {own : List (ℕ × ρ)} : w.txns n = some own →
      Step writers subject selects readable w (.commits n)
        { w with txns := Function.update w.txns n none, committed := w.committed ++ [own] }
  | abort {w : World ρ} {n : ℕ} {own : List (ℕ × ρ)} : w.txns n = some own →
      Step writers subject selects readable w (.aborts n) { w with txns := Function.update w.txns n none }
  | page {w : World ρ} {limit : ℕ} : w.ended = false → 1 ≤ limit →
      (∀ p ∈ (w.rowsAfter selects w.position).take limit, readable p.2 = true) →
      Step writers subject selects readable w (.reads limit)
        { w with
          position := if limit < (w.rowsAfter selects w.position).length then
            ((w.rowsAfter selects w.position)[limit - 1]?).map Prod.fst else none
          pages := w.pages ++ [(w.rowsAfter selects w.position).take limit]
          ended := !decide (limit < (w.rowsAfter selects w.position).length) }
  | unreadable {w : World ρ} {limit : ℕ} : Step writers subject selects readable w (.reads limit) w

/-- An empty log, and a reader that has not begun. -/
def log (writers : Writers) (subject : ρ → ι) (selects readable : ρ → Bool) : System (World ρ) (Event ρ) where
  init w := w = ⟨0, fun _ => none, [], none, [], false⟩
  step := Step writers subject selects readable

/-- **Nothing is missed**: with an entry a reader has been given, on its
page or an earlier one, every entry of the selection that an earlier
transaction committed; and it has been given none twice. -/
structure Complete (selects : ρ → Bool) (w : World ρ) : Prop where
  earlier : ∀ before page after, w.pages = before ++ page :: after → ∀ p ∈ page,
    ∀ cs c ds, w.committed = cs ++ c :: ds → p ∈ c →
      ∀ p' ∈ cs.flatten, selects p'.2 = true → p' ∈ before.flatten ++ page
  once : w.read.Nodup

/-- The step commits no entry of the selection whose number is not above
those that are visible. -/
def Orderly (selects : ρ → Bool) (w : World ρ) (e : Event ρ) : Prop :=
  ∀ n own, e = .commits n → w.txns n = some own → ∀ p ∈ own, selects p.2 = true →
    ∀ p' ∈ w.selected selects, p'.1 < p.1

variable {writers : Writers} {subject : ρ → ι} {selects readable : ρ → Bool} {w w' : World ρ} {e : Event ρ}
  {own : List (ℕ × ρ)}

/-! ## Commits in order -/

/-- What commits in order keep. -/
structure InOrder (writers : Writers) (selects : ρ → Bool) (w : World ρ) : Prop where
  ascending : Ascending Prod.fst (w.selected selects)
  own : ∀ n l, w.txns n = some l → Ascending Prod.fst l
  drawn : writers = .many → ∀ n l, w.txns n = some l → ∀ p ∈ l, p.1 ≤ w.last
  given : w.read <+: w.selected selects
  position : w.ended = false → w.position = (w.read.getLast?).map Prod.fst

/-- In order, the rows after the position are those not given yet. -/
theorem InOrder.rowsAfter_eq (h : InOrder writers selects w) (hover : w.ended = false) :
    w.read ++ w.rowsAfter selects w.position = w.selected selects := by
  obtain ⟨rest, hrest⟩ := h.given
  have hasc := h.ascending
  rw [← hrest] at hasc ⊢
  obtain ⟨hread, hrestasc, hcross⟩ := List.pairwise_append.1 hasc
  congr 1
  have hfilter : (w.visible.filter fun p => selects p.2 && w.position.all fun n => n < p.1) = rest := by
    have hsplit : (w.visible.filter fun p => selects p.2 && w.position.all fun n => n < p.1) =
        (w.selected selects).filter fun p => w.position.all fun n => n < p.1 := by
      rw [World.selected, List.filter_filter]
      exact List.filter_congr fun p _ => Bool.and_comm _ _
    rw [hsplit, ← hrest, List.filter_append, h.position hover]
    cases hlast : w.read.getLast? with
    | none =>
      rw [List.getLast?_eq_none_iff.1 hlast]
      exact List.filter_eq_self.2 fun _ _ => rfl
    | some z =>
      -- what has been given ends with z, and the rest lies above it
      have hdropped : (w.read.filter fun p => (Option.map Prod.fst (some z)).all fun n => decide (n < p.1)) = [] := by
        refine List.filter_eq_nil_iff.2 fun p hp => ?_
        obtain ⟨before, hbefore⟩ := List.getLast?_eq_some_iff.1 hlast
        rw [hbefore] at hp hread
        have hle : p.1 ≤ z.1 := by
          rcases List.mem_append.1 hp with hp | hp
          · exact ((List.pairwise_append.1 hread).2.2 p hp z (List.mem_singleton_self z)).le
          · rw [List.mem_singleton.1 hp]
        simpa using hle
      have hkept : (rest.filter fun p => (Option.map Prod.fst (some z)).all fun n => decide (n < p.1)) = rest :=
        List.filter_eq_self.2 fun p hp => by simpa using hcross z (List.mem_of_getLast? hlast) p hp
      rw [hdropped, hkept, List.nil_append]
  rw [World.rowsAfter, hfilter]
  exact List.Pairwise.insertionSort_eq (hrestasc.imp le_of_lt)

theorem InOrder.complete (h : InOrder writers selects w) : Complete selects w where
  earlier before page after hpages p hp cs c ds hcommitted hpc p' hp' hselected := by
    have hgiven : before.flatten ++ page <+: w.selected selects := by
      refine List.IsPrefix.trans ⟨after.flatten, ?_⟩ h.given
      rw [World.read, hpages, List.flatten_append, List.flatten_cons, List.append_assoc]
    have hsplit : w.selected selects = (cs.flatten.filter fun p => selects p.2) ++
        (c ++ ds.flatten).filter fun p => selects p.2 := by
      rw [World.selected, World.visible, hcommitted, List.flatten_append, List.flatten_cons, List.filter_append]
    have hmem : p ∈ (c ++ ds.flatten).filter fun p => selects p.2 := by
      have hin := List.mem_filter.1 (hgiven.subset (List.mem_append_right _ hp))
      exact List.mem_filter.2 ⟨List.mem_append_left _ hpc, hin.2⟩
    -- either all that was committed before is on the pages, or the entry itself was
    rcases List.prefix_or_prefix_of_prefix hgiven ⟨_, hsplit.symm⟩ with hle | hle
    · have hnodup := h.ascending.distinct
      rw [hsplit] at hnodup
      exact absurd rfl (List.nodup_append.1 hnodup |>.2.2 p (hle.subset (List.mem_append_right _ hp)) p hmem)
    · exact hle.subset (List.mem_filter.2 ⟨hp', hselected⟩)
  once := h.ascending.distinct.sublist h.given.sublist

theorem le_top {l : List (ℕ × ρ)} {p : ℕ × ρ} (hp : p ∈ l) : p.1 ≤ (l.map Prod.fst).foldr max 0 := by
  induction l with
  | nil => exact absurd hp List.not_mem_nil
  | cons q l ih =>
    rw [List.map_cons, List.foldr_cons]
    rcases List.mem_cons.1 hp with rfl | hp
    · exact le_max_left _ _
    · exact (ih hp).trans (le_max_right _ _)

/-- A number lies above those of the transaction. -/
theorem number_above (hdrawn : writers = .many → ∀ p ∈ own, p.1 ≤ w.last) {p : ℕ × ρ} (hp : p ∈ own) :
    p.1 < w.number writers own := by
  cases writers with
  | one => exact Nat.lt_succ_of_le (le_top (List.mem_append_right _ hp))
  | many => exact Nat.lt_succ_of_le (hdrawn rfl p hp)

/-- What holds of the transactions under way, after one of them has changed. -/
theorem of_update {txns : ℕ → Option (List (ℕ × ρ))} {n : ℕ} {v : Option (List (ℕ × ρ))}
    {P : ℕ → List (ℕ × ρ) → Prop} (hn : ∀ l, v = some l → P n l) (htxns : ∀ m l, m ≠ n → txns m = some l → P m l) :
    ∀ m l, Function.update txns n v m = some l → P m l := by
  intro m l hm
  by_cases hmn : m = n
  · rw [hmn, Function.update_self] at hm
    exact hmn ▸ hn l hm
  · rw [Function.update_of_ne hmn] at hm
    exact htxns m l hmn hm

theorem inOrder_step (h : InOrder writers selects w) (horderly : Orderly selects w e)
    (hstep : Step writers subject selects readable w e w') : InOrder writers selects w' := by
  cases hstep with
  | @begin n hn hone =>
    refine ⟨h.ascending, of_update (fun l hl => ?_) fun m l _ => h.own m l, fun hmany => of_update (fun l hl => ?_) fun m l _ => h.drawn hmany m l,
      h.given, h.position⟩
    · rw [← Option.some.inj hl]
      exact .nil
    · rw [← Option.some.inj hl]
      exact fun p hp => absurd hp List.not_mem_nil
  | @write n r own hn hwait =>
    have habove : ∀ p ∈ own, p.1 < w.number writers own := fun p hp => number_above (fun hmany => h.drawn hmany n own hn) hp
    refine ⟨h.ascending, of_update (fun l hl => ?_) fun m l _ => h.own m l, fun hmany => of_update (fun l hl p hp => ?_) fun m l _ hm p hp => ?_,
      h.given, h.position⟩
    · rw [← Option.some.inj hl]
      refine List.pairwise_append.2 ⟨h.own n own hn, List.pairwise_singleton _ _, fun p hp q hq => ?_⟩
      rw [List.mem_singleton.1 hq]
      exact habove p hp
    · rw [← Option.some.inj hl] at hp
      rcases List.mem_append.1 hp with hp | hp
      · exact (habove p hp).le
      · rw [List.mem_singleton.1 hp]
    · have hle := h.drawn hmany m l hm p hp
      subst hmany
      exact hle.trans (Nat.le_succ _)
  | @commit n own hn =>
    have hselected : World.selected selects { w with
        txns := Function.update w.txns n none, committed := w.committed ++ [own] } =
        w.selected selects ++ own.filter fun p => selects p.2 := by
      rw [World.selected, World.visible, List.flatten_append, List.filter_append, List.flatten_singleton]
      rfl
    refine ⟨?_, of_update (fun l hl => nomatch hl) fun m l _ => h.own m l, fun hmany => of_update (fun l hl => nomatch hl) fun m l _ => h.drawn hmany m l,
      ?_, h.position⟩
    · rw [hselected]
      refine List.pairwise_append.2 ⟨h.ascending, List.Pairwise.sublist List.filter_sublist (h.own n own hn),
        fun p hp q hq => ?_⟩
      obtain ⟨hq, hqs⟩ := List.mem_filter.1 hq
      exact horderly n own rfl hn q hq hqs p hp
    · rw [hselected]
      exact h.given.trans (List.prefix_append _ _)
  | @abort n own hn =>
    exact ⟨h.ascending, of_update (fun l hl => nomatch hl) fun m l _ => h.own m l,
      fun hmany => of_update (fun l hl => nomatch hl) fun m l _ => h.drawn hmany m l, h.given, h.position⟩
  | @page limit hover hlimit hreadable =>
    have hrows := h.rowsAfter_eq hover
    have hread : World.read { w with
        position := if limit < (w.rowsAfter selects w.position).length then
          ((w.rowsAfter selects w.position)[limit - 1]?).map Prod.fst else none
        pages := w.pages ++ [(w.rowsAfter selects w.position).take limit]
        ended := !decide (limit < (w.rowsAfter selects w.position).length) } =
        w.read ++ (w.rowsAfter selects w.position).take limit := by
      rw [World.read, List.flatten_append, List.flatten_singleton]
      rfl
    refine ⟨h.ascending, h.own, h.drawn, ?_, fun hmore => ?_⟩
    · rw [hread]
      refine List.IsPrefix.trans ?_ ⟨[], (List.append_nil _).trans hrows⟩
      exact List.prefix_append_right_inj _ |>.2 (List.take_prefix _ _)
    · have hlt : limit < (w.rowsAfter selects w.position).length := by simpa using hmore
      rw [hread, List.getLast?_append]
      change (if limit < _ then _ else _) = _
      have hlast : limit - 1 < (w.rowsAfter selects w.position).length := by omega
      rw [if_pos hlt, List.getLast?_take, if_neg (by omega), List.getElem?_eq_getElem hlast]
      rfl
  | unreadable => exact h

/-- **Commits in order lose nothing.** -/
theorem complete_of_orderly (h : (log writers subject selects readable).ReachableUnder (Orderly selects) w) :
    Complete selects w := by
  have hinductive : (log writers subject selects readable).Inductive (Orderly selects) (InOrder writers selects) := by
    refine ⟨?_, fun _ _ _ h horderly hstep => inOrder_step h horderly hstep⟩
    rintro _ rfl
    exact ⟨.nil, fun _ _ hl => (nomatch hl), fun _ _ _ hl => (nomatch hl), List.prefix_refl _, fun _ => rfl⟩
  exact (hinductive.reachable h).complete

/-! ## One writer at a time -/

/-- The one transaction under way is numbered above all that is visible. -/
def Alone (w : World ρ) : Prop :=
  ∀ n own, w.txns n = some own → (∀ m, m ≠ n → w.txns m = none) ∧ ∀ p ∈ own, ∀ p' ∈ w.visible, p'.1 < p.1

theorem alone_step (h : Alone w) (hstep : Step .one subject selects readable w e w') : Alone w' := by
  cases hstep with
  | @begin n hn hone =>
    refine of_update (fun l hl => ⟨fun m hm => ?_, fun p hp => ?_⟩) fun m l _ hm => absurd hm (by simp [hone rfl m])
    · rw [← hone rfl m]
      exact Function.update_of_ne hm _ _
    · rw [← Option.some.inj hl] at hp
      exact absurd hp List.not_mem_nil
  | @write n r own hn hwait =>
    obtain ⟨halone, habove⟩ := h n own hn
    refine of_update (fun l hl => ⟨fun m hm => ?_, fun p hp p' hp' => ?_⟩) fun m l hm hl =>
      absurd hl (by simp [halone m hm])
    · exact (Function.update_of_ne hm _ _).trans (halone m hm)
    · rw [← Option.some.inj hl] at hp
      rcases List.mem_append.1 hp with hp | hp
      · exact habove p hp p' hp'
      · rw [List.mem_singleton.1 hp]
        exact Nat.lt_succ_of_le (le_top (List.mem_append_left _ hp'))
  | @commit n own hn => exact of_update (fun l hl => nomatch hl) fun m l hm hl => absurd hl (by simp [(h n own hn).1 m hm])
  | @abort n own hn => exact of_update (fun l hl => nomatch hl) fun m l hm hl => absurd hl (by simp [(h n own hn).1 m hm])
  | page => exact h
  | unreadable => exact h

theorem Alone.orderly (h : Alone w) : Orderly selects w e :=
  fun n own _ hn p hp _ p' hp' => (h n own hn).2 p hp p' (List.mem_of_mem_filter hp')

/-- **One writer at a time loses nothing.** -/
theorem complete_of_one (h : (log .one subject selects readable).Reachable w) : Complete selects w := by
  have hinductive : (log .one subject selects readable).Inductive (fun _ _ => True) Alone := by
    refine ⟨?_, fun _ _ _ h _ hstep => alone_step h hstep⟩
    rintro _ rfl n own hn
    exact nomatch hn
  exact complete_of_orderly (System.Reachable.under hinductive (fun _ _ halone => halone.orderly) h)

/-! ## One subject -/

/-- The entry has been written by a transaction under way. -/
def World.Holds (w : World ρ) (n : ℕ) (p : ℕ × ρ) : Prop := ∃ own, w.txns n = some own ∧ p ∈ own

theorem holds_update {n m : ℕ} {v : Option (List (ℕ × ρ))} {p : ℕ × ρ}
    (h : ∃ own, Function.update w.txns n v m = some own ∧ p ∈ own) :
    m = n ∧ (∃ own, v = some own ∧ p ∈ own) ∨ m ≠ n ∧ w.Holds m p := by
  obtain ⟨l, hl, hp⟩ := h
  by_cases hm : m = n
  · rw [hm, Function.update_self] at hl
    exact .inl ⟨hm, l, hl, hp⟩
  · rw [Function.update_of_ne hm] at hl
    exact .inr ⟨hm, l, hl, hp⟩

/-- Each transaction under way is numbered above what is visible of its
subjects, and no two have one subject. -/
structure Apart (subject : ρ → ι) (w : World ρ) : Prop where
  apart : ∀ n m p p', n ≠ m → w.Holds n p → w.Holds m p' → subject p.2 ≠ subject p'.2
  drawn : ∀ n p, w.Holds n p → p.1 ≤ w.last
  shown : ∀ p ∈ w.visible, p.1 ≤ w.last
  above : ∀ n p, w.Holds n p → ∀ p' ∈ w.visible, subject p'.2 = subject p.2 → p'.1 < p.1

/-- With nothing new under way or visible. -/
theorem Apart.mono (h : Apart subject w) (hholds : ∀ n p, w'.Holds n p → w.Holds n p) (hlast : w'.last = w.last)
    (hcommitted : w'.committed = w.committed) : Apart subject w' where
  apart n m p p' hne hp hp' := h.apart n m p p' hne (hholds n p hp) (hholds m p' hp')
  drawn n p hp := hlast ▸ h.drawn n p (hholds n p hp)
  shown p hp := by
    rw [World.visible, hcommitted] at hp
    exact hlast ▸ h.shown p hp
  above n p hp p' hp' := by
    rw [World.visible, hcommitted] at hp'
    exact h.above n p (hholds n p hp) p' hp'

theorem apart_step (h : Apart subject w) (hstep : Step .many subject selects readable w e w') : Apart subject w' := by
  cases hstep with
  | @begin n hn hone =>
    refine h.mono (fun m p hp => ?_) rfl rfl
    rcases holds_update hp with ⟨-, l, hl, hp⟩ | ⟨-, hp⟩
    · rw [← Option.some.inj hl] at hp
      exact absurd hp List.not_mem_nil
    · exact hp
  | @write n r own hn hwait =>
    have hholds : ∀ m p, World.Holds { w with
        last := w.number .many own, txns := Function.update w.txns n (some (own ++ [(w.number .many own, r)])) } m p →
        w.Holds m p ∨ m = n ∧ p = (w.last + 1, r) := by
      intro m p hp
      rcases holds_update hp with ⟨rfl, l, hl, hp⟩ | ⟨-, hp⟩
      · rw [← Option.some.inj hl] at hp
        exact (List.mem_append.1 hp).imp (fun hp => ⟨own, hn, hp⟩) fun hp => ⟨rfl, List.mem_singleton.1 hp⟩
      · exact .inl hp
    have hothers : ∀ m p, m ≠ n → w.Holds m p → subject p.2 ≠ subject r := by
      rintro m p hm ⟨l, hl, hp⟩
      exact hwait m l hm hl p hp
    refine ⟨fun i j p p' hij hp hp' => ?_, fun m p hp => ?_, fun p hp => (h.shown p hp).trans (Nat.le_succ _),
      fun m p hp p' hp' hsame => ?_⟩
    · rcases hholds i p hp with hi | ⟨hi, rfl⟩
      · rcases hholds j p' hp' with hj | ⟨hj, rfl⟩
        · exact h.apart i j p p' hij hi hj
        · exact hothers i p (hj ▸ hij) hi
      · rcases hholds j p' hp' with hj | ⟨hj, -⟩
        · exact (hothers j p' (hi ▸ hij.symm) hj).symm
        · exact absurd (hi.trans hj.symm) hij
    · rcases hholds m p hp with hp | ⟨-, rfl⟩
      · exact (h.drawn m p hp).trans (Nat.le_succ _)
      · exact le_rfl
    · rcases hholds m p hp with hp | ⟨-, rfl⟩
      · exact h.above m p hp p' hp' hsame
      · exact Nat.lt_succ_of_le (h.shown p' hp')
  | @commit n own hn =>
    have hholds : ∀ m p, World.Holds { w with
        txns := Function.update w.txns n none, committed := w.committed ++ [own] } m p → m ≠ n ∧ w.Holds m p := by
      intro m p hp
      rcases holds_update hp with ⟨-, l, hl, -⟩ | hp
      · exact nomatch hl
      · exact hp
    have hvisible : ∀ p, p ∈ World.visible { w with
        txns := Function.update w.txns n none, committed := w.committed ++ [own] } → p ∈ w.visible ∨ w.Holds n p := by
      intro p hp
      rw [World.visible, List.flatten_append, List.flatten_singleton] at hp
      exact (List.mem_append.1 hp).imp_right fun hp => ⟨own, hn, hp⟩
    refine ⟨fun i j p p' hij hp hp' => h.apart i j p p' hij (hholds i p hp).2 (hholds j p' hp').2,
      fun m p hp => h.drawn m p (hholds m p hp).2, fun p hp => ?_, fun m p hp p' hp' hsame => ?_⟩
    · exact (hvisible p hp).elim (h.shown p) (h.drawn n p)
    · obtain ⟨hmn, hp⟩ := hholds m p hp
      rcases hvisible p' hp' with hp' | hp'
      · exact h.above m p hp p' hp' hsame
      · exact absurd hsame (h.apart n m p' p (Ne.symm hmn) hp' hp)
  | @abort n own hn =>
    refine h.mono (fun m p hp => ?_) rfl rfl
    rcases holds_update hp with ⟨-, l, hl, -⟩ | ⟨-, hp⟩
    · exact nomatch hl
    · exact hp
  | page => exact ⟨h.apart, h.drawn, h.shown, h.above⟩
  | unreadable => exact h

/-- **A selection of one subject loses nothing.** -/
theorem complete_of_subject (hsubject : ∀ r r', selects r = true → selects r' = true → subject r = subject r')
    (h : (log .many subject selects readable).Reachable w) : Complete selects w := by
  have hinductive : (log .many subject selects readable).Inductive (fun _ _ => True) (Apart subject) := by
    refine ⟨?_, fun _ _ _ h _ hstep => apart_step h hstep⟩
    rintro _ rfl
    exact ⟨fun _ _ _ _ _ ⟨_, hl, _⟩ => (nomatch hl), fun _ _ ⟨_, hl, _⟩ => (nomatch hl),
      fun _ hp => absurd hp List.not_mem_nil, fun _ _ ⟨_, hl, _⟩ => (nomatch hl)⟩
  refine complete_of_orderly (System.Reachable.under hinductive (fun w e hapart n own _ hn p hp hselected p' hp' => ?_) h)
  obtain ⟨hvisible, hselected'⟩ := List.mem_filter.1 hp'
  exact hapart.above n p ⟨own, hn, hp⟩ p' hvisible (hsubject _ _ hselected' hselected)

/-! ## Many writers lose -/

/-- A transaction of one entry, from its beginning to the commit. -/
theorem write_through {n : ℕ} {r : ρ} (h : (log .many subject selects readable).Reachable w) (hn : w.txns n = none)
    (hwait : ∀ m l, m ≠ n → w.txns m = some l → ∀ p ∈ l, subject p.2 ≠ subject r) :
    (log .many subject selects readable).Reachable
      { w with last := w.last + 1, committed := w.committed ++ [[(w.last + 1, r)]] } := by
  have hbegun := h.next (.begin hn fun hone => nomatch hone)
  have hself : Function.update w.txns n (some []) n = some [] := Function.update_self ..
  have hwritten := hbegun.next (.write (r := r) hself fun m l hm hl => hwait m l hm
    ((Function.update_of_ne hm _ _).symm.trans hl))
  have hcommitted := hwritten.next (.commit (n := n) (Function.update_self ..))
  have htxns : Function.update (Function.update (Function.update w.txns n (some [])) n
      (some ([] ++ [(w.last + 1, r)]))) n none = w.txns := by
    rw [Function.update_idem, Function.update_idem, ← hn, Function.update_eq_self]
  exact htxns ▸ hcommitted

/-- A page, of rows that are known. -/
theorem read_page {limit : ℕ} {rows : List (ℕ × ρ)} (h : (log writers subject selects readable).Reachable w)
    (hover : w.ended = false) (hlimit : 1 ≤ limit) (hrows : w.rowsAfter selects w.position = rows)
    (hreadable : ∀ p ∈ rows.take limit, readable p.2 = true) : (log writers subject selects readable).Reachable
      { w with
        position := if limit < rows.length then (rows[limit - 1]?).map Prod.fst else none
        pages := w.pages ++ [rows.take limit]
        ended := !decide (limit < rows.length) } := by
  subst hrows
  exact h.next (.page hover hlimit hreadable)

/-- **An entry whose transaction commits late is never given**: it was
numbered before two others, of which the reader has been given one when it
is committed, and the one that is committed after it is given without it. -/
theorem many_lose {r₀ r₁ r₂ r₃ : ρ} (hselects : ∀ r ∈ [r₀, r₁, r₂, r₃], selects r = true)
    (hreadable : ∀ r ∈ [r₀, r₁, r₂, r₃], readable r = true) (hsubject : subject r₀ ≠ subject r₁ ∧ subject r₀ ≠ subject r₂) :
    ∃ w, (log .many subject selects readable).Reachable w ∧ ¬ Complete selects w := by
  have hs : ∀ r ∈ [r₁, r₂, r₃], selects r = true := fun r hr => hselects r (List.mem_cons_of_mem _ hr)
  have hr : ∀ r ∈ [r₁, r₂, r₃], readable r = true := fun r hr => hreadable r (List.mem_cons_of_mem _ hr)
  simp only [List.mem_cons, forall_eq_or_imp, List.not_mem_nil, false_implies, implies_true, and_true] at hs hr
  -- the first entry is written, and its transaction stays open
  let txns : ℕ → Option (List (ℕ × ρ)) := Function.update (fun _ => none) 0 (some [(1, r₀)])
  have hopen : ∀ {m l}, txns m = some l → l = [(1, r₀)] := fun {m l} hl => by
    by_cases hm : m = 0
    · rw [hm] at hl
      exact (Option.some.inj hl).symm
    · exact nomatch (Function.update_of_ne hm _ _).symm.trans hl
  have h₁ : (log .many subject selects readable).Reachable ⟨1, txns, [], none, [], false⟩ := by
    have hbegun : (log .many subject selects readable).Reachable
        ⟨0, Function.update (fun _ => none) 0 (some []), [], none, [], false⟩ :=
      System.Reachable.next (.init rfl) (.begin rfl fun hone => nomatch hone)
    have hwritten := hbegun.next (.write (n := 0) (r := r₀) rfl fun m l hm hl => by
      have hnone : Function.update (fun _ : ℕ => (none : Option (List (ℕ × ρ)))) 0 (some []) m = none :=
        Function.update_of_ne hm _ _
      exact nomatch hnone.symm.trans hl)
    have htxns : Function.update (Function.update (fun _ : ℕ => none) 0 (some [])) 0 (some [(1, r₀)]) = txns :=
      Function.update_idem ..
    exact htxns ▸ hwritten
  -- two others commit, and the reader is given the first of them
  have h₂ := write_through (n := 1) (r := r₁) h₁ rfl fun m l _ hl p hp => by
    rw [hopen hl] at hp
    rw [List.mem_singleton.1 hp]
    exact hsubject.1
  have h₃ := write_through (n := 2) (r := r₂) h₂ rfl fun m l _ hl p hp => by
    rw [hopen hl] at hp
    rw [List.mem_singleton.1 hp]
    exact hsubject.2
  have hrows₃ : World.rowsAfter selects ⟨3, txns, [[(2, r₁)], [(3, r₂)]], none, [], false⟩ none = [(2, r₁), (3, r₂)] := by
    simp [World.rowsAfter, World.visible, hs]
  have h₄ := @read_page _ _ _ _ _ _ _ 1 _ h₃ rfl le_rfl hrows₃ (by simp [hr])
  -- the first commits, and after it a third: the reader is given what remains
  have hclosed : Function.update txns 0 none = fun _ => none :=
    (Function.update_idem ..).trans (Function.update_eq_self 0 fun _ => none)
  have h₅ := write_through (n := 3) (r := r₃) (h₄.next (.commit (n := 0) rfl)) (congrFun hclosed 3) fun m l _ hl => by
    have hnone : none = some l := (congrFun hclosed m).symm.trans hl
    exact nomatch hnone
  have hrows₅ : World.rowsAfter selects ⟨4, Function.update txns 0 none, [[(2, r₁)], [(3, r₂)], [(1, r₀)], [(4, r₃)]],
      some 2, [[(2, r₁)]], false⟩ (some 2) = [(3, r₂), (4, r₃)] := by
    simp [World.rowsAfter, World.visible, hs, hselects r₀ List.mem_cons_self]
  have h₆ := @read_page _ _ _ _ _ _ _ 2 _ h₅ rfl (by omega) hrows₅ (by simp [hr])
  refine ⟨_, h₆, fun hcomplete => ?_⟩
  have hlost := hcomplete.earlier [[(2, r₁)]] [(3, r₂), (4, r₃)] [] rfl (4, r₃) (by simp)
    [[(2, r₁)], [(3, r₂)], [(1, r₀)]] [(4, r₃)] [] rfl (by simp) (1, r₀) (by simp) (hselects r₀ List.mem_cons_self)
  simp at hlost

end NumberedLog

end Aipcs

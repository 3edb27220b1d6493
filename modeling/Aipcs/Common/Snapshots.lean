import Aipcs.Common.Program

/-!
# Snapshots — programs that read a store while others change it

A program whose calls a state answers, run while other states are
committed. A transaction may see one snapshot throughout, or at each call
what is committed then. `Reading.atomic` says when the program returns
what it would return from one of the states: of a snapshot always, and
else where no state is committed between two calls that it may answer
otherwise.
-/

namespace Aipcs

/-- What a transaction sees: one snapshot, or what is committed at each statement. -/
inductive Isolation where
  | snapshot
  | statement
deriving DecidableEq

namespace Program

variable {S E : Type} {R : E → Type} {α β : Type} (answer : S → (e : E) → R e)

/-- What the program returns where one state answers every call. -/
def evalAt (s : S) : Program R α → α
  | .ret a => a
  | .call e next => evalAt s (next (answer s e))

/-- After the first call that may be answered otherwise the program returns. -/
def Once (varies : E → Bool) : Program R α → Prop
  | .ret _ => True
  | .call e next => if varies e then ∀ r, ∃ a, next r = .ret a else ∀ r, Once varies (next r)

theorem Once.map {varies : E → Bool} {p : Program R α} (f : α → β) (h : Once varies p) :
    Once varies (p >>= fun a => .ret (f a)) := by
  induction p with
  | ret a => trivial
  | call e next ih =>
    rw [Once] at h
    rw [call_bind, Once]
    by_cases he : varies e = true
    · rw [if_pos he] at h ⊢
      intro r
      obtain ⟨a, ha⟩ := h r
      exact ⟨f a, by rw [ha, ret_bind]⟩
    · rw [if_neg he] at h ⊢
      exact fun r => ih r (h r)

variable {answer}

theorem evalAt_bind (s : S) (p : Program R α) (f : α → Program R β) :
    evalAt answer s (p >>= f) = evalAt answer s (f (evalAt answer s p)) := by
  induction p with
  | ret a => rfl
  | call e next ih => exact ih _

end Program

open Program

/-- A program under way: the store, what has been committed since the
program began, the first with it, its snapshot, and whether a call that
others may be answered otherwise has been answered. A program that has
failed has no rest. -/
structure Reading (S : Type) {E : Type} (R : E → Type) (α : Type) where
  store : S
  committed : List S
  snapshot : S
  answered : Bool
  rest : Option (Program R α)

namespace Reading

variable {S E : Type} {R : E → Type} {α : Type}

inductive Event (E : Type) where
  | commits
  | answers (e : E)
  | fails
deriving DecidableEq

/-- The state that the next call is answered by. -/
def view (isolation : Isolation) (g : Reading S R α) : S :=
  match isolation with
  | .snapshot => g.snapshot
  | .statement => g.store

/-- Another call is to come. -/
def Ahead (g : Reading S R α) : Prop := ∃ e next, g.rest = some (.call e next)

/-- One step. -/
inductive Step (answer : S → (e : E) → R e) (varies : E → Bool) (isolation : Isolation) (changes : S → S → Prop) :
    Reading S R α → Event E → Reading S R α → Prop
  | commit {g : Reading S R α} {s : S} : changes g.store s →
      Step answer varies isolation changes g .commits { g with store := s, committed := g.committed ++ [s] }
  | answer {g : Reading S R α} {e : E} {next : R e → Program R α} : g.rest = some (.call e next) →
      Step answer varies isolation changes g (.answers e)
        { g with answered := g.answered || varies e, rest := some (next (answer (g.view isolation) e)) }
  | fail {g : Reading S R α} : g.Ahead → Step answer varies isolation changes g .fails { g with rest := none }

/-- The program begins. -/
def start (s : S) (p : Program R α) : Reading S R α := ⟨s, [s], s, false, some p⟩

/-- A program that reads a store, from any state of it. -/
def reading (answer : S → (e : E) → R e) (varies : E → Bool) (isolation : Isolation) (changes : S → S → Prop)
    (p : Program R α) : System (Reading S R α) (Event E) where
  init g := ∃ s, g = start s p
  step := Step answer varies isolation changes

/-- Nothing is committed between two calls of a transaction without a snapshot. -/
def Calm (isolation : Isolation) (g : Reading S R α) (l : Event E) : Prop :=
  l = .commits → isolation = .snapshot ∨ g.answered = false ∨ ¬ g.Ahead

section runs

variable {answer : S → (e : E) → R e} {varies : E → Bool} {isolation : Isolation} {changes : S → S → Prop}
  {p q : Program R α} {g : Reading S R α} {s s' : S} {a : α}

/-- The calls made so far are answered alike whatever is committed. -/
inductive Passed (answer : S → (e : E) → R e) (varies : E → Bool) (s : S) (p : Program R α) : Program R α → Prop
  | none : Passed answer varies s p p
  | call {e : E} {next : R e → Program R α} : Passed answer varies s p (.call e next) → varies e = false →
      Passed answer varies s p (next (answer s e))

theorem Passed.evalAt (h : Passed answer varies s p q) : evalAt answer s q = evalAt answer s p := by
  induction h with
  | none => rfl
  | call _ _ ih => exact ih

theorem Passed.congr (h : Passed answer varies s p q)
    (hfixed : ∀ e, varies e = false → answer s' e = answer s e) : Passed answer varies s' p q := by
  induction h with
  | none => exact .none
  | call _ he ih =>
    rw [← hfixed _ he]
    exact ih.call he

/-- **What every calm run keeps**: some state committed gives what the
program has come to, and it is the one that answers next. -/
structure Faithful (answer : S → (e : E) → R e) (varies : E → Bool) (isolation : Isolation) (p : Program R α)
    (g : Reading S R α) : Prop where
  store : g.store ∈ g.committed
  snapshot : g.snapshot ∈ g.committed
  passed : ∀ q, g.rest = some q → isolation = .statement → g.answered = false → Passed answer varies g.store p q
  agrees : ∀ q, g.rest = some q → ∃ s ∈ g.committed, evalAt answer s q = evalAt answer s p ∧
    (isolation = .snapshot → s = g.snapshot) ∧ (isolation = .statement → g.Ahead → s = g.store)

theorem faithful_start : Faithful answer varies isolation p (start s p) where
  store := List.mem_singleton_self s
  snapshot := List.mem_singleton_self s
  passed q hq _ _ := by
    obtain rfl := Option.some.inj hq
    exact .none
  agrees q hq := by
    obtain rfl := Option.some.inj hq
    exact ⟨s, List.mem_singleton_self s, rfl, fun _ => rfl, fun _ _ => rfl⟩

theorem faithful_step (hfixed : ∀ s s' e, changes s s' → varies e = false → answer s' e = answer s e)
    {g' : Reading S R α} {l : Event E} (h : Faithful answer varies isolation p g) (hcalm : Calm isolation g l)
    (hstep : Step answer varies isolation changes g l g') : Faithful answer varies isolation p g' := by
  cases hstep with
  | @commit s hchanges =>
    refine ⟨by simp, List.mem_append_left _ h.snapshot, fun q hq hmode hanswered => ?_, fun q hq => ?_⟩
    · exact (h.passed q hq hmode hanswered).congr fun e he => hfixed _ _ _ hchanges he
    · obtain ⟨s₀, hs₀, heval, hsnapshot, hstore⟩ := h.agrees q hq
      rcases hcalm rfl with hmode | hanswered | hover
      · exact ⟨s₀, List.mem_append_left _ hs₀, heval, hsnapshot, fun hmode' =>
          absurd (hmode.symm.trans hmode') (by simp)⟩
      · cases isolation with
        | snapshot => exact ⟨s₀, List.mem_append_left _ hs₀, heval, hsnapshot, fun hmode => absurd hmode (by simp)⟩
        | statement =>
          have hpassed := (h.passed q hq rfl hanswered).congr fun e he => hfixed _ _ _ hchanges he
          exact ⟨s, by simp, hpassed.evalAt, fun hmode => absurd hmode (by simp), fun _ _ => rfl⟩
      · exact ⟨s₀, List.mem_append_left _ hs₀, heval, hsnapshot, fun _ hahead => absurd hahead hover⟩
  | @answer e next hrest =>
    obtain ⟨s₀, hs₀, heval, hsnapshot, hstore⟩ := h.agrees _ hrest
    -- the state that agrees is the one that answers
    have hview : g.view isolation = s₀ := by
      cases isolation with
      | snapshot => exact (hsnapshot rfl).symm
      | statement => exact (hstore rfl ⟨e, next, hrest⟩).symm
    refine ⟨h.store, h.snapshot, fun q hq hmode hanswered => ?_, fun q hq => ?_⟩
    · obtain rfl := Option.some.inj hq
      obtain ⟨hanswered, he⟩ := Bool.or_eq_false_iff.1 hanswered
      have hpassed := (h.passed _ hrest hmode hanswered).call he
      subst hmode
      exact hpassed
    · obtain rfl := Option.some.inj hq
      refine ⟨s₀, hs₀, ?_, hsnapshot, fun hmode _ => hstore hmode ⟨e, next, hrest⟩⟩
      rw [hview]
      exact heval
  | fail => exact ⟨h.store, h.snapshot, fun q hq => absurd hq (by simp), fun q hq => absurd hq (by simp)⟩

/-- **Atomic reads.** What a program returns in a calm run is what one of
the states committed meanwhile gives. -/
theorem atomic (hfixed : ∀ s s' e, changes s s' → varies e = false → answer s' e = answer s e)
    (hg : (reading answer varies isolation changes p).ReachableUnder (Calm isolation) g)
    (hret : g.rest = some (.ret a)) : ∃ s ∈ g.committed, a = evalAt answer s p := by
  have hfaithful : Faithful answer varies isolation p g := by
    clear hret
    induction hg with
    | init h =>
      obtain ⟨s, rfl⟩ := h
      exact faithful_start
    | step _ hcalm hstep ih => exact faithful_step hfixed ih hcalm hstep
  obtain ⟨s, hs, heval, -⟩ := hfaithful.agrees _ hret
  exact ⟨s, hs, heval⟩

/-- **A program that asks once is calm in every run.** -/
theorem calm_of_once (hp : Once varies p) (hg : (reading answer varies isolation changes p).Reachable g) :
    (reading answer varies isolation changes p).ReachableUnder (Calm isolation) g ∧
      ∀ q, g.rest = some q → if g.answered then ∃ a, q = .ret a else Once varies q := by
  induction hg with
  | init h =>
    obtain ⟨s, rfl⟩ := h
    refine ⟨.init ⟨s, rfl⟩, fun q hq => ?_⟩
    obtain rfl := Option.some.inj hq
    exact hp
  | @step g g' l _ _ hstep ih =>
    obtain ⟨hcalm, honce⟩ := ih
    have hok : Calm isolation g l := fun _ => by
      by_cases hanswered : g.answered = true
      · refine .inr (.inr ?_)
        rintro ⟨e, next, hrest⟩
        have hret := honce _ hrest
        rw [if_pos hanswered] at hret
        obtain ⟨a, ha⟩ := hret
        cases ha
      · exact .inr (.inl (by simpa using hanswered))
    refine ⟨hcalm.step hok hstep, fun q hq => ?_⟩
    cases hstep with
    | commit => exact honce q hq
    | @answer e next hrest =>
      obtain rfl := Option.some.inj hq
      have hnext := honce _ hrest
      by_cases hanswered : g.answered = true
      · rw [if_pos hanswered] at hnext
        obtain ⟨a, ha⟩ := hnext
        cases ha
      · rw [if_neg hanswered, Once] at hnext
        by_cases he : varies e = true
        · rw [if_pos he] at hnext
          rw [if_pos (by simp [he])]
          exact hnext _
        · rw [if_neg he] at hnext
          rw [if_neg (by simp [he, hanswered])]
          exact hnext _
    | fail => exact absurd hq (by simp)

end runs

/-! ## Schedules -/

section schedules

variable (answer : S → (e : E) → R e) (varies : E → Bool) (isolation : Isolation)

/-- The reading after a turn: of another's commit, or else of its own call. -/
def turn (g : Reading S R α) : Option S → Reading S R α
  | some s => { g with store := s, committed := g.committed ++ [s] }
  | none =>
    match g.rest with
    | some (.call e next) =>
      { g with answered := g.answered || varies e, rest := some (next (answer (g.view isolation) e)) }
    | _ => g

/-- The commits of a schedule are changes. -/
def Feasible (changes : S → S → Prop) : S → List (Option S) → Prop
  | _, [] => True
  | s, some s' :: rest => changes s s' ∧ Feasible changes s' rest
  | s, none :: rest => Feasible changes s rest

variable {answer varies isolation} {changes : S → S → Prop} {p : Program R α} {g : Reading S R α}

/-- A schedule whose commits are changes is a run. -/
theorem reachable_turns {turns : List (Option S)} (hg : (reading answer varies isolation changes p).Reachable g)
    (hturns : Feasible changes g.store turns) :
    (reading answer varies isolation changes p).Reachable (turns.foldl (turn answer varies isolation) g) := by
  induction turns generalizing g with
  | nil => exact hg
  | cons t rest ih =>
    rw [List.foldl_cons]
    cases t with
    | some s => exact ih (hg.next (.commit hturns.1)) hturns.2
    | none =>
      have hstore : (turn answer varies isolation g none).store = g.store := by
        unfold turn
        dsimp only
        split <;> rfl
      refine ih ?_ (by rw [hstore]; exact hturns)
      unfold turn
      dsimp only
      split
      · next e next hrest => exact hg.next (.answer hrest)
      · exact hg

end schedules

end Reading

end Aipcs

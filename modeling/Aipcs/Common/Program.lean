import Aipcs.Common.System
import Mathlib.Algebra.Ring.Nat
import Mathlib.Logic.Function.Basic

/-!
# Programs — sequential code over calls that may answer anything

A `Program` returns, or makes a call and goes on with the reply, whatever
it is. What a program does under every sequence of replies is stated with
a `Monitor`: a state that each reply moves, and the calls it permits.
`Ensures` is the rule-based form, closed under `bind`; `Ensures.trace`
reads it off the traces. A `budget` is a monitor that calls are paid from.
Programs over one shared world are interleaved by `interleaving`, whose
invariants `Interleaved.invariant` reduces to one call at a time.
-/

namespace Aipcs

/-- A program over the calls `E`, a call `e` being answered in `R e`. -/
inductive Program {E : Type} (R : E → Type) (α : Type) : Type
  | ret (value : α)
  | call (e : E) (next : R e → Program R α)

namespace Program

variable {E : Type} {R : E → Type} {α β : Type}

/-- Sequencing. -/
protected def bind : Program R α → (α → Program R β) → Program R β
  | .ret a, f => f a
  | .call e next, f => .call e fun r => (next r).bind f

instance : Monad (Program R) where
  pure := .ret
  bind := Program.bind

instance : LawfulMonad (Program R) :=
  .mk' _ (fun p => by
      induction p with
      | ret a => rfl
      | call e next ih => exact congrArg (Program.call e) (funext ih))
    (fun _ _ => rfl)
    fun p f g => by
      induction p with
      | ret a => rfl
      | call e next ih => exact congrArg (Program.call e) (funext ih)

/-- A single call. -/
def perform (e : E) : Program R (R e) := .call e .ret

@[simp] theorem pure_eq (a : α) : (pure a : Program R α) = .ret a := rfl

@[simp] theorem ret_bind (a : α) (f : α → Program R β) : (Program.ret a >>= f) = f a := rfl

@[simp] theorem call_bind (e : E) (next : R e → Program R α) (f : α → Program R β) :
    (Program.call e next >>= f) = .call e fun r => next r >>= f := rfl

@[simp] theorem perform_bind (e : E) (f : R e → Program R β) :
    (perform e >>= f) = .call e f := rfl

/-! ## Traces -/

/-- A call with its reply. -/
abbrev Reply (R : E → Type) : Type := Σ e, R e

/-- The calls a program makes, in order, up to where it is left or returns. -/
inductive Trace : Program R α → List (Reply R) → Option α → Prop
  | stopped (p : Program R α) : Trace p [] none
  | returned (a : α) : Trace (.ret a) [] (some a)
  | replied {e : E} {next : R e → Program R α} {r : R e} {t : List (Reply R)} {out : Option α} :
      Trace (next r) t out → Trace (.call e next) (⟨e, r⟩ :: t) out

/-! ## Monitors -/

/-- A state moved by the replies, and the calls it permits. -/
structure Monitor (R : E → Type) (σ : Type) where
  permits : σ → E → Prop
  next : σ → (e : E) → R e → σ

variable {σ : Type} (M : Monitor R σ)

/-- The monitor's state after a trace. -/
def Monitor.after (s : σ) : List (Reply R) → σ
  | [] => s
  | ⟨e, r⟩ :: t => Monitor.after (M.next s e r) t

theorem Monitor.after_append (s : σ) (t u : List (Reply R)) :
    M.after s (t ++ u) = M.after (M.after s t) u := by
  induction t generalizing s with
  | nil => rfl
  | cons x t ih => exact ih _

/-- From the monitor's state on, every call is permitted, and the program
returns only where `post` holds. -/
def Ensures (post : σ → α → Prop) : σ → Program R α → Prop
  | s, .ret a => post s a
  | s, .call e next => M.permits s e ∧ ∀ r, Ensures post (M.next s e r) (next r)

variable {M}

theorem Ensures.mono {post post' : σ → α → Prop} (h : ∀ s a, post s a → post' s a) {s : σ}
    {p : Program R α} (hp : Ensures M post s p) : Ensures M post' s p := by
  induction p generalizing s with
  | ret a => exact h _ _ hp
  | call e next ih => exact ⟨hp.1, fun r => ih r (hp.2 r)⟩

/-- **The rule of sequencing.** -/
theorem Ensures.bind {post : σ → α → Prop} {post' : σ → β → Prop} {s : σ} {p : Program R α}
    {f : α → Program R β} (hp : Ensures M post s p)
    (hf : ∀ s a, post s a → Ensures M post' s (f a)) : Ensures M post' s (p >>= f) := by
  induction p generalizing s with
  | ret a => exact hf _ _ hp
  | call e next ih => exact ⟨hp.1, fun r => ih r (hp.2 r)⟩

/-- The rule of one call. -/
theorem Ensures.perform {post : σ → β → Prop} {s : σ} {e : E} {f : R e → Program R β}
    (he : M.permits s e) (hf : ∀ r, Ensures M post (M.next s e r) (f r)) :
    Ensures M post s (Program.perform e >>= f) := ⟨he, hf⟩

/-- Every call of a trace is permitted by the monitor's state before it. -/
theorem Ensures.trace {post : σ → α → Prop} {s : σ} {p : Program R α} (hp : Ensures M post s p)
    {t : List (Reply R)} {out : Option α} (ht : Trace p t out) {before after : List (Reply R)}
    {x : Reply R} (hx : t = before ++ x :: after) : M.permits (M.after s before) x.1 := by
  induction ht generalizing s before with
  | stopped p => simp at hx
  | returned a => simp at hx
  | @replied e next r t out _ ih =>
    cases before with
    | nil =>
      obtain ⟨rfl, -⟩ := List.cons.inj hx
      exact hp.1
    | cons y before =>
      rw [List.cons_append, List.cons.injEq] at hx
      obtain ⟨rfl, hx⟩ := hx
      exact ih (hp.2 r) hx

/-- A program that returns does so where the postcondition holds. -/
theorem Ensures.returned {post : σ → α → Prop} {s : σ} {p : Program R α}
    (hp : Ensures M post s p) {t : List (Reply R)} {a : α} (ht : Trace p t (some a)) :
    post (M.after s t) a := by
  generalize hout : some a = out at ht
  induction ht generalizing s with
  | stopped p => exact absurd hout (by simp)
  | returned b =>
    obtain rfl := Option.some.inj hout
    exact hp
  | replied _ ih => exact ih (hp.2 _) hout

/-- Two postconditions under one monitor. -/
theorem Ensures.and {post post' : σ → α → Prop} {s : σ} {p : Program R α} (hp : Ensures M post s p)
    (hq : Ensures M post' s p) : Ensures M (fun s a => post s a ∧ post' s a) s p := by
  induction p generalizing s with
  | ret a => exact ⟨hp, hq⟩
  | call e next ih => exact ⟨hp.1, fun r => ih r (hp.2 r) (hq.2 r)⟩

/-- What is ensured under one monitor holds under another that moves alike. -/
theorem Ensures.transfer {M' : Monitor R σ} (hnext : M'.next = M.next) {post post' : σ → α → Prop}
    {s : σ} {p : Program R α} (hp : Ensures M post s p) (hq : Ensures M' post' s p) :
    Ensures M' (fun s a => post s a ∧ post' s a) s p := by
  induction p generalizing s with
  | ret a => exact ⟨hp, hq⟩
  | call e next ih =>
    refine ⟨hq.1, fun r => ih r ?_ (hq.2 r)⟩
    rw [hnext]
    exact hp.2 r

/-- Two monitors side by side. -/
def Monitor.prod {τ : Type} (M : Monitor R σ) (N : Monitor R τ) : Monitor R (σ × τ) where
  permits s e := M.permits s.1 e ∧ N.permits s.2 e
  next s e r := (M.next s.1 e r, N.next s.2 e r)

theorem Ensures.prod {τ : Type} {N : Monitor R τ} {post : σ → α → Prop} {post' : τ → α → Prop}
    {s : σ} {t : τ} {p : Program R α} (hp : Ensures M post s p) (hq : Ensures N post' t p) :
    Ensures (M.prod N) (fun u a => post u.1 a ∧ post' u.2 a) (s, t) p := by
  induction p generalizing s t with
  | ret a => exact ⟨hp, hq⟩
  | call e next ih => exact ⟨⟨hp.1, hq.1⟩, fun r => ih r (hp.2 r) (hq.2 r)⟩

/-! ## Calls of one kind -/

/-- Every call the program may make is of the kind given. -/
def Makes (Q : E → Prop) : Program R α → Prop
  | .ret _ => True
  | .call e next => Q e ∧ ∀ r, Makes Q (next r)

theorem Makes.bind {Q : E → Prop} {p : Program R α} {f : α → Program R β} (hp : Makes Q p)
    (hf : ∀ a, Makes Q (f a)) : Makes Q (p >>= f) := by
  induction p with
  | ret a => exact hf a
  | call e next ih => exact ⟨hp.1, fun r => ih r (hp.2 r)⟩

theorem Makes.perform {Q : E → Prop} {e : E} {f : R e → Program R β} (he : Q e)
    (hf : ∀ r, Makes Q (f r)) : Makes Q (Program.perform e >>= f) := ⟨he, hf⟩

theorem Makes.mono {Q Q' : E → Prop} (h : ∀ e, Q e → Q' e) {p : Program R α} (hp : Makes Q p) :
    Makes Q' p := by
  induction p with
  | ret a => exact trivial
  | call e next ih => exact ⟨h e hp.1, fun r => ih r (hp.2 r)⟩

/-- **Calls of one kind under a monitor**: what they keep of its state holds
throughout, and at the end. -/
theorem Makes.ensures {Q : E → Prop} {J : σ → Prop}
    (hpermits : ∀ s e, J s → Q e → M.permits s e) (hnext : ∀ s e r, J s → Q e → J (M.next s e r))
    {p : Program R α} (hp : Makes Q p) {s : σ} (hs : J s) : Ensures M (fun s _ => J s) s p := by
  induction p generalizing s with
  | ret a => exact hs
  | call e next ih => exact ⟨hpermits s e hs hp.1, fun r => ih r (hp.2 r) (hnext s e r hs hp.1)⟩

/-! ## What is returned -/

/-- Whatever it is answered, the program returns what is as given. -/
def Returns (post : α → Prop) : Program R α → Prop
  | .ret a => post a
  | .call _ next => ∀ r, Returns post (next r)

theorem returns_true (p : Program R α) : Returns (fun _ => True) p := by
  induction p with
  | ret a => exact trivial
  | call e next ih => exact ih

theorem Returns.bind {post : α → Prop} {post' : β → Prop} {p : Program R α} {f : α → Program R β}
    (hp : Returns post p) (hf : ∀ a, post a → Returns post' (f a)) : Returns post' (p >>= f) := by
  induction p with
  | ret a => exact hf a hp
  | call e next ih => exact fun r => ih r (hp r)

/-- What a program returns in any case it returns under a monitor. -/
theorem Ensures.returns {post : σ → α → Prop} {post' : α → Prop} {s : σ} {p : Program R α}
    (hp : Ensures M post s p) (hq : Returns post' p) : Ensures M (fun s a => post s a ∧ post' a) s p := by
  induction p generalizing s with
  | ret a => exact ⟨hp, hq⟩
  | call e next ih => exact ⟨hp.1, fun r => ih r (hp.2 r) (hq r)⟩

/-! ## Budgets -/

/-- A budget that each call takes its cost from. -/
def budget (cost : E → ℕ) : Monitor R ℕ := ⟨fun s e => cost e ≤ s, fun s e _ => s - cost e⟩

/-- **A program within its budget** makes no more calls than that pays for,
wherever it is left. -/
theorem Ensures.spent_le {cost : E → ℕ} {post : ℕ → α → Prop} {s : ℕ} {p : Program R α}
    (hp : Ensures (budget cost) post s p) {t : List (Reply R)} {out : Option α} (ht : Trace p t out) :
    (t.map fun x => cost x.1).sum ≤ s := by
  induction ht generalizing s with
  | stopped p => exact Nat.zero_le s
  | returned a => exact Nat.zero_le s
  | @replied e next r t out _ ih =>
    have hcost : cost e ≤ s := hp.1
    have hrest : (t.map fun x => cost x.1).sum ≤ s - cost e := ih (hp.2 r)
    change cost e + (t.map fun x => cost x.1).sum ≤ s
    omega

/-- So many calls at most, whatever they answer. -/
def AtMost : ℕ → Program R α → Prop
  | _, .ret _ => True
  | 0, .call _ _ => False
  | b + 1, .call _ next => ∀ r, AtMost b (next r)

theorem AtMost.mono {b b' : ℕ} (hb : b ≤ b') {p : Program R α} (hp : AtMost b p) : AtMost b' p := by
  induction p generalizing b b' with
  | ret a => cases b' <;> exact trivial
  | call e next ih =>
    obtain _ | b := b
    · exact hp.elim
    obtain _ | b' := b'
    · omega
    exact fun r => ih r (by omega) (hp r)

theorem AtMost.ret {b : ℕ} {a : α} : AtMost (R := R) b (.ret a) := by
  cases b <;> exact trivial

theorem AtMost.bind {b c : ℕ} {p : Program R α} {f : α → Program R β} (hp : AtMost b p)
    (hf : ∀ a, AtMost c (f a)) : AtMost (b + c) (p >>= f) := by
  induction p generalizing b with
  | ret a => exact (hf a).mono (by omega)
  | call e next ih =>
    obtain _ | b := b
    · exact hp.elim
    rw [Nat.add_right_comm]
    exact fun r => ih r (hp r)

theorem AtMost.perform {b : ℕ} {e : E} {f : R e → Program R β} (hf : ∀ r, AtMost b (f r)) :
    AtMost (b + 1) (Program.perform e >>= f) := hf

/-- **Calls of one kind from a budget**: as many at most, each at no more
than the price of the kind. -/
theorem AtMost.ensures {Q : E → Prop} {cost : E → ℕ} {b k n s : ℕ} {p : Program R α} (hp : AtMost b p)
    (hmakes : Makes Q p) (hcost : ∀ e, Q e → cost e ≤ k) (hs : n + b * k ≤ s) :
    Ensures (budget cost) (fun s' _ => n ≤ s') s p := by
  induction p generalizing b s with
  | ret a =>
    change n ≤ s
    omega
  | call e next ih =>
    obtain _ | b := b
    · exact hp.elim
    have he : cost e ≤ k := hcost e hmakes.1
    rw [Nat.add_mul, Nat.one_mul] at hs
    have hpaid : cost e ≤ s := by omega
    have hrest : n + b * k ≤ s - cost e := by omega
    exact ⟨hpaid, fun r => ih r (hp r) (hmakes.2 r) hrest⟩

/-! ## Execution against one server -/

/-- The program run against a server that answers at once. -/
def exec {W : Type} (serve : W → (e : E) → R e × W) : Program R α → W → α × W
  | .ret a, w => (a, w)
  | .call e next, w => exec serve (next (serve w e).1) (serve w e).2

theorem exec_bind {W : Type} (serve : W → (e : E) → R e × W) (p : Program R α)
    (f : α → Program R β) (w : W) :
    exec serve (p >>= f) w = exec serve (f (exec serve p w).1) (exec serve p w).2 := by
  induction p generalizing w with
  | ret a => rfl
  | call e next ih => exact ih _ _

theorem exec_map {W : Type} (serve : W → (e : E) → R e × W) (f : α → β) (p : Program R α) (w : W) :
    exec serve (f <$> p) w = (f (exec serve p w).1, (exec serve p w).2) := by
  rw [map_eq_pure_bind, exec_bind]
  rfl

/-- An execution is a trace that returns. -/
theorem exec_trace {W : Type} (serve : W → (e : E) → R e × W) (p : Program R α) (w : W) :
    ∃ t, Trace p t (some (exec serve p w).1) := by
  induction p generalizing w with
  | ret a => exact ⟨[], .returned a⟩
  | call e next ih =>
    obtain ⟨t, ht⟩ := ih (serve w e).1 (serve w e).2
    exact ⟨_, .replied ht⟩

end Program

/-! ## Interleavings -/

/-- Programs in progress over a world. A run that has not begun, has
returned or has crashed has no program. -/
structure Interleaved (W : Type) {E : Type} (R : E → Type) (α : Type) where
  world : W
  runs : ℕ → Option (Program R α)

/-- What happens next: a run begins, makes its next call, or is given up. -/
inductive Turn {E : Type} (R : E → Type) (α : Type) where
  | start (run : ℕ) (p : Program R α)
  | call (run : ℕ) (e : E) (r : R e)
  | drop (run : ℕ)

namespace Interleaved

open Program

variable {W E : Type} {R : E → Type} {α σ : Type}

/-- The run goes on as told. -/
def resume (g : Interleaved W R α) (run : ℕ) (p : Option (Program R α)) : ℕ → Option (Program R α) :=
  Function.update g.runs run p

theorem resume_self {g : Interleaved W R α} {run : ℕ} {p : Option (Program R α)} :
    g.resume run p run = p := Function.update_self ..

theorem resume_eq_some {g : Interleaved W R α} {run run' : ℕ} {p : Option (Program R α)}
    {q : Program R α} (h : g.resume run p run' = some q) : p = some q ∨ g.runs run' = some q := by
  rcases eq_or_ne run' run with rfl | hne
  · rw [resume_self] at h
    exact .inl h
  · rw [resume, Function.update_of_ne hne] at h
    exact .inr h

/-- One turn. -/
inductive Step (starts : Program R α → Prop) (serves : W → (e : E) → R e → W → Prop) :
    Interleaved W R α → Turn R α → Interleaved W R α → Prop
  | start {g : Interleaved W R α} {run : ℕ} {p : Program R α} : g.runs run = none → starts p →
      Step starts serves g (.start run p) ⟨g.world, g.resume run (some p)⟩
  | call {g : Interleaved W R α} {run : ℕ} {e : E} {next : R e → Program R α} {r : R e} {w : W} :
      g.runs run = some (.call e next) → serves g.world e r w →
      Step starts serves g (.call run e r) ⟨w, g.resume run (some (next r))⟩
  | drop {g : Interleaved W R α} {run : ℕ} :
      Step starts serves g (.drop run) ⟨g.world, g.resume run none⟩

/-- The programs that start, interleaved at their calls, from a world
where none is in progress. -/
def interleaving (init : W → Prop) (starts : Program R α → Prop)
    (serves : W → (e : E) → R e → W → Prop) : System (Interleaved W R α) (Turn R α) where
  init g := init g.world ∧ ∀ run, g.runs run = none
  step := Step starts serves

/-- What is kept of every state: the invariant of the world, and for each
run a monitor's state that the world bears out. -/
structure Holds (M : Monitor R σ) (I : W → Prop) (K : W → σ → Prop) (g : Interleaved W R α) :
    Prop where
  world : I g.world
  runs : ∀ run p, g.runs run = some p → ∃ s, K g.world s ∧ Ensures M (fun _ _ => True) s p

/-- **The rule of interleavings.** A call that the caller's monitor permits
keeps the invariant, moves the caller's monitor to a state the world bears
out, and spoils the state of no other. -/
theorem invariant {M : Monitor R σ} {I : W → Prop} {K : W → σ → Prop} {init : W → Prop}
    {starts : Program R α → Prop} {serves : W → (e : E) → R e → W → Prop}
    (hinit : ∀ w, init w → I w)
    (hstart : ∀ w p, I w → starts p → ∃ s, K w s ∧ Ensures M (fun _ _ => True) s p)
    (hserve : ∀ w e r w' s, I w → K w s → M.permits s e → serves w e r w' →
      I w' ∧ K w' (M.next s e r) ∧ ∀ s', K w s' → K w' s') {g : Interleaved W R α}
    (hg : (interleaving init starts serves).Reachable g) : Holds M I K g := by
  induction hg with
  | init h => exact ⟨hinit _ h.1, fun run p hp => absurd hp (by rw [h.2 run]; simp)⟩
  | @step g g' l _ _ hstep ih =>
    cases hstep with
    | @start run p hnone hp =>
      refine ⟨ih.world, fun run' q hq => ?_⟩
      rcases resume_eq_some hq with hq | hq
      · obtain rfl := Option.some.inj hq
        exact hstart _ _ ih.world hp
      · exact ih.runs run' q hq
    | @call run e next r w hrun hserves =>
      obtain ⟨s, hs, hpermits, hnext⟩ := ih.runs run _ hrun
      obtain ⟨hI, hK, hframe⟩ := hserve _ _ _ _ _ ih.world hs hpermits hserves
      refine ⟨hI, fun run' q hq => ?_⟩
      rcases resume_eq_some hq with hq | hq
      · obtain rfl := Option.some.inj hq
        exact ⟨_, hK, hnext r⟩
      · obtain ⟨s', hs', hq'⟩ := ih.runs run' q hq
        exact ⟨s', hframe _ hs', hq'⟩
    | @drop run =>
      refine ⟨ih.world, fun run' q hq => ?_⟩
      rcases resume_eq_some hq with hq | hq
      · exact absurd hq (by simp)
      · exact ih.runs run' q hq

end Interleaved

end Aipcs

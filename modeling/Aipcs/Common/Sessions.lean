import Aipcs.Common.Program

/-!
# Sessions — programs whose outcomes are kept

Programs over one world as in an interleaving, where each is told from the
others: a session is one command, begun once, and its outcome stays on
record when it has ended. A call is served to the session that makes it.
`Sessions.invariant` reduces what holds of all sessions to one call of
one of them, and to what that call leaves of the others.
-/

namespace Aipcs

/-- What has become of a session: a session that ends without an outcome
has crashed. -/
inductive Session {E : Type} (R : E → Type) (ι α : Type) where
  | idle
  | running (command : ι) (p : Program R α)
  | ended (command : ι) (outcome : Option α)

/-- The command of a session that has begun. -/
def Session.command {E : Type} {R : E → Type} {ι α : Type} : Session R ι α → Option ι
  | .idle => none
  | .running c _ => some c
  | .ended c _ => some c

/-- A world and its sessions. -/
structure Sessions (W : Type) {E : Type} (R : E → Type) (ι α : Type) where
  world : W
  sessions : ℕ → Session R ι α

namespace Sessions

open Program

/-- What happens next in a session. -/
inductive Event {E : Type} (R : E → Type) (ι : Type) where
  | start (command : ι)
  | call (e : E) (r : R e)
  | finish
  | crash

variable {W E : Type} {R : E → Type} {ι α σ : Type}

/-- The sessions, one of them gone on. -/
def resume (g : Sessions W R ι α) (n : ℕ) (x : Session R ι α) : ℕ → Session R ι α :=
  Function.update g.sessions n x

theorem resume_self {g : Sessions W R ι α} {n : ℕ} {x : Session R ι α} : g.resume n x n = x :=
  Function.update_self ..

theorem resume_of_ne {g : Sessions W R ι α} {m n : ℕ} {x : Session R ι α} (h : m ≠ n) :
    g.resume n x m = g.sessions m := Function.update_of_ne h ..

/-- One step of one session. -/
inductive Step (body : ι → Program R α) (serves : ℕ → W → (e : E) → R e → W → Prop) :
    Sessions W R ι α → ℕ × Event R ι → Sessions W R ι α → Prop
  | start {g : Sessions W R ι α} {n : ℕ} (c : ι) : g.sessions n = .idle →
      Step body serves g (n, .start c) ⟨g.world, g.resume n (.running c (body c))⟩
  | call {g : Sessions W R ι α} {n : ℕ} {c : ι} {e : E} {next : R e → Program R α} {r : R e} {w : W} :
      g.sessions n = .running c (.call e next) → serves n g.world e r w →
      Step body serves g (n, .call e r) ⟨w, g.resume n (.running c (next r))⟩
  | finish {g : Sessions W R ι α} {n : ℕ} {c : ι} {a : α} : g.sessions n = .running c (.ret a) →
      Step body serves g (n, .finish) ⟨g.world, g.resume n (.ended c (some a))⟩
  | crash {g : Sessions W R ι α} {n : ℕ} {c : ι} {p : Program R α} : g.sessions n = .running c p →
      Step body serves g (n, .crash) ⟨g.world, g.resume n (.ended c none)⟩

/-- The sessions of a world, from one where none has begun. -/
def serving (init : W → Prop) (body : ι → Program R α) (serves : ℕ → W → (e : E) → R e → W → Prop) :
    System (Sessions W R ι α) (ℕ × Event R ι) where
  init g := init g.world ∧ ∀ n, g.sessions n = .idle
  step := Step body serves

/-- A condition on the calls of a run. -/
def Calls (ok : W → (e : E) → R e → Prop) (g : Sessions W R ι α) : ℕ × Event R ι → Prop
  | (_, .call e r) => ok g.world e r
  | _ => True

theorem Calls.mono {ok ok' : W → (e : E) → R e → Prop} (h : ∀ w e r, ok w e r → ok' w e r)
    {g : Sessions W R ι α} {l : ℕ × Event R ι} (hl : Calls ok g l) : Calls ok' g l := by
  match l, hl with
  | (_, .call e r), hl => exact h _ e r hl
  | (_, .start _), _ => exact trivial
  | (_, .finish), _ => exact trivial
  | (_, .crash), _ => exact trivial

theorem calls_true (g : Sessions W R ι α) (l : ℕ × Event R ι) : Calls (fun _ _ _ => True) g l := by
  match l with
  | (_, .call _ _) => exact trivial
  | (_, .start _) => exact trivial
  | (_, .finish) => exact trivial
  | (_, .crash) => exact trivial

/-! ## Runs -/

/-- Some run comes to this world with the session at this program. -/
def At (S : System (Sessions W R ι α) (ℕ × Event R ι)) (n : ℕ) (c : ι) (p : Program R α) (w : W) : Prop :=
  ∃ g, S.Reachable g ∧ g.world = w ∧ g.sessions n = .running c p

section runs

variable {init : W → Prop} {body : ι → Program R α} {serves : ℕ → W → (e : E) → R e → W → Prop}
variable {n : ℕ} {c : ι} {w w' : W}

/-- The first session begins. -/
theorem at_start (hw : init w) : At (serving init body serves) n c (body c) w :=
  have h : (serving init body serves).Reachable ⟨w, fun _ => .idle⟩ := .init ⟨hw, fun _ => rfl⟩
  ⟨_, h.next (.start c rfl), rfl, resume_self⟩

theorem At.call {p : Program R α} {e : E} {next : R e → Program R α} {r : R e}
    (h : At (serving init body serves) n c p w) (hp : p = .call e next) (hserves : serves n w e r w') :
    At (serving init body serves) n c (next r) w' := by
  obtain ⟨g, hg, rfl, hn⟩ := h
  exact ⟨_, hg.next (.call (hn.trans (congrArg _ hp)) hserves), rfl, resume_self⟩

theorem At.finish {a : α} (h : At (serving init body serves) n c (.ret a) w) :
    ∃ g, (serving init body serves).Reachable g ∧ g.world = w ∧ g.sessions n = .ended c (some a) := by
  obtain ⟨g, hg, rfl, hn⟩ := h
  exact ⟨_, hg.next (.finish hn), rfl, resume_self⟩

end runs

/-! ## The rule of sessions -/

/-- What is claimed of the sessions: of one that has not begun, of one that
is under way and has the monitor's state, and of one that has ended. -/
structure Claims (W E : Type) (R : E → Type) (ι α σ : Type) where
  idle : ℕ → W → Prop
  running : ℕ → ι → W → σ → Prop
  ended : ℕ → ι → W → Option α → Prop

/-- The claim of a session, the program under way keeping to its monitor. -/
def Claims.Of (C : Claims W E R ι α σ) (M : ι → Monitor R σ) (post : ι → σ → α → Prop) (n : ℕ) (w : W) :
    Session R ι α → Prop
  | .idle => C.idle n w
  | .running c p => ∃ s, C.running n c w s ∧ Ensures (M c) (post c) s p
  | .ended c out => C.ended n c w out

/-- A session's claims survive from one world to another. -/
structure Claims.Survive (C : Claims W E R ι α σ) (n : ℕ) (w w' : W) : Prop where
  idle : C.idle n w → C.idle n w'
  running : ∀ c s, C.running n c w s → C.running n c w' s
  ended : ∀ c out, C.ended n c w out → C.ended n c w' out

theorem Claims.Survive.of {C : Claims W E R ι α σ} {n : ℕ} {w w' : W} (h : C.Survive n w w')
    {M : ι → Monitor R σ} {post : ι → σ → α → Prop} {x : Session R ι α} (hx : C.Of M post n w x) :
    C.Of M post n w' x := by
  cases x with
  | idle => exact h.idle hx
  | running c p =>
    obtain ⟨s, hs, hp⟩ := hx
    exact ⟨s, h.running c s hs, hp⟩
  | ended c out => exact h.ended c out hx

/-- The claims after one session has gone on. -/
theorem Claims.Of.resume {C : Claims W E R ι α σ} {M : ι → Monitor R σ} {post : ι → σ → α → Prop} {w : W}
    {g : Sessions W R ι α} {n : ℕ} {x : Session R ι α} (hx : C.Of M post n w x)
    (hothers : ∀ m, m ≠ n → C.Of M post m w (g.sessions m)) (m : ℕ) :
    C.Of M post m w (g.resume n x m) := by
  rcases eq_or_ne m n with rfl | hne
  · rw [resume_self]
    exact hx
  · rw [resume_of_ne hne]
    exact hothers m hne

/-- What holds of every state of a run of sessions. -/
structure Holds (C : Claims W E R ι α σ) (M : ι → Monitor R σ) (post : ι → σ → α → Prop) (I : W → Prop)
    (g : Sessions W R ι α) : Prop where
  world : I g.world
  claims : ∀ n, C.Of M post n g.world (g.sessions n)

/-- **The rule of sessions.** A call that the caller's monitor permits keeps
the invariant and takes the caller's claim to its next, and the claims of
the other sessions survive it. -/
theorem invariant {C : Claims W E R ι α σ} {M : ι → Monitor R σ} {post : ι → σ → α → Prop} {I : W → Prop}
    {init : W → Prop} {body : ι → Program R α} {serves : ℕ → W → (e : E) → R e → W → Prop}
    {ok : W → (e : E) → R e → Prop} (hinit : ∀ w, init w → I w ∧ ∀ n, C.idle n w)
    (hstart : ∀ n c w, I w → C.idle n w → ∃ s, C.running n c w s ∧ Ensures (M c) (post c) s (body c))
    (hserve : ∀ n c w s e r w', I w → C.running n c w s → (M c).permits s e → ok w e r →
      serves n w e r w' → I w' ∧ C.running n c w' ((M c).next s e r) ∧ ∀ m, m ≠ n → C.Survive m w w')
    (hfinish : ∀ n c w s a, C.running n c w s → post c s a → C.ended n c w (some a))
    (hcrash : ∀ n c w s, C.running n c w s → C.ended n c w none) {g : Sessions W R ι α}
    (hg : (serving init body serves).ReachableUnder (Calls ok) g) : Holds C M post I g := by
  induction hg with
  | init h =>
    obtain ⟨hI, hidle⟩ := hinit _ h.1
    exact ⟨hI, fun n => by rw [h.2 n]; exact hidle n⟩
  | @step g g' l _ hok hstep ih =>
    have hothers : ∀ n m, m ≠ n → C.Of M post m g.world (g.sessions m) := fun _ m _ => ih.claims m
    cases hstep with
    | @start n c hn =>
      have hclaim := ih.claims n
      rw [hn] at hclaim
      have hx : C.Of M post n g.world (.running c (body c)) := hstart n c _ ih.world hclaim
      exact ⟨ih.world, hx.resume (hothers n)⟩
    | @call n c e next r w hn hserves =>
      have hclaim := ih.claims n
      rw [hn] at hclaim
      obtain ⟨s, hs, hpermits, hnext⟩ := hclaim
      obtain ⟨hI, hcaller, hsurvive⟩ := hserve _ _ _ _ _ _ _ ih.world hs hpermits hok hserves
      have hx : C.Of M post n w (.running c (next r)) := ⟨_, hcaller, hnext r⟩
      exact ⟨hI, hx.resume fun m hne => (hsurvive m hne).of (ih.claims m)⟩
    | @finish n c a hn =>
      have hclaim := ih.claims n
      rw [hn] at hclaim
      obtain ⟨s, hs, hpost⟩ := hclaim
      have hx : C.Of M post n g.world (.ended c (some a)) := hfinish _ _ _ _ _ hs hpost
      exact ⟨ih.world, hx.resume (hothers n)⟩
    | @crash n c p hn =>
      have hclaim := ih.claims n
      rw [hn] at hclaim
      obtain ⟨s, hs, -⟩ := hclaim
      have hx : C.Of M post n g.world (.ended c none) := hcrash _ _ _ _ hs
      exact ⟨ih.world, hx.resume (hothers n)⟩

end Sessions

end Aipcs

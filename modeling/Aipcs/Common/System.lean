import Mathlib.Order.Basic

/-!
# Transition systems — runs and invariants

A transition system is its initial states and its labelled steps.
Runs are taken under a condition on steps, so that a property may be
claimed of the runs whose every step meets it; the unconditional runs
are those under the condition that holds always.
-/

namespace Aipcs

/-- A labelled transition system. -/
structure System (σ ℓ : Type*) where
  init : σ → Prop
  step : σ → ℓ → σ → Prop

namespace System

variable {σ ℓ : Type*} (S : System σ ℓ)

/-- The states of the runs whose every step meets the condition. -/
inductive ReachableUnder (ok : σ → ℓ → Prop) : σ → Prop
  | init {s : σ} : S.init s → ReachableUnder ok s
  | step {s s' : σ} {l : ℓ} : ReachableUnder ok s → ok s l → S.step s l s' → ReachableUnder ok s'

/-- The states of all runs. -/
def Reachable : σ → Prop := S.ReachableUnder fun _ _ => True

/-- A property of the states is preserved by the steps that meet the condition. -/
structure Inductive (ok : σ → ℓ → Prop) (I : σ → Prop) : Prop where
  init : ∀ s, S.init s → I s
  step : ∀ s l s', I s → ok s l → S.step s l s' → I s'

variable {S}

/-- **The invariant rule.** -/
theorem Inductive.reachable {ok : σ → ℓ → Prop} {I : σ → Prop} (h : S.Inductive ok I) {s : σ}
    (hs : S.ReachableUnder ok s) : I s := by
  induction hs with
  | init h0 => exact h.init _ h0
  | step _ hok hstep ih => exact h.step _ _ _ ih hok hstep

/-- A run under a condition is one under a weaker condition. -/
theorem ReachableUnder.mono {ok ok' : σ → ℓ → Prop} (h : ∀ s l, ok s l → ok' s l) {s : σ}
    (hs : S.ReachableUnder ok s) : S.ReachableUnder ok' s := by
  induction hs with
  | init h0 => exact .init h0
  | step _ hok hstep ih => exact .step ih (h _ _ hok) hstep

/-- A run under a condition is a run. -/
theorem ReachableUnder.reachable {ok : σ → ℓ → Prop} {s : σ} (hs : S.ReachableUnder ok s) :
    S.Reachable s := hs.mono fun _ _ _ => trivial

/-- One more step of an unconditional run. -/
theorem Reachable.next {s s' : σ} (hs : S.Reachable s) {l : ℓ} (h : S.step s l s') :
    S.Reachable s' :=
  .step hs trivial h

/-- Where an invariant lets only steps under a condition be taken, every run is one under it. -/
theorem Reachable.under {ok : σ → ℓ → Prop} {I : σ → Prop} (hI : S.Inductive (fun _ _ => True) I)
    (hok : ∀ s l, I s → ok s l) {s : σ} (hs : S.Reachable s) : S.ReachableUnder ok s := by
  induction hs with
  | init h0 => exact .init h0
  | step hs _ hstep ih => exact .step ih (hok _ _ (hI.reachable hs)) hstep

end System

end Aipcs

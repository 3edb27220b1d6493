import Mathlib.Algebra.Ring.Nat
import Mathlib.Data.Nat.Basic

/-!
# Service store — the write-admission fence

A service store's fence is a generation and a state. It is changed by
`transition_fence` alone, a compare-and-change: the caller names the
fence it read and the state it wants.
-/

namespace Aipcs

namespace Store

def MAX_FENCE_GENERATION : ℕ := 2 ^ 63 - 1

inductive FenceState where
  | open_
  | closed
deriving DecidableEq

structure WriteAdmissionFence where
  generation : ℕ
  state : FenceState
  bounds : 1 ≤ generation ∧ generation ≤ MAX_FENCE_GENERATION
deriving DecidableEq

/-- The fence of a store that has none recorded. -/
def INITIAL_FENCE : WriteAdmissionFence := ⟨1, .open_, by decide⟩

inductive FenceTransitionStatus where
  | applied
  | current
  | stale
deriving DecidableEq

structure FenceTransitionResult where
  status : FenceTransitionStatus
  fence : WriteAdmissionFence
deriving DecidableEq

/-- `transition_fence` over the fence it finds; at the last generation it
raises. -/
def transitionFence (found expected : WriteAdmissionFence) (target : FenceState) :
    Option FenceTransitionResult :=
  if found ≠ expected then some ⟨.stale, found⟩
  else if found.state = target then some ⟨.current, found⟩
  else if h : found.generation = MAX_FENCE_GENERATION then none
  else some ⟨.applied, ⟨found.generation + 1, target, by
    have := found.bounds
    omega⟩⟩

/-- **What a fence transition can do.** It leaves the fence it found, or
moves the expected fence to the target. -/
theorem transitionFence_cases {found expected : WriteAdmissionFence} {target : FenceState}
    {r : FenceTransitionResult} (h : transitionFence found expected target = some r) :
    (r.fence = found ∧ (r.status = .stale ∨ r.status = .current ∧ found.state = target)) ∨
      (r.status = .applied ∧ found = expected ∧ found.state ≠ target ∧ r.fence.state = target ∧
        r.fence.generation = found.generation + 1) := by
  unfold transitionFence at h
  by_cases hstale : found ≠ expected
  · rw [if_pos hstale] at h
    obtain rfl := Option.some.inj h
    exact .inl ⟨rfl, .inl rfl⟩
  rw [if_neg hstale] at h
  by_cases hcur : found.state = target
  · rw [if_pos hcur] at h
    obtain rfl := Option.some.inj h
    exact .inl ⟨rfl, .inr ⟨rfl, hcur⟩⟩
  rw [if_neg hcur] at h
  by_cases hmax : found.generation = MAX_FENCE_GENERATION
  · rw [dif_pos hmax] at h
    exact absurd h (by simp)
  · rw [dif_neg hmax] at h
    obtain rfl := Option.some.inj h
    exact .inr ⟨rfl, not_not.mp hstale, hcur, rfl, rfl⟩

end Store

end Aipcs

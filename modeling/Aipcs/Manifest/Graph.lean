import Aipcs.Common.DepthFirst
import Aipcs.Manifest.Definition

/-!
# Manifest — the required relationships

The manifest's search for a cycle is the depth-first search, started at
every entity that a required relationship leaves; it finds a cycle exactly
when there is one.
-/

namespace Aipcs

namespace Manifest

/-- The entities that edges leave, in name order. -/
def edgeSources (edges : List (String × String)) : List String :=
  ((edges.map Prod.fst).dedup).insertionSort (· ≤ ·)

/-- The entities that the edges of one lead to, in name order. -/
def edgeTargets (edges : List (String × String)) (node : String) : List String :=
  (((edges.filter fun e => e.1 = node).map Prod.snd).dedup).insertionSort (· ≤ ·)

section

variable {edges : List (String × String)} {a b : String}

theorem mem_edgeSources : a ∈ edgeSources edges ↔ ∃ b, (a, b) ∈ edges := by
  simp [edgeSources]

theorem mem_edgeTargets : b ∈ edgeTargets edges a ↔ (a, b) ∈ edges := by
  simp [edgeTargets]

theorem visit_eq (adjacency : String → List String) (fuel : ℕ) (visiting visited : List String) (node : String) :
    visit adjacency fuel visiting visited node = DepthFirst.visit adjacency fuel visiting visited node := by
  induction fuel generalizing visiting visited node with
  | zero => rfl
  | succ fuel ih =>
    rw [visit, DepthFirst.visit]
    simp only [ih]

/-- **The manifest's search finds the cycles there are.** -/
theorem hasDirectedCycle_iff (edges : List (String × String)) :
    hasDirectedCycle edges = true ↔ ∃ a, Relation.TransGen (fun a b => (a, b) ∈ edges) a a := by
  have hsearch : hasDirectedCycle edges =
      (DepthFirst.search (edgeTargets edges) (edges.length + 2) (edgeSources edges)).isNone := by
    rw [hasDirectedCycle, DepthFirst.search]
    simp only [visit_eq]
    rfl
  have hsources : ∀ a b, b ∈ edgeTargets edges a → a ∈ edgeSources edges :=
    fun a b hb => mem_edgeSources.2 ⟨b, mem_edgeTargets.1 hb⟩
  have hlength : (edgeSources edges).length < edges.length + 2 := by
    have hdedup : ((edges.map Prod.fst).dedup).length ≤ edges.length := by
      simpa using (List.dedup_sublist (edges.map Prod.fst)).length_le
    rw [edgeSources, List.length_insertionSort]
    omega
  have hedge : DepthFirst.Edge (edgeTargets edges) = fun a b => (a, b) ∈ edges := by
    funext a b
    exact propext mem_edgeTargets
  rw [hsearch, Option.isNone_iff_eq_none, DepthFirst.search_eq_none_iff hsources hsources hlength,
    DepthFirst.Cyclic, hedge]

end

end Manifest

end Aipcs

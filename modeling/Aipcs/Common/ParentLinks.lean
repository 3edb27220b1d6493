import Mathlib.Data.List.Nodup
import Mathlib.Logic.Function.Basic
import Mathlib.Data.Option.Basic

/-!
# Parent links

Nodes of which each has a parent or none, as a partial function. A walk
follows the links to a root; links are a forest where every node has a walk.
A trail is a walk as it is taken, the latest node first. What keeps a forest
one: a new leaf, and a node moved below another whose walk does not meet it.
-/

namespace Aipcs

variable {κ : Type}

/-- What a node's parent is, where there is such a node. -/
abbrev Links (κ : Type) : Type := κ → Option (Option κ)

namespace Links

/-- The nodes from one to its root. -/
inductive Walk (links : Links κ) : Option κ → List κ → Prop
  | root : Walk links none []
  | step {i : κ} {parent : Option κ} {l : List κ} : links i = some parent → Walk links parent l →
      Walk links (some i) (i :: l)

/-- **Every node has a walk to a root**, and no walk repeats a node. -/
def Forest (links : Links κ) : Prop := ∀ i, (links i).isSome → ∃ l, Walk links (some i) l ∧ l.Nodup

/-- The nodes passed from one to another, the latest first. -/
inductive Trail (links : Links κ) : Option κ → List κ → Option κ → Prop
  | here {o : Option κ} : Trail links o [] o
  | pass {o : Option κ} {seen : List κ} {i : κ} {next : Option κ} : Trail links o seen (some i) →
      links i = some next → Trail links o (i :: seen) next

variable {links links' : Links κ} {o m : Option κ} {l l' seen : List κ} {i : κ}

/-! ## Walks -/

theorem Walk.unique (h : Walk links o l) (h' : Walk links o l') : l = l' := by
  induction h generalizing l' with
  | root =>
    cases h'
    rfl
  | step hi _ ih =>
    cases h' with
    | step hi' h' =>
      obtain rfl := Option.some.inj (hi.symm.trans hi')
      rw [ih h']

/-- From every node of a walk on, it is that node's walk. -/
theorem Walk.from_mem (h : Walk links o l) (hi : i ∈ l) : ∃ l', Walk links (some i) (i :: l') ∧ (i :: l').length ≤ l.length := by
  induction h with
  | root => exact absurd hi List.not_mem_nil
  | @step j parent rest hj hrest ih =>
    rcases List.mem_cons.1 hi with rfl | hi
    · exact ⟨rest, .step hj hrest, Nat.le_refl _⟩
    · obtain ⟨l', hl', hlen⟩ := ih hi
      exact ⟨l', hl', Nat.le_succ_of_le hlen⟩

theorem Walk.isSome (h : Walk links o l) (hi : i ∈ l) : (links i).isSome := by
  obtain ⟨l', hl', -⟩ := h.from_mem hi
  cases hl' with
  | step hi _ => rw [hi]; rfl

/-- A walk repeats no node, since it would not end. -/
theorem Walk.nodup (h : Walk links o l) : l.Nodup := by
  induction h with
  | root => exact List.nodup_nil
  | @step i parent rest hi hrest ih =>
    refine List.nodup_cons.2 ⟨fun hmem => ?_, ih⟩
    obtain ⟨l', hl', hlen⟩ := hrest.from_mem hmem
    have heq := hl'.unique (.step hi hrest)
    rw [heq, List.length_cons] at hlen
    omega

/-- A walk is one of other links that its nodes have. -/
theorem Walk.congr (h : Walk links o l) (hl : ∀ i ∈ l, links' i = links i) : Walk links' o l := by
  induction h with
  | root => exact .root
  | @step i parent rest hi _ ih =>
    exact .step ((hl i List.mem_cons_self).trans hi) (ih fun j hj => hl j (List.mem_cons_of_mem _ hj))

theorem Forest.of_walks (h : ∀ i, (links i).isSome → ∃ l, Walk links (some i) l) : Forest links := fun i hi => by
  obtain ⟨l, hl⟩ := h i hi
  exact ⟨l, hl, hl.nodup⟩

/-- A parent is a node. -/
theorem Forest.parent {j : κ} (h : Forest links) (hi : links i = some (some j)) : (links j).isSome := by
  obtain ⟨l, hl, -⟩ := h i (by rw [hi]; rfl)
  cases hl with
  | step hi' hl =>
    obtain rfl := Option.some.inj (hi.symm.trans hi')
    cases hl with
    | step hj _ => rw [hj]; rfl

/-! ## Trails -/

/-- A trail is one of other links that its nodes have. -/
theorem Trail.congr (h : Trail links o seen m) (hl : ∀ i ∈ seen, (links i).isSome → links' i = links i) :
    Trail links' o seen m := by
  induction h with
  | here => exact .here
  | pass _ hi ih =>
    exact .pass (ih fun j hj => hl j (List.mem_cons_of_mem _ hj))
      ((hl _ List.mem_cons_self (by rw [hi]; rfl)).trans hi)

/-- A trail and the walk it comes to are a walk. -/
theorem Trail.walk (h : Trail links o seen m) (hm : Walk links m l) : Walk links o (seen.reverse ++ l) := by
  induction h generalizing l with
  | here => exact hm
  | pass _ hi ih =>
    rw [List.reverse_cons, List.append_assoc, List.singleton_append]
    exact ih (.step hi hm)

/-- Where a trail has passed a node, its end is that node's parent. -/
theorem Trail.last (h : Trail links o (i :: seen) m) : links i = some m := by
  cases h with
  | pass _ hi => exact hi

/-! ## What keeps a forest -/

variable [DecidableEq κ] {a : κ}

/-- **A node moved** below another whose walk does not meet it leaves a forest. -/
theorem Forest.move (h : Forest links) (ho : Walk links o l) (ha : a ∉ l) : Forest (Function.update links a (some o)) := by
  have hlink : ∀ i, i ≠ a → Function.update links a (some o) i = links i := fun i hi => Function.update_of_ne hi _ _
  have hself : Walk (Function.update links a (some o)) (some a) (a :: l) :=
    .step (Function.update_self a _ _) (ho.congr fun i hi => hlink i fun heq => ha (heq ▸ hi))
  -- a walk goes on as it did until it meets the node
  have hwalk : ∀ {o' l'}, Walk links o' l' → ∃ l'', Walk (Function.update links a (some o)) o' l'' := by
    intro o' l' hl'
    induction hl' with
    | root => exact ⟨[], .root⟩
    | @step i parent rest hi _ ih =>
      by_cases hia : i = a
      · rw [hia]
        exact ⟨_, hself⟩
      · obtain ⟨l'', hl''⟩ := ih
        exact ⟨_, .step ((hlink i hia).trans hi) hl''⟩
  refine .of_walks fun i hi => ?_
  by_cases hia : i = a
  · rw [hia]
    exact ⟨_, hself⟩
  · rw [hlink i hia] at hi
    obtain ⟨l', hl', -⟩ := h i hi
    exact hwalk hl'

/-- **A new leaf** below a node, or a new root, leaves a forest. -/
theorem Forest.graft (h : Forest links) (ha : links a = none) (ho : ∀ j, o = some j → (links j).isSome) :
    Forest (Function.update links a (some o)) := by
  obtain ⟨l, hl⟩ : ∃ l, Walk links o l := by
    cases o with
    | none => exact ⟨[], .root⟩
    | some j =>
      obtain ⟨l, hl, -⟩ := h j (ho j rfl)
      exact ⟨l, hl⟩
  refine h.move hl fun hmem => ?_
  have hsome := hl.isSome hmem
  rw [ha] at hsome
  exact absurd hsome (by simp)

end Links

end Aipcs

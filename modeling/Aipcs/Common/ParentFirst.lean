import Aipcs.Common.ParentLinks
import Mathlib.Data.Finite.Prod
import Mathlib.Data.List.Basic
import Mathlib.Data.Fintype.EquivFin
import Mathlib.Order.WellFounded

/-!
# Parent-first orders

Lists of nodes with a key and a parent's key, and those in which every
node comes after its parent. Such a list has every parent and no cycle
(`ParentFirst.closed`, `ParentFirst.acyclic`); and of nodes on no cycle
there is always one whose parent is not among those left
(`Acyclic.exists_first`), so that an order once begun can be gone on with.
-/

namespace Aipcs

namespace Links

variable {α κ : Type} (key : α → κ) (parent : α → Option κ)

/-- Every parent is there. -/
def Closed (l : List α) : Prop := ∀ a ∈ l, ∀ j, parent a = some j → ∃ b ∈ l, key b = j

/-- One key is the parent's of another. -/
def Above (l : List α) (j i : κ) : Prop := ∃ a ∈ l, key a = i ∧ parent a = some j

/-- No node is reached from itself. -/
def Acyclic (l : List α) : Prop := ∀ i, ¬ Relation.TransGen (Above key parent l) i i

/-- Every node comes after its parent. -/
def ParentFirst (l : List α) : Prop :=
  ∀ before a after, l = before ++ a :: after → ∀ j, parent a = some j → ∃ b ∈ before, key b = j

variable {key parent} {l l' rest : List α}

theorem Closed.perm (h : Closed key parent l) (hl : l.Perm l') : Closed key parent l' := fun a ha j hj => by
  obtain ⟨b, hb, heq⟩ := h a (hl.mem_iff.2 ha) j hj
  exact ⟨b, hl.mem_iff.1 hb, heq⟩

theorem Acyclic.perm (h : Acyclic key parent l) (hl : l.Perm l') : Acyclic key parent l' := fun i hi =>
  h i (hi.lift id fun _ _ ⟨a, ha, heq⟩ => ⟨a, hl.mem_iff.2 ha, heq⟩)

theorem parentFirst_nil : ParentFirst key parent ([] : List α) := fun before a after h => by
  simp at h

/-- Nodes whose parents are there go on with an order. -/
theorem ParentFirst.append (h : ParentFirst key parent l)
    (h' : ∀ a ∈ l', ∀ j, parent a = some j → ∃ b ∈ l, key b = j) : ParentFirst key parent (l ++ l') := by
  intro before a after heq j hj
  rcases List.append_eq_append_iff.1 heq with ⟨c, rfl, hl'⟩ | ⟨c, hl, hc⟩
  · obtain ⟨b, hb, hkey⟩ := h' a (hl' ▸ by simp) j hj
    exact ⟨b, List.mem_append_left _ hb, hkey⟩
  · cases c with
    | nil =>
      obtain ⟨b, hb, hkey⟩ := h' a (by simp only [List.nil_append] at hc; exact hc ▸ List.mem_cons_self) j hj
      rw [List.append_nil] at hl
      exact ⟨b, hl ▸ hb, hkey⟩
    | cons a' c =>
      obtain ⟨rfl, -⟩ := List.cons.inj hc
      exact h before a c hl j hj

theorem ParentFirst.closed (h : ParentFirst key parent l) : Closed key parent l := by
  intro a ha j hj
  obtain ⟨before, after, rfl⟩ := List.append_of_mem ha
  obtain ⟨b, hb, hkey⟩ := h before a after rfl j hj
  exact ⟨b, List.mem_append_left _ hb, hkey⟩

/-- **An order has no cycle**: a parent's place is before its child's. -/
theorem ParentFirst.acyclic [DecidableEq κ] (h : ParentFirst key parent l) (hl : (l.map key).Nodup) :
    Acyclic key parent l := by
  have hplace : ∀ j i, Above key parent l j i → (l.map key).idxOf j < (l.map key).idxOf i := by
    rintro j i ⟨a, ha, rfl, hj⟩
    obtain ⟨before, after, rfl⟩ := List.append_of_mem ha
    obtain ⟨b, hb, rfl⟩ := h before a after rfl j hj
    rw [List.map_append, List.map_cons] at hl ⊢
    have hnot : key a ∉ before.map key := fun hmem =>
      (List.nodup_append.1 hl).2.2 _ hmem _ List.mem_cons_self rfl
    rw [List.idxOf_append_of_notMem hnot, List.idxOf_cons_self,
      List.idxOf_append_of_mem (List.mem_map_of_mem hb)]
    have hlt := List.idxOf_lt_length_iff.2 (List.mem_map_of_mem (f := key) hb)
    omega
  intro i hi
  have hlt := hi.lift (p := (· < ·)) (fun k => (l.map key).idxOf k) hplace
  rw [Relation.transGen_eq_self] at hlt
  exact lt_irrefl _ hlt

/-- **Of nodes on no cycle** one has no parent among those that are left. -/
theorem Acyclic.exists_first (h : Acyclic key parent l) (hrest : rest ⊆ l) (hne : rest ≠ []) :
    ∃ a ∈ rest, ∀ j, parent a = some j → ∀ b ∈ rest, key b ≠ j := by
  -- being reached from is well founded on the keys, which are finitely many
  let r : { i // i ∈ l.map key } → { i // i ∈ l.map key } → Prop :=
    fun j i => Relation.TransGen (Above key parent l) j.1 i.1
  have : IsTrans _ r := ⟨fun _ _ _ hab hbc => Relation.TransGen.trans hab hbc⟩
  have : Std.Irrefl r := ⟨fun i => h i.1⟩
  have : Finite { i // i ∈ l.map key } := List.finite_toSet (l.map key)
  have hwf : WellFounded r := Finite.wellFounded_of_trans_of_irrefl r
  obtain ⟨a, ha⟩ := List.exists_mem_of_ne_nil rest hne
  obtain ⟨⟨i, hi⟩, ⟨b, hb, hbi⟩, hmin⟩ := hwf.has_min { i | ∃ b ∈ rest, key b = i.1 }
    ⟨⟨key a, List.mem_map_of_mem (hrest ha)⟩, a, ha, rfl⟩
  refine ⟨b, hb, fun j hj c hc hcj => ?_⟩
  refine hmin ⟨j, hcj ▸ List.mem_map_of_mem (hrest hc)⟩ ⟨c, hc, hcj⟩ ?_
  exact .single ⟨b, hrest hb, hbi, hj⟩

/-! ## Forests -/

/-- Links that go to the root of a forest make no cycle. -/
theorem Forest.acyclic {links : Links κ} (h : Forest links) (hl : ∀ a ∈ l, links (key a) = some (parent a)) :
    Acyclic key parent l := by
  -- a parent's walk is its child's but for the child
  have hwalk : ∀ j i, Relation.TransGen (Above key parent l) j i → ∀ w, Walk links (some i) w →
      ∃ w', Walk links (some j) w' ∧ w'.length < w.length := by
    intro j i hji
    induction hji with
    | single hone =>
      obtain ⟨a, ha, rfl, hj⟩ := hone
      intro w hw
      cases hw with
      | step hi hrest =>
        rw [hl a ha, hj] at hi
        obtain rfl := Option.some.inj hi
        exact ⟨_, hrest, by simp⟩
    | tail _ hone ih =>
      obtain ⟨a, ha, rfl, hj⟩ := hone
      intro w hw
      cases hw with
      | step hi hrest =>
        rw [hl a ha, hj] at hi
        obtain rfl := Option.some.inj hi
        obtain ⟨w', hw', hlt⟩ := ih _ hrest
        exact ⟨w', hw', by rw [List.length_cons]; omega⟩
  intro i hi
  have hsome : (links i).isSome := by
    obtain ⟨b, -, a, ha, rfl, -⟩ := Relation.TransGen.tail'_iff.1 hi
    rw [hl a ha]
    rfl
  obtain ⟨w, hw, -⟩ := h i hsome
  obtain ⟨w', hw', hlt⟩ := hwalk i i hi w hw
  rw [hw'.unique hw] at hlt
  omega

theorem Forest.closed {links : Links κ} (h : Forest links) (hl : ∀ a ∈ l, links (key a) = some (parent a))
    (hall : ∀ i, (links i).isSome → ∃ a ∈ l, key a = i) : Closed key parent l := fun a ha j hj =>
  hall j (h.parent (by rw [hl a ha, hj]))

end Links

end Aipcs

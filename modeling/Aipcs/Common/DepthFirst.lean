import Mathlib.Data.List.Dedup
import Mathlib.Data.List.Nodup
import Mathlib.Data.List.Perm.Subperm
import Mathlib.Logic.Relation

/-!
# Depth-first search — finding a directed cycle

The search that keeps the nodes on its path and the nodes it has
completed, and stops when it meets a node on its path. What it completes
is in topological order (`visit_topological`), so a search that ends has
seen no cycle; one that stops has closed one (`cyclic_of_visit_none`), the
fuel being more than a path can be long.
-/

namespace Aipcs

namespace DepthFirst

variable {α : Type} [DecidableEq α] (next : α → List α)

/-- One node: the nodes completed after it, or nothing when the search
has met its own path. -/
def visit : ℕ → List α → List α → α → Option (List α)
  | 0, _, _, _ => none
  | fuel + 1, path, done, node =>
    if node ∈ path then none
    else if node ∈ done then some done
    else ((next node).foldlM (fun done target => visit fuel (node :: path) done target) done).map (node :: ·)

/-- The nodes that a search from the roots completes. -/
def search (fuel : ℕ) (roots : List α) : Option (List α) :=
  roots.foldlM (fun done node => visit next fuel [] done node) []

/-- One edge. -/
def Edge (a b : α) : Prop := b ∈ next a

/-- Some node is reached from itself along one edge or more. -/
def Cyclic : Prop := ∃ a, Relation.TransGen (Edge next) a a

/-! ## Completed nodes -/

/-- Every node comes before those it leads to. -/
inductive Topological : List α → Prop
  | nil : Topological []
  | cons {a : α} {done : List α} : Topological done → a ∉ done → (∀ b ∈ next a, b ∈ done) →
      Topological (a :: done)

variable {next} {fuel : ℕ} {path done done' nodes support : List α} {node : α}

namespace Topological

omit [DecidableEq α] in
/-- What a completed node leads to is completed. -/
theorem closed (h : Topological next done) {a b : α} (hab : Relation.TransGen (Edge next) a b) (ha : a ∈ done) :
    b ∈ done := by
  have hone : ∀ {l : List α}, Topological next l → ∀ {x y : α}, x ∈ l → y ∈ next x → y ∈ l := by
    intro l hl
    induction hl with
    | nil => exact fun hx => absurd hx List.not_mem_nil
    | @cons c l _ _ hc ih =>
      intro x y hx hy
      rcases List.mem_cons.1 hx with rfl | hx
      · exact List.mem_cons_of_mem _ (hc y hy)
      · exact List.mem_cons_of_mem _ (ih hx hy)
  induction hab with
  | single hb => exact hone h ha hb
  | tail _ hb ih => exact hone h ih hb

omit [DecidableEq α] in
/-- **No completed node is on a cycle.** -/
theorem not_reaches_self (h : Topological next done) {a : α} (ha : a ∈ done) :
    ¬ Relation.TransGen (Edge next) a a := by
  induction h with
  | nil => exact absurd ha List.not_mem_nil
  | @cons c l hl hnot hc ih =>
    rcases List.mem_cons.1 ha with rfl | ha
    · -- the path leaves the head for good
      intro hcycle
      obtain ⟨b, hab, hba⟩ := Relation.TransGen.head'_iff.1 hcycle
      rcases Relation.reflTransGen_iff_eq_or_transGen.1 hba with heq | hba
      · exact hnot (heq ▸ hc b hab)
      · exact hnot (hl.closed hba (hc b hab))
    · exact ih ha

end Topological

/-! ## A search that ends -/

omit [DecidableEq α] in
/-- A fold of visits keeps what each visit keeps. -/
theorem foldlM_kept {f : List α → α → Option (List α)} {P : List α → Prop} {Q : α → List α → Prop}
    (hstep : ∀ l b l', P l → f l b = some l' → P l' ∧ l <:+ l' ∧ Q b l')
    (hmono : ∀ b l l', Q b l → l <:+ l' → Q b l') (h : nodes.foldlM f done = some done') (hdone : P done) :
    P done' ∧ done <:+ done' ∧ ∀ b ∈ nodes, Q b done' := by
  induction nodes generalizing done with
  | nil =>
    obtain rfl := Option.some.inj h
    exact ⟨hdone, List.suffix_rfl, fun b hb => absurd hb List.not_mem_nil⟩
  | cons b nodes ih =>
    rw [List.foldlM_cons, Option.bind_eq_bind, Option.bind_eq_some_iff] at h
    obtain ⟨l, hl, h⟩ := h
    obtain ⟨hP, hsuffix, hQ⟩ := hstep _ _ _ hdone hl
    obtain ⟨hP', hsuffix', hQ'⟩ := ih h hP
    refine ⟨hP', hsuffix.trans hsuffix', fun c hc => ?_⟩
    rcases List.mem_cons.1 hc with rfl | hc
    · exact hmono _ _ _ hQ hsuffix'
    · exact hQ' c hc

/-- **A visit completes its node**, and none of its path. -/
theorem visit_topological (h : visit next fuel path done node = some done')
    (hdone : Topological next done ∧ ∀ a ∈ path, a ∉ done) :
    (Topological next done' ∧ ∀ a ∈ path, a ∉ done') ∧ done <:+ done' ∧ node ∈ done' := by
  induction fuel generalizing path done node done' with
  | zero => exact absurd h (by simp [visit])
  | succ fuel ih =>
    rw [visit] at h
    split_ifs at h with hpath hvisited
    · obtain rfl := Option.some.inj h
      exact ⟨hdone, List.suffix_rfl, hvisited⟩
    obtain ⟨l, hl, rfl⟩ := Option.map_eq_some_iff.1 h
    have hstart : Topological next done ∧ ∀ a ∈ node :: path, a ∉ done :=
      ⟨hdone.1, List.forall_mem_cons.2 ⟨hvisited, hdone.2⟩⟩
    obtain ⟨⟨htop, hnot⟩, hsuffix, htargets⟩ := foldlM_kept (Q := fun b l => b ∈ l)
      (fun _ _ _ hP hf => ih hf hP) (fun _ _ _ hb hs => hs.mem hb) hl hstart
    obtain ⟨hnode, hnot⟩ := List.forall_mem_cons.1 hnot
    refine ⟨⟨htop.cons hnode htargets, fun a ha => ?_⟩, hsuffix.trans (List.suffix_cons _ _), List.mem_cons_self⟩
    rw [List.mem_cons, not_or]
    exact ⟨fun heq => hpath (heq ▸ ha), hnot a ha⟩

/-- A search that ends has its roots, in topological order. -/
theorem search_topological {roots : List α} (h : search next fuel roots = some done) :
    Topological next done ∧ ∀ a ∈ roots, a ∈ done := by
  obtain ⟨⟨htop, -⟩, -, hroots⟩ := foldlM_kept (Q := fun b l => b ∈ l)
    (fun _ _ _ hP (hf : visit next fuel [] _ _ = _) => visit_topological hf hP) (fun _ _ _ hb hs => hs.mem hb) h
    ⟨.nil, fun _ ha => absurd ha List.not_mem_nil⟩
  exact ⟨htop, hroots⟩

/-! ## A search that stops -/

omit [DecidableEq α] in
theorem exists_of_foldlM_none {f : List α → α → Option (List α)} (h : nodes.foldlM f done = none) :
    ∃ b ∈ nodes, ∃ l, f l b = none := by
  induction nodes generalizing done with
  | nil => exact absurd h (by simp)
  | cons b nodes ih =>
    rw [List.foldlM_cons, Option.bind_eq_bind] at h
    cases hf : f done b with
    | none => exact ⟨b, List.mem_cons_self, done, hf⟩
    | some l =>
      rw [hf, Option.bind_some] at h
      obtain ⟨c, hc, l', hl'⟩ := ih h
      exact ⟨c, List.mem_cons_of_mem _ hc, l', hl'⟩

/-- **A visit that stops has closed a cycle.** The path leads to the node,
and is of nodes with edges out of them, of which there are fewer than the
fuel and the path together. -/
theorem cyclic_of_visit_none (hsupport : ∀ a b, b ∈ next a → a ∈ support)
    (hfuel : support.length < fuel + path.length) (hnodup : path.Nodup) (hpath : ∀ a ∈ path, a ∈ support)
    (hleads : ∀ a ∈ path, Relation.TransGen (Edge next) a node) (h : visit next fuel path done node = none) :
    Cyclic next := by
  induction fuel generalizing path done node with
  | zero =>
    have hle : path.length ≤ support.length := (List.subperm_of_subset hnodup hpath).length_le
    omega
  | succ fuel ih =>
    rw [visit] at h
    split_ifs at h with hmem hvisited
    · exact ⟨node, hleads node hmem⟩
    obtain ⟨target, htarget, l, hl⟩ := exists_of_foldlM_none (Option.map_eq_none_iff.1 h)
    have hedge : Relation.TransGen (Edge next) node target := .single htarget
    refine @ih (node :: path) _ _ ?_ (List.nodup_cons.2 ⟨hmem, hnodup⟩)
      (List.forall_mem_cons.2 ⟨hsupport node target htarget, hpath⟩)
      (List.forall_mem_cons.2 ⟨hedge, fun a ha => (hleads a ha).trans hedge⟩) hl
    rw [List.length_cons]
    omega

/-- **The search finds a cycle exactly when there is one**, from roots
among which is every node that an edge leaves. -/
theorem search_eq_none_iff {roots : List α} (hroots : ∀ a b, b ∈ next a → a ∈ roots)
    (hsupport : ∀ a b, b ∈ next a → a ∈ support) (hfuel : support.length < fuel) :
    search next fuel roots = none ↔ Cyclic next := by
  constructor
  · intro h
    obtain ⟨b, -, l, hl⟩ := exists_of_foldlM_none h
    exact cyclic_of_visit_none hsupport (by rwa [List.length_nil]) List.nodup_nil
      (fun a ha => absurd ha List.not_mem_nil) (fun a ha => absurd ha List.not_mem_nil) hl
  · rintro ⟨a, ha⟩
    cases h : search next fuel roots with
    | none => rfl
    | some done =>
      obtain ⟨htop, hmem⟩ := search_topological h
      obtain ⟨b, hab, -⟩ := Relation.TransGen.head'_iff.1 ha
      exact absurd ha (htop.not_reaches_self (hmem a (hroots a b hab)))

end DepthFirst

end Aipcs

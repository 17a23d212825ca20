import Mathlib

/-!
# Graphs that lose edges

What can be reached in a graph, and what becomes of it when some of the nodes
lose their edges.

* `reach` — all that can be reached from a node, the node included.
* `Closed` — a set of nodes that no edge leaves.
* `reach_congr` — what can be reached depends on the edges there only.
* `union_reach` — when the nodes of a closed set lose their edges, nothing is
  lost of what can be reached but what lies in the set.
* `Acyclic` — there is no cycle within reach; losing edges makes none.
* `HeightLt` — no path is longer than this; `Acyclic.exists_heightLt` says that
  there is such a bound, if only finitely many nodes can be reached.
-/

namespace Graph

variable {α : Type} {R R' : α → α → Prop} {a b x y : α} {S T : Set α}

/-- What can be reached from a node. -/
def reach (R : α → α → Prop) (a : α) : Set α := {x | Relation.ReflTransGen R a x}

theorem self_mem_reach : a ∈ reach R a := Relation.ReflTransGen.refl

theorem reach_of_edge (h : R a b) (hx : x ∈ reach R b) : x ∈ reach R a := Relation.ReflTransGen.head h hx

/-- What can be reached is the node, or can be reached from a node next to it. -/
theorem mem_reach_iff : x ∈ reach R a ↔ x = a ∨ ∃ b, R a b ∧ x ∈ reach R b :=
  Relation.ReflTransGen.cases_head_iff.trans (or_congr_left eq_comm)

theorem reach_subset (h : ∀ x ∈ reach R' a, ∀ y, R x y → R' x y) : reach R a ⊆ reach R' a := by
  intro x hx
  induction hx with
  | refl => exact self_mem_reach
  | tail _ hedge ih => exact Relation.ReflTransGen.tail ih (h _ ih _ hedge)

/-- Two graphs with the same edges within reach. -/
theorem reach_congr (h : ∀ x ∈ reach R a, ∀ y, R x y ↔ R' x y) : reach R' a = reach R a := by
  refine Set.Subset.antisymm (reach_subset fun x hx y => (h x hx y).2) ?_
  intro x hx
  induction hx with
  | refl => exact self_mem_reach
  | tail hpath hedge ih => exact Relation.ReflTransGen.tail ih ((h _ hpath _).1 hedge)

/-! ## Closed sets -/

/-- No edge leaves the set. -/
def Closed (R : α → α → Prop) (S : Set α) : Prop := ∀ x ∈ S, ∀ y, R x y → y ∈ S

theorem closed_empty : Closed R ∅ := fun _ hx => hx.elim

theorem closed_reach : Closed R (reach R a) := fun _ hx _ hedge => Relation.ReflTransGen.tail hx hedge

theorem Closed.union (hS : Closed R S) (hT : Closed R T) : Closed R (S ∪ T) := by
  rintro x (hx | hx) y hedge
  · exact .inl (hS x hx y hedge)
  · exact .inr (hT x hx y hedge)

/-- **Losing edges.**  The nodes of a closed set may lose theirs. -/
theorem union_reach (hsub : ∀ x ∈ reach R a, ∀ y, R' x y → R x y)
    (hkeep : ∀ x ∈ reach R a, x ∉ S → ∀ y, R x y → R' x y) (hS : Closed R S) :
    S ∪ reach R' a = S ∪ reach R a := by
  refine Set.Subset.antisymm (Set.union_subset_union_right S (reach_subset hsub)) ?_
  refine Set.union_subset Set.subset_union_left fun x hx => ?_
  -- along the path either the set has been entered, or every edge is still there
  induction hx with
  | refl => exact .inr self_mem_reach
  | @tail x y hpath hedge ih =>
      by_cases hx : x ∈ S
      · exact .inl (hS x hx y hedge)
      · refine .inr (Relation.ReflTransGen.tail (ih.resolve_left hx) ?_)
        exact hkeep x hpath hx y hedge

/-! ## Cycles -/

/-- There is no cycle within reach. -/
def Acyclic (R : α → α → Prop) (a : α) : Prop := ∀ x ∈ reach R a, ¬ Relation.TransGen R x x

theorem Acyclic.not_mem_reach (h : Acyclic R a) (hedge : R a b) : a ∉ reach R b :=
  fun hback => h a self_mem_reach (Relation.TransGen.head' hedge hback)

theorem Acyclic.of_edge (h : Acyclic R a) (hedge : R a b) : Acyclic R b :=
  fun x hx => h x (reach_of_edge hedge hx)

/-- Losing edges makes no cycle. -/
theorem Acyclic.mono (h : Acyclic R a) (hsub : ∀ x ∈ reach R a, ∀ y, R' x y → R x y) :
    Acyclic R' a := by
  intro x hx hcycle
  have hx' : x ∈ reach R a := reach_subset hsub hx
  refine h x hx' ?_
  have hpath : ∀ y, Relation.TransGen R' x y → Relation.TransGen R x y := by
    intro y hy
    induction hy with
    | single hedge => exact .single (hsub x hx' _ hedge)
    | tail _ hedge ih =>
        exact .tail ih (hsub _ (Relation.ReflTransGen.trans hx' ih.to_reflTransGen) _ hedge)
  exact hpath x hcycle

/-- Where every edge leads to something larger there is no cycle. -/
theorem Acyclic.of_lt [Preorder α] (h : ∀ x y, R x y → x < y) : Acyclic R a := by
  intro x _ hcycle
  have hpath : ∀ y, Relation.TransGen R x y → x < y := by
    intro y hy
    induction hy with
    | single hedge => exact h _ _ hedge
    | tail _ hedge ih => exact ih.trans (h _ _ hedge)
  exact lt_irrefl x (hpath x hcycle)

/-! ## Heights -/

/-- Every path from the node has fewer edges than this. -/
def HeightLt (R : α → α → Prop) : Nat → α → Prop
  | 0, _ => False
  | n + 1, a => ∀ b, R a b → HeightLt R n b

theorem HeightLt.mono {m n : Nat} (h : HeightLt R n a) (hmn : n ≤ m) : HeightLt R m a := by
  induction n generalizing m a with
  | zero => exact h.elim
  | succ n ih =>
      obtain ⟨m, rfl⟩ : ∃ k, m = k + 1 := ⟨m - 1, by omega⟩
      exact fun b hedge => ih (h b hedge) (by omega)

/-- **No cycle and finitely many nodes** make a bound.  By induction on how many nodes
can be reached: from a node next to it, the node itself cannot. -/
theorem Acyclic.exists_heightLt (h : Acyclic R a) (hfinite : (reach R a).Finite) :
    ∃ n, HeightLt R n a := by
  have hall : ∀ n a, Acyclic R a → (reach R a).Finite → (reach R a).ncard ≤ n → HeightLt R n a := by
    intro n
    induction n with
    | zero =>
        intro a _ hfinite hcard
        have hempty := (Set.ncard_eq_zero hfinite).1 (Nat.le_zero.1 hcard)
        exact absurd self_mem_reach (hempty ▸ Set.notMem_empty a)
    | succ n ih =>
        intro a hacyclic hfinite hcard b hedge
        have hsub : reach R b ⊆ reach R a := fun x => reach_of_edge hedge
        have hssub : reach R b ⊂ reach R a :=
          (Set.ssubset_iff_of_subset hsub).2 ⟨a, self_mem_reach, hacyclic.not_mem_reach hedge⟩
        have hlt := Set.ncard_lt_ncard hssub hfinite
        exact ih b (hacyclic.of_edge hedge) (hfinite.subset hsub) (by omega)
  exact ⟨_, hall _ a h hfinite le_rfl⟩

end Graph

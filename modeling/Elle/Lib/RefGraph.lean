import Mathlib

/-! # What reference counting reclaims

Nodes hold counted references on each other, and each node has a count.  When a node is given up, the nodes whose
counts the references of the nodes given up account for follow: `Closed` says that a set of nodes is closed under
this, and the least closed set around a node is what a reference counter reclaims with it.
-/

/-- Finitely many nodes, the references they hold on each other and a count for each. -/
structure RefGraph (α : Type*) where
  nodes : Finset α
  refs : α → α → Nat
  count : α → Nat

namespace RefGraph

variable {α : Type*} (g : RefGraph α)

/-- The references the nodes of `S` hold on `x`. -/
def held (S : Finset α) (x : α) : Nat := ∑ k ∈ S, g.refs k x

/-- Every count is at least the number of references into its node, that of `r` apart. -/
def Covered (r : α) : Prop := ∀ x ∈ g.nodes, x ≠ r → g.held g.nodes x ≤ g.count x

/-- The set contains `r` and every node whose whole count is references that the set holds. -/
structure Closed (r : α) (S : Finset α) : Prop where
  root : r ∈ S
  nodes : S ⊆ g.nodes
  step : ∀ x ∈ g.nodes, 0 < g.held S x → g.count x = g.held S x → x ∈ S

variable {g} {r x : α} {S T : Finset α}

theorem held_mono (h : S ⊆ T) (x : α) : g.held S x ≤ g.held T x := Finset.sum_le_sum_of_subset h

theorem Closed.mem_of_subset (hg : g.Covered r) (hS : g.Closed r S) (hT : T ⊆ S) (hx : x ∈ g.nodes) (hxr : x ≠ r)
    (hpos : 0 < g.held T x) (hle : g.count x ≤ g.held T x) : x ∈ S := by
  have h1 := held_mono (g := g) hT x
  have h2 := held_mono (g := g) hS.nodes x
  have h3 := hg x hx hxr
  exact hS.step x hx (hpos.trans_le h1) (by omega)

theorem exists_isLeast_closed (hg : g.Covered r) (hr : r ∈ g.nodes) : ∃ S, IsLeast {S | g.Closed r S} S := by
  classical
  let S := g.nodes.filter fun x => ∀ T, g.Closed r T → x ∈ T
  have hsub : ∀ T, g.Closed r T → S ⊆ T := fun T hT x hx => (Finset.mem_filter.1 hx).2 T hT
  refine ⟨S, ⟨Finset.mem_filter.2 ⟨hr, fun T hT => hT.root⟩, Finset.filter_subset _ _, fun x hx hpos hcount => ?_⟩, hsub⟩
  refine Finset.mem_filter.2 ⟨hx, fun T hT => ?_⟩
  by_cases hxr : x = r
  · exact hxr ▸ hT.root
  · exact hT.mem_of_subset hg (hsub T hT) hx hxr hpos hcount.le

end RefGraph

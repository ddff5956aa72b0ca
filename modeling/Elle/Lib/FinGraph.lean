import Elle.Lib.BoundedLoop

/-! # Walks over a finite graph

The depth-first walks of a program that keeps its graph in successor lists and its visited nodes in a set.
`closure` visits everything reachable from a stack of roots (`mem_closure`); `prune` takes what a node
reaches out of a set of nodes, and walks on only from nodes it took out (`mem_prune`).
The stack has its top at the head, so pushing successors in order leaves the last one on top.
-/

/-- A directed graph given by successor lists, of which finitely many are not empty. -/
structure FinGraph (α : Type*) where
  succ : α → List α
  support : Finset α
  succ_eq_nil : ∀ {a}, a ∉ support → succ a = []

namespace FinGraph

open List

variable {α : Type*} (g : FinGraph α)

/-- The node `b` can be reached from `a` along successors. -/
def Reach : α → α → Prop := Relation.ReflTransGen fun a b => b ∈ g.succ a

variable {g} {a b c : α}

theorem Reach.refl : g.Reach a a := Relation.ReflTransGen.refl

theorem Reach.tail (h : g.Reach a b) (hc : c ∈ g.succ b) : g.Reach a c := Relation.ReflTransGen.tail h hc

theorem Reach.mono {g' : FinGraph α} (h : g.Reach a b) (hg : ∀ x, ∀ y ∈ g.succ x, y ∈ g'.succ x) : g'.Reach a b :=
  Relation.ReflTransGen.mono (fun x y hy => hg x y hy) _ _ h

theorem Reach.mem_of_closed {S : α → Prop} (h : g.Reach a b) (hS : ∀ x, S x → ∀ y ∈ g.succ x, S y) (ha : S a) :
    S b := by
  induction h with
  | refl => exact ha
  | tail _ hc ih => exact hS _ ih _ hc

variable [DecidableEq α] (g)

/-! ### The closure of a set of roots -/

/-- The state of a walk: the nodes still to visit and those visited. -/
structure Walk (α : Type*) where
  stack : List α
  seen : Finset α

/-- Pop a node; an unseen one is marked and its successors are pushed. -/
def walkStep (w : Walk α) : Option (Walk α) :=
  match w.stack with
  | [] => none
  | a :: rest =>
    if a ∈ w.seen then some ⟨rest, w.seen⟩
    else some ⟨(g.succ a).reverse ++ rest, insert a w.seen⟩

/-- The number of successors of the nodes not seen yet. -/
def unseen (seen : Finset α) : Nat := ∑ a ∈ g.support \ seen, (g.succ a).length

theorem unseen_insert {seen : Finset α} {a : α} (ha : a ∉ seen) :
    g.unseen (insert a seen) + (g.succ a).length = g.unseen seen := by
  by_cases hs : a ∈ g.support
  · have : g.support \ seen = insert a (g.support \ insert a seen) := by
      ext x; by_cases hx : x = a <;> simp [hx, hs, ha]
    rw [unseen, unseen, this, Finset.sum_insert (by simp), Nat.add_comm]
  · have : g.support \ insert a seen = g.support \ seen := by
      ext x; by_cases hx : x = a <;> simp [hx, hs]
    rw [unseen, unseen, this, g.succ_eq_nil hs, length_nil, Nat.add_zero]

/-- The walk as a loop: each pop shortens the stack, and what it pushes was still unseen. -/
def walk : BoundedLoop (Walk α) where
  step := g.walkStep
  measure w := w.stack.length + g.unseen w.seen
  decreases {w w'} h := by
    obtain ⟨_ | ⟨a, rest⟩, seen⟩ := w
    · simp [walkStep] at h
    · by_cases ha : a ∈ seen
      · simp only [walkStep, ha, if_true, Option.some.injEq] at h
        subst h; simp
      · simp only [walkStep, ha, if_false, Option.some.injEq] at h
        subst h
        have := g.unseen_insert ha
        simp only [length_append, length_reverse, length_cons]
        omega

def closure (roots : List α) : Finset α := (g.walk.run ⟨roots, ∅⟩).seen

/-- What the walk keeps: it sees only reachable nodes, and the successors of a seen node, like the roots, are
seen or still on the stack. -/
structure WalkInv (roots : List α) (w : Walk α) : Prop where
  sound : ∀ x, x ∈ w.stack ∨ x ∈ w.seen → ∃ r ∈ roots, g.Reach r x
  roots : ∀ r ∈ roots, r ∈ w.stack ∨ r ∈ w.seen
  closed : ∀ x ∈ w.seen, ∀ y ∈ g.succ x, y ∈ w.stack ∨ y ∈ w.seen

variable {g} {roots : List α}

theorem WalkInv.step {w w' : Walk α} (h : g.walkStep w = some w') (hw : g.WalkInv roots w) :
    g.WalkInv roots w' := by
  obtain ⟨_ | ⟨a, rest⟩, seen⟩ := w
  · simp [walkStep] at h
  obtain ⟨hsound, hroots, hclosed⟩ := hw
  simp only [mem_cons] at hsound hroots hclosed
  by_cases ha : a ∈ seen
  · simp only [walkStep, ha, if_true, Option.some.injEq] at h
    subst h
    -- the popped node was seen before, so being on the stack and being seen lose nothing
    have drop : ∀ {x}, (x = a ∨ x ∈ rest) ∨ x ∈ seen → x ∈ rest ∨ x ∈ seen := by
      rintro x ((rfl | hx) | hx)
      exacts [.inr ha, .inl hx, .inr hx]
    exact ⟨fun x hx => hsound x (hx.imp_left .inr), fun r hr => drop (hroots r hr),
      fun x hx y hy => drop (hclosed x hx y hy)⟩
  · simp only [walkStep, ha, if_false, Option.some.injEq] at h
    subst h
    obtain ⟨r, hr, hra⟩ := hsound a (.inl (.inl rfl))
    have keep : ∀ {x}, (x = a ∨ x ∈ rest) ∨ x ∈ seen →
        x ∈ (g.succ a).reverse ++ rest ∨ x ∈ insert a seen := by
      rintro x ((rfl | hx) | hx)
      exacts [.inr (by simp), .inl (by simp [hx]), .inr (by simp [hx])]
    refine ⟨fun x hx => ?_, fun r hr => keep (hroots r hr), fun x hx y hy => ?_⟩
    · simp only [mem_append, mem_reverse, Finset.mem_insert] at hx
      rcases hx with (hx | hx) | (rfl | hx)
      exacts [⟨r, hr, hra.tail hx⟩, hsound x (.inl (.inr hx)), ⟨r, hr, hra⟩, hsound x (.inr hx)]
    · rcases Finset.mem_insert.1 hx with rfl | hx
      exacts [.inl (by simp [hy]), keep (hclosed x hx y hy)]

theorem walkStep_eq_none {w : Walk α} (h : g.walkStep w = none) : w.stack = [] := by
  obtain ⟨_ | ⟨a, rest⟩, seen⟩ := w
  · rfl
  · simp only [walkStep] at h; split at h <;> simp at h

theorem mem_closure {x : α} : x ∈ g.closure roots ↔ ∃ r ∈ roots, g.Reach r x := by
  have hinv : g.WalkInv roots (g.walk.run ⟨roots, ∅⟩) :=
    BoundedLoop.run_inv (fun _ _ h hi => hi.step h)
      ⟨fun x hx => ⟨x, by simpa using hx, .refl⟩, fun r hr => .inl hr, by simp⟩
  have hstack := walkStep_eq_none (BoundedLoop.step_run (L := g.walk) ⟨roots, ∅⟩)
  obtain ⟨hsound, hroots, hclosed⟩ := hinv
  simp only [hstack, not_mem_nil, false_or] at hsound hroots hclosed
  exact ⟨hsound x, fun ⟨r, hr, h⟩ => h.mem_of_closed hclosed (hroots r hr)⟩

/-! ### Taking what a node reaches out of a set -/

variable (g)

/-- The state of a pruning walk: the nodes still to visit and the set they are taken out of. -/
structure Prune (α : Type*) where
  stack : List α
  left : Finset α

/-- Pop a node; one that is still in the set is taken out and its successors are pushed. -/
def pruneStep (p : Prune α) : Option (Prune α) :=
  match p.stack with
  | [] => none
  | a :: rest =>
    if a ∈ p.left then some ⟨(g.succ a).reverse ++ rest, p.left.erase a⟩
    else some ⟨rest, p.left⟩

def pruning : BoundedLoop (Prune α) where
  step := g.pruneStep
  measure p := p.stack.length + ∑ a ∈ p.left, (g.succ a).length
  decreases {p p'} h := by
    obtain ⟨_ | ⟨a, rest⟩, left⟩ := p
    · simp [pruneStep] at h
    · by_cases ha : a ∈ left
      · simp only [pruneStep, ha, if_true, Option.some.injEq] at h
        subst h
        have := Finset.add_sum_erase left (fun x => (g.succ x).length) ha
        simp only [length_append, length_reverse, length_cons]
        omega
      · simp only [pruneStep, ha, if_false, Option.some.injEq] at h
        subst h; simp

/-- The set `left` without what `r` reaches through it. -/
def prune (r : α) (left : Finset α) : Finset α := (g.pruning.run ⟨[r], left⟩).left

/-- What a pruning walk from `r` keeps: it takes out only what `r` reaches, and the successors of a node it
took out, like `r` itself, are out as well or still on the stack. -/
structure PruneInv (r : α) (left : Finset α) (p : Prune α) : Prop where
  subset : p.left ⊆ left
  stack : ∀ x ∈ p.stack, g.Reach r x
  sound : ∀ x ∈ left, x ∉ p.left → g.Reach r x
  root : r ∈ p.stack ∨ r ∉ p.left
  closed : ∀ x ∈ left, x ∉ p.left → ∀ y ∈ g.succ x, y ∈ p.stack ∨ y ∉ p.left

variable {g} {r : α} {left : Finset α}

theorem PruneInv.step {p p' : Prune α} (h : g.pruneStep p = some p') (hp : g.PruneInv r left p) :
    g.PruneInv r left p' := by
  obtain ⟨_ | ⟨a, rest⟩, now⟩ := p
  · simp [pruneStep] at h
  obtain ⟨hsub, hstack, hsound, hroot, hclosed⟩ := hp
  simp only [mem_cons] at hsub hstack hsound hroot hclosed
  have hra : g.Reach r a := hstack a (.inl rfl)
  by_cases ha : a ∈ now
  · simp only [pruneStep, ha, if_true, Option.some.injEq] at h
    subst h
    have keep : ∀ {x}, (x = a ∨ x ∈ rest) ∨ x ∉ now → x ∈ (g.succ a).reverse ++ rest ∨ x ∉ now.erase a := by
      rintro x ((rfl | hx) | hx)
      exacts [.inr (by simp), .inl (by simp [hx]), .inr (by simp [hx])]
    refine ⟨(Finset.erase_subset _ _).trans hsub, fun x hx => ?_, fun x hx hn => ?_, keep hroot, fun x hx hn y hy => ?_⟩
    · rcases List.mem_append.1 hx with hx | hx
      exacts [hra.tail (List.mem_reverse.1 hx), hstack x (.inr hx)]
    · by_cases hxa : x = a
      · exact hxa ▸ hra
      · exact hsound x hx fun h => hn (Finset.mem_erase.2 ⟨hxa, h⟩)
    · by_cases hxa : x = a
      · exact .inl (mem_append_left _ (List.mem_reverse.2 (hxa ▸ hy)))
      · exact keep (hclosed x hx (fun h => hn (Finset.mem_erase.2 ⟨hxa, h⟩)) y hy)
  · simp only [pruneStep, ha, if_false, Option.some.injEq] at h
    subst h
    -- the popped node is out already
    have drop : ∀ {x}, (x = a ∨ x ∈ rest) ∨ x ∉ now → x ∈ rest ∨ x ∉ now := by
      rintro x ((rfl | hx) | hx)
      exacts [.inr ha, .inl hx, .inr hx]
    exact ⟨hsub, fun x hx => hstack x (.inr hx), hsound, drop hroot, fun x hx hn y hy => drop (hclosed x hx hn y hy)⟩

theorem pruneStep_eq_none {p : Prune α} (h : g.pruneStep p = none) : p.stack = [] := by
  obtain ⟨_ | ⟨a, rest⟩, left⟩ := p
  · rfl
  · simp only [pruneStep] at h; split at h <;> simp at h

theorem prune_inv (r : α) (left : Finset α) : g.PruneInv r left ⟨[], g.prune r left⟩ := by
  have hinv : g.PruneInv r left (g.pruning.run ⟨[r], left⟩) :=
    BoundedLoop.run_inv (fun _ _ h hi => hi.step h)
      ⟨subset_rfl, by simp [Reach.refl], fun x hx hn => absurd hx hn, .inl (by simp), fun x hx hn => absurd hx hn⟩
  have hstack := pruneStep_eq_none (BoundedLoop.step_run (L := g.pruning) ⟨[r], left⟩)
  have heq : g.pruning.run ⟨[r], left⟩ = ⟨[], g.prune r left⟩ := congrArg (Prune.mk · _) hstack
  exact heq ▸ hinv

theorem prune_subset : g.prune r left ⊆ left := (prune_inv r left).subset

theorem not_mem_prune_self : r ∉ g.prune r left := by simpa using (prune_inv (g := g) r left).root

/-- When nothing outside the set leads back into it, the walk takes out exactly what `r` reaches. -/
theorem mem_prune (hout : ∀ x ∉ left, ∀ y ∈ g.succ x, y ∉ left) {x : α} :
    x ∈ g.prune r left ↔ x ∈ left ∧ ¬ g.Reach r x := by
  have hinv := prune_inv (g := g) r left
  refine ⟨fun hx => ⟨hinv.subset hx, fun h => ?_⟩, fun ⟨hx, hr⟩ => ?_⟩
  · refine h.mem_of_closed (S := fun y => y ∉ g.prune r left) (fun y hy z hz => ?_) not_mem_prune_self hx
    by_cases hyl : y ∈ left
    · simpa using hinv.closed y hyl hy z hz
    · exact fun h => hout y hyl z hz (hinv.subset h)
  · by_contra hn
    exact hr (hinv.sound x hx hn)

end FinGraph

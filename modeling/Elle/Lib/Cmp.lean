import Mathlib

/-!
# Laws of a comparison, at given elements

A comparison that is a total order only on part of its type has the laws element by element:
`cmp b a = (cmp a b).swap`, and `Consistent (cmp a b) (cmp b c) (cmp a c)` for transitivity. Both
pass through ranks, lexicographic pairs and lists.
-/

namespace Cmp

open List

variable {α β : Type}

/-- What three comparisons of three elements have to do with each other in a total order. -/
def Consistent (ab bc ac : Ordering) : Prop :=
  (ab = .eq → ac = bc) ∧ (bc = .eq → ac = ab) ∧ (ab = bc → ac = ab)

instance (ab bc ac : Ordering) : Decidable (Consistent ab bc ac) :=
  inferInstanceAs (Decidable (_ ∧ _ ∧ _))

theorem Consistent.then {ab bc ac ab' bc' ac' : Ordering} (h : Consistent ab bc ac)
    (h' : ab = .eq → bc = .eq → Consistent ab' bc' ac') :
    Consistent (ab.then ab') (bc.then bc') (ac.then ac') := by
  cases ab <;> cases bc
  case eq.eq =>
    rw [h.1 rfl]
    exact h' rfl rfl
  all_goals
    clear h'
    revert h
    revert ac ab' bc' ac'
    decide

theorem swap_then {ab ba ab' ba' : Ordering} (h : ba = ab.swap) (h' : ba' = ab'.swap) :
    ba.then ba' = (ab.then ab').swap := by
  subst h h'
  cases ab <;> rfl

theorem consistent_compare [LinearOrder α] (a b c : α) :
    Consistent (compare a b) (compare b c) (compare a c) := by
  refine ⟨fun h => ?_, fun h => ?_, fun h => ?_⟩
  · rw [compare_eq_iff_eq.1 h]
  · rw [compare_eq_iff_eq.1 h]
  · cases hab : compare a b with
    | eq => rw [compare_eq_iff_eq.1 hab, ← h, hab]
    | lt =>
      rw [hab] at h
      exact compare_lt_iff_lt.2 (lt_trans (compare_lt_iff_lt.1 hab) (compare_lt_iff_lt.1 h.symm))
    | gt =>
      rw [hab] at h
      exact compare_gt_iff_gt.2 (gt_trans (compare_gt_iff_gt.1 hab) (compare_gt_iff_gt.1 h.symm))

theorem compare_swap [LinearOrder α] (a b : α) : compare b a = (compare a b).swap :=
  Std.OrientedOrd.eq_swap

variable {cmp : α → α → Ordering}

theorem compareLex_cons (cmp : α → α → Ordering) (x y : α) (xs ys : List α) :
    (x :: xs).compareLex cmp (y :: ys) = (cmp x y).then (xs.compareLex cmp ys) := by
  simp only [List.compareLex]
  cases cmp x y <;> rfl

theorem consistent_compareLex {xs ys zs : List α}
    (h : ∀ x ∈ xs, ∀ y ∈ ys, ∀ z ∈ zs, Consistent (cmp x y) (cmp y z) (cmp x z)) :
    Consistent (xs.compareLex cmp ys) (ys.compareLex cmp zs) (xs.compareLex cmp zs) := by
  induction xs generalizing ys zs with
  | nil => cases ys <;> cases zs <;> simp [List.compareLex, Consistent]
  | cons x xs ih =>
    rcases ys with - | ⟨y, ys⟩ <;> rcases zs with - | ⟨z, zs⟩
    · simp [List.compareLex, Consistent]
    · simp [List.compareLex, Consistent]
    · exact ⟨fun _ => by simp [List.compareLex], fun h => (by simp [List.compareLex] at h),
        fun h => h.symm ▸ rfl⟩
    · simp only [compareLex_cons]
      refine (h x mem_cons_self y mem_cons_self z mem_cons_self).then fun _ _ => ?_
      exact ih fun x hx y hy z hz => h x (mem_cons_of_mem _ hx) y (mem_cons_of_mem _ hy) z
        (mem_cons_of_mem _ hz)

theorem compareLex_swap {xs ys : List α} (h : ∀ x ∈ xs, ∀ y ∈ ys, cmp y x = (cmp x y).swap) :
    ys.compareLex cmp xs = (xs.compareLex cmp ys).swap := by
  induction xs generalizing ys with
  | nil => cases ys <;> rfl
  | cons x xs ih =>
    rcases ys with - | ⟨y, ys⟩
    · rfl
    · simp only [compareLex_cons]
      exact swap_then (h x mem_cons_self y mem_cons_self) (ih fun x hx y hy =>
        h x (mem_cons_of_mem _ hx) y (mem_cons_of_mem _ hy))

theorem compareLex_eq_iff {xs ys : List α} :
    xs.compareLex cmp ys = .eq ↔ List.Forall₂ (fun x y => cmp x y = .eq) xs ys := by
  induction xs generalizing ys with
  | nil => cases ys <;> simp [List.compareLex]
  | cons x xs ih =>
    rcases ys with - | ⟨y, ys⟩
    · simp [List.compareLex]
    · rw [compareLex_cons, Ordering.then_eq_eq, forall₂_cons, ih]

theorem compareLex_self {xs : List α} (h : ∀ x ∈ xs, cmp x x = .eq) : xs.compareLex cmp xs = .eq :=
  compareLex_eq_iff.2 (List.forall₂_same.2 h)

theorem Consistent.isLE {ab bc ac : Ordering} (h : Consistent ab bc ac) (hab : ab.isLE)
    (hbc : bc.isLE) : ac.isLE := by
  revert h hab hbc
  revert ab bc ac
  decide

end Cmp

import Mathlib

/-!
# Lists related element by element

Changing the relation at the elements themselves, and maps that can fail.
-/

namespace Pointwise

variable {α β : Type} {R S : α → β → Prop} {xs : List α} {ys : List β}

theorem imp_mem (h : ∀ x ∈ xs, ∀ y ∈ ys, R x y → S x y) (hxs : List.Forall₂ R xs ys) :
    List.Forall₂ S xs ys := by
  induction hxs with
  | nil => exact .nil
  | cons hd _ ih =>
    exact .cons (h _ List.mem_cons_self _ List.mem_cons_self hd) <|
      ih fun x hx y hy => h x (List.mem_cons_of_mem _ hx) y (List.mem_cons_of_mem _ hy)

theorem congr_mem (h : ∀ x ∈ xs, ∀ y ∈ ys, (R x y ↔ S x y)) : List.Forall₂ R xs ys ↔ List.Forall₂ S xs ys :=
  ⟨imp_mem fun x hx y hy => (h x hx y hy).1, imp_mem fun x hx y hy => (h x hx y hy).2⟩

theorem exists_left (h : List.Forall₂ R xs ys) {y : β} (hy : y ∈ ys) : ∃ x ∈ xs, R x y := by
  induction h with
  | nil => cases hy
  | cons hd _ ih =>
    rcases List.mem_cons.1 hy with rfl | hy
    · exact ⟨_, List.mem_cons_self, hd⟩
    · obtain ⟨x, hx, hR⟩ := ih hy
      exact ⟨x, List.mem_cons_of_mem _ hx, hR⟩

theorem zip {γ δ : Type} {S : γ → δ → Prop} {us : List γ} {ws : List δ} (h : List.Forall₂ R xs ys)
    (h' : List.Forall₂ S us ws) :
    List.Forall₂ (fun e f => R e.1 f.1 ∧ S e.2 f.2) (xs.zip us) (ys.zip ws) := by
  induction h generalizing us ws with
  | nil => exact .nil
  | cons hd _ ih =>
    cases h' with
    | nil => exact .nil
    | cons hd' htl' => exact .cons ⟨hd, hd'⟩ (ih htl')

theorem mapM_eq_some_iff {f : α → Option β} :
    xs.mapM f = some ys ↔ List.Forall₂ (fun x y => f x = some y) xs ys := by
  induction xs generalizing ys with
  | nil => cases ys <;> simp
  | cons x xs ih =>
    rw [List.mapM_cons]
    cases hx : f x with
    | none => simp [hx, List.forall₂_cons_left_iff]
    | some y =>
      cases ys with
      | nil => cases xs.mapM f <;> simp
      | cons z zs =>
        rw [List.forall₂_cons, ← ih, hx]
        cases xs.mapM f <;> simp

end Pointwise

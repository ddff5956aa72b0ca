import Mathlib

/-!
# Lists of choices, compared by their weighted totals

A search that can succeed in several ways answers a list of choices, each a list of atoms. Two such
lists are compared by their totals: give every atom a weight, multiply the weights of a choice and
add up the choices. Equal totals for every weight still pin down a single choice up to the order of
its atoms (`single_of_total_eq`).
-/

namespace Choices

open List

variable {X : Type}

/-- One choice of each list, joined. -/
def cross (xs ys : List (List X)) : List (List X) := xs.flatMap fun x => ys.map fun y => x ++ y

def total (w : X → Nat) (xs : List (List X)) : Nat := (xs.map fun x => (x.map w).prod).sum

section

variable (w : X → Nat)

@[simp] theorem total_nil : total w [] = 0 := rfl

@[simp] theorem total_cons (x : List X) (xs : List (List X)) :
    total w (x :: xs) = (x.map w).prod + total w xs := by simp [total]

theorem total_append (xs ys : List (List X)) :
    total w (xs ++ ys) = total w xs + total w ys := by simp [total]

theorem total_map_append (x : List X) (ys : List (List X)) :
    total w (ys.map fun y => x ++ y) = (x.map w).prod * total w ys := by
  induction ys with
  | nil => simp
  | cons y ys ih => simp [ih, Nat.mul_add]

theorem total_cross (xs ys : List (List X)) :
    total w (cross xs ys) = total w xs * total w ys := by
  induction xs with
  | nil => simp [cross]
  | cons x xs ih =>
    have hc : cross (x :: xs) ys = (ys.map fun y => x ++ y) ++ cross xs ys := by simp [cross]
    rw [hc, total_append, total_map_append, ih, total_cons, Nat.add_mul]

theorem total_flatten (xss : List (List (List X))) :
    total w xss.flatten = (xss.map (total w)).sum := by
  induction xss with
  | nil => rfl
  | cons xs xss ih => simp [total_append, ih]

end

theorem total_one (xs : List (List X)) : total (fun _ => 1) xs = xs.length := by
  induction xs with
  | nil => rfl
  | cons x xs ih => simp [ih, Nat.add_comm]

theorem head?_cross (xs ys : List (List X)) :
    (cross xs ys).head? = xs.head?.bind fun x => ys.head?.map fun y => x ++ y := by
  rcases xs with - | ⟨x, xs⟩
  · rfl
  · rcases ys with - | ⟨y, ys⟩
    · simp [cross]
    · simp [cross]

theorem prod_map_weigh [DecidableEq X] (a : X) (x : List X) :
    (x.map fun b => if b = a then 2 else 1).prod = 2 ^ x.count a := by
  induction x with
  | nil => rfl
  | cons b x ih =>
    rw [map_cons, prod_cons, ih, count_cons]
    by_cases h : b = a
    · simp [h, Nat.pow_succ, Nat.mul_comm]
    · simp [h]

theorem perm_of_prod_eq {x y : List X} (h : ∀ w : X → Nat, (x.map w).prod = (y.map w).prod) :
    x.Perm y := by
  classical
  rw [perm_iff_count]
  intro a
  have ha := h fun b => if b = a then 2 else 1
  rw [prod_map_weigh, prod_map_weigh] at ha
  exact Nat.pow_right_injective (Nat.le_refl 2) ha

/-- Lists of choices with equal totals, one of them with at most one choice, hold the same choice
up to the order of its atoms. -/
theorem single_of_total_eq {xs ys : List (List X)} (h : ∀ w : X → Nat, total w xs = total w ys)
    (hle : ys.length ≤ 1) : xs = [] ∧ ys = [] ∨ ∃ x y, xs = [x] ∧ ys = [y] ∧ x.Perm y := by
  have hlen : xs.length = ys.length := by rw [← total_one, ← total_one, h]
  match xs, ys with
  | [], [] => exact Or.inl ⟨rfl, rfl⟩
  | [x], [y] => exact Or.inr ⟨x, y, rfl, rfl, perm_of_prod_eq fun w => by simpa using h w⟩
  | [], _ :: _ | _ :: _, [] => simp at hlen
  | [_], _ :: _ :: _ => simp at hle
  | _ :: _ :: _, [_] => simp at hlen
  | _ :: _ :: _, _ :: _ :: _ => simp at hle

/-- A product over keys of what an association list holds for them is the product over the list,
when the list names no key twice and no key outside. -/
theorem prod_lookup {K A M : Type} [DecidableEq K] [CommMonoid M] (g : K → A → M) :
    ∀ (entries : List (K × A)) (keys : List K), (entries.map (·.1)).Nodup → keys.Nodup →
      (∀ e ∈ entries, e.1 ∈ keys) →
      (keys.map fun k => ((entries.find? fun e => e.1 = k).map fun e => g k e.2).getD 1).prod =
        (entries.map fun e => g e.1 e.2).prod
  | [], keys, _, _, _ => by simp
  | (k, a) :: entries, keys, he, hk, hmem => by
    have hk0 : k ∈ keys := hmem _ mem_cons_self
    rw [map_cons, nodup_cons] at he
    have hsub : ∀ e ∈ entries, e.1 ∈ keys.erase k := by
      intro e hin
      have hne : e.1 ≠ k := fun heq => he.1 (heq ▸ List.mem_map.2 ⟨e, hin, rfl⟩)
      exact (mem_erase_of_ne hne).2 (hmem e (mem_cons_of_mem _ hin))
    have ih := prod_lookup g entries (keys.erase k) he.2 (hk.erase k) hsub
    have hmap : (keys.erase k).map
          (fun k' => (((((k, a) :: entries).find? fun e => e.1 = k').map fun e => g k' e.2).getD 1)) =
        (keys.erase k).map fun k' => ((entries.find? fun e => e.1 = k').map fun e => g k' e.2).getD 1 := by
      refine map_congr_left fun k' hk' => ?_
      have hne : ¬ k = k' := fun heq => by
        subst heq
        exact hk.not_mem_erase hk'
      simp [hne]
    rw [((perm_cons_erase hk0).map _).prod_eq, map_cons, prod_cons, hmap, ih]
    simp

end Choices

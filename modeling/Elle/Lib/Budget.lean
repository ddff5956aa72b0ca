import Mathlib

/-!
# The newest entries within a budget

A list from newest to oldest whose entries have weights, and the longest of its beginnings that stays
within a budget. It is what eviction from the old end leaves, and entries once evicted play no part when
others are added.
-/

namespace Budget

variable {α : Type*} (w : α → Nat)

def total (xs : List α) : Nat := (xs.map w).sum

/-- The longest beginning within the budget. -/
def fit (budget : Nat) : List α → List α
  | [] => []
  | x :: xs => if w x ≤ budget then x :: fit (budget - w x) xs else []

@[simp] theorem total_nil : total w [] = 0 := rfl

@[simp] theorem total_cons (x : α) (xs : List α) : total w (x :: xs) = w x + total w xs :=
  List.sum_cons

theorem total_append (xs ys : List α) : total w (xs ++ ys) = total w xs + total w ys := by
  simp [total]

variable {w}
variable {xs : List α} {budget : Nat}

theorem total_le_of_isPrefix {ys : List α} (h : xs <+: ys) : total w xs ≤ total w ys := by
  obtain ⟨zs, rfl⟩ := h
  rw [total_append]
  exact Nat.le_add_right _ _

theorem fit_isPrefix (budget : Nat) (xs : List α) : fit w budget xs <+: xs := by
  induction xs generalizing budget with
  | nil => exact List.prefix_rfl
  | cons x xs ih =>
    unfold fit
    split
    · exact (List.prefix_cons_inj x).2 (ih _)
    · exact List.nil_prefix

theorem total_fit_le (budget : Nat) (xs : List α) : total w (fit w budget xs) ≤ budget := by
  induction xs generalizing budget with
  | nil => exact Nat.zero_le _
  | cons x xs ih =>
    unfold fit
    split
    · have := ih (budget - w x)
      rw [total_cons]
      omega
    · exact Nat.zero_le _

theorem isPrefix_fit_iff {ys : List α} (h : xs <+: ys) : xs <+: fit w budget ys ↔ total w xs ≤ budget := by
  refine ⟨fun hp =>
    Nat.le_trans (total_le_of_isPrefix hp) (total_fit_le budget ys), fun hle => ?_⟩
  induction ys generalizing budget xs with
  | nil => rw [List.prefix_nil.1 h]; exact List.nil_prefix
  | cons y ys ih =>
    cases xs with
    | nil => exact List.nil_prefix
    | cons x xs =>
      obtain ⟨rfl, htail⟩ := List.cons_prefix_cons.1 h
      rw [total_cons] at hle
      rw [fit, if_pos (by omega)]
      exact (List.prefix_cons_inj x).2 (ih htail (by omega))

theorem fit_eq_self (h : total w xs ≤ budget) : fit w budget xs = xs :=
  (fit_isPrefix budget xs).eq_of_length_le ((isPrefix_fit_iff List.prefix_rfl).2 h).length_le

theorem fit_fit {small big : Nat} (h : small ≤ big) (xs : List α) :
    fit w small (fit w big xs) = fit w small xs := by
  refine List.IsPrefix.eq_of_length_le ?_ (List.IsPrefix.length_le ?_)
  · exact (isPrefix_fit_iff ((fit_isPrefix _ _).trans (fit_isPrefix _ _))).2 (total_fit_le _ _)
  · have hle := total_fit_le (w := w) small xs
    refine (isPrefix_fit_iff ?_).2 hle
    exact (isPrefix_fit_iff (fit_isPrefix _ _)).2 (Nat.le_trans hle h)

theorem fit_cons_fit (budget : Nat) (x : α) (xs : List α) :
    fit w budget (x :: fit w budget xs) = fit w budget (x :: xs) := by
  rw [fit, fit]
  split
  · rw [fit_fit (Nat.sub_le _ _)]
  · rfl

theorem fit_dropLast (h : budget < total w xs) : fit w budget xs.dropLast = fit w budget xs := by
  refine List.IsPrefix.eq_of_length_le ?_ (List.IsPrefix.length_le ?_)
  · have hp : fit w budget xs.dropLast <+: xs := (fit_isPrefix _ _).trans (List.dropLast_prefix xs)
    exact (isPrefix_fit_iff hp).2 (total_fit_le _ _)
  · have hp : fit w budget xs <+: xs.dropLast := by
      -- what fits is not the whole list
      have hne : (fit w budget xs).length ≠ xs.length := fun hlen => by
        have heq := (fit_isPrefix (w := w) budget xs).eq_of_length hlen
        have hle := total_fit_le (w := w) budget xs
        rw [heq] at hle
        omega
      have hlen := (fit_isPrefix (w := w) budget xs).length_le
      refine List.prefix_of_prefix_length_le (fit_isPrefix budget xs) (List.dropLast_prefix xs) ?_
      rw [List.length_dropLast]
      omega
    exact (isPrefix_fit_iff hp).2 (total_fit_le _ _)

theorem lt_length_fit_iff {i : Nat} :
    i < (fit w budget xs).length ↔ i < xs.length ∧ total w (xs.take (i + 1)) ≤ budget := by
  constructor
  · intro hi
    have hlt := Nat.lt_of_lt_of_le hi (fit_isPrefix budget xs).length_le
    refine ⟨hlt, ?_⟩
    refine (isPrefix_fit_iff (List.take_prefix _ _)).1 ?_
    refine List.prefix_of_prefix_length_le (List.take_prefix _ _) (fit_isPrefix budget xs) ?_
    rw [List.length_take]
    omega
  · rintro ⟨hi, hle⟩
    have hlen := ((isPrefix_fit_iff (List.take_prefix (i + 1) xs)).2 hle).length_le
    rw [List.length_take] at hlen
    omega

end Budget

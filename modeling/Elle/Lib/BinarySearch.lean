import Mathlib

/-!
# Binary search

The loop of `slice::binary_search_by`: a probe that says on which side of an index the target lies
halves the range. If the probe is `lt` before one index, `eq` at it and `gt` after it, the search ends
there.
-/

namespace BinarySearch

/-- The index the search stops at, of `size` candidates from `base` on. -/
def search (probe : Nat → Ordering) (size base : Nat) : Nat :=
  if 1 < size then
    search probe (size - size / 2) (if probe (base + size / 2) = .gt then base else base + size / 2)
  else base
termination_by size
decreasing_by omega

/-- The index of an element the probe accepts, or the place for one. -/
def binarySearchBy {α : Type} (probe : α → Ordering) (xs : List α) : Except Nat Nat :=
  let here := fun i => (xs[i]?.map probe).getD .gt
  if xs.length = 0 then .error 0
  else
    let i := search here xs.length 0
    if here i = .eq then .ok i
    else .error (if here i = .lt then i + 1 else i)

theorem search_eq {probe : Nat → Ordering} {size base target : Nat}
    (hbefore : ∀ i, i ≤ target → probe i ≠ .gt) (hafter : ∀ i, target < i → probe i = .gt)
    (hbase : base ≤ target) (hsize : target < base + size) : search probe size base = target := by
  induction size using Nat.strongRecOn generalizing base with
  | ind size ih =>
    unfold search
    split
    · next h =>
      by_cases hmid : probe (base + size / 2) = .gt
      · rw [if_pos hmid]
        have hlt : target < base + size / 2 := by
          by_contra hge
          exact hbefore _ (Nat.le_of_not_lt hge) hmid
        exact ih _ (by omega) hbase (by omega)
      · rw [if_neg hmid]
        have hle : base + size / 2 ≤ target := by
          by_contra hgt
          exact hmid (hafter _ (Nat.lt_of_not_le hgt))
        exact ih _ (by omega) hle (by omega)
    · omega

/-- The one element a probe accepts is found, if the elements before it are less and those after it
greater. -/
theorem binarySearchBy_eq {α : Type} {probe : α → Ordering} {pre post : List α} {x : α}
    (hpre : ∀ y ∈ pre, probe y = .lt) (hx : probe x = .eq) (hpost : ∀ y ∈ post, probe y = .gt) :
    binarySearchBy probe (pre ++ x :: post) = .ok pre.length := by
  have hat : ∀ i, (((pre ++ x :: post)[i]?).map probe).getD .gt =
      if i < pre.length then .lt else if i = pre.length then .eq else .gt := by
    intro i
    rcases Nat.lt_trichotomy i pre.length with hi | rfl | hi
    · rw [if_pos hi, List.getElem?_append_left hi, List.getElem?_eq_getElem hi]
      exact hpre _ (List.getElem_mem hi)
    · simp [hx]
    · rw [if_neg (by omega), if_neg (by omega), List.getElem?_append_right (by omega)]
      obtain ⟨k, hk⟩ : ∃ k, i - pre.length = k + 1 := ⟨i - pre.length - 1, by omega⟩
      rw [hk, List.getElem?_cons_succ]
      cases hget : post[k]? with
      | none => rfl
      | some y => exact hpost y (List.mem_of_getElem? hget)
  unfold binarySearchBy
  have hsearch : search (fun i => (((pre ++ x :: post)[i]?).map probe).getD .gt)
      (pre ++ x :: post).length 0 = pre.length := by
    refine search_eq (fun i hi => ?_) (fun i hi => ?_) (Nat.zero_le _) (by simp)
    · rw [hat]
      split
      · simp
      · rw [if_pos (by omega)]
        simp
    · rw [hat, if_neg (by omega), if_neg (by omega)]
  rw [if_neg (by simp)]
  simp only [hsearch]
  rw [if_pos (by simp [hx])]

end BinarySearch

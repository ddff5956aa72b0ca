import Mathlib

/-!
# The latest of several values

Registers in which the last writer wins. Values are ranked in a linear order; a write replaces the value
only if its rank is higher. Whatever the order of the writes, a register ends with a value of the highest
rank.
-/

namespace Latest

variable {α κ : Type*} [LinearOrder κ] (rank : α → κ)

/-- The value after a write of `b` over `a`. -/
def later (a b : α) : α := if rank a < rank b then b else a

/-- The value after writes one by one. -/
def latest (a : α) (bs : List α) : α := bs.foldl (later rank) a

theorem rank_later (a b : α) : rank (later rank a b) = max (rank a) (rank b) := by
  unfold later
  split
  · next h => exact (max_eq_right h.le).symm
  · next h => exact (max_eq_left (not_lt.1 h)).symm

theorem latest_mem (a : α) (bs : List α) : latest rank a bs ∈ a :: bs := by
  induction bs generalizing a with
  | nil => exact List.mem_singleton_self a
  | cons b bs ih =>
    have hmem := ih (later rank a b)
    rcases List.mem_cons.1 hmem with h | h
    · have hlater : later rank a b = b ∨ later rank a b = a := ite_eq_or_eq _ _ _
      change latest rank (later rank a b) bs ∈ _
      rw [h]
      rcases hlater with h | h <;> simp [h]
    · exact List.mem_cons_of_mem _ (List.mem_cons_of_mem _ h)

theorem rank_le_latest {a x : α} {bs : List α} (h : x ∈ a :: bs) : rank x ≤ rank (latest rank a bs) := by
  induction bs generalizing a x with
  | nil => rw [List.mem_singleton.1 h]; exact le_rfl
  | cons b bs ih =>
    have hstart : rank (later rank a b) ≤ rank (latest rank (later rank a b) bs) :=
      ih List.mem_cons_self
    rw [rank_later rank a b] at hstart
    rcases List.mem_cons.1 h with rfl | h
    · exact (le_max_left _ _).trans hstart
    · rcases List.mem_cons.1 h with rfl | h
      · exact (le_max_right _ _).trans hstart
      · exact ih (List.mem_cons_of_mem _ h)

end Latest

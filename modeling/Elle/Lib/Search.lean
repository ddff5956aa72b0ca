import Mathlib

/-!
# The first occurrence of a word in a text

Where a word occurs in a text that is delivered in pieces. An occurrence lies in one piece or straddles a
boundary, and one that straddles lies in the last letters before the boundary and the first ones after it.
-/

namespace Search

open List

variable {α : Type}

/-- The word stands in the text at position `i`. -/
abbrev At (d xs : List α) (i : Nat) : Prop := d <+: xs.drop i

/-- Position `i` is the first the word stands at. -/
structure First (d xs : List α) (i : Nat) : Prop where
  at_ : At d xs i
  before : ∀ j, j < i → ¬At d xs j

section Find

variable [DecidableEq α]

/-- The first position the word stands at. -/
def find (d : List α) : List α → Option Nat
  | [] => if d <+: [] then some 0 else none
  | x :: xs => if d <+: x :: xs then some 0 else (find d xs).map (· + 1)

theorem first_of_find {d xs : List α} {i : Nat} (h : find d xs = some i) : First d xs i := by
  induction xs generalizing i with
  | nil =>
    unfold find at h
    split at h
    · next hd =>
      cases h
      exact ⟨hd, by omega⟩
    · cases h
  | cons x xs ih =>
    unfold find at h
    split at h
    · next hd =>
      cases h
      exact ⟨hd, by omega⟩
    · next hd =>
      obtain ⟨k, hk, rfl⟩ := Option.map_eq_some_iff.1 h
      have hfirst := ih hk
      refine ⟨hfirst.at_, fun j hj => ?_⟩
      cases j with
      | zero => exact hd
      | succ j => exact hfirst.before j (by omega)

theorem not_at_of_find {d xs : List α} (hd : d ≠ []) (h : find d xs = none) (i : Nat) : ¬At d xs i := by
  induction xs generalizing i with
  | nil =>
    intro hat
    rw [At, drop_nil, prefix_nil] at hat
    exact hd hat
  | cons x xs ih =>
    unfold find at h
    split at h
    · cases h
    · next hpre =>
      cases i with
      | zero => exact hpre
      | succ i => exact ih (Option.map_eq_none_iff.1 h) i

end Find

namespace First

theorem unique {d xs : List α} {i j : Nat} (hi : First d xs i) (hj : First d xs j) : i = j := by
  rcases Nat.lt_trichotomy i j with h | h | h
  · exact absurd hi.at_ (hj.before i h)
  · exact h
  · exact absurd hj.at_ (hi.before j h)

theorem find_eq [DecidableEq α] {d xs : List α} {i : Nat} (hd : d ≠ []) (h : First d xs i) :
    find d xs = some i := by
  cases hf : find d xs with
  | none => exact absurd h.at_ (not_at_of_find hd hf i)
  | some j => rw [(first_of_find hf).unique h]

end First

variable {xs : List α} {i : Nat}

theorem find_eq_none [DecidableEq α] {d : List α} (h : ∀ i, ¬At d xs i) : find d xs = none := by
  cases hf : find d xs with
  | none => rfl
  | some i => exact absurd (first_of_find hf).at_ (h i)

/-! ## Occurrences in a text of two pieces -/

theorem At.le {d : List α} (hd : d ≠ []) (h : At d xs i) : i + d.length ≤ xs.length := by
  have hlen := h.length_le
  have hpos := List.length_pos_iff.2 hd
  rw [length_drop] at hlen
  omega

theorem at_append_left {d ys : List α} (h : i + d.length ≤ xs.length) : At d (xs ++ ys) i ↔ At d xs i := by
  rw [At, At, drop_append_of_le_length (by omega)]
  constructor
  · intro hp
    exact prefix_of_prefix_length_le hp (prefix_append _ _) (by rw [length_drop]; omega)
  · intro hp
    exact hp.trans (prefix_append _ _)

theorem at_append_right (d xs ys : List α) (i : Nat) : At d (xs ++ ys) (xs.length + i) ↔ At d ys i := by
  rw [At, At, drop_append, drop_eq_nil_of_le (by omega), nil_append, Nat.add_sub_cancel_left]

theorem First.append {d : List α} (hd : d ≠ []) (h : First d xs i) (ys : List α) : First d (xs ++ ys) i := by
  have hle := h.at_.le hd
  refine ⟨(at_append_left hle).2 h.at_, fun j hj => ?_⟩
  rw [at_append_left (by omega)]
  exact h.before j hj

theorem First.of_right {d ys : List α} (hno : ∀ j, j < xs.length → ¬At d (xs ++ ys) j) (h : First d ys i) :
    First d (xs ++ ys) (xs.length + i) := by
  refine ⟨(at_append_right d xs ys i).2 h.at_, fun j hj => ?_⟩
  by_cases hlt : j < xs.length
  · exact hno j hlt
  · obtain ⟨k, rfl⟩ := Nat.exists_eq_add_of_le (Nat.le_of_not_lt hlt)
    rw [at_append_right]
    exact h.before k (by omega)

theorem not_at_append {d ys : List α} (hno : ∀ j, j < xs.length → ¬At d (xs ++ ys) j) (h : ∀ i, ¬At d ys i)
    (i : Nat) : ¬At d (xs ++ ys) i := by
  by_cases hlt : i < xs.length
  · exact hno i hlt
  · obtain ⟨k, rfl⟩ := Nat.exists_eq_add_of_le (Nat.le_of_not_lt hlt)
    rw [at_append_right]
    exact h k

/-! ## Occurrences that straddle a boundary -/

def last (n : Nat) (xs : List α) : List α := xs.drop (xs.length - n)

theorem length_last (n : Nat) (xs : List α) : (last n xs).length = min n xs.length := by
  rw [last, length_drop]
  omega

theorem last_append_last (n : Nat) (xs ys : List α) : last n (last n xs ++ ys) = last n (xs ++ ys) := by
  unfold last
  rw [drop_append, drop_append, drop_drop, length_append, length_append, length_drop]
  congr 2 <;> omega

/-- The window over a boundary: the last letters before it and the first ones after it. -/
abbrev window (d xs ys : List α) : List α := last (d.length - 1) xs ++ ys.take (d.length - 1)

theorem at_window {d ys : List α} {j : Nat} (hj : j < (last (d.length - 1) xs).length) :
    At d (window d xs ys) j ↔ At d (xs ++ ys) (xs.length - (last (d.length - 1) xs).length + j) := by
  have hlen := length_last (d.length - 1) xs
  have hsplit : xs ++ ys = xs.take (xs.length - (last (d.length - 1) xs).length) ++
      (window d xs ys ++ ys.drop (d.length - 1)) := by
    rw [window, append_assoc, take_append_drop, ← append_assoc]
    congr 1
    rw [last, length_drop]
    have : xs.length - (xs.length - (xs.length - (d.length - 1))) = xs.length - (d.length - 1) := by
      omega
    rw [this, take_append_drop]
  have htake : (xs.take (xs.length - (last (d.length - 1) xs).length)).length =
      xs.length - (last (d.length - 1) xs).length := by
    rw [length_take]
    omega
  have hright := at_append_right d (xs.take (xs.length - (last (d.length - 1) xs).length))
    (window d xs ys ++ ys.drop (d.length - 1)) j
  rw [← hsplit, htake] at hright
  rw [hright]
  by_cases hys : d.length - 1 ≤ ys.length
  · have hwindow : j + d.length ≤ (window d xs ys).length := by
      rw [window, length_append, length_take]
      omega
    exact (at_append_left hwindow).symm
  · rw [drop_eq_nil_of_le (by omega), append_nil]

/-- An occurrence that begins in the first piece, when none lies in it, begins in its last letters. -/
theorem At.near {d ys : List α} (hno : ∀ j, ¬At d xs j) (h : At d (xs ++ ys) i) :
    xs.length - (last (d.length - 1) xs).length ≤ i := by
  rw [length_last]
  by_contra hlt
  refine hno i ((at_append_left ?_).1 h)
  omega

theorem First.of_window {d ys : List α} {j : Nat} (hno : ∀ i, ¬At d xs i)
    (hj : j < (last (d.length - 1) xs).length) (h : First d (window d xs ys) j) :
    First d (xs ++ ys) (xs.length - (last (d.length - 1) xs).length + j) := by
  refine ⟨(at_window hj).1 h.at_, fun i hi hat => ?_⟩
  have hnear := hat.near hno
  obtain ⟨k, rfl⟩ := Nat.exists_eq_add_of_le hnear
  exact h.before k (by omega) ((at_window (by omega)).2 hat)

theorem not_at_of_window {d ys : List α} (hno : ∀ i, ¬At d xs i)
    (h : ∀ j, j < (last (d.length - 1) xs).length → ¬At d (window d xs ys) j) (i : Nat) (hi : i < xs.length) :
    ¬At d (xs ++ ys) i := by
  intro hat
  have hnear := hat.near hno
  have hle := length_last (d.length - 1) xs
  obtain ⟨k, rfl⟩ := Nat.exists_eq_add_of_le hnear
  exact h k (by omega) ((at_window (by omega)).2 hat)

end Search

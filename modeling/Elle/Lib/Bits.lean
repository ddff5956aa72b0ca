import Mathlib

/-!
# Bits in order

The bits of a word as a list, the highest first, for codes that are written and read bit by bit. A word is
given by its bit function, so that shifts and masks are seen bit by bit.
-/

namespace Bits

/-- Bits `k - 1` down to 0. -/
def msb (p : Nat → Bool) : Nat → List Bool
  | 0 => []
  | k + 1 => p k :: msb p k

@[simp] theorem length_msb (p : Nat → Bool) (k : Nat) : (msb p k).length = k := by
  induction k with
  | zero => rfl
  | succ k ih => rw [msb, List.length_cons, ih]

theorem msb_congr {p q : Nat → Bool} {k : Nat} (h : ∀ i, i < k → p i = q i) : msb p k = msb q k := by
  induction k with
  | zero => rfl
  | succ k ih => rw [msb, msb, h k (Nat.lt_succ_self k), ih fun i hi => h i (Nat.lt_succ_of_lt hi)]

theorem msb_add (p : Nat → Bool) (k n : Nat) : msb p (k + n) = msb (fun i => p (i + n)) k ++ msb p n := by
  induction k with
  | zero => rw [Nat.zero_add]; rfl
  | succ k ih => rw [Nat.succ_add, msb, msb, ih, List.cons_append]

theorem drop_msb (p : Nat → Bool) (k n : Nat) : (msb p k).drop n = msb p (k - n) := by
  induction n generalizing k with
  | zero => rfl
  | succ n ih =>
    cases k with
    | zero => simp [msb]
    | succ k => rw [msb, List.drop_succ_cons, ih, Nat.succ_sub_succ]

theorem msb_true {p : Nat → Bool} {k : Nat} (h : ∀ i, i < k → p i) :
    msb p k = List.replicate k true := by
  induction k with
  | zero => rfl
  | succ k ih =>
    rw [msb, h k (Nat.lt_succ_self k), ih fun i hi => h i (Nat.lt_succ_of_lt hi)]
    rfl

theorem msb_join {p q r : Nat → Bool} {k n : Nat} (hhigh : ∀ i, i < k → r (i + n) = p i)
    (hlow : ∀ i, i < n → r i = q i) : msb r (k + n) = msb p k ++ msb q n := by
  rw [msb_add, msb_congr hhigh, msb_congr hlow]

end Bits

import Mathlib

/-!
# Shifts of machine words

When a shift leaves a word as it is, and when two shifts of one word agree.
-/

namespace Word

variable {w : Nat} {x : BitVec w} {k : Nat}

theorem shiftLeft_eq_self (hk : 0 < k) : x <<< k = x ↔ x = 0#w := by
  constructor
  · intro h
    have bits : ∀ i, x.getLsbD i = false := by
      intro i
      induction i using Nat.strongRecOn with
      | _ i ih =>
        have hi := congrArg (·.getLsbD i) h
        simp only [BitVec.getLsbD_shiftLeft] at hi
        rw [← hi]
        by_cases hik : i < k
        · simp [hik]
        · simp [ih (i - k) (by omega)]
    refine BitVec.eq_of_getLsbD_eq fun i _ => ?_
    rw [bits i, BitVec.getLsbD_zero]
  · rintro rfl
    simp

/-- The shift that keeps the lowest bit only agrees with a smaller one if both give zero. -/
theorem shiftLeft_eq_last (hk : k + 1 < w) : x <<< (w - 1) = x <<< k ↔ x <<< k = 0#w := by
  have low : ∀ n, n < w → (x <<< n).getLsbD n = x.getLsbD 0 := by
    intro n hn
    rw [BitVec.getLsbD_shiftLeft]
    simp only [hn, decide_true, Nat.lt_irrefl, decide_false, Nat.sub_self, Bool.not_false, Bool.true_and]
  have last : x.getLsbD 0 = false → x <<< (w - 1) = 0#w := by
    intro h
    refine BitVec.eq_of_getLsbD_eq fun i hi => ?_
    rw [BitVec.getLsbD_shiftLeft, BitVec.getLsbD_zero]
    rcases Nat.lt_or_ge i (w - 1) with hlt | hge
    · simp [hlt]
    · have : i - (w - 1) = 0 := by omega
      simp [this, h]
  constructor
  · intro h
    have hbit := low k (by omega)
    rw [← h, BitVec.getLsbD_shiftLeft] at hbit
    rw [← h]
    exact last (by simpa [show k < w - 1 by omega] using hbit.symm)
  · intro h
    have hbit := low k (by omega)
    rw [h, BitVec.getLsbD_zero] at hbit
    rw [h]
    exact last hbit.symm

theorem sshiftRight_msb_eq (h : ∀ i, i < w → x.getLsbD i = x.msb) : x = 0#w ∨ x = BitVec.allOnes w := by
  cases hm : x.msb with
  | false =>
    refine .inl (BitVec.eq_of_getLsbD_eq fun i hi => ?_)
    rw [h i hi, hm, BitVec.getLsbD_zero]
  | true =>
    refine .inr (BitVec.eq_of_getLsbD_eq fun i hi => ?_)
    rw [h i hi, hm]
    simp [hi]

theorem sshiftRight_eq_self (hk : 0 < k) : x.sshiftRight k = x ↔ x = 0#w ∨ x = BitVec.allOnes w := by
  constructor
  · intro h
    refine sshiftRight_msb_eq fun i hi => ?_
    -- from the top down, each bit is the one `k` places up, or the sign
    induction hd : w - i using Nat.strongRecOn generalizing i with
    | _ d ih =>
      have hbit := congrArg (·.getLsbD i) h
      simp only [BitVec.getLsbD_sshiftRight] at hbit
      rw [← hbit]
      have hle : decide (w ≤ i) = false := by simpa using hi
      rw [hle, Bool.not_false, Bool.true_and]
      split
      · rename_i hik
        exact ih (w - (k + i)) (by omega) (k + i) hik rfl
      · rfl
  · rintro (rfl | rfl)
    · simp
    · refine BitVec.eq_of_getLsbD_eq fun i hi => ?_
      have hmsb : (BitVec.allOnes w).msb := by
        rw [BitVec.msb_allOnes (by omega)]
      rw [BitVec.getLsbD_sshiftRight, hmsb]
      simp [hi]

theorem sshiftRight_last (hw : 0 < w) :
    x.sshiftRight (w - 1) = if x.msb then BitVec.allOnes w else 0#w := by
  refine BitVec.eq_of_getLsbD_eq fun i hi => ?_
  rw [BitVec.getLsbD_sshiftRight]
  rcases Nat.eq_zero_or_pos i with rfl | hpos
  · have : x.getLsbD (w - 1) = x.msb := by rw [BitVec.msb_eq_getLsbD_last]
    rw [Nat.add_zero, this]
    cases x.msb <;> simp [hw, Nat.pos_iff_ne_zero.mp hw]
  · rw [if_neg (by omega)]
    cases x.msb <;> simp [hi]

end Word

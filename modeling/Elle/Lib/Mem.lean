import Mathlib

/-! # Byte-addressed memory

A memory gives every address a byte.  Little-endian words are read and written four bytes at a time.  Addresses are
aligned by masking with a 64-bit complement, as machine code does it (`maskDown`).
-/

abbrev Mem := Nat → UInt8

namespace Mem

variable {m m' : Mem} {a b n i : Nat}

/-- Overwrite `n` bytes from address `a`. -/
def fill (m : Mem) (a n : Nat) (f : Nat → UInt8) : Mem := fun i => if a ≤ i ∧ i < a + n then f (i - a) else m i

theorem fill_of_apart {f : Nat → UInt8} (h : i < a ∨ a + n ≤ i) : m.fill a n f i = m i := if_neg (by omega)

theorem fill_of_mem {f : Nat → UInt8} (h : i < n) : m.fill a n f (a + i) = f i := by
  rw [fill, if_pos (by omega), Nat.add_sub_cancel_left]

def u32 (m : Mem) (a : Nat) : UInt32 :=
  UInt32.ofNat ((m a).toNat + 256 * (m (a + 1)).toNat + 65536 * (m (a + 2)).toNat + 16777216 * (m (a + 3)).toNat)

/-- Write a word at address `a`. -/
def putU32 (m : Mem) (a : Nat) (v : UInt32) : Mem := m.fill a 4 fun i => UInt8.ofNat (v.toNat / 256 ^ i)

theorem u32_congr (h : ∀ i < 4, m (a + i) = m' (a + i)) : m.u32 a = m'.u32 a := by
  have h0 := h 0 (by omega)
  simp only [Nat.add_zero] at h0
  simp only [u32, h0, h 1 (by omega), h 2 (by omega), h 3 (by omega)]

theorem u32_putU32 (m : Mem) (a : Nat) (v : UInt32) : (m.putU32 a v).u32 a = v := by
  have hbyte : ∀ i < 4, (m.putU32 a v (a + i)).toNat = v.toNat / 256 ^ i % 256 := fun i hi => by
    rw [putU32, fill_of_mem hi, UInt8.toNat_ofNat']
  have hlt : v.toNat < 2 ^ 32 := v.toNat_lt
  have h0 := hbyte 0 (by omega)
  simp only [Nat.add_zero] at h0
  rw [u32, h0, hbyte 1 (by omega), hbyte 2 (by omega), hbyte 3 (by omega), ← UInt32.toNat_inj, UInt32.toNat_ofNat']
  omega

theorem u32_putU32_of_apart {v : UInt32} (h : b + 4 ≤ a ∨ a + 4 ≤ b) : (m.putU32 a v).u32 b = m.u32 b :=
  u32_congr fun i hi => fill_of_apart (by omega)

theorem u32_eq_zero (h : ∀ i < 4, m (a + i) = 0) : m.u32 a = 0 :=
  show m.u32 a = u32 (fun _ => 0) a from u32_congr h

end Mem

/-! ### Alignment -/

/-- `x & !(a - 1)` on 64-bit words. -/
def maskDown (x a : Nat) : Nat := x &&& (2 ^ 64 - 1 - (a - 1))

theorem maskDown_le (x a : Nat) : maskDown x a ≤ x := Nat.and_le_left

theorem maskDown_two_pow {x k : Nat} (hx : x < 2 ^ 64) (hk : k ≤ 64) : maskDown x (2 ^ k) = 2 ^ k * (x / 2 ^ k) := by
  have hmask : 2 ^ 64 - 1 - (2 ^ k - 1) = 2 ^ k * (2 ^ (64 - k) - 1) := by
    rw [Nat.mul_sub_one, ← Nat.pow_add, Nat.add_sub_cancel' hk]
    have := Nat.two_pow_pos k
    omega
  refine Nat.eq_of_testBit_eq fun i => ?_
  rw [maskDown, hmask, Nat.testBit_and, Nat.testBit_two_pow_mul, Nat.testBit_two_pow_mul, Nat.testBit_two_pow_sub_one,
    Nat.testBit_div_two_pow]
  by_cases hki : k ≤ i
  · rw [Nat.sub_add_cancel hki]
    by_cases hi : i < 64
    · simp [hki, show i - k < 64 - k by omega]
    · have hx' : x.testBit i = false := Nat.testBit_lt_two_pow (hx.trans_le (Nat.pow_le_pow_right (by omega) (by omega)))
      simp [hx']
  · simp [hki]

/-- The least multiple of `n` that is at least `x`. -/
structure IsCeil (x n r : Nat) : Prop where
  le : x ≤ r
  lt : r < x + n
  dvd : n ∣ r
  least : ∀ b, n ∣ b → x ≤ b → r ≤ b

theorem isCeil_div (x : Nat) {n : Nat} (hn : 0 < n) : IsCeil x n (n * ((x + n - 1) / n)) := by
  have hdiv := Nat.div_add_mod (x + n - 1) n
  have hmod := Nat.mod_lt (x + n - 1) hn
  refine ⟨by omega, by omega, Nat.dvd_mul_right _ _, ?_⟩
  rintro _ ⟨q, rfl⟩ hx
  refine Nat.mul_le_mul_left n (Nat.le_of_lt_succ ((Nat.div_lt_iff_lt_mul hn).2 ?_))
  rw [Nat.succ_mul, Nat.mul_comm]
  omega

theorem isCeil_maskDown {x k : Nat} (hx : x + 2 ^ k ≤ 2 ^ 64) (hk : k ≤ 64) :
    IsCeil x (2 ^ k) (maskDown (x + 2 ^ k - 1) (2 ^ k)) := by
  have hpos := Nat.two_pow_pos k
  rw [maskDown_two_pow (by omega) hk]
  exact isCeil_div x hpos

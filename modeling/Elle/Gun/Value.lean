import Mathlib

/-!
# Gun values, states and fields

`lib/gun/value.lisp`, `state.lisp` and `field.lisp`: what a field may hold, the text that stores a value
and orders it, and the comparison of states. The float texts are the host's; of them only this is used,
that the text of a finite float determines it.
-/

namespace Elle.Gun

abbrev Text := List Char

/-- Finite floats, and what `string` writes for one. -/
class FiniteFloat (F : Type) where
  text : F → Text
  text_injective : Function.Injective text

/-- The values `valid?` passes. -/
inductive Value (F : Type) where
  | nil
  | boolean (b : Bool)
  | integer (n : Int)
  | float (x : F)
  | string (s : Text)
  | bytes (bs : List UInt8)
  | link (soul : Text) (nonempty : soul ≠ [])
deriving DecidableEq

/-- What `string` writes for an integer. -/
def integerText (n : Int) : Text :=
  if n < 0 then '-' :: Nat.toDigits 10 n.natAbs else Nat.toDigits 10 n.natAbs

def hexByte (b : UInt8) : Text := [Nat.digitChar (b.toNat / 16), Nat.digitChar (b.toNat % 16)]

def seqToHex (bs : List UInt8) : Text := bs.flatMap hexByte

section

variable {F : Type} [FiniteFloat F]

/-- The text of a value: a tag, a colon, and the payload. -/
def encode : Value F → Text
  | .nil => ['n', ':']
  | .boolean b => if b then ['t', ':'] else ['f', ':']
  | .integer n => ['i', ':'] ++ integerText n
  | .float x => ['d', ':'] ++ FiniteFloat.text x
  | .string s => ['s', ':'] ++ s
  | .bytes bs => ['x', ':'] ++ seqToHex bs
  | .link soul _ => ['l', ':'] ++ soul

/-! ## The encoding determines the value -/

theorem integerText_injective : Function.Injective integerText := by
  have hdigits : ∀ {m n : Nat}, Nat.toDigits 10 m = Nat.toDigits 10 n → m = n := by
    intro m n h
    have := congrArg (fun cs => Nat.ofDigitChars 10 cs 0) h
    simpa only [Nat.ofDigitChars_ten_toDigits] using this
  -- a minus sign is no digit
  have hsign : ∀ {m n : Nat}, '-' :: Nat.toDigits 10 m ≠ Nat.toDigits 10 n := by
    intro m n h
    have hmem : '-' ∈ Nat.toDigits 10 n := h ▸ List.mem_cons_self
    exact absurd (Nat.isDigit_of_mem_toDigits (by decide) (by decide) hmem) (by decide)
  intro m n h
  unfold integerText at h
  split at h <;> split at h
  · have := hdigits (List.cons.inj h).2
    omega
  · exact absurd h hsign
  · exact absurd h.symm hsign
  · have := hdigits h
    omega

theorem digitChar_injective : ∀ i j : Fin 16, Nat.digitChar i = Nat.digitChar j → i = j := by
  decide +kernel

theorem hexByte_injective : Function.Injective hexByte := by
  intro a b h
  obtain ⟨hhigh, hrest⟩ := List.cons.inj h
  obtain ⟨hlow, _⟩ := List.cons.inj hrest
  have ha := a.toNat_lt
  have hb := b.toNat_lt
  have hh := digitChar_injective ⟨a.toNat / 16, by omega⟩ ⟨b.toNat / 16, by omega⟩ hhigh
  have hl := digitChar_injective ⟨a.toNat % 16, by omega⟩ ⟨b.toNat % 16, by omega⟩ hlow
  rw [Fin.mk.injEq] at hh hl
  exact UInt8.toNat_inj.1 (by omega)

theorem seqToHex_injective : Function.Injective seqToHex := by
  intro as
  induction as with
  | nil =>
    intro bs h
    cases bs with
    | nil => rfl
    | cons b bs => exact absurd h (by simp [seqToHex, hexByte])
  | cons a as ih =>
    intro bs h
    cases bs with
    | nil => exact absurd h (by simp [seqToHex, hexByte])
    | cons b bs =>
      have happend : hexByte a ++ seqToHex as = hexByte b ++ seqToHex bs := h
      obtain ⟨hbyte, hrest⟩ := List.append_inj happend rfl
      rw [hexByte_injective hbyte, ih hrest]

/-- The letter before the colon. -/
def tag : Value F → Char
  | .nil => 'n'
  | .boolean b => if b then 't' else 'f'
  | .integer _ => 'i'
  | .float _ => 'd'
  | .string _ => 's'
  | .bytes _ => 'x'
  | .link _ _ => 'l'

def payload : Value F → Text
  | .nil | .boolean _ => []
  | .integer n => integerText n
  | .float x => FiniteFloat.text x
  | .string s => s
  | .bytes bs => seqToHex bs
  | .link soul _ => soul

theorem encode_eq (v : Value F) : encode v = tag v :: ':' :: payload v := by
  cases v with
  | boolean b => cases b <;> rfl
  | _ => rfl

theorem encode_injective : Function.Injective (encode : Value F → Text) := by
  intro v w h
  rw [encode_eq, encode_eq] at h
  obtain ⟨htag, hrest⟩ := List.cons.inj h
  have hpayload := (List.cons.inj hrest).2
  cases v <;> cases w
  case nil.nil => rfl
  case boolean.boolean a b => cases a <;> cases b <;> simp_all [tag]
  case integer.integer => exact congrArg _ (integerText_injective hpayload)
  case float.float => exact congrArg _ (FiniteFloat.text_injective hpayload)
  case string.string => exact congrArg _ hpayload
  case bytes.bytes => exact congrArg _ (seqToHex_injective hpayload)
  case link.link => cases hpayload; rfl
  -- two kinds of value never have one tag
  all_goals
    refine absurd htag ?_
    simp only [tag]
    try split
    all_goals decide

end

end Elle.Gun

import Elle.Hpack.Table

/-!
# HPACK integers and strings

The variable-length integer codec and the string codec of `lib/http2/hpack.lisp`. A decoder reads from the
rest of its buffer, the bytes from its offset on, and answers the value and the new rest.
-/

namespace Elle.Hpack

open List

/-! ## Integers -/

def bytes (values : List Nat) : Bytes := values.map UInt8.ofNat

/-- The groups of seven bits, the least first, each but the last with the high bit. -/
def encodeGroups (v : Nat) : List Nat :=
  if v ≥ 128 then ((v &&& 0x7f) ||| 0x80) :: encodeGroups (v >>> 7) else [v]
termination_by v
decreasing_by
  rw [Nat.shiftRight_eq_div_pow]
  omega

def maxPrefix (prefixBits : Nat) : Nat := (1 <<< prefixBits) - 1

/-- `encode-int`: the byte values. There is always a first. -/
def encodeInt (value prefixBits : Nat) : Nat × List Nat :=
  if value < maxPrefix prefixBits then (value, [])
  else (maxPrefix prefixBits, encodeGroups (value - maxPrefix prefixBits))

/-- The loop of `decode-int`. -/
def decodeGroups : Bytes → Nat → Nat → Except Fault (Nat × Bytes)
  | [], _, _ => .error (.compressionError "HPACK: truncated integer")
  | b :: rest, value, shift =>
    let value := value + ((b.toNat &&& 0x7f) <<< shift)
    if b.toNat &&& 0x80 = 0 then .ok (value, rest) else decodeGroups rest value (shift + 7)

def decodeInt (buf : Bytes) (prefixBits : Nat) : Except Fault (Nat × Bytes) :=
  match buf with
  | [] => .error .typeError
  | b :: rest =>
    let firstByte := b.toNat &&& maxPrefix prefixBits
    if firstByte < maxPrefix prefixBits then .ok (firstByte, rest)
    else decodeGroups rest (maxPrefix prefixBits) 0

theorem toNat_ofNat {n : Nat} (h : n < 256) : (UInt8.ofNat n).toNat = n := by
  exact Nat.mod_eq_of_lt h

theorem and_low (n : Nat) : n &&& 0x7f = n % 128 := Nat.and_two_pow_sub_one_eq_mod n 7

theorem high_bit : ∀ n : Fin 128,
    n.val &&& 0x80 = 0 ∧ n.val ||| 0x80 = 128 + n.val ∧ (128 + n.val) &&& 0x80 ≠ 0 := by
  decide +kernel

theorem or_high {n : Nat} (h : n < 128) : n ||| 0x80 = 128 + n := (high_bit ⟨n, h⟩).2.1

theorem and_high_of_lt {n : Nat} (h : n < 128) : n &&& 0x80 = 0 := (high_bit ⟨n, h⟩).1

theorem and_high_of_ge {n : Nat} (hge : 128 ≤ n) (hlt : n < 256) : n &&& 0x80 ≠ 0 := by
  obtain ⟨k, rfl⟩ := Nat.exists_eq_add_of_le hge
  exact (high_bit ⟨k, by omega⟩).2.2

theorem decodeGroups_encodeGroups (v : Nat) (value shift : Nat) (rest : Bytes) :
    decodeGroups (bytes (encodeGroups v) ++ rest) value shift = .ok (value + v * 2 ^ shift, rest) := by
  induction v using Nat.strongRecOn generalizing value shift with
  | ind v ih =>
    rw [encodeGroups]
    split
    · next hge =>
      have hlow : (v &&& 0x7f) ||| 0x80 = 128 + v % 128 := by
        rw [and_low, or_high (Nat.mod_lt _ (by decide))]
      have hbyte : (UInt8.ofNat (128 + v % 128)).toNat = 128 + v % 128 := toNat_ofNat (by omega)
      have hsplit : v % 128 * 2 ^ shift + v / 128 * 2 ^ (shift + 7) = v * 2 ^ shift := by
        rw [Nat.pow_add, Nat.mul_comm (2 ^ shift), ← Nat.mul_assoc, ← Nat.add_mul]
        congr 1
        omega
      rw [hlow, Nat.shiftRight_eq_div_pow]
      simp only [bytes, map_cons, cons_append, decodeGroups, hbyte]
      rw [if_neg (and_high_of_ge (by omega) (by omega)), and_low, Nat.shiftLeft_eq]
      have := ih (v / 2 ^ 7) (by omega) (value + (128 + v % 128) % 128 * 2 ^ shift) (shift + 7)
      rw [bytes] at this
      rw [this]
      have hmod : (128 + v % 128) % 128 = v % 128 := by omega
      rw [hmod, Nat.add_assoc]
      exact congrArg (fun n => Except.ok (value + n, rest)) hsplit
    · next hlt =>
      have hbyte : (UInt8.ofNat v).toNat = v := toNat_ofNat (by omega)
      simp only [bytes, map_cons, map_nil, cons_append, nil_append, decodeGroups, hbyte]
      rw [if_pos (and_high_of_lt (by omega)), and_low, Nat.mod_eq_of_lt (by omega), Nat.shiftLeft_eq]

theorem maxPrefix_eq (p : Nat) : maxPrefix p = 2 ^ p - 1 := by
  rw [maxPrefix, Nat.shiftLeft_eq, Nat.one_mul]

theorem encodeInt_first_lt (v p : Nat) : (encodeInt v p).1 < 2 ^ p := by
  have hpos : 0 < 2 ^ p := Nat.two_pow_pos p
  unfold encodeInt
  rw [maxPrefix_eq]
  split
  · omega
  · omega

theorem decodeInt_encodeInt (flag p v : Nat) (rest : Bytes) (hp : p ≤ 8) (hflag : flag < 256)
    (hmod : flag % 2 ^ p = 0) :
    decodeInt (bytes ((flag ||| (encodeInt v p).1) :: (encodeInt v p).2) ++ rest) p = .ok (v, rest) := by
  have hfirst := encodeInt_first_lt v p
  have hlt : flag ||| (encodeInt v p).1 < 256 := by
    refine Nat.or_lt_two_pow (n := 8) hflag (Nat.lt_of_lt_of_le hfirst ?_)
    exact Nat.pow_le_pow_right (by decide) hp
  have hbyte : (UInt8.ofNat (flag ||| (encodeInt v p).1)).toNat &&& maxPrefix p = (encodeInt v p).1 := by
    rw [toNat_ofNat hlt, maxPrefix_eq, Nat.and_two_pow_sub_one_eq_mod, Nat.or_mod_two_pow, hmod,
      Nat.zero_or, Nat.mod_eq_of_lt hfirst]
  simp only [bytes, map_cons, cons_append, decodeInt, hbyte]
  by_cases hv : v < maxPrefix p
  · simp only [encodeInt, if_pos hv, map_nil, nil_append]
  · simp only [encodeInt, if_neg hv, Nat.lt_irrefl, if_false]
    have hgroups := decodeGroups_encodeGroups (v - maxPrefix p) (maxPrefix p) 0 rest
    rw [bytes] at hgroups
    rw [hgroups, Nat.pow_zero, Nat.mul_one, Nat.add_sub_cancel' (Nat.le_of_not_lt hv)]

theorem decodeGroups_length {buf rest : Bytes} {value shift n : Nat}
    (h : decodeGroups buf value shift = .ok (n, rest)) : rest.length < buf.length := by
  induction buf generalizing value shift with
  | nil => cases h
  | cons b buf ih =>
    rw [decodeGroups] at h
    split at h
    · cases h
      exact Nat.lt_succ_self _
    · exact Nat.lt_succ_of_lt (ih h)

theorem decodeInt_length {buf rest : Bytes} {p n : Nat} (h : decodeInt buf p = .ok (n, rest)) :
    rest.length < buf.length := by
  unfold decodeInt at h
  split at h
  · cases h
  · dsimp only at h
    split at h
    · cases h
      exact Nat.lt_succ_self _
    · exact Nat.lt_succ_of_lt (decodeGroups_length h)

/-! ## Strings -/

/-- The Huffman codec the module is loaded with. -/
structure Huffman where
  encodedLength : Bytes → Nat
  encode : Bytes → Bytes
  decode : Bytes → Except Fault Bytes

/-- What the coders rely on. -/
def Huffman.RoundTrips (huffman : Huffman) : Prop := ∀ s, huffman.decode (huffman.encode s) = .ok s

section

variable (huffman : Option Huffman)

/-- `encode-string`: Huffman-coded if that is shorter. -/
def encodeString (s : Bytes) (useHuffman : Bool) : Bytes :=
  match huffman with
  | some codec =>
    if useHuffman ∧ codec.encodedLength s < s.length then
      let encoded := codec.encode s
      let (first, others) := encodeInt encoded.length 7
      bytes ((0x80 ||| first) :: others) ++ encoded
    else
      let (first, others) := encodeInt s.length 7
      bytes ((0x7f &&& first) :: others) ++ s
  | none =>
    let (first, others) := encodeInt s.length 7
    bytes ((0x7f &&& first) :: others) ++ s

def decodeString (buf : Bytes) : Except Fault (Bytes × Bytes) :=
  match buf with
  | [] => .error .typeError
  | b :: _ =>
    match decodeInt buf 7 with
    | .error e => .error e
    | .ok (strLen, start) =>
      if strLen > start.length then .error (.compressionError "HPACK: truncated string")
      else
        let raw := start.take strLen
        match huffman with
        | some codec =>
          if b.toNat &&& 0x80 ≠ 0 then
            match codec.decode raw with
            | .error e => .error e
            | .ok s => .ok (s, start.drop strLen)
          else .ok (raw, start.drop strLen)
        | none => .ok (raw, start.drop strLen)

/-- The length in front of a string of `n` bytes, with the flag for Huffman coding. -/
theorem decodeString_length (flag : Nat) (hflag : flag = 0 ∨ flag = 0x80) (content rest : Bytes) :
    decodeString huffman
      (bytes ((flag ||| (encodeInt content.length 7).1) :: (encodeInt content.length 7).2) ++
        content ++ rest) =
      match huffman with
      | some codec =>
        if flag = 0 then .ok (content, rest)
        else
          match codec.decode content with
          | .error e => .error e
          | .ok s => .ok (s, rest)
      | none => .ok (content, rest) := by
  have hfirst := encodeInt_first_lt content.length 7
  have hlt : flag ||| (encodeInt content.length 7).1 < 256 :=
    Nat.or_lt_two_pow (n := 8) (by omega) (by omega)
  have hbit : (UInt8.ofNat (flag ||| (encodeInt content.length 7).1)).toNat &&& 0x80 = 0 ↔ flag = 0 := by
    rw [toNat_ofNat hlt]
    rcases hflag with rfl | rfl
    · simp [and_high_of_lt hfirst]
    · rw [Nat.or_comm, or_high hfirst]
      simpa using and_high_of_ge (n := 128 + (encodeInt content.length 7).1) (by omega) (by omega)
  have hint := decodeInt_encodeInt flag 7 content.length (content ++ rest)
    (by decide) (by omega) (by rcases hflag with rfl | rfl <;> rfl)
  rw [append_assoc]
  rw [bytes, map_cons, cons_append] at hint ⊢
  rw [decodeString, hint]
  dsimp only
  rw [if_neg (by simp), take_left, drop_left]
  cases huffman with
  | none => rfl
  | some codec => simp only [ne_eq, hbit, ite_not]

theorem encodeString_eq (s : Bytes) (useHuffman : Bool) :
    (∃ codec, huffman = some codec ∧ encodeString huffman s useHuffman =
      bytes ((0x80 ||| (encodeInt (codec.encode s).length 7).1) ::
        (encodeInt (codec.encode s).length 7).2) ++ codec.encode s) ∨
    encodeString huffman s useHuffman =
      bytes ((0 ||| (encodeInt s.length 7).1) :: (encodeInt s.length 7).2) ++ s := by
  have hraw : 0x7f &&& (encodeInt s.length 7).1 = 0 ||| (encodeInt s.length 7).1 := by
    have hlt : (encodeInt s.length 7).1 < 128 := encodeInt_first_lt s.length 7
    rw [Nat.and_comm, and_low, Nat.mod_eq_of_lt hlt, Nat.zero_or]
  unfold encodeString
  cases huffman with
  | none => exact .inr (by simp only [hraw])
  | some codec =>
    by_cases h : useHuffman ∧ codec.encodedLength s < s.length
    · exact .inl ⟨codec, rfl, by simp only [if_pos h]⟩
    · exact .inr (by simp only [if_neg h, hraw])

theorem decodeString_encodeString (hround : ∀ codec ∈ huffman, codec.RoundTrips) (s rest : Bytes)
    (useHuffman : Bool) :
    decodeString huffman (encodeString huffman s useHuffman ++ rest) = .ok (s, rest) := by
  rcases encodeString_eq huffman s useHuffman with ⟨codec, hcodec, heq⟩ | heq
  · rw [heq, decodeString_length huffman 0x80 (.inr rfl)]
    simp only [hcodec, hround codec hcodec s]
    rfl
  · rw [heq, decodeString_length huffman 0 (.inl rfl)]
    cases huffman <;> rfl

theorem decodeString_shorter {buf rest s : Bytes} (h : decodeString huffman buf = .ok (s, rest)) :
    rest.length < buf.length := by
  unfold decodeString at h
  split at h
  · cases h
  · split at h
    · cases h
    · next hint =>
      have hlt := decodeInt_length hint
      split at h
      · cases h
      · have hdrop : ∀ n (xs : Bytes), (xs.drop n).length ≤ xs.length := fun n xs => by
          rw [length_drop]
          omega
        dsimp only at h
        repeat' split at h
        all_goals
          cases h
          try exact Nat.lt_of_le_of_lt (hdrop _ _) hlt

end

end Elle.Hpack

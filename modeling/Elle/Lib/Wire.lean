import Mathlib

/-!
# Reading a byte stream at a cursor

A decoder reads a byte string from a cursor on and moves the cursor; it may also change a state of
its own. It fails where the code that it models would index past the end.

`Reads s d bs a` says that wherever the bytes `bs` stand in a stream, the decoder started at the
first of them returns `a` and stops after the last, and leaves the state `s` alone.
-/

namespace Wire

variable {σ α β : Type}

structure Cursor (σ : Type) where
  ip : Nat
  state : σ

abbrev Decoder (σ α : Type) := ReaderT (List UInt8) (StateT (Cursor σ) Option) α

def takeBytes (n : Nat) : Decoder σ (List UInt8) := fun bytes cursor =>
  if cursor.ip + n ≤ bytes.length then
    some ((bytes.drop cursor.ip).take n, { cursor with ip := cursor.ip + n })
  else none

def takeByte : Decoder σ UInt8 := fun bytes cursor =>
  (bytes[cursor.ip]?).map fun b => (b, { cursor with ip := cursor.ip + 1 })

def times (d : Decoder σ α) : Nat → Decoder σ (List α)
  | 0 => pure []
  | n + 1 => do
    let a ← d
    let as ← times d n
    return a :: as

def onState (f : σ → α × σ) : Decoder σ α := fun _ cursor =>
  some ((f cursor.state).1, { cursor with state := (f cursor.state).2 })

def ofOption (o : Option α) : Decoder σ α := fun _ cursor => o.map fun a => (a, cursor)

/-- Wherever `bs` stands in a stream, the decoder reads it as `a`. -/
def Reads (s : σ) (d : Decoder σ α) (bs : List UInt8) (a : α) : Prop :=
  ∀ pre post, d (pre ++ (bs ++ post)) ⟨pre.length, s⟩ = some (a, ⟨pre.length + bs.length, s⟩)

variable {s : σ} {d : Decoder σ α} {bs bs' : List UInt8} {a : α}

theorem Reads.pure (s : σ) (a : α) : Reads s (pure a) [] a :=
  fun _ _ => rfl

theorem Reads.bind {f : α → Decoder σ β} {b : β} (hd : Reads s d bs a) (hf : Reads s (f a) bs' b) :
    Reads s (d >>= f) (bs ++ bs') b := by
  intro pre post
  have h₁ := hd pre (bs' ++ post)
  have h₂ := hf (pre ++ bs) post
  rw [List.append_assoc, List.length_append] at h₂
  show ((d (pre ++ (bs ++ bs' ++ post)) ⟨pre.length, s⟩).bind fun r =>
    f r.1 (pre ++ (bs ++ bs' ++ post)) r.2) = _
  rw [List.append_assoc, h₁]
  show f a (pre ++ (bs ++ (bs' ++ post))) ⟨pre.length + bs.length, s⟩ = _
  rw [h₂, List.length_append, Nat.add_assoc]

theorem Reads.map {b : β} {f : α → β} (hd : Reads s d bs a) (hb : f a = b) :
    Reads s (do let x ← d; return f x) bs b := by
  subst hb
  have h := hd.bind (f := fun x => Pure.pure (f x)) (Reads.pure s (f a))
  rwa [List.append_nil] at h

theorem Reads.cons {f : UInt8 → Decoder σ β} {b : β} {x : UInt8} (hf : Reads s (f x) bs b) :
    Reads s (takeByte >>= f) (x :: bs) b := by
  have hbyte : Reads s takeByte [x] x := by
    intro pre post
    simp [takeByte]
  exact hbyte.bind hf

theorem reads_takeBytes (s : σ) (bs : List UInt8) : Reads s (takeBytes bs.length) bs bs := by
  intro pre post
  rw [takeBytes, if_pos (by simp), List.drop_left, List.take_left]

theorem Reads.times {as : List α} {bss : List (List UInt8)}
    (h : List.Forall₂ (fun a bs => Reads s d bs a) as bss) :
    Reads s (times d as.length) bss.flatten as := by
  induction h with
  | nil => exact Reads.pure s []
  | cons hd _ ih => exact hd.bind (ih.map rfl)

theorem Reads.onState {f : σ → α × σ} (h : f s = (a, s)) : Reads s (onState f) [] a := by
  intro pre post
  rw [Wire.onState, h]
  rfl

theorem Reads.ofOption {o : Option α} (s : σ) (h : o = some a) : Reads s (ofOption o) [] a := by
  intro pre post
  rw [Wire.ofOption, h]
  rfl

/-! ### Big-endian words -/

/-- The last `w` bytes of a number, most significant first. -/
def toBeBytes (n : Nat) : Nat → List UInt8
  | 0 => []
  | w + 1 => UInt8.ofNat (n / 256 ^ w) :: toBeBytes n w

def fromBeBytes (bs : List UInt8) : Nat :=
  bs.foldl (fun n b => n * 256 + b.toNat) 0

@[simp] theorem length_toBeBytes (n w : Nat) : (toBeBytes n w).length = w := by
  induction w with
  | zero => rfl
  | succ w ih => rw [toBeBytes, List.length_cons, ih]

theorem foldl_toBeBytes (n w k : Nat) :
    (toBeBytes n w).foldl (fun n b => n * 256 + b.toNat) k = k * 256 ^ w + n % 256 ^ w := by
  induction w generalizing k with
  | zero => simp [toBeBytes, Nat.mod_one]
  | succ w ih =>
    have hbyte : (UInt8.ofNat (n / 256 ^ w)).toNat = n / 256 ^ w % 256 := UInt8.toNat_ofNat'
    have hmod : n % (256 ^ w * 256) = n % 256 ^ w + 256 ^ w * (n / 256 ^ w % 256) := Nat.mod_mul
    rw [toBeBytes, List.foldl_cons, ih, hbyte, Nat.pow_succ, hmod]
    ring

theorem fromBeBytes_toBeBytes {n w : Nat} (h : n < 256 ^ w) : fromBeBytes (toBeBytes n w) = n := by
  rw [fromBeBytes, foldl_toBeBytes, Nat.mod_eq_of_lt h, Nat.zero_mul, Nat.zero_add]

def takeWord (w : Nat) : Decoder σ Nat := do
  let bs ← takeBytes w
  return fromBeBytes bs

theorem reads_takeWord (s : σ) {n w : Nat} (h : n < 256 ^ w) : Reads s (takeWord w) (toBeBytes n w) n := by
  have hread := reads_takeBytes s (toBeBytes n w)
  rw [length_toBeBytes] at hread
  exact hread.map (fromBeBytes_toBeBytes h)

end Wire

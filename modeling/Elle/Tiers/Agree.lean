import Elle.Lib.Word
import Elle.Tiers.Wasm

/-!
# The tiers on integers

What each tier computes on two integers, and for which operands they are the same value.
-/

namespace Elle.Tiers

inductive LirOp where
  | binary (op : BinOp)
  | compare (op : CmpOp)
  | unary (op : UnaryOp)
  deriving DecidableEq, Repr

section

variable [Runtime]

/-- The interpreter: the operands on the stack, the result on top of it. -/
def LirOp.interpret (op : LirOp) (proof : OperandProof) (a b : Value) : Outcome :=
  let stack := match op with
    | .binary op => runAll (op.emit proof) [b, a]
    | .compare op => runAll op.emit [b, a]
    | .unary op => runAll op.emit [a]
  match stack with
  | some (v :: _) => .value v
  | _ => .trap

def LirOp.helper (op : LirOp) (a b : Value) : Outcome :=
  match op with
  | .binary op => op.helper a b
  | .compare op => op.helper a b
  | .unary op => op.helper a

/-- The code of the JIT, which calls the helper off its fast path. -/
def LirOp.jit (op : LirOp) (proof : OperandProof) (a b : Value) : Outcome :=
  match op with
  | .binary op' => (emitIntBinopFastPath op' proof).run op.helper a b
  | .compare op' => (emitIntCmpopFastPath op' proof).run op.helper a b
  | .unary op' => (emitUnaryFastPath op' proof).run op.helper a b

/-- The WebAssembly code for registers `lhs` and `rhs`. -/
def LirOp.wasm (op : LirOp) (bothInt : Bool) (dst lhs rhs : Nat) : List Wasm :=
  match op with
  | .binary op => emitBinop dst op lhs rhs bothInt
  | .compare op => emitCompare dst op lhs rhs
  | .unary op => emitUnary dst op lhs

def TiersAgree (op : LirOp) (a b : Word) : Prop :=
  ∃ v : Value,
    (∀ proof, op.interpret proof (.int a) (.int b) = .value v) ∧
    (∀ proof, op.jit proof (.int a) (.int b) = .value v) ∧
    op.helper (.int a) (.int b) = .value v ∧
    ∀ (bothInt : Bool) (dst lhs rhs : Nat) (s : Frame), s.reg lhs = .int a → s.reg rhs = .int b →
      runInto dst (op.wasm bothInt dst lhs rhs) s = .value v

end

/-! ### Shifts -/

theorem setWidth_mod (b : Word) : (b.setWidth 32).toNat % 64 = b.toNat % 64 := by
  rw [BitVec.toNat_setWidth, Nat.mod_mod_of_dvd _ (by decide)]

/-- Left shifts by the clamped and by the reduced amount agree: the amounts are the same, or what is
shifted out leaves nothing. -/
def shlAgrees (a b : Word) : Prop :=
  if b.toInt < 0 then b.toNat % 64 = 0 ∨ a = 0
  else b.toInt < 64 ∨ b.toNat % 64 = 63 ∨ a <<< (b.toNat % 64) = 0

/-- The same for arithmetic right shifts, where what is left may be the sign alone. -/
def shrAgrees (a b : Word) : Prop :=
  if b.toInt < 0 then b.toNat % 64 = 0 ∨ a = 0 ∨ a = -1
  else b.toInt < 64 ∨ b.toNat % 64 = 63 ∨ a.sshiftRight (b.toNat % 64) = 0 ∨
    a.sshiftRight (b.toNat % 64) = -1

theorem clampShift_eq (b : Word) :
    clampShift b = if b.toInt < 0 then 0 else if b.toInt < 64 then b.toNat % 64 else 63 := by
  unfold clampShift
  have := b.toInt_eq_toNat_cond
  split
  · omega
  · split
    · split at this <;> omega
    · omega

theorem shl_eq_iff (a b : Word) : a <<< (b.toNat % 64) = a <<< clampShift b ↔ shlAgrees a b := by
  have hlt : b.toNat % 64 < 64 := Nat.mod_lt _ (by decide)
  rw [clampShift_eq, shlAgrees]
  split
  · rcases Nat.eq_zero_or_pos (b.toNat % 64) with h | h
    · simp [h]
    · rw [BitVec.shiftLeft_zero, Word.shiftLeft_eq_self h]
      simp [Nat.pos_iff_ne_zero.mp h]
  · split
    · simp [*]
    · rename_i h
      rcases Nat.lt_or_ge (b.toNat % 64 + 1) 64 with hk | hk
      · rw [eq_comm, Word.shiftLeft_eq_last hk]
        simp [h, show b.toNat % 64 ≠ 63 by omega]
      · simp [show b.toNat % 64 = 63 by omega]

theorem shr_eq_iff (a b : Word) :
    a.sshiftRight (b.toNat % 64) = a.sshiftRight (clampShift b) ↔ shrAgrees a b := by
  have hlt : b.toNat % 64 < 64 := Nat.mod_lt _ (by decide)
  rw [clampShift_eq, shrAgrees]
  split
  · rcases Nat.eq_zero_or_pos (b.toNat % 64) with h | h
    · simp [h]
    · rw [BitVec.sshiftRight_zero, Word.sshiftRight_eq_self h]
      simp [Nat.pos_iff_ne_zero.mp h]
  · split
    · simp [*]
    · rename_i h
      have hlast := Word.sshiftRight_last (x := a) (by decide)
      have hmsb := BitVec.msb_sshiftRight (x := a) (n := b.toNat % 64)
      rw [hlast]
      by_cases h63 : b.toNat % 64 = 63
      · rw [h63, hlast]
        simp
      · simp only [h, h63, false_or]
        constructor
        · intro he
          rw [he]
          split
          · exact .inr rfl
          · exact .inl rfl
        · rintro (he | he) <;> rw [he] at hmsb ⊢ <;> rw [← hmsb] <;> rfl

/-! ### Results on integers -/

def BinOp.wrapping (op : BinOp) (a b : Word) : Word :=
  match op with
  | .add => a + b
  | .sub => a - b
  | .mul => a * b
  | .div => a.sdiv b
  | .rem => a.srem b
  | .bitAnd => a &&& b
  | .bitOr => a ||| b
  | .bitXor => a ^^^ b
  | .shl => a <<< clampShift b
  | .shr => a.sshiftRight (clampShift b)

def UnaryOp.wrapping (op : UnaryOp) (a : Word) : Value :=
  match op with
  | .neg => .int (-a)
  | .not => .bool false
  | .bitNot => .int (~~~a)

section

variable [Runtime] {a b : Word}

/-- Whether an operation has a divisor, which must then not be zero. -/
def LirOp.divides (op : LirOp) : Bool := op == .binary .div || op == .binary .rem

theorem interpret_binary {op : BinOp} (hb : op.isDivRem → b ≠ 0) (proof : OperandProof) :
    (LirOp.binary op).interpret proof (.int a) (.int b) = .value (.int (op.wrapping a b)) := by
  cases op <;> cases proof <;>
    simp [LirOp.interpret, BinOp.emit, OperandProof.isInt, runAll, Instruction.run, Instruction.binary,
      handleAddInt, handleSubInt, handleMulInt, handleDivInt, handleAdd, handleSub, handleMul, handleDiv,
      handleRem, handleBitAnd, handleBitOr, handleBitXor, handleShl, handleShr, intBinop, genericBinop,
      divValues, arithValues, BinOp.wrapping, BinOp.isDivRem] at hb ⊢ <;> simp [hb]

def Outcome.ofNative : Option Word → Outcome
  | some n => .value (.int n)
  | none => .trap

/-- The native instruction, the same in the JIT and in WebAssembly. -/
def BinOp.native (op : BinOp) (a b : Word) : Option Word := op.wasm.eval a b

theorem eval_clif (op : BinOp) (a b : Word) : op.clif.eval a b = op.native a b := by
  cases op <;> rfl

theorem jit_binary {op : BinOp} (hb : op.isDivRem → b ≠ 0) (proof : OperandProof) :
    (LirOp.binary op).jit proof (.int a) (.int b) = .ofNative (op.native a b) := by
  have arith : (emitIntArith op).run (LirOp.binary op).helper (.int a) (.int b) =
      .ofNative (op.native a b) := by
    simp only [emitIntArith, Code.run, Clif.eval, Option.bind_some, eval_clif, Value.int_payload]
    cases op.native a b <;> rfl
  have fast : (if op.isDivRem then onNonzero (emitIntArith op) else emitIntArith op).run
      (LirOp.binary op).helper (.int a) (.int b) = .ofNative (op.native a b) := by
    split
    · rename_i h
      have hne : b ≠ 0#64 := hb h
      simp [onNonzero, Code.run, Clif.eval, ClifOp.eval, hne, arith]
    · exact arith
  cases proof
  · simpa [LirOp.jit, emitIntBinopFastPath, OperandProof.isInt, Code.run, bothInt, Clif.eval,
      ClifOp.eval, TAG_INT] using fast
  · exact fast

theorem wasm_binary (op : BinOp) (bothInt : Bool) (dst lhs rhs : Nat) {s : Frame}
    (hl : s.reg lhs = .int a) (hr : s.reg rhs = .int b) :
    runInto dst ((LirOp.binary op).wasm bothInt dst lhs rhs) s = .ofNative (op.native a b) := by
  obtain ⟨hlt, hlp⟩ := Value.mk.inj hl
  obtain ⟨hrt, hrp⟩ := Value.mk.inj hr
  have int : runInto dst (emitInt dst op.wasm lhs rhs) s = .ofNative (op.native a b) := by
    simp [runInto, emitInt, execAll, Wasm.exec, Frame.set, hlp, hrp, BinOp.native]
    cases op.wasm.eval a b <;> simp [Frame.reg, Frame.set, Value.int, Outcome.ofNative]
  show runInto dst (emitBinop dst op lhs rhs bothInt) s = _
  unfold emitBinop
  split
  · exact int
  · simpa [runInto, anyFloat, execAll, Wasm.exec, hlt, hrt, WasmOp.eval, TAG_INT, TAG_FLOAT] using int

/-- The tiers agree on a binary operation if the native instruction and the helper both give the
interpreter's result. -/
theorem agree_binary {op : BinOp} (hb : op.isDivRem → b ≠ 0) :
    TiersAgree (.binary op) a b ↔ op.native a b = some (op.wrapping a b) ∧
      op.helper (.int a) (.int b) = .value (.int (op.wrapping a b)) := by
  constructor
  · rintro ⟨v, hi, hj, hh, -⟩
    have hv := (interpret_binary hb .int).symm.trans (hi .int)
    cases hv
    refine ⟨?_, hh⟩
    have hn := (jit_binary hb .int).symm.trans (hj .int)
    cases hx : op.native a b with
    | none => rw [hx] at hn; cases hn
    | some n => rw [hx] at hn; cases hn; rfl
  · rintro ⟨hn, hh⟩
    refine ⟨_, interpret_binary hb, fun proof => ?_, hh, fun bothInt dst lhs rhs s hl hr => ?_⟩
    · rw [jit_binary hb, hn]; rfl
    · rw [wasm_binary op bothInt dst lhs rhs hl hr, hn]; rfl

theorem agree_compare (op : CmpOp) : TiersAgree (.compare op) a b := by
  refine ⟨.bool (op.onInt a b), fun proof => ?_, fun proof => ?_, ?_, ?_⟩
  · cases op <;> simp [LirOp.interpret, CmpOp.emit, runAll, Instruction.run, Instruction.binary, handleEq,
      valuesEq, cmpHandler, bne]
  · have fast : (emitIntCmp op).run (LirOp.compare op).helper (.int a) (.int b) =
        .value (.bool (op.onInt a b)) := by
      simp only [emitIntCmp, Code.run, Clif.eval, ClifOp.eval, Option.bind_some, Value.int_payload]
      cases op.onInt a b <;> rfl
    cases proof
    · simpa [LirOp.jit, emitIntCmpopFastPath, OperandProof.isInt, Code.run, bothInt, Clif.eval,
        ClifOp.eval, TAG_INT] using fast
    · exact fast
  · cases op <;> simp [LirOp.helper, CmpOp.helper, valuesEq, jitOrder, bne]
  · intro bothInt dst lhs rhs s hl hr
    obtain ⟨hlt, hlp⟩ := Value.mk.inj hl
    obtain ⟨hrt, hrp⟩ := Value.mk.inj hr
    simp [LirOp.wasm, runInto, emitCompare, emitBoolFromI32, anyFloat, execAll, Wasm.exec, hlt, hrt, hlp,
      hrp, WasmOp.eval, TAG_INT, TAG_FLOAT]
    cases op.onInt a b <;> simp [Frame.reg, Frame.set, Value.bool]

theorem agree_unary (op : UnaryOp) :
    TiersAgree (.unary op) a b ↔ op.helper (.int a) = .value (op.wrapping a) := by
  have interpreted : ∀ proof, (LirOp.unary op).interpret proof (.int a) (.int b) =
      .value (op.wrapping a) := by
    intro proof
    cases op with
    | neg =>
      show Outcome.value (.int (a * -1#64)) = .value (.int (-a))
      rw [BitVec.mul_neg, BitVec.mul_one]
    | not => rfl
    | bitNot => rfl
  constructor
  · rintro ⟨v, hi, -, hh, -⟩
    have hv := (interpreted .int).symm.trans (hi .int)
    cases hv
    exact hh
  · intro hh
    refine ⟨_, interpreted, fun proof => ?_, hh, fun bothInt dst lhs rhs s hl _ => ?_⟩
    · cases op with
      | neg => cases proof <;> rfl
      | not => simp [LirOp.jit, emitUnaryFastPath, falsy, Code.run, Clif.eval, ClifOp.eval, TAG_INT, TAG_NIL,
          TAG_FALSE, UnaryOp.wrapping, Value.bool]
      | bitNot => cases proof <;> rfl
    · obtain ⟨hlt, hlp⟩ := Value.mk.inj hl
      cases op <;>
        simp [LirOp.wasm, runInto, emitUnary, emitBoolFromI32, execAll, Wasm.exec, WasmOp.eval, hlt, hlp,
          Frame.reg, Frame.set, UnaryOp.wrapping, Value.bool, Value.int, TAG_INT, TAG_NIL, TAG_FALSE]
      exact BitVec.allOnes_xor

/-! ### The operands on which all tiers agree -/

def fits (n : Int) : Prop := -2 ^ 63 ≤ n ∧ n < 2 ^ 63

/-- Results that need no wrapping, no overflowing division and shift amounts that the tiers read
alike. -/
def LirOp.Exact (op : LirOp) (a b : Word) : Prop :=
  match op with
  | .binary .add => fits (a.toInt + b.toInt)
  | .binary .sub => fits (a.toInt - b.toInt)
  | .binary .mul => fits (a.toInt * b.toInt)
  | .binary .div | .binary .rem => ¬ divOverflows a b
  | .binary .shl => shlAgrees a b
  | .binary .shr => shrAgrees a b
  | .unary .neg => a ≠ BitVec.intMin 64
  | _ => True

omit [Runtime] in
theorem orOverflow_eq (what : String) (r : Option Word) (n : Word) :
    orOverflow what r = .value (.int n) ↔ r = some n := by
  cases r with
  | none => simp [orOverflow]
  | some m => simp [orOverflow, Value.int]

/-- On every operation and all operands, the divisor not zero: all tiers end with one value exactly if
the result is exact. -/
theorem tiers_agree_iff (op : LirOp) (a b : Word) (hb : op.divides = true → b ≠ 0) :
    TiersAgree op a b ↔ op.Exact a b := by
  cases op with
  | compare op => exact iff_of_true (agree_compare op) trivial
  | unary op =>
    rw [agree_unary]
    cases op with
    | neg =>
      show orOverflow _ (checkedNeg a) = .value (.int (-a)) ↔ _
      rw [orOverflow_eq]
      simp [checkedNeg, LirOp.Exact]
    | not | bitNot => exact iff_of_true rfl trivial
  | binary op =>
    rw [agree_binary (by cases op <;> exact hb)]
    cases op with
    | add =>
      show some _ = some _ ∧ orOverflow _ (checkedAdd a b) = .value (.int (a + b)) ↔ fits _
      rw [orOverflow_eq, checkedAdd, BitVec.saddOverflow]
      simp [fits, BinOp.wrapping]
      omega
    | sub =>
      show some _ = some _ ∧ orOverflow _ (checkedSub a b) = .value (.int (a - b)) ↔ fits _
      rw [orOverflow_eq, checkedSub, BitVec.ssubOverflow]
      simp [fits, BinOp.wrapping]
      omega
    | mul =>
      show some _ = some _ ∧ orOverflow _ (checkedMul a b) = .value (.int (a * b)) ↔ fits _
      rw [orOverflow_eq, checkedMul, BitVec.smulOverflow]
      simp [fits, BinOp.wrapping]
      omega
    | div =>
      have hne : b ≠ 0#64 := hb rfl
      show _ ∧ onDivisor _ checkedDiv a b = .value (.int (a.sdiv b)) ↔ ¬ divOverflows a b
      rw [onDivisor, if_neg (hb rfl), orOverflow_eq]
      simp [BinOp.native, BinOp.wasm, WasmOp.eval, checkedDiv, hne, BinOp.wrapping]
    | rem =>
      have hne : b ≠ 0#64 := hb rfl
      show _ ∧ onDivisor _ checkedRem a b = .value (.int (a.srem b)) ↔ ¬ divOverflows a b
      rw [onDivisor, if_neg (hb rfl), orOverflow_eq]
      simp [BinOp.native, BinOp.wasm, WasmOp.eval, checkedRem, hne, BinOp.wrapping]
    | shl =>
      show some _ = some _ ∧ Outcome.value (.int (wrappingShl a b)) = .value (.int _) ↔ shlAgrees a b
      rw [wrappingShl, setWidth_mod, ← shl_eq_iff]
      simp [BinOp.wrapping, Value.int]
    | shr =>
      show some _ = some _ ∧ Outcome.value (.int (wrappingShr a b)) = .value (.int _) ↔ shrAgrees a b
      rw [wrappingShr, setWidth_mod, ← shr_eq_iff]
      simp [BinOp.wrapping, Value.int]
    | bitAnd | bitOr | bitXor => exact iff_of_true ⟨rfl, rfl⟩ trivial

end

/-- A runtime for examples on integers, which never reach it. -/
@[reducible] def integersOnly : Runtime where
  ofInt := id
  fadd x _ := x
  fsub x _ := x
  fmul x _ := x
  fdiv x _ := x
  frem x _ := x
  fneg := id
  ffloor := id
  fcmp _ _ _ := false
  compareOther _ _ := none
  eqOther _ _ := false

theorem tiers_agree_seven_by_two : @TiersAgree integersOnly (.binary .div) 7 2 :=
  (@tiers_agree_iff integersOnly (.binary .div) 7 2 (by decide)).mpr (by show ¬ divOverflows 7 2; decide)

/-- A shift by 64, the least integer divided by -1, and an overflowing sum. -/
theorem tiers_disagree :
    (@LirOp.interpret integersOnly (.binary .shl) .int (.int 1) (.int 64) =
        .value (.int (BitVec.intMin 64)) ∧
      @LirOp.jit integersOnly (.binary .shl) .int (.int 1) (.int 64) = .value (.int 1)) ∧
    (@LirOp.interpret integersOnly (.binary .div) .int (.int (BitVec.intMin 64)) (.int (-1)) =
        .value (.int (BitVec.intMin 64)) ∧
      @LirOp.jit integersOnly (.binary .div) .int (.int (BitVec.intMin 64)) (.int (-1)) = .trap) ∧
    (@LirOp.interpret integersOnly (.binary .add) .int (.int (BitVec.intMax 64)) (.int 1) =
        .value (.int (BitVec.intMin 64)) ∧
      @LirOp.helper integersOnly (.binary .add) (.int (BitVec.intMax 64)) (.int 1) =
        .report "JIT overflow error: integer addition overflow") := by
  refine ⟨⟨?_, ?_⟩, ⟨?_, ?_⟩, ?_, ?_⟩ <;> decide

end Elle.Tiers

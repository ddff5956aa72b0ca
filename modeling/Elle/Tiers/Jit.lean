import Elle.Tiers.Interpreter

/-!
# Operations in the JIT

The runtime helpers (`jit/runtime/arith.rs`, `jit/runtime/compare.rs`) and the code emitted around
them (`jit/fastpath.rs`). The emitted blocks are the tree of their branches; each path ends in a
result or a call of the helper.
-/

namespace Elle.Tiers

/-- How an operation ends: with a value, in a hardware trap, or with a message on standard error and
nil. -/
inductive Outcome where
  | value (v : Value)
  | trap
  | report (message : String)
  deriving DecidableEq

/-! ### Runtime helpers -/

def checkedAdd (a b : Word) : Option Word := if a.saddOverflow b then none else some (a + b)
def checkedSub (a b : Word) : Option Word := if a.ssubOverflow b then none else some (a - b)
def checkedMul (a b : Word) : Option Word := if a.smulOverflow b then none else some (a * b)

def checkedDiv (a b : Word) : Option Word :=
  if b = 0 ∨ divOverflows a b then none else some (a.sdiv b)

def checkedRem (a b : Word) : Option Word :=
  if b = 0 ∨ divOverflows a b then none else some (a.srem b)

def checkedNeg (a : Word) : Option Word := if a = BitVec.intMin 64 then none else some (-a)

def wrappingShl (a b : Word) : Word := a <<< ((b.setWidth 32).toNat % 64)
def wrappingShr (a b : Word) : Word := a.sshiftRight ((b.setWidth 32).toNat % 64)

section

variable [Runtime]

/-- The shape of the arithmetic helpers: integers by `onInt`, other numbers as floats. -/
def jitArith (onInt : Word → Word → Outcome) (onFloat : Word → Word → Word) (a b : Value) : Outcome :=
  match a.asInt, b.asInt with
  | some x, some y => onInt x y
  | _, _ =>
    match numeric onFloat a b with
    | some v => .value v
    | none => .report "JIT type error: expected number"

def orOverflow (what : String) (r : Option Word) : Outcome :=
  match r with
  | some n => .value (.int n)
  | none => .report ("JIT overflow error: integer " ++ what ++ " overflow")

/-- Division and remainder test their divisor first. -/
def onDivisor (what : String) (checked : Word → Word → Option Word) (a b : Word) : Outcome :=
  if b = 0 then .report "JIT type error: expected non-zero divisor" else orOverflow what (checked a b)

def jitAdd := jitArith (fun a b => orOverflow "addition" (checkedAdd a b)) Runtime.fadd
def jitSub := jitArith (fun a b => orOverflow "subtraction" (checkedSub a b)) Runtime.fsub
def jitMul := jitArith (fun a b => orOverflow "multiplication" (checkedMul a b)) Runtime.fmul
def jitDiv := jitArith (onDivisor "division" checkedDiv) Runtime.fdiv
def jitRem := jitArith (onDivisor "remainder" checkedRem) Runtime.frem

def jitBitwise (f : Word → Word → Word) (a b : Value) : Outcome :=
  match a.asInt, b.asInt with
  | some x, some y => .value (.int (f x y))
  | _, _ => .report "JIT type error: expected integer"

def jitBitAnd := jitBitwise (· &&& ·)
def jitBitOr := jitBitwise (· ||| ·)
def jitBitXor := jitBitwise (· ^^^ ·)
def jitShl := jitBitwise wrappingShl
def jitShr := jitBitwise wrappingShr

def jitNeg (a : Value) : Outcome :=
  match a.asInt, a.asFloat with
  | some x, _ => orOverflow "negation" (checkedNeg x)
  | none, some f => .value (.float (Runtime.fneg f))
  | none, none => .report "JIT type error: expected number"

def jitNot (a : Value) : Outcome := .value (.bool (!a.isTruthy))

def jitBitNot (a : Value) : Outcome :=
  match a.asInt with
  | some x => .value (.int (~~~x))
  | none => .report "JIT type error: expected integer"

def jitOrder (op : CmpOp) (a b : Value) : Outcome :=
  match a.asInt, b.asInt with
  | some x, some y => .value (.bool (op.onInt x y))
  | _, _ =>
    match a.asNumber, b.asNumber with
    | some x, some y => .value (.bool (Runtime.fcmp op x y))
    | _, _ =>
      match Runtime.compareOther a b with
      | some o => .value (.bool (op.onOrdering o))
      | none => .report "JIT type error: expected number, string, or keyword"

def BinOp.helper : BinOp → Value → Value → Outcome
  | .add => jitAdd
  | .sub => jitSub
  | .mul => jitMul
  | .div => jitDiv
  | .rem => jitRem
  | .bitAnd => jitBitAnd
  | .bitOr => jitBitOr
  | .bitXor => jitBitXor
  | .shl => jitShl
  | .shr => jitShr

def CmpOp.helper (op : CmpOp) (a b : Value) : Outcome :=
  match op with
  | .eq => .value (.bool (valuesEq a b))
  | .ne => .value (.bool (!valuesEq a b))
  | op => jitOrder op a b

def UnaryOp.helper : UnaryOp → Value → Outcome
  | .neg => jitNeg
  | .not => jitNot
  | .bitNot => jitBitNot

end

/-! ### Emitted code -/

/-- The instructions the fast paths use. -/
inductive ClifOp where
  | iadd | isub | imul | band | bor | bxor | ishl | sshr | sdiv | srem
  | icmp (cc : CmpOp)
  deriving DecidableEq

/-- `sdiv` traps on a zero divisor and on overflow, `srem` on a zero divisor, and shift amounts are
taken modulo 64. -/
def ClifOp.eval (op : ClifOp) (a b : Word) : Option Word :=
  match op with
  | .iadd => some (a + b)
  | .isub => some (a - b)
  | .imul => some (a * b)
  | .band => some (a &&& b)
  | .bor => some (a ||| b)
  | .bxor => some (a ^^^ b)
  | .ishl => some (a <<< (b.toNat % 64))
  | .sshr => some (a.sshiftRight (b.toNat % 64))
  | .sdiv => if b = 0 ∨ divOverflows a b then none else some (a.sdiv b)
  | .srem => if b = 0 then none else some (a.srem b)
  | .icmp cc => some (if cc.onInt a b then 1 else 0)

/-- The values of a block, by the instructions that define them. -/
inductive Clif where
  | lhsTag | lhsPayload | rhsTag | rhsPayload
  | iconst (n : Word)
  | binary (op : ClifOp) (x y : Clif)
  | ineg (x : Clif)
  | bnot (x : Clif)
  | select (c x y : Clif)

def Clif.eval (a b : Value) : Clif → Option Word
  | .lhsTag => some a.tag
  | .lhsPayload => some a.payload
  | .rhsTag => some b.tag
  | .rhsPayload => some b.payload
  | .iconst n => some n
  | .binary op x y => (x.eval a b).bind fun m => (y.eval a b).bind fun n => op.eval m n
  | .ineg x => (x.eval a b).map (- ·)
  | .bnot x => (x.eval a b).map (~~~ ·)
  | .select c x y => (c.eval a b).bind fun k => if k ≠ 0 then x.eval a b else y.eval a b

inductive Code where
  | result (tag payload : Clif)
  | brif (cond : Clif) (then' else' : Code)
  | callHelper

def Code.run (helper : Value → Value → Outcome) (a b : Value) : Code → Outcome
  | .result tag payload =>
    match tag.eval a b, payload.eval a b with
    | some t, some p => .value ⟨t, p⟩
    | _, _ => .trap
  | .brif cond then' else' =>
    match cond.eval a b with
    | some k => if k ≠ 0 then then'.run helper a b else else'.run helper a b
    | none => .trap
  | .callHelper => helper a b

def BinOp.clif : BinOp → ClifOp
  | .add => .iadd
  | .sub => .isub
  | .mul => .imul
  | .bitAnd => .band
  | .bitOr => .bor
  | .bitXor => .bxor
  | .shl => .ishl
  | .shr => .sshr
  | .div => .sdiv
  | .rem => .srem

def BinOp.isDivRem (op : BinOp) : Bool := op == .div || op == .rem

def emitIntArith (op : BinOp) : Code :=
  .result (.iconst TAG_INT) (.binary op.clif .lhsPayload .rhsPayload)

def bothInt : Clif :=
  .binary .band (.binary (.icmp .eq) .lhsTag (.iconst 0)) (.binary (.icmp .eq) .rhsTag (.iconst 0))

/-- The test of the divisor that division keeps. -/
def onNonzero (fast : Code) : Code :=
  .brif (.binary (.icmp .ne) .rhsPayload (.iconst 0)) fast .callHelper

def emitIntBinopFastPath (op : BinOp) (proof : OperandProof) : Code :=
  let fast := if op.isDivRem then onNonzero (emitIntArith op) else emitIntArith op
  if proof.isInt then fast else .brif bothInt fast .callHelper

def emitIntCmp (op : CmpOp) : Code :=
  .result (.select (.binary (.icmp op) .lhsPayload .rhsPayload) (.iconst TAG_TRUE) (.iconst TAG_FALSE))
    (.iconst 0)

def emitIntCmpopFastPath (op : CmpOp) (proof : OperandProof) : Code :=
  if proof.isInt then emitIntCmp op else .brif bothInt (emitIntCmp op) .callHelper

def falsy : Clif :=
  .binary .bor (.binary (.icmp .eq) .lhsTag (.iconst TAG_NIL))
    (.binary (.icmp .eq) .lhsTag (.iconst TAG_FALSE))

/-- The operand is the left one. -/
def emitUnaryFastPath (op : UnaryOp) (proof : OperandProof) : Code :=
  match op with
  | .not => .result (.select falsy (.iconst TAG_TRUE) (.iconst TAG_FALSE)) (.iconst 0)
  | .neg => native (.ineg .lhsPayload)
  | .bitNot => native (.bnot .lhsPayload)
where
  native (payload : Clif) : Code :=
    let fast := .result (.iconst TAG_INT) payload
    if proof.isInt then fast
    else .brif (.binary (.icmp .eq) .lhsTag (.iconst 0)) fast .callHelper

end Elle.Tiers

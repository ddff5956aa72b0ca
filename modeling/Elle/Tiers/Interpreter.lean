import Mathlib

/-!
# Operations in the interpreter

The binary, comparison and unary operations of LIR, the bytecode they become (`lir/emit/instr/ops.rs`)
and its handlers (`vm/arithmetic.rs`, `vm/comparison.rs`, `arithmetic.rs`).
-/

namespace Elle.Tiers

inductive BinOp where
  | add | sub | mul | div | rem | bitAnd | bitOr | bitXor | shl | shr
  deriving DecidableEq, Repr

inductive UnaryOp where
  | neg | not | bitNot
  deriving DecidableEq, Repr

inductive CmpOp where
  | eq | ne | lt | le | gt | ge
  deriving DecidableEq, Repr

inductive OperandProof where
  | unproven | int
  deriving DecidableEq, Repr

def OperandProof.isInt (p : OperandProof) : Bool := p == .int

abbrev Word := BitVec 64

/-- A tag and a 64-bit payload. -/
structure Value where
  tag : Word
  payload : Word
  deriving DecidableEq

def TAG_INT : Word := 0
def TAG_FLOAT : Word := 1
def TAG_NIL : Word := 2
def TAG_TRUE : Word := 3
def TAG_FALSE : Word := 4

namespace Value

def int (n : Word) : Value := ⟨TAG_INT, n⟩
def float (f : Word) : Value := ⟨TAG_FLOAT, f⟩
def nil : Value := ⟨TAG_NIL, 0⟩
def bool (b : Bool) : Value := ⟨if b then TAG_TRUE else TAG_FALSE, 0⟩

def asInt (v : Value) : Option Word := if v.tag = TAG_INT then some v.payload else none
def asFloat (v : Value) : Option Word := if v.tag = TAG_FLOAT then some v.payload else none
def isTruthy (v : Value) : Bool := v.tag != TAG_NIL && v.tag != TAG_FALSE

@[simp] theorem int_tag (n : Word) : (int n).tag = TAG_INT := rfl
@[simp] theorem int_payload (n : Word) : (int n).payload = n := rfl
@[simp] theorem asInt_int (n : Word) : (int n).asInt = some n := rfl

end Value

/-- What the tiers share beyond integers: the bits of `f64` operations, the order of strings and
keywords, and equality of values that are not two integers. -/
class Runtime where
  ofInt : Word → Word
  fadd : Word → Word → Word
  fsub : Word → Word → Word
  fmul : Word → Word → Word
  fdiv : Word → Word → Word
  frem : Word → Word → Word
  fneg : Word → Word
  ffloor : Word → Word
  fcmp : CmpOp → Word → Word → Bool
  compareOther : Value → Value → Option Ordering
  eqOther : Value → Value → Bool

/-! ### Machine integers -/

def CmpOp.onInt (op : CmpOp) (a b : Word) : Bool :=
  match op with
  | .eq => a == b
  | .ne => a != b
  | .lt => a.slt b
  | .le => a.sle b
  | .gt => b.slt a
  | .ge => b.sle a

@[simp] theorem CmpOp.onInt_eq (a b : Word) : CmpOp.eq.onInt a b = (a == b) := rfl
@[simp] theorem CmpOp.onInt_ne (a b : Word) : CmpOp.ne.onInt a b = (a != b) := rfl

def CmpOp.onOrdering (op : CmpOp) (o : Ordering) : Bool :=
  match op with
  | .eq => o.isEq
  | .ne => o.isNe
  | .lt => o.isLT
  | .le => o.isLE
  | .gt => o.isGT
  | .ge => o.isGE

def clampShift (b : Word) : Nat := (min (max b.toInt 0) 63).toNat

def divOverflows (a b : Word) : Prop := a = BitVec.intMin 64 ∧ b = -1

instance (a b : Word) : Decidable (divOverflows a b) := inferInstanceAs (Decidable (_ ∧ _))

/-! ### Handlers -/

section

variable [Runtime]

def Value.asNumber (v : Value) : Option Word :=
  match v.asInt with
  | some n => some (Runtime.ofInt n)
  | none => v.asFloat

def numeric (f : Word → Word → Word) (a b : Value) : Option Value :=
  match a.asNumber, b.asNumber with
  | some x, some y => some (.float (f x y))
  | _, _ => none

/-- `add_values` and its kin: integers by `int`, other numbers as floats, anything else an error. -/
def arithValues (onInt : Word → Word → Option Word) (onFloat : Word → Word → Word) (a b : Value) :
    Option Value :=
  match a.asInt, b.asInt with
  | some x, some y => (onInt x y).map .int
  | _, _ => numeric onFloat a b

def addValues := arithValues (fun x y => some (x + y)) Runtime.fadd
def subValues := arithValues (fun x y => some (x - y)) Runtime.fsub
def mulValues := arithValues (fun x y => some (x * y)) Runtime.fmul
def divValues := arithValues (fun x y => if y = 0 then none else some (x.sdiv y)) Runtime.fdiv
def remainderValues := arithValues (fun x y => if y = 0 then none else some (x.srem y)) Runtime.frem

/-- `int_binop!`: unchecked, a wrong type counts as zero. -/
def intBinop (f : Word → Word → Word) (a b : Value) : Value :=
  .int (f (a.asInt.getD 0) (b.asInt.getD 0))

/-- `generic_binop!`: two integers wrap, and an error leaves nil. -/
def genericBinop (onInt : Word → Word → Word) (arith : Value → Value → Option Value) (a b : Value) :
    Value :=
  match a.asInt, b.asInt with
  | some x, some y => .int (onInt x y)
  | _, _ => (arith a b).getD .nil

def handleAddInt := intBinop (· + ·)
def handleSubInt := intBinop (· - ·)
def handleMulInt := intBinop (· * ·)

def handleDivInt (a b : Value) : Value :=
  if b.asInt.getD 1 = 0 then .int 0 else .int ((a.asInt.getD 0).sdiv (b.asInt.getD 1))

def handleAdd := genericBinop (· + ·) addValues
def handleSub := genericBinop (· - ·) subValues
def handleMul := genericBinop (· * ·) mulValues
def handleRem := genericBinop (fun x y => if y = 0 then 0 else x.srem y) remainderValues

def handleDiv (a b : Value) : Value :=
  if a.asInt.isSome ∧ b.asInt = some 0 then .int 0 else (divValues a b).getD .nil

def handleBitAnd := intBinop (· &&& ·)
def handleBitOr := intBinop (· ||| ·)
def handleBitXor := intBinop (· ^^^ ·)
def handleShl := intBinop fun a b => a <<< clampShift b
def handleShr := intBinop fun a b => a.sshiftRight (clampShift b)
def handleBitNot (a : Value) : Value := .int (~~~(a.asInt.getD 0))
def handleNot (a : Value) : Value := .bool (!a.isTruthy)

omit [Runtime] in
@[simp] theorem handleNot_bool (b : Bool) : handleNot (.bool b) = .bool (!b) := by
  cases b <;> rfl

/-- `values_eq`: integers exactly. -/
def valuesEq (a b : Value) : Bool :=
  match a.asInt, b.asInt with
  | some x, some y => x == y
  | _, _ => Runtime.eqOther a b

def handleEq (a b : Value) : Value := .bool (valuesEq a b)

/-- `cmp_handler!`: incomparable values are not ordered. -/
def cmpHandler (op : CmpOp) (a b : Value) : Value :=
  match a.asInt, b.asInt with
  | some x, some y => .bool (op.onInt x y)
  | _, _ =>
    match a.asNumber, b.asNumber with
    | some x, some y => .bool (Runtime.fcmp op x y)
    | _, _ => .bool ((Runtime.compareOther a b).any op.onOrdering)

/-! ### Bytecode -/

inductive Instruction where
  | addInt | subInt | mulInt | divInt
  | add | sub | mul | div | rem
  | bitAnd | bitOr | bitXor | shl | shr
  | eq | lt | gt | le | ge
  | not | bitNot
  | loadConst (v : Value)

/-- What an LIR operation becomes once its operands are on top of the stack. -/
def BinOp.emit (op : BinOp) (proof : OperandProof) : List Instruction :=
  match op with
  | .add => [if proof.isInt then .addInt else .add]
  | .sub => [if proof.isInt then .subInt else .sub]
  | .mul => [if proof.isInt then .mulInt else .mul]
  | .div => [if proof.isInt then .divInt else .div]
  | .rem => [.rem]
  | .bitAnd => [.bitAnd]
  | .bitOr => [.bitOr]
  | .bitXor => [.bitXor]
  | .shl => [.shl]
  | .shr => [.shr]

def CmpOp.emit : CmpOp → List Instruction
  | .eq => [.eq]
  | .lt => [.lt]
  | .gt => [.gt]
  | .le => [.le]
  | .ge => [.ge]
  | .ne => [.eq, .not]

/-- Negation multiplies by -1. -/
def UnaryOp.emit : UnaryOp → List Instruction
  | .not => [.not]
  | .neg => [.loadConst (.int (-1)), .mul]
  | .bitNot => [.bitNot]

def Instruction.binary : Instruction → Option (Value → Value → Value)
  | .addInt => some handleAddInt
  | .subInt => some handleSubInt
  | .mulInt => some handleMulInt
  | .divInt => some handleDivInt
  | .add => some handleAdd
  | .sub => some handleSub
  | .mul => some handleMul
  | .div => some handleDiv
  | .rem => some handleRem
  | .bitAnd => some handleBitAnd
  | .bitOr => some handleBitOr
  | .bitXor => some handleBitXor
  | .shl => some handleShl
  | .shr => some handleShr
  | .eq => some handleEq
  | .lt => some (cmpHandler .lt)
  | .gt => some (cmpHandler .gt)
  | .le => some (cmpHandler .le)
  | .ge => some (cmpHandler .ge)
  | .not | .bitNot | .loadConst _ => none

/-- One instruction on the stack, its top first; `none` is a stack underflow. -/
def Instruction.run (i : Instruction) (stack : List Value) : Option (List Value) :=
  match i, stack with
  | .loadConst v, stack => some (v :: stack)
  | .not, a :: stack => some (handleNot a :: stack)
  | .bitNot, a :: stack => some (handleBitNot a :: stack)
  | i, b :: a :: stack => i.binary.map fun f => f a b :: stack
  | _, _ => none

def runAll (code : List Instruction) (stack : List Value) : Option (List Value) :=
  code.foldlM (fun stack i => i.run stack) stack

end

end Elle.Tiers

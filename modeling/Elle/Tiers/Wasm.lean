import Elle.Tiers.Jit

/-!
# Operations in WebAssembly

The code `wasm/instruction/arith.rs` emits inline and the meaning of its instructions. Each register
has a local for its tag and one for its payload; truth values and the bits of floats are words on the
operand stack.
-/

namespace Elle.Tiers

inductive Local where
  | tag (r : Nat)
  | pay (r : Nat)
  deriving DecidableEq

inductive WasmOp where
  | i64Add | i64Sub | i64Mul | i64DivS | i64RemS | i64And | i64Or | i64Xor | i64Shl | i64ShrS
  | i64Cmp (cc : CmpOp)
  | i32Or
  | f64Add | f64Sub | f64Mul | f64Div
  | f64Cmp (cc : CmpOp)

inductive Wasm where
  | i64Const (n : Word)
  | localGet (l : Local)
  | localSet (l : Local)
  | binary (op : WasmOp)
  | f64Floor
  | f64ConvertI64S
  /-- The reinterpretations, which keep the bits. -/
  | reinterpret
  | drop
  | ifElse (then' else' : List Wasm)

structure Frame where
  locals : Local → Word
  stack : List Word

def Frame.set (s : Frame) (l : Local) (n : Word) : Local → Word :=
  fun l' => if l' = l then n else s.locals l'

section

variable [Runtime]

def WasmOp.eval (op : WasmOp) (a b : Word) : Option Word :=
  match op with
  | .i64Add => some (a + b)
  | .i64Sub => some (a - b)
  | .i64Mul => some (a * b)
  | .i64DivS => if b = 0 ∨ divOverflows a b then none else some (a.sdiv b)
  | .i64RemS => if b = 0 then none else some (a.srem b)
  | .i64And => some (a &&& b)
  | .i64Or => some (a ||| b)
  | .i64Xor => some (a ^^^ b)
  | .i64Shl => some (a <<< (b.toNat % 64))
  | .i64ShrS => some (a.sshiftRight (b.toNat % 64))
  | .i64Cmp cc => some (if cc.onInt a b then 1 else 0)
  | .i32Or => some (a ||| b)
  | .f64Add => some (Runtime.fadd a b)
  | .f64Sub => some (Runtime.fsub a b)
  | .f64Mul => some (Runtime.fmul a b)
  | .f64Div => some (Runtime.fdiv a b)
  | .f64Cmp cc => some (if Runtime.fcmp cc a b then 1 else 0)

mutual

/-- One instruction; `none` is a trap. -/
def Wasm.exec (s : Frame) : Wasm → Option Frame
  | .i64Const n => some { s with stack := n :: s.stack }
  | .localGet l => some { s with stack := s.locals l :: s.stack }
  | .localSet l =>
    match s.stack with
    | n :: stack => some ⟨s.set l n, stack⟩
    | _ => none
  | .binary op =>
    match s.stack with
    | b :: a :: stack => (op.eval a b).map fun n => { s with stack := n :: stack }
    | _ => none
  | .f64Floor =>
    match s.stack with
    | n :: stack => some { s with stack := Runtime.ffloor n :: stack }
    | _ => none
  | .f64ConvertI64S =>
    match s.stack with
    | n :: stack => some { s with stack := Runtime.ofInt n :: stack }
    | _ => none
  | .reinterpret => some s
  | .drop =>
    match s.stack with
    | _ :: stack => some { s with stack := stack }
    | _ => none
  | .ifElse then' else' =>
    match s.stack with
    | n :: stack => if n ≠ 0 then execAll { s with stack := stack } then'
      else execAll { s with stack := stack } else'
    | _ => none

def execAll (s : Frame) : List Wasm → Option Frame
  | [] => some s
  | i :: code => (Wasm.exec s i).bind fun s' => execAll s' code

end

end

/-! ### Emitters -/

def BinOp.wasm : BinOp → WasmOp
  | .add => .i64Add
  | .sub => .i64Sub
  | .mul => .i64Mul
  | .div => .i64DivS
  | .rem => .i64RemS
  | .bitAnd => .i64And
  | .bitOr => .i64Or
  | .bitXor => .i64Xor
  | .shl => .i64Shl
  | .shr => .i64ShrS

def BinOp.isBitwise (op : BinOp) : Bool := op ∈ [.bitAnd, .bitOr, .bitXor, .shl, .shr]

/-- Whether either operand is a float. -/
def anyFloat (lhs rhs : Nat) : List Wasm :=
  [.localGet (.tag lhs), .i64Const TAG_FLOAT, .binary (.i64Cmp .eq),
    .localGet (.tag rhs), .i64Const TAG_FLOAT, .binary (.i64Cmp .eq), .binary .i32Or]

def emitToF64 (r : Nat) : List Wasm :=
  [.localGet (.tag r), .i64Const TAG_FLOAT, .binary (.i64Cmp .eq),
    .ifElse [.localGet (.pay r), .reinterpret] [.localGet (.pay r), .f64ConvertI64S]]

/-- The operation on payloads, its result an integer. -/
def emitInt (dst : Nat) (op : WasmOp) (lhs rhs : Nat) : List Wasm :=
  [.i64Const TAG_INT, .localSet (.tag dst), .localGet (.pay lhs), .localGet (.pay rhs), .binary op,
    .localSet (.pay dst)]

/-- The float operation of an arithmetic one; the remainder is taken from the floored quotient. -/
def emitFloatOp (op : BinOp) (lhs rhs : Nat) : List Wasm :=
  match op with
  | .add => [.binary .f64Add]
  | .sub => [.binary .f64Sub]
  | .mul => [.binary .f64Mul]
  | .div => [.binary .f64Div]
  | .rem => [Wasm.drop, .drop] ++ emitToF64 lhs ++ emitToF64 lhs ++ emitToF64 rhs ++
      [Wasm.binary .f64Div, .f64Floor] ++ emitToF64 rhs ++ [Wasm.binary .f64Mul, .binary .f64Sub]
  | _ => []

def emitBinop (dst : Nat) (op : BinOp) (lhs rhs : Nat) (bothInt : Bool) : List Wasm :=
  if bothInt || op.isBitwise then emitInt dst op.wasm lhs rhs
  else anyFloat lhs rhs ++
    [Wasm.ifElse
      ([Wasm.i64Const TAG_FLOAT, .localSet (.tag dst)] ++ emitToF64 lhs ++ emitToF64 rhs ++
        emitFloatOp op lhs rhs ++ [Wasm.reinterpret, .localSet (.pay dst)])
      (emitInt dst op.wasm lhs rhs)]

def emitBoolFromI32 (dst : Nat) : List Wasm :=
  [.ifElse [.i64Const TAG_TRUE, .localSet (.tag dst)] [.i64Const TAG_FALSE, .localSet (.tag dst)],
    .i64Const 0, .localSet (.pay dst)]

def emitCompare (dst : Nat) (op : CmpOp) (lhs rhs : Nat) : List Wasm :=
  anyFloat lhs rhs ++
    [Wasm.ifElse (emitToF64 lhs ++ emitToF64 rhs ++ [Wasm.binary (.f64Cmp op)])
      [.localGet (.pay lhs), .localGet (.pay rhs), .binary (.i64Cmp op)]] ++ emitBoolFromI32 dst

def emitUnary (dst : Nat) (op : UnaryOp) (src : Nat) : List Wasm :=
  match op with
  | .neg => [.i64Const TAG_INT, .localSet (.tag dst), .i64Const 0, .localGet (.pay src),
      .binary .i64Sub, .localSet (.pay dst)]
  | .not => [.localGet (.tag src), .i64Const TAG_FALSE, .binary (.i64Cmp .eq),
      .localGet (.tag src), .i64Const TAG_NIL, .binary (.i64Cmp .eq), .binary .i32Or] ++
      emitBoolFromI32 dst
  | .bitNot => [.i64Const TAG_INT, .localSet (.tag dst), .i64Const (-1), .localGet (.pay src),
      .binary .i64Xor, .localSet (.pay dst)]

def Frame.reg (s : Frame) (r : Nat) : Value := ⟨s.locals (.tag r), s.locals (.pay r)⟩

/-- How code that defines a register ends. -/
def runInto [Runtime] (dst : Nat) (code : List Wasm) (s : Frame) : Outcome :=
  match execAll s code with
  | some s' => .value (s'.reg dst)
  | none => .trap

end Elle.Tiers

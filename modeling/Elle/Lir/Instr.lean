import Mathlib

/-!
# LIR instructions (lir/code/instr.rs, op.rs, record.rs)

`InstrRef` has one constructor for each operation the lowerer emits. `operands` is the match of
`encode::node`: the destination, the registers read, the words that follow them in the pool, the one
scalar beside the registers, and the flags.
-/

namespace Elle.Lir

abbrev Reg := Nat

abbrev Label := Nat

abbrev StaticRegion := Nat

/-- A runtime value, as the two words it is. -/
structure Value where
  tag : Nat
  payload : Nat
deriving DecidableEq, Repr

/-- An immediate constant; a float is given by its bits, an int as the `u64` it is stored as. -/
inductive ConstRef where
  | nil
  | emptyList
  | bool (b : Bool)
  | int (bits : Nat)
  | float (bits : Nat)
  | symbol (id : Nat)
  | keyword (hash : Nat)
deriving DecidableEq, Repr

structure ConstRec where
  kind : Nat
  bits : Nat
deriving DecidableEq, Repr

def ConstRec.immediate : ConstRef → ConstRec
  | .nil => ⟨0, 0⟩
  | .emptyList => ⟨1, 0⟩
  | .bool b => ⟨2, b.toNat⟩
  | .int bits => ⟨3, bits⟩
  | .float bits => ⟨4, bits⟩
  | .symbol id => ⟨5, id⟩
  | .keyword hash => ⟨6, hash⟩

/-- `ConstRec::bits`: a signal mask, a symbol id. -/
def ConstRec.raw (bits : Nat) : ConstRec := ⟨7, bits⟩

inductive BinOp where
  | add | sub | mul | div | rem | bitAnd | bitOr | bitXor | shl | shr
deriving DecidableEq, Repr

inductive UnaryOp where
  | neg | not | bitNot
deriving DecidableEq, Repr

inductive ConvOp where
  | intToFloat | floatToInt
deriving DecidableEq, Repr

inductive CmpOp where
  | eq | ne | lt | le | gt | ge
deriving DecidableEq, Repr

inductive OperandProof where
  | unproven | int
deriving DecidableEq, Repr

/-- Bits of `Node::flags`. -/
def flagArityChecked : Nat := 1 <<< 4

def flagDeferCallee : Nat := 1 <<< 5

def flagProofInt : Nat := 1 <<< 4

def flagMutated : Nat := 1 <<< 4

def proofFlag : OperandProof → Nat
  | .int => flagProofInt
  | .unproven => 0

inductive Op where
  | const | valueConst | materializeConst | loadLocal | storeLocal | storeLocalRefcounted | loadCapture
  | loadCaptureRaw | storeCapture | makeClosure | loadSelf | call | suspendingCall | tailCall | list
  | makeArrayMut | first | rest | binOp | unaryOp | convert | compare | isNil | isPair | isArray
  | isArrayMut | isStruct | isStructMut | isSet | isSetMut | arrayMutLen | makeCaptureCell
  | loadCaptureCell | storeCaptureCell | matchFail | firstDestructure | restDestructure
  | arrayMutRefDestructure | arrayMutSliceFrom | structGetOrNil | structGetDestructure | structRest
  | firstOrNil | restOrNil | arrayMutRefOrNil | loadResumeValue | eval | arrayMutExtend | arrayMutPush
  | callArrayMut | tailCallArrayMut | increfRegion | decrefRegion | decrefValueRegion | decrefCellRegion
  | increfValueRegion | adoptRegion | adoptCellRegion | freeRegionGroup | adoptIntoActivation
  | assertRegionMatches | pushParamFrame | popParamFrame | checkSignalBound | isEmpty | isBool | isInt
  | isFloat | isString | isKeyword | isSymbolCheck | isBytes | isBox | isClosure | isFiber | typeOf
  | length | get | put | del | has | intrPush | intrStringPush | intrBytesPush | pop | freeze | thaw
  | identical
deriving DecidableEq, Repr

inductive InstrRef where
  | const (dst : Reg) (value : ConstRef)
  | valueConst (dst : Reg) (value : Value)
  | materializeConst (dst : Reg) (template : List Nat) (region : StaticRegion)
  | loadLocal (dst : Reg) (slot : Nat)
  | storeLocal (slot : Nat) (src : Reg)
  | storeLocalRefcounted (slot : Nat) (src : Reg)
  | loadCapture (dst : Reg) (index : Nat)
  | loadCaptureRaw (dst : Reg) (index : Nat)
  | storeCapture (index : Nat) (src : Reg)
  | makeClosure (dst : Reg) (closureId : Nat) (captures : List Reg) (region : StaticRegion)
  | loadSelf (dst : Reg)
  | call (dst func : Reg) (args : List Reg) (arityChecked : Bool) (region : StaticRegion)
  | suspendingCall (dst func : Reg) (args : List Reg) (arityChecked : Bool) (region : StaticRegion)
  | tailCall (dst func : Reg) (args : List Reg) (arityChecked : Bool) (region : StaticRegion)
    (deferCalleeRelease : Bool) (deferredReleaseSlot : Option StaticRegion) (borrowedArgSlots : List Nat)
  | list (dst head tail : Reg) (region : StaticRegion)
  | makeArrayMut (dst : Reg) (elements : List Reg) (region : StaticRegion)
  | first (dst pair : Reg)
  | rest (dst pair : Reg)
  | binOp (dst : Reg) (op : BinOp) (lhs rhs : Reg) (proof : OperandProof)
  | unaryOp (dst : Reg) (op : UnaryOp) (src : Reg) (proof : OperandProof)
  | convert (dst : Reg) (op : ConvOp) (src : Reg)
  | compare (dst : Reg) (op : CmpOp) (lhs rhs : Reg) (proof : OperandProof)
  | isNil (dst src : Reg)
  | isPair (dst src : Reg)
  | isArray (dst src : Reg)
  | isArrayMut (dst src : Reg)
  | isStruct (dst src : Reg)
  | isStructMut (dst src : Reg)
  | isSet (dst src : Reg)
  | isSetMut (dst src : Reg)
  | arrayMutLen (dst src : Reg)
  | makeCaptureCell (dst value : Reg) (region : StaticRegion) (name : Nat) (mutated : Bool)
  | loadCaptureCell (dst cell : Reg)
  | storeCaptureCell (cell value : Reg)
  | matchFail (dst src : Reg)
  | firstDestructure (dst src : Reg)
  | restDestructure (dst src : Reg)
  | arrayMutRefDestructure (dst src : Reg) (index : Nat)
  | arrayMutSliceFrom (dst src : Reg) (index : Nat)
  | structGetOrNil (dst src : Reg) (key : ConstRef)
  | structGetDestructure (dst src : Reg) (key : ConstRef)
  | structRest (dst src : Reg) (excludeKeys : List ConstRec)
  | firstOrNil (dst src : Reg)
  | restOrNil (dst src : Reg)
  | arrayMutRefOrNil (dst src : Reg) (index : Nat)
  | loadResumeValue (dst : Reg)
  | eval (dst expr env : Reg)
  | arrayMutExtend (dst array source : Reg)
  | arrayMutPush (dst array value : Reg)
  | callArrayMut (dst func args : Reg) (region argsRegion : StaticRegion)
  | tailCallArrayMut (func args : Reg) (region argsRegion : StaticRegion)
  | increfRegion (regionId : StaticRegion)
  | decrefRegion (regionId : StaticRegion)
  | decrefValueRegion (src : Reg)
  | decrefCellRegion (src : Reg)
  | increfValueRegion (src : Reg)
  | adoptRegion (parent child : Reg)
  | adoptCellRegion (parent child : Reg)
  | freeRegionGroup (members : List Reg)
  | adoptIntoActivation (child : Reg)
  | assertRegionMatches (regionId : StaticRegion) (src : Reg)
  | pushParamFrame (pairs : List Reg)
  | popParamFrame
  | checkSignalBound (src : Reg) (allowedBits : Nat)
  | isEmpty (dst src : Reg)
  | isBool (dst src : Reg)
  | isInt (dst src : Reg)
  | isFloat (dst src : Reg)
  | isString (dst src : Reg)
  | isKeyword (dst src : Reg)
  | isSymbolCheck (dst src : Reg)
  | isBytes (dst src : Reg)
  | isBox (dst src : Reg)
  | isClosure (dst src : Reg)
  | isFiber (dst src : Reg)
  | typeOf (dst src : Reg)
  | length (dst src : Reg)
  | get (dst obj key : Reg)
  | put (dst obj key val : Reg)
  | del (dst obj key : Reg)
  | has (dst obj key : Reg)
  | intrPush (dst array value : Reg)
  | intrStringPush (dst string value : Reg)
  | intrBytesPush (dst bytes value : Reg)
  | pop (dst src : Reg)
  | freeze (dst src : Reg) (region : StaticRegion)
  | thaw (dst src : Reg) (region : StaticRegion)
  | identical (dst lhs rhs : Reg)

def InstrRef.region : InstrRef → Option StaticRegion
  | makeClosure _ _ _ region | call _ _ _ _ region | suspendingCall _ _ _ _ region
  | tailCall _ _ _ _ region _ _ _ | list _ _ _ region | materializeConst _ _ region
  | makeArrayMut _ _ region | makeCaptureCell _ _ region _ _ | callArrayMut _ _ _ region _
  | tailCallArrayMut _ _ region _ | freeze _ _ region | thaw _ _ region => some region
  | _ => none

def Op.of : InstrRef → Op
  | .const .. => const
  | .valueConst .. => valueConst
  | .materializeConst .. => materializeConst
  | .loadLocal .. => loadLocal
  | .storeLocal .. => storeLocal
  | .storeLocalRefcounted .. => storeLocalRefcounted
  | .loadCapture .. => loadCapture
  | .loadCaptureRaw .. => loadCaptureRaw
  | .storeCapture .. => storeCapture
  | .makeClosure .. => makeClosure
  | .loadSelf .. => loadSelf
  | .call .. => call
  | .suspendingCall .. => suspendingCall
  | .tailCall .. => tailCall
  | .list .. => list
  | .makeArrayMut .. => makeArrayMut
  | .first .. => first
  | .rest .. => rest
  | .binOp .. => binOp
  | .unaryOp .. => unaryOp
  | .convert .. => convert
  | .compare .. => compare
  | .isNil .. => isNil
  | .isPair .. => isPair
  | .isArray .. => isArray
  | .isArrayMut .. => isArrayMut
  | .isStruct .. => isStruct
  | .isStructMut .. => isStructMut
  | .isSet .. => isSet
  | .isSetMut .. => isSetMut
  | .arrayMutLen .. => arrayMutLen
  | .makeCaptureCell .. => makeCaptureCell
  | .loadCaptureCell .. => loadCaptureCell
  | .storeCaptureCell .. => storeCaptureCell
  | .matchFail .. => matchFail
  | .firstDestructure .. => firstDestructure
  | .restDestructure .. => restDestructure
  | .arrayMutRefDestructure .. => arrayMutRefDestructure
  | .arrayMutSliceFrom .. => arrayMutSliceFrom
  | .structGetOrNil .. => structGetOrNil
  | .structGetDestructure .. => structGetDestructure
  | .structRest .. => structRest
  | .firstOrNil .. => firstOrNil
  | .restOrNil .. => restOrNil
  | .arrayMutRefOrNil .. => arrayMutRefOrNil
  | .loadResumeValue .. => loadResumeValue
  | .eval .. => eval
  | .arrayMutExtend .. => arrayMutExtend
  | .arrayMutPush .. => arrayMutPush
  | .callArrayMut .. => callArrayMut
  | .tailCallArrayMut .. => tailCallArrayMut
  | .increfRegion .. => increfRegion
  | .decrefRegion .. => decrefRegion
  | .decrefValueRegion .. => decrefValueRegion
  | .decrefCellRegion .. => decrefCellRegion
  | .increfValueRegion .. => increfValueRegion
  | .adoptRegion .. => adoptRegion
  | .adoptCellRegion .. => adoptCellRegion
  | .freeRegionGroup .. => freeRegionGroup
  | .adoptIntoActivation .. => adoptIntoActivation
  | .assertRegionMatches .. => assertRegionMatches
  | .pushParamFrame .. => pushParamFrame
  | .popParamFrame => popParamFrame
  | .checkSignalBound .. => checkSignalBound
  | .isEmpty .. => isEmpty
  | .isBool .. => isBool
  | .isInt .. => isInt
  | .isFloat .. => isFloat
  | .isString .. => isString
  | .isKeyword .. => isKeyword
  | .isSymbolCheck .. => isSymbolCheck
  | .isBytes .. => isBytes
  | .isBox .. => isBox
  | .isClosure .. => isClosure
  | .isFiber .. => isFiber
  | .typeOf .. => typeOf
  | .length .. => length
  | .get .. => get
  | .put .. => put
  | .del .. => del
  | .has .. => has
  | .intrPush .. => intrPush
  | .intrStringPush .. => intrStringPush
  | .intrBytesPush .. => intrBytesPush
  | .pop .. => pop
  | .freeze .. => freeze
  | .thaw .. => thaw
  | .identical .. => identical

/-- The scalar of an instruction: a number, or what its index in a table is the place of. -/
inductive Aux where
  | scalar (n : Nat)
  | const (rec : ConstRec)
  | value (v : Value)
  /-- The bytes of a template, from their offset on. -/
  | template (bytes : List Nat)
  /-- A run of constants, from its offset on. -/
  | consts (recs : List ConstRec)

structure Operands where
  dst : Option Reg := none
  uses : List Reg := []
  words : List Nat := []
  aux : Aux := .scalar 0
  flags : Nat := 0

def arityFlag (checked : Bool) : Nat := if checked then flagArityChecked else 0

def InstrRef.operands : InstrRef → Operands
  | const dst value => { dst, aux := .const (.immediate value) }
  | valueConst dst value => { dst, aux := .value value }
  | materializeConst dst template _ => { dst, words := [template.length % 2 ^ 32], aux := .template template }
  | loadLocal dst slot => { dst, aux := .scalar slot }
  | storeLocal slot src | storeLocalRefcounted slot src => { uses := [src], aux := .scalar slot }
  | loadCapture dst index | loadCaptureRaw dst index => { dst, aux := .scalar index }
  | storeCapture index src => { uses := [src], aux := .scalar index }
  | makeClosure dst closureId captures _ => { dst, uses := captures, aux := .scalar closureId }
  | loadSelf dst | loadResumeValue dst => { dst }
  | call dst func args checked _ | suspendingCall dst func args checked _ =>
    { dst, uses := func :: args, flags := arityFlag checked }
  | tailCall dst func args checked _ deferCallee deferredSlot borrowed =>
    { dst, uses := func :: args
      words := deferredSlot.getD 0 :: borrowed.length % 2 ^ 32 :: borrowed
      flags := arityFlag checked ||| if deferCallee then flagDeferCallee else 0 }
  | list dst head tail _ => { dst, uses := [head, tail] }
  | makeArrayMut dst elements _ => { dst, uses := elements }
  | first dst pair | rest dst pair => { dst, uses := [pair] }
  | binOp dst op lhs rhs proof => { dst, uses := [lhs, rhs], flags := op.ctorIdx ||| proofFlag proof }
  | compare dst op lhs rhs proof => { dst, uses := [lhs, rhs], flags := op.ctorIdx ||| proofFlag proof }
  | unaryOp dst op src proof => { dst, uses := [src], flags := op.ctorIdx ||| proofFlag proof }
  | convert dst op src => { dst, uses := [src], flags := op.ctorIdx }
  | makeCaptureCell dst value _ name mutated =>
    { dst, uses := [value], aux := .const (.raw name), flags := if mutated then flagMutated else 0 }
  | loadCaptureCell dst cell => { dst, uses := [cell] }
  | storeCaptureCell cell value => { uses := [cell, value] }
  | arrayMutRefDestructure dst src index | arrayMutSliceFrom dst src index | arrayMutRefOrNil dst src index =>
    { dst, uses := [src], aux := .scalar index }
  | structGetOrNil dst src key | structGetDestructure dst src key =>
    { dst, uses := [src], aux := .const (.immediate key) }
  | structRest dst src excludeKeys =>
    { dst, uses := [src], words := [excludeKeys.length % 2 ^ 32], aux := .consts excludeKeys }
  | eval dst expr env => { dst, uses := [expr, env] }
  | arrayMutExtend dst array source => { dst, uses := [array, source] }
  | arrayMutPush dst array value | intrPush dst array value | intrStringPush dst array value
  | intrBytesPush dst array value => { dst, uses := [array, value] }
  | callArrayMut dst func args _ argsRegion => { dst, uses := [func, args], aux := .scalar argsRegion }
  | tailCallArrayMut func args _ argsRegion => { uses := [func, args], aux := .scalar argsRegion }
  | increfRegion regionId | decrefRegion regionId => { aux := .scalar regionId }
  | decrefValueRegion src | decrefCellRegion src | increfValueRegion src | adoptIntoActivation src =>
    { uses := [src] }
  | adoptRegion parent child | adoptCellRegion parent child => { uses := [parent, child] }
  | freeRegionGroup regs | pushParamFrame regs => { uses := regs }
  | assertRegionMatches regionId src => { uses := [src], aux := .scalar regionId }
  | popParamFrame => {}
  | checkSignalBound src allowedBits => { uses := [src], aux := .const (.raw allowedBits) }
  | get dst obj key | del dst obj key | has dst obj key => { dst, uses := [obj, key] }
  | put dst obj key val => { dst, uses := [obj, key, val] }
  | identical dst lhs rhs => { dst, uses := [lhs, rhs] }
  | isNil dst src | isPair dst src | isArray dst src | isArrayMut dst src | isStruct dst src
  | isStructMut dst src | isSet dst src | isSetMut dst src | arrayMutLen dst src | matchFail dst src
  | firstDestructure dst src | restDestructure dst src | firstOrNil dst src | restOrNil dst src
  | isEmpty dst src | isBool dst src | isInt dst src | isFloat dst src | isString dst src
  | isKeyword dst src | isSymbolCheck dst src | isBytes dst src | isBox dst src | isClosure dst src
  | isFiber dst src | typeOf dst src | length dst src | pop dst src | freeze dst src _ | thaw dst src _ =>
    { dst, uses := [src] }

end Elle.Lir

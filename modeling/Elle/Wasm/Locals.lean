import Elle.Wasm.Slots
import Elle.Lib.Cells

/-!
# The emitted code over its locals

`wasm/emit.rs`, `wasm/emit/functions.rs` and `wasm/instruction`: a register is a pair of WebAssembly locals, a
tag and a payload. A closure has locals of their own for its local slots; in the entry function a local slot is
the register of its number, and a register without a slot has the slot of its number.
-/

namespace Elle.Wasm

open Cells

/-! ## Where registers and local slots are -/

/-- What the emitter keeps for the function it emits. -/
structure Frame where
  regToSlot : List (Reg × Nat)
  numRegs : Nat
  localOffset : Nat
  isClosure : Bool
  numStackLocals : Nat

/-- What a function addresses. -/
inductive Name where
  | reg (r : Reg)
  | slot (k : Nat)
deriving DecidableEq, Repr

namespace Frame

variable (fr : Frame)

def slotOf (r : Reg) : Nat := (fr.regToSlot.lookup r).getD r

def tagLocal (r : Reg) : Nat := fr.localOffset + fr.slotOf r

def payLocal (r : Reg) : Nat := fr.localOffset + fr.slotOf r + fr.numRegs

def localSlotTag (slot : Nat) : Nat := fr.localOffset + 2 * fr.numRegs + slot

def localSlotPay (slot : Nat) : Nat := fr.localOffset + 2 * fr.numRegs + fr.numStackLocals + slot

def tag : Name → Nat
  | .reg r => fr.tagLocal r
  | .slot k => if fr.isClosure then fr.localSlotTag k else fr.tagLocal k

def pay : Name → Nat
  | .reg r => fr.payLocal r
  | .slot k => if fr.isClosure then fr.localSlotPay k else fr.payLocal k

/-- The end of the locals declared for registers and local slots. -/
def declared : Nat := fr.localOffset + 2 * fr.numRegs + 2 * fr.numStackLocals

/-- The locals of the name are among those declared for registers and local slots. -/
def InDeclared (x : Name) : Prop :=
  (fr.localOffset ≤ fr.tag x ∧ fr.tag x < fr.declared) ∧ fr.localOffset ≤ fr.pay x ∧ fr.pay x < fr.declared

/-- Two names, not both registers, of the same locals. -/
def Shares : Name → Name → Prop
  | .reg _, .reg _ => False
  | .reg r, .slot k => fr.tag (.reg r) = fr.tag (.slot k)
  | .slot k, .reg r => fr.tag (.slot k) = fr.tag (.reg r)
  | .slot k, .slot k' => k ≠ k' ∧ fr.tag (.slot k) = fr.tag (.slot k')

instance (x : Name) : DecidablePred (fr.Shares x) := fun y => by
  cases x <;> cases y <;> unfold Shares <;> infer_instance

end Frame

/-- The entry function and closures, which may suspend or not. -/
inductive Role where
  | entry
  | closure (maySuspend : Bool)

def Role.maySuspend : Role → Bool
  | .entry => false
  | .closure maySuspend => maySuspend

/-- The frame `emit_function` and `emit_closure_function` set up. -/
def Role.frame (f : Func) : Role → Frame
  | .entry =>
    let alloc := f.allocate f.numLocals
    ⟨alloc.regToSlot, alloc.maxSlots, 1, false, 0⟩
  | .closure _ =>
    let alloc := f.allocate 0
    ⟨alloc.regToSlot, alloc.maxSlots, 4, true, f.numLocals⟩

/-- Where the emitted terminators lead: a function of one block that does not suspend is straight-line code,
and a function that does not suspend traps at an emit. -/
def Role.successors (f : Func) (role : Role) (t : Terminator) : List Label :=
  if f.blocks.length = 1 ∧ role.maySuspend = false then []
  else
    match t with
    | .emit _ resumeLabel => if role.maySuspend then [resumeLabel] else []
    | t => t.successors

/-! ## Execution -/

section

variable {W : Type} (fr : Frame)

def get (m : Nat → W) (x : Name) : W × W := (m (fr.tag x), m (fr.pay x))

def localSet (m : Nat → W) (idx : Nat) (w : W) : Nat → W := fun i => if i = idx then w else m i

def set (m : Nat → W) (x : Name) (v : W × W) : Nat → W :=
  localSet (localSet m (fr.tag x) v.1) (fr.pay x) v.2

/-- `copy_reg`, and the same sequence between a register and a local slot: the tag, then the payload. -/
def copy (m : Nat → W) (src dst : Name) : (Nat → W) × History Name (W × W) :=
  let tag := m (fr.tag src)
  let m₁ := localSet m (fr.tag dst) tag
  let pay := m₁ (fr.pay src)
  (localSet m₁ (fr.pay dst) pay, [.write dst (tag, pay), .read src (tag, pay)])

/-- An instruction whose result is `out`, if it computes one. -/
def exec (m : Nat → W) (out : W × W) : Instr → (Nat → W) × History Name (W × W)
  | .loadLocal dst slot => copy fr m (.slot slot) (.reg dst)
  | .storeLocal slot src => copy fr m (.reg src) (.slot slot)
  | .other dst args =>
    let reads := args.map fun r => Event.read (.reg r) (get fr m (.reg r))
    match dst with
    | none => (m, reads)
    | some r => (set fr m (.reg r) out, .write (.reg r) out :: reads)

end

/-- The places executed, newest first, the locals and what was read and written. -/
inductive Run {W : Type} (f : Func) (role : Role) :
    List Pos → (Nat → W) → History Name (W × W) → Prop
  | start (m : Nat → W) : Run f role [] m []
  | step {ps : List Pos} {m : Nat → W} {h : History Name (W × W)} (run : Run f role ps m h) {q : Pos}
      (hw : f.Walk (role.successors f) (q :: ps)) {i : Instr} (hi : f.instrAt q = some i) (out : W × W) :
      Run f role (q :: ps) (exec (role.frame f) m out i).1 ((exec (role.frame f) m out i).2 ++ h)

def Instr.reads : Instr → List Name
  | .loadLocal _ slot => [.slot slot]
  | .storeLocal _ src => [.reg src]
  | .other _ args => args.map .reg

def Instr.writes : Instr → Option Name
  | .loadLocal dst _ => some (.reg dst)
  | .storeLocal slot _ => some (.slot slot)
  | .other dst _ => dst.map .reg

/-- The locals of every name the function addresses are among those declared, and in every run every read of a
name gives the value last written to it. -/
def KeepsApart (f : Func) (role : Role) : Prop :=
  (∀ p i, f.instrAt p = some i → ∀ x, x ∈ i.reads ∨ i.writes = some x → (role.frame f).InDeclared x) ∧
  ∀ (W : Type) (ps : List Pos) (m : Nat → W) (h : History Name (W × W)), Run f role ps m h → Faithful h

end Elle.Wasm

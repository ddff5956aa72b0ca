import Elle.Wasm.Lir

/-!
# Register allocation

`wasm/regalloc.rs`: a register used outside the block that defines it, or pinned, has a slot of its own; the
others share the slots of a pool, each block taking what it frees before it takes new ones. The maps of the
source are what they hold after the loop that fills them.
-/

namespace Elle.Wasm

def Block.defines (b : Block) (r : Reg) : Bool := b.instrs.any fun i => i.dst == some r

def Block.usesReg (b : Block) (r : Reg) : Bool := b.body.any fun i => i.uses.contains r

namespace Func

variable (f : Func)

/-! ## Which block defines a register, and which use it -/

def defBlock (r : Reg) : Option Label := (f.blocks.reverse.find? fun b => b.defines r).map Block.label

def useBlocks (r : Reg) : List Label := (f.blocks.filter fun b => b.usesReg r).map Block.label

/-! ## Classes -/

inductive Class where
  | skipped
  | crossBlock
  | withinBlock (label : Label)
deriving DecidableEq

def classify (pinnedRegs : Nat) (r : Reg) : Class :=
  match f.defBlock r with
  | none => if f.useBlocks r = [] then .skipped else .crossBlock
  | some l =>
    if r < pinnedRegs ∨ (f.useBlocks r).any fun u => u != l then .crossBlock else .withinBlock l

def crossBlockRegs (pinnedRegs : Nat) : List Reg :=
  (List.range f.numRegs).filter fun r => f.classify pinnedRegs r = .crossBlock

def blockLocalRegs (pinnedRegs : Nat) (label : Label) : List Reg :=
  (List.range f.numRegs).filter fun r => f.classify pinnedRegs r = .withinBlock label

end Func

/-! ## The pool within a block -/

def lastUse (body : List Instr) (r : Reg) : Option Nat :=
  (List.range body.length).reverse.find? fun i => (body[i]?).any fun instr => instr.uses.contains r

/-- The state of the walk over a block. -/
structure Scan where
  regToSlot : List (Reg × Nat)
  poolHighWater : Nat
  freePool : List Nat
  active : List (Reg × Nat)

section

variable (crossBlockCount : Nat) (locals : List Reg) (body : List Instr)

def Scan.take (s : Scan) (r : Reg) (slot : Nat) : Scan :=
  { s with
    regToSlot := (r, crossBlockCount + slot) :: s.regToSlot
    active := (r, slot) :: s.active.filter fun e => e.1 ≠ r }

/-- A slot for the register an instruction defines. -/
def Scan.define (s : Scan) : Option Reg → Scan
  | none => s
  | some r =>
    if r ∈ locals then
      match s.freePool with
      | slot :: pool => Scan.take crossBlockCount { s with freePool := pool } r slot
      | [] => Scan.take crossBlockCount { s with poolHighWater := s.poolHighWater + 1 } r s.poolHighWater
    else s

/-- The slots of the registers last used by an instruction, in order; the last one freed is the first to be
taken again. -/
def Scan.free (s : Scan) (idx : Nat) : Scan :=
  let toFree := (s.active.filter fun e => lastUse body e.1 = some idx).mergeSort fun a b => a.2 ≤ b.2
  { s with
    active := s.active.filter fun e => ¬lastUse body e.1 = some idx
    freePool := (toFree.map Prod.snd).reverse ++ s.freePool }

def Scan.instr (s : Scan) (idx : Nat) (i : Instr) : Scan :=
  (s.define crossBlockCount locals i.dst).free body idx

def Scan.instrs (s : Scan) : Nat → List Instr → Scan
  | _, [] => s
  | idx, i :: rest => (s.instr crossBlockCount locals body idx i).instrs (idx + 1) rest

end

/-! ## Allocation -/

structure RegAlloc where
  regToSlot : List (Reg × Nat)
  maxSlots : Nat

namespace Func

variable (f : Func) (pinnedRegs : Nat)

/-- The slots of a block; what its terminator frees is not taken again. -/
def scanBlock (regToSlot : List (Reg × Nat)) (poolHighWater : Nat) (b : Block) : Scan :=
  Scan.instrs (f.crossBlockRegs pinnedRegs).length (f.blockLocalRegs pinnedRegs b.label) b.body
    ⟨regToSlot, poolHighWater, [], []⟩ 0 b.instrs

def scanBlocks (regToSlot : List (Reg × Nat)) (poolHighWater : Nat) :
    List Block → List (Reg × Nat) × Nat
  | [] => (regToSlot, poolHighWater)
  | b :: blocks =>
    let s := f.scanBlock pinnedRegs regToSlot poolHighWater b
    scanBlocks s.regToSlot s.poolHighWater blocks

def allocate : RegAlloc :=
  if f.blocks = [] ∨ f.numRegs = 0 then ⟨[], 0⟩
  else
    let crossBlock := f.crossBlockRegs pinnedRegs
    let (regToSlot, poolHighWater) := f.scanBlocks pinnedRegs crossBlock.zipIdx 0 f.blocks
    ⟨regToSlot, crossBlock.length + poolHighWater⟩

end Func

end Elle.Wasm

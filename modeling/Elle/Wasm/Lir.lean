import Mathlib

/-!
# LIR functions

What the WebAssembly emitter reads of a function: blocks of instructions over virtual registers and local
slots, and the terminators between them (`lir/types`, `lir/code/view.rs`). Of an instruction other than a load
or a store of a local slot only the registers matter: the one it writes and those it reads.
-/

namespace Elle.Wasm

abbrev Reg := Nat

abbrev Label := Nat

inductive Instr where
  | loadLocal (dst : Reg) (slot : Nat)
  | storeLocal (slot : Nat) (src : Reg)
  | other (dst : Option Reg) (args : List Reg)
deriving DecidableEq, Repr

def Instr.dst : Instr → Option Reg
  | .loadLocal dst _ => some dst
  | .storeLocal _ _ => none
  | .other dst _ => dst

def Instr.uses : Instr → List Reg
  | .loadLocal _ _ => []
  | .storeLocal _ src => [src]
  | .other _ args => args

/-- The local slot an instruction reads or writes. -/
def Instr.slot : Instr → Option Nat
  | .loadLocal _ slot => some slot
  | .storeLocal slot _ => some slot
  | .other _ _ => none

inductive Terminator where
  | ret (reg : Reg)
  | jump (target : Label)
  | branch (cond : Reg) (thenLabel elseLabel : Label)
  | emit (value : Reg) (resumeLabel : Label)
  | unreachable
deriving DecidableEq, Repr

def Terminator.uses : Terminator → List Reg
  | .ret reg => [reg]
  | .jump _ => []
  | .branch cond _ _ => [cond]
  | .emit value _ => [value]
  | .unreachable => []

/-- Where control can go. -/
def Terminator.successors : Terminator → List Label
  | .ret _ => []
  | .jump target => [target]
  | .branch _ thenLabel elseLabel => [thenLabel, elseLabel]
  | .emit _ resumeLabel => [resumeLabel]
  | .unreachable => []

structure Block where
  label : Label
  instrs : List Instr
  terminator : Terminator

/-- The instructions, and after them the terminator as one that writes nothing. -/
def Block.body (b : Block) : List Instr := b.instrs ++ [Instr.other none b.terminator.uses]

structure Func where
  blocks : List Block
  entry : Label
  numRegs : Nat
  numLocals : Nat

/-- A place in a function: a block by its index, and an instruction of its body. -/
structure Pos where
  block : Nat
  instr : Nat
deriving DecidableEq, Repr

namespace Func

variable (f : Func)

def instrAt (p : Pos) : Option Instr := (f.blocks[p.block]?).bind fun b => b.body[p.instr]?

def Defines (p : Pos) (r : Reg) : Prop := ∃ i, f.instrAt p = some i ∧ i.dst = some r

def Uses (p : Pos) (r : Reg) : Prop := ∃ i, f.instrAt p = some i ∧ r ∈ i.uses

/-- Labels tell blocks apart, and registers and slots are within the numbers of them. -/
structure WellFormed : Prop where
  labels : (f.blocks.map Block.label).Nodup
  defines_lt : ∀ p r, f.Defines p r → r < f.numRegs
  uses_lt : ∀ p r, f.Uses p r → r < f.numRegs
  slot_lt : ∀ p i slot, f.instrAt p = some i → i.slot = some slot → slot < f.numLocals

/-! ## Walks -/

/-- One step of control, if the terminators lead where `successors` says. -/
inductive Next (successors : Terminator → List Label) : Pos → Pos → Prop
  | step {b : Nat} {blk : Block} {i : Nat} (hb : f.blocks[b]? = some blk) (hi : i < blk.instrs.length) :
      Next successors ⟨b, i⟩ ⟨b, i + 1⟩
  | goto {b b' : Nat} {blk blk' : Block} (hb : f.blocks[b]? = some blk)
      (hl : blk'.label ∈ successors blk.terminator) (hb' : f.blocks[b']? = some blk') :
      Next successors ⟨b, blk.instrs.length⟩ ⟨b', 0⟩

/-- The places control has gone through from the entry, newest first. -/
inductive Walk (successors : Terminator → List Label) : List Pos → Prop
  | start {b : Nat} {blk : Block} (hb : f.blocks[b]? = some blk) (hl : blk.label = f.entry) :
      Walk successors [⟨b, 0⟩]
  | next {p q : Pos} {ps : List Pos} (h : Walk successors (p :: ps)) (hn : f.Next successors p q) :
      Walk successors (q :: p :: ps)

/-- Each register has one definition, reached before each of its uses. -/
structure DefinedFirst : Prop where
  one : ∀ p q r, f.Defines p r → f.Defines q r → p = q
  first : ∀ q ps r, f.Walk Terminator.successors (q :: ps) → f.Uses q r → ∃ p ∈ ps, f.Defines p r

end Func

variable {f : Func}

theorem Func.Next.mono {s s' : Terminator → List Label} (hs : ∀ t, ∀ l ∈ s t, l ∈ s' t) {p q : Pos}
    (h : f.Next s p q) : f.Next s' p q := by
  cases h with
  | step hb hi => exact .step hb hi
  | goto hb hl hb' => exact .goto hb (hs _ _ hl) hb'

theorem Func.Walk.mono {s s' : Terminator → List Label} (hs : ∀ t, ∀ l ∈ s t, l ∈ s' t) {ps : List Pos}
    (h : f.Walk s ps) : f.Walk s' ps := by
  induction h with
  | start hb hl => exact .start hb hl
  | next _ hn ih => exact .next ih (hn.mono hs)

theorem Func.Walk.of_append {s : Terminator → List Label} (newer : List Pos) {older : List Pos} {p : Pos}
    (h : f.Walk s (newer ++ p :: older)) : f.Walk s (p :: older) := by
  induction newer with
  | nil => exact h
  | cons q newer ih =>
    refine ih ?_
    rw [List.cons_append] at h
    generalize hps : newer ++ p :: older = ps at h
    cases h with
    | start => exact absurd hps (by simp)
    | next h _ => exact h

theorem Func.Walk.through {s : Terminator → List Label} {b i : Nat} :
    ∀ {j : Nat} {ps : List Pos}, f.Walk s (⟨b, j⟩ :: ps) → i < j →
      ∃ newer older : List Pos, ps = newer ++ ⟨b, i⟩ :: older ∧ ∀ p ∈ newer, p.block = b ∧ i < p.instr ∧ p.instr < j
  | j, ps, h, hij => by
    cases h with
    | start => exact absurd hij (Nat.not_lt_zero i)
    | @next q _ ps h hn =>
      cases hn with
      | goto => exact absurd hij (Nat.not_lt_zero i)
      | @step b blk k hb hk =>
        rcases Nat.eq_or_lt_of_le (Nat.le_of_lt_succ hij) with rfl | hik
        · exact ⟨[], ps, rfl, by simp⟩
        · obtain ⟨newer, older, rfl, hnewer⟩ := Func.Walk.through h hik
          refine ⟨⟨b, k⟩ :: newer, older, rfl, ?_⟩
          rintro p (_ | ⟨_, hp⟩)
          · exact ⟨rfl, hik, Nat.lt_succ_self k⟩
          · obtain ⟨hblock, hlow, hhigh⟩ := hnewer p hp
            exact ⟨hblock, hlow, Nat.lt_succ_of_lt hhigh⟩

theorem Func.DefinedFirst.lt_use (hf : f.DefinedFirst) {b d : Nat} {r : Reg}
    (hd : f.Defines ⟨b, d⟩ r) {l : Nat} (hu : f.Uses ⟨b, l⟩ r) :
    ∀ {ps : List Pos}, f.Walk Terminator.successors (⟨b, l⟩ :: ps) → d < l := by
  -- if it stood at or after the use, the walk to it would contain a shorter walk to the use
  have key : ∀ n (ps : List Pos), ps.length ≤ n → f.Walk Terminator.successors (⟨b, l⟩ :: ps) → d < l := by
    intro n
    induction n with
    | zero =>
      intro ps hn hw
      obtain ⟨p, hp, _⟩ := hf.first _ _ r hw hu
      rw [List.eq_nil_of_length_eq_zero (Nat.le_zero.mp hn)] at hp
      cases hp
    | succ n ih =>
      intro ps hn hw
      obtain ⟨p, hp, hpd⟩ := hf.first _ _ r hw hu
      obtain rfl := hf.one _ _ r hd hpd
      obtain ⟨newer, older, rfl⟩ := List.append_of_mem hp
      have hw' : f.Walk Terminator.successors (⟨b, d⟩ :: older) :=
        Func.Walk.of_append (⟨b, l⟩ :: newer) hw
      simp only [List.length_append, List.length_cons] at hn
      by_contra hle
      rcases Nat.eq_or_lt_of_le (Nat.le_of_not_lt hle) with heq | hlt
      · subst heq
        exact hle (ih older (by omega) hw')
      · obtain ⟨newer', older', rfl, _⟩ := hw'.through hlt
        simp only [List.length_append, List.length_cons] at hn
        exact hle (ih older' (by omega) (Func.Walk.of_append (⟨b, d⟩ :: newer') hw'))
  intro ps hw
  exact key _ ps (Nat.le_refl _) hw

end Elle.Wasm

import Elle.Lir.Tables

/-!
# Building functions and taking emits back (lir/build/mod.rs, freeze.rs, head.rs)

A `LirBuilder` stacks the functions under construction. `mark` and `retract` let the lowerer try a run
of instructions and take it back.
-/

namespace Elle.Lir

open List

inductive Arity where
  | exact (n : Nat)
  | atLeast (n : Nat)
  | range (min max : Nat)

def Arity.fixedParams : Arity → Nat
  | exact n | atLeast n | range n _ => n

inductive VarargKind where
  | list
  | struct
  | strictStruct (keys : List String)

inductive RestListLayout where
  | perCell
  | oneRegion

structure Signal where
  bits : Nat := 0
  propagates : Nat := 0

structure LirHead where
  closureId : Option Nat := none
  name : Option String := none
  arity : Arity
  entry : Label := 0
  numRegs : Nat := 0
  numLocals : Nat := 0
  numCaptures : Nat := 0
  captureParamsMask : Nat := 0
  captureLocalsMask : List Nat := []
  signal : Signal := {}
  doc : Option String := none
  origin : Option Span := none
  varargKind : VarargKind := .list
  restListLayout : RestListLayout := .perCell
  numParams : Nat := arity.fixedParams
  numLocalParams : Nat := 0
  regionTable : List StaticRegion := []
  mergedSlots : List StaticRegion := []
  frameReleaseSlots : List Nat := []
  frameReleaseRegions : List StaticRegion := []
  fragment : List Nat := []

structure Block where
  label : Label
  nodes : List Node := []
  exit : Terminator := .unreachable
  span : Span := {}

def Block.insert (b : Block) (at_ : Nat) (nodes : List Node) : Block :=
  { b with nodes := b.nodes.take at_ ++ nodes ++ b.nodes.drop at_ }

structure Work where
  head : LirHead
  blocks : List Block := []
  openBlock : Option Block := none
  tables : Tables := {}

/-- A frozen function with its values. The site tables, which freezing leaves empty, are not here. -/
structure LirOwned where
  nodes : List Node
  blocks : List BlockRec
  pool : List Nat
  consts : List ConstRec
  data : List Nat
  nValues : Nat
  files : List Nat
  /-- The header, with its three slot tables in ascending order. -/
  head : LirHead
  values : List Value

/-- Each block's nodes behind those of the blocks before it, and its record. -/
def freezeBlocks : List Block → Tables → List Node → List BlockRec → List Node × List BlockRec × Tables
  | [], t, nodes, recs => (nodes, recs, t)
  | b :: rest, t, nodes, recs =>
    let (r, t) := t.exit b.label b.exit b.span
    let r := { r with first := asU32 nodes.length, len := asU32 b.nodes.length }
    freezeBlocks rest t (nodes ++ b.nodes) (recs ++ [r])

def freeze (work : Work) : Except String LirOwned :=
  match work.tables.refused with
  | some why => .error ("freeze: " ++ why)
  | none =>
    let (nodes, blocks, t) := freezeBlocks work.blocks work.tables [] []
    .ok
      { nodes, blocks
        pool := t.pool
        consts := t.consts
        data := t.data
        nValues := asU32 t.values.items.length
        files := t.files
        head := { work.head with
          numParams := asU32 work.head.numParams
          numLocalParams := asU32 work.head.numLocalParams
          mergedSlots := work.head.mergedSlots.mergeSort
          frameReleaseSlots := work.head.frameReleaseSlots.mergeSort
          frameReleaseRegions := work.head.frameReleaseRegions.mergeSort }
        values := t.values.items }

/-- The functions under construction, the current one first. -/
abbrev LirBuilder := List Work

inductive Call where
  | beginFunction (arity : Arity)
  | head (edit : LirHead → LirHead)
  | openBlock (label : Label)
  | emit (instr : InstrRef) (span : Span)
  | terminate (exit : Terminator) (span : Span)
  | finishBlock
  | finishFunction
  | moveRun (start at_ : Nat)
  | moveRunTo (start block at_ : Nat)

structure Mark where
  nodes : Nat
  tables : TableMark

namespace LirBuilder

/-- Change the current function; `none` is a panic. -/
def onTop (b : LirBuilder) (f : Work → Option Work) : Option LirBuilder :=
  match b with
  | [] => none
  | work :: rest => (f work).map (· :: rest)

/-- Change the open block of the current function. -/
def onOpen (b : LirBuilder) (f : Block → Option Block) : Option LirBuilder :=
  b.onTop fun work => do
    let block ← work.openBlock
    let block ← f block
    return { work with openBlock := some block }

def emit (b : LirBuilder) (instr : InstrRef) (span : Span) : Option LirBuilder :=
  b.onTop fun work => do
    let block ← work.openBlock
    let (node, tables) := work.tables.node instr span
    return { work with tables, openBlock := some { block with nodes := block.nodes ++ [node] } }

def emits (b : LirBuilder) (instrs : List (InstrRef × Span)) : Option LirBuilder :=
  instrs.foldlM (fun b i => b.emit i.1 i.2) b

def mark (b : LirBuilder) : Option Mark := do
  let work ← b.head?
  let block ← work.openBlock
  return ⟨block.nodes.length, work.tables.mark⟩

/-- Take back everything emitted since `mark`. -/
def retract (b : LirBuilder) (m : Mark) : Option LirBuilder :=
  b.onTop fun work => do
    let block ← work.openBlock
    if m.nodes ≤ block.nodes.length then
      return { work with
        openBlock := some { block with nodes := block.nodes.take m.nodes }
        tables := work.tables.retract m.tables }
    else none

/-- A call, with what a finished function froze to. -/
def call (b : LirBuilder) : Call → Option (LirBuilder × List (Except String LirOwned))
  | .beginFunction arity => some ({ head := { arity } } :: b, [])
  | .head edit => (b.onTop fun work => some { work with head := edit work.head }).map (·, [])
  | .openBlock label =>
    (b.onTop fun work =>
      match work.openBlock with
      | some _ => none
      | none => some { work with openBlock := some { label } }).map (·, [])
  | .emit instr span => (b.emit instr span).map (·, [])
  | .terminate exit span => (b.onOpen fun block => some { block with exit, span }).map (·, [])
  | .finishBlock =>
    (b.onTop fun work => do
      let block ← work.openBlock
      return { work with blocks := work.blocks ++ [block], openBlock := none }).map (·, [])
  | .finishFunction =>
    match b with
    | [] => none
    | work :: rest =>
      match work.openBlock with
      | some _ => none
      | none => some (rest, [freeze work])
  | .moveRun start at_ =>
    (b.onOpen fun block =>
      if at_ ≤ start ∧ start ≤ block.nodes.length then
        some { block with nodes :=
          block.nodes.take at_ ++ (block.nodes.drop start ++ (block.nodes.take start).drop at_) }
      else none).map (·, [])
  | .moveRunTo start block at_ =>
    (b.onTop fun work => do
      let openB ← work.openBlock
      let target ← work.blocks[block]?
      if start ≤ openB.nodes.length ∧ at_ ≤ target.nodes.length then
        return { work with
          openBlock := some { openB with nodes := openB.nodes.take start }
          blocks := work.blocks.set block (target.insert at_ (openB.nodes.drop start)) }
      else none).map (·, [])

/-- What the functions finished by a run of calls froze to, or `none` when a call panics. -/
def frozen (b : LirBuilder) : List Call → Option (List (Except String LirOwned))
  | [] => some []
  | c :: rest =>
    match b.call c with
    | none => none
    | some (b', out) => (frozen b' rest).map (out ++ ·)

/-! ## Emits and their retraction -/

/-- Why the current function cannot freeze. -/
def refused (b : LirBuilder) : Option String := b.head?.bind (·.tables.refused)

/-- The builder with another refusal of the current function. -/
def withRefused (b : LirBuilder) (why : Option String) : LirBuilder :=
  b.modifyHead fun work => { work with tables := { work.tables with refused := why } }

def uses (i : InstrRef × Span) : Nat := i.1.operands.uses.length

/-- The first refusal of a run of instructions. -/
def refusal (is : List (InstrRef × Span)) : Option String :=
  (is.find? fun i => Tables.maxUses < uses i).map fun i => Tables.tooManyUses (uses i)

theorem emit_eq {work : Work} {block : Block} (h : work.openBlock = some block) (rest : LirBuilder)
    (i : InstrRef) (span : Span) :
    emit (work :: rest) i span = some ({ work with
        tables := (work.tables.node i span).2
        openBlock := some { block with nodes := block.nodes ++ [(work.tables.node i span).1] } } :: rest) := by
  simp [emit, onTop, h]

theorem emits_eq (is : List (InstrRef × Span)) (work : Work) {block : Block} (h : work.openBlock = some block)
    (rest : LirBuilder) :
    ∃ nodes tables, emits (work :: rest) is =
        some ({ work with tables, openBlock := some { block with nodes := block.nodes ++ nodes } } :: rest) ∧
      work.tables.Extends tables ∧ tables.refused = work.tables.refused.or (refusal is) := by
  induction is generalizing work block with
  | nil =>
    refine ⟨[], work.tables, ?_, .refl _, by simp [refusal]⟩
    simp only [emits, foldlM_nil, append_nil, ← h]
    rfl
  | cons i is ih =>
    obtain ⟨nodes, tables, hemits, hextends, hrefused⟩ := ih { work with
        tables := (work.tables.node i.1 i.2).2
        openBlock := some { block with nodes := block.nodes ++ [(work.tables.node i.1 i.2).1] } } rfl
    refine ⟨(work.tables.node i.1 i.2).1 :: nodes, tables, ?_, (Tables.extends_node ..).trans hextends, ?_⟩
    · rw [emits, foldlM_cons, emit_eq h]
      simp only [Option.bind_eq_bind, Option.bind_some]
      rw [← emits, hemits]
      simp
    · rw [hrefused, Tables.refused_node]
      by_cases hi : Tables.maxUses < uses i
      · simp only [refusal, find?_cons, hi, decide_true, Option.map_some]
        rw [if_neg (show ¬i.1.operands.uses.length ≤ Tables.maxUses from Nat.not_le.2 hi)]
        cases work.tables.refused <;> rfl
      · simp only [refusal, find?_cons, hi, decide_false]
        rw [if_pos (show i.1.operands.uses.length ≤ Tables.maxUses from Nat.not_lt.1 hi)]

theorem retract_emits {b : LirBuilder} {m : Mark} (hm : b.mark = some m) (is : List (InstrRef × Span)) :
    (b.emits is).bind (retract · m) = some (b.withRefused (b.refused.or (refusal is))) := by
  cases b with
  | nil => cases hm
  | cons work rest =>
    cases hopen : work.openBlock with
    | none => simp [mark, hopen] at hm
    | some block =>
      obtain ⟨nodes, tables, hemits, hextends, hrefused⟩ := emits_eq is work hopen rest
      obtain rfl : ⟨block.nodes.length, work.tables.mark⟩ = m := by simpa [mark, hopen] using hm
      simp [hemits, retract, onTop, hextends.retract, hrefused, withRefused, refused, ← hopen]

theorem frozen_close {b : LirBuilder} {m : Mark} (hm : b.mark = some m) (why : Option String) :
    ∃ work, frozen (b.withRefused why) [.finishBlock, .finishFunction] = some [freeze work] ∧
      work.tables.refused = why := by
  cases b with
  | nil => cases hm
  | cons work rest =>
    cases hopen : work.openBlock with
    | none => simp [mark, hopen] at hm
    | some block =>
      refine ⟨{ work with
        blocks := work.blocks ++ [block], openBlock := none
        tables := { work.tables with refused := why } }, ?_, rfl⟩
      simp [withRefused, frozen, call, onTop, hopen]

theorem freeze_eq_error {work : Work} {why : String} (h : work.tables.refused = some why) :
    freeze work = .error ("freeze: " ++ why) := by
  simp only [freeze, h]

theorem freeze_ok {work : Work} (h : work.tables.refused = none) : ∃ code, freeze work = .ok code := by
  simp only [freeze, h]
  exact ⟨_, rfl⟩

theorem withRefused_self (b : LirBuilder) : b.withRefused b.refused = b := by
  cases b <;> rfl

theorem or_eq_self_iff (b : LirBuilder) (is : List (InstrRef × Span)) :
    b.refused.or (refusal is) = b.refused ↔ b.refused.isSome ∨ ∀ i ∈ is, uses i ≤ Tables.maxUses := by
  cases b.refused <;> simp [refusal]

/-- Emits that are taken back leave the nodes, the tables, the constants and the index of values as
they were, and no trace in what any further calls freeze, exactly when the function was refused before
or every instruction taken back reads at most 65535 registers. -/
theorem retract_leaves_no_trace (b : LirBuilder) (m : Mark) (is : List (InstrRef × Span)) (hm : b.mark = some m) :
    ∃ b', (b.emits is).bind (retract · m) = some b' ∧ b' = b.withRefused b'.refused ∧
      ((∀ calls, frozen b' calls = frozen b calls) ↔
        b.refused.isSome ∨ ∀ i ∈ is, uses i ≤ Tables.maxUses) := by
  refine ⟨_, retract_emits hm is, ?_, ?_⟩
  · cases b with
    | nil => cases hm
    | cons work rest => rfl
  rw [← or_eq_self_iff]
  constructor
  · intro h
    -- a function refused by what was taken back cannot freeze any more
    by_contra hne
    have hnone : b.refused = none := by
      cases hr : b.refused with
      | none => rfl
      | some why => simp [hr] at hne
    obtain ⟨work, hwork, hrefused⟩ := frozen_close hm (b.refused.or (refusal is))
    obtain ⟨work₀, hwork₀, hrefused₀⟩ := frozen_close hm b.refused
    rw [withRefused_self] at hwork₀
    obtain ⟨code, hcode⟩ := freeze_ok (hrefused₀.trans hnone)
    cases hfirst : refusal is with
    | none => simp [hnone, hfirst] at hne
    | some why =>
      rw [hnone, hfirst] at hrefused
      have hsame := (hwork.symm.trans (h _)).trans hwork₀
      rw [freeze_eq_error hrefused, hcode] at hsame
      cases hsame
  · intro h calls
    rw [h, withRefused_self]

theorem retract_leaves_no_trace_pop :
    let b : LirBuilder := [{ head := { arity := .exact 0 }, openBlock := some { label := 0 } }]
    ∃ b', (b.emits [(.popParamFrame, {})]).bind (retract · ⟨0, Tables.mark {}⟩) = some b' ∧
      ∀ calls, frozen b' calls = frozen b calls := by
  intro b
  obtain ⟨b', hb', -, hiff⟩ := retract_leaves_no_trace b ⟨0, Tables.mark {}⟩ [(.popParamFrame, {})] rfl
  exact ⟨b', hb', hiff.2 (.inr (by simp [uses, InstrRef.operands]))⟩

def wideCall (n : Nat) : InstrRef × Span := (.call 0 0 (List.replicate n 0) true 0, {})

theorem uses_wideCall (n : Nat) : uses (wideCall n) = n + 1 := by
  simp [uses, wideCall, InstrRef.operands]

/-- A call too wide for a node is emitted and taken back: the function does not freeze, although its one
block is empty. -/
theorem wide_call_leaves_refusal :
    let b : LirBuilder := [{ head := { arity := .exact 0 }, openBlock := some { label := 0 } }]
    ((b.mark.bind fun m => (b.emits [wideCall 65535]).bind (retract · m)).bind fun b' =>
      frozen b' [.finishBlock, .finishFunction]) =
        some [.error "freeze: an instruction reads 65536 registers, past 65535"] ∧
    ∃ code, frozen b [.finishBlock, .finishFunction] = some [.ok code] := by
  intro b
  have hm : b.mark = some ⟨0, Tables.mark {}⟩ := rfl
  have hrefusal : refusal [wideCall 65535] = some (Tables.tooManyUses 65536) := by
    simp [refusal, uses_wideCall, Tables.maxUses]
  refine ⟨?_, _, rfl⟩
  rw [hm, Option.bind_some, retract_emits hm, hrefusal]
  rfl

end LirBuilder

end Elle.Lir

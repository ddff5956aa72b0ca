import Elle.Lib.Interned
import Elle.Lir.Instr

/-!
# The tables of a function under construction (lir/build/encode.rs)

`Tables.node` encodes an instruction into a node and `Tables.exit` a terminator into a block record.
Both only add to the tables: `Extends` says so, and it is all that retracting to a mark needs.
-/

namespace Elle.Lir

def asU32 (n : Nat) : Nat := n % 2 ^ 32

def noReg : Nat := 2 ^ 32 - 1

def noFile : Nat := 0

/-- A span; `none` is the file id of a span without a file. -/
structure Span where
  start : Nat := 0
  stop : Nat := 0
  line : Nat := 0
  col : Nat := 0
  file : Option Nat := none

structure Node where
  start : Nat
  stop : Nat
  line : Nat
  col : Nat
  file : Nat
  dst : Nat
  region : Nat
  aux : Nat
  uses : Reg × Reg
  extra : Nat
  nUses : Nat
  op : Op
  flags : Nat

inductive Terminator where
  | ret (reg : Reg)
  | jump (target : Label)
  | branch (cond : Reg) (thenLabel elseLabel : Label)
  | emit (signal : Nat) (value : Reg) (resumeLabel : Label)
  | unreachable

inductive TermOp where
  | ret | jump | branch | emit | unreachable

structure BlockRec where
  label : Label
  first : Nat
  len : Nat
  termA : Nat
  termB : Nat
  termC : Nat
  start : Nat
  stop : Nat
  line : Nat
  col : Nat
  file : Nat
  termOp : TermOp

structure Tables where
  pool : List Nat := []
  consts : List ConstRec := []
  data : List Nat := []
  /-- The values and the index that keeps each once. -/
  values : Interned Value asU32 := .empty
  files : List Nat := []
  /-- Why the function cannot freeze. -/
  refused : Option String := none

/-- How long each table was when a mark was taken. -/
structure TableMark where
  pool : Nat
  consts : Nat
  data : Nat
  values : Nat
  files : Nat

namespace Tables

variable (t : Tables)

def mark : TableMark where
  pool := t.pool.length
  consts := t.consts.length
  data := t.data.length
  values := t.values.items.length
  files := t.files.length

/-- Drop every entry made since `mark`. -/
def retract (m : TableMark) : Tables :=
  { t with
    pool := t.pool.take m.pool
    consts := t.consts.take m.consts
    data := t.data.take m.data
    values := t.values.truncate m.values
    files := t.files.take m.files }

/-- One past the span's file's index in the file table, or `noFile`. -/
def file (span : Span) : Nat × Tables :=
  match span.file with
  | none => (noFile, t)
  | some id =>
    match t.files.findIdx? (· == id) with
    | some ix => (asU32 (asU32 ix + 1), t)
    | none => (asU32 (t.files.length + 1), { t with files := t.files ++ [id] })

def pushConst (rec : ConstRec) : Nat × Tables :=
  (asU32 t.consts.length, { t with consts := t.consts ++ [rec] })

def value (v : Value) : Nat × Tables :=
  ((t.values.file v).1, { t with values := (t.values.file v).2 })

/-- The scalar of a node, with what it is the place of filed. -/
def aux : Aux → Nat × Tables
  | .scalar n => (n, t)
  | .const rec => t.pushConst rec
  | .value v => t.value v
  | .template bytes => (asU32 t.data.length, { t with data := t.data ++ bytes })
  | .consts recs => (asU32 t.consts.length, { t with consts := t.consts ++ recs })

/-- The most registers a node can name. -/
def maxUses : Nat := 2 ^ 16 - 1

def tooManyUses (n : Nat) : String := "an instruction reads " ++ toString n ++ " registers, past 65535"

/-- The count of uses as a `u16`; a count that does not fit refuses the function. -/
def count (n : Nat) : Nat × Tables :=
  if n ≤ maxUses then (n, t) else (maxUses, { t with refused := t.refused.or (some (tooManyUses n)) })

/-- The node's run in the pool: its uses when there are more than two, then the words after them. -/
def pushRun (o : Operands) : Nat × Tables :=
  (asU32 t.pool.length, { t with pool := t.pool ++ ((if 2 < o.uses.length then o.uses else []) ++ o.words) })

def node (i : InstrRef) (span : Span) : Node × Tables :=
  let o := i.operands
  let (aux, t) := t.aux o.aux
  let (nUses, t) := t.count o.uses.length
  let (extra, t) := t.pushRun o
  let (file, t) := t.file span
  ({ start := span.start, stop := span.stop, line := span.line, col := span.col, file
     dst := o.dst.getD noReg
     region := i.region.getD 0
     aux
     uses := (o.uses[0]?.getD noReg, o.uses[1]?.getD noReg)
     extra, nUses
     op := .of i
     flags := o.flags }, t)

def exit (label : Label) (exit : Terminator) (span : Span) : BlockRec × Tables :=
  let ((termOp, a, b, c), t) : (TermOp × Nat × Nat × Nat) × Tables := match exit with
    | .ret r => ((.ret, r, noReg, noReg), t)
    | .jump l => ((.jump, l, noReg, noReg), t)
    | .branch cond thenLabel elseLabel => ((.branch, cond, thenLabel, elseLabel), t)
    | .emit signal value resumeLabel =>
      let (at_, t) := t.pushConst (.raw signal)
      ((.emit, value, resumeLabel, at_), t)
    | .unreachable => ((.unreachable, noReg, noReg, noReg), t)
  let (file, t) := t.file span
  ({ label, first := 0, len := 0, termA := a, termB := b, termC := c, start := span.start, stop := span.stop
     line := span.line, col := span.col, file, termOp }, t)

/-! ## Entries are only added -/

/-- Every table of `t'` starts with that of `t`. -/
structure Extends (t t' : Tables) : Prop where
  pool : t.pool <+: t'.pool
  consts : t.consts <+: t'.consts
  data : t.data <+: t'.data
  values : t.values.items <+: t'.values.items
  files : t.files <+: t'.files

namespace Extends

variable {t t' t'' : Tables}

theorem refl (t : Tables) : Extends t t :=
  ⟨List.prefix_rfl, List.prefix_rfl, List.prefix_rfl, List.prefix_rfl, List.prefix_rfl⟩

theorem trans (h : Extends t t') (h' : Extends t' t'') : Extends t t'' :=
  ⟨h.pool.trans h'.pool, h.consts.trans h'.consts, h.data.trans h'.data, h.values.trans h'.values,
    h.files.trans h'.files⟩

theorem retract (h : Extends t t') : t'.retract t.mark = { t with refused := t'.refused } := by
  have htake {α : Type} {l l' : List α} (hp : l <+: l') : l'.take l.length = l :=
    (List.prefix_iff_eq_take.1 hp).symm
  simp only [Tables.retract, mark, htake h.pool, htake h.consts, htake h.data, htake h.files,
    Interned.truncate_of_prefix h.values]

end Extends

theorem extends_file (span : Span) : Extends t (t.file span).2 := by
  unfold file
  split
  · exact .refl t
  · split
    · exact .refl t
    · exact { Extends.refl t with files := List.prefix_append _ _ }

theorem extends_aux (a : Aux) : Extends t (t.aux a).2 := by
  cases a with
  | scalar n => exact .refl t
  | const rec | consts recs => exact { Extends.refl t with consts := List.prefix_append _ _ }
  | value v => exact { Extends.refl t with values := t.values.items_file v }
  | template bytes => exact { Extends.refl t with data := List.prefix_append _ _ }

theorem extends_count (n : Nat) : Extends t (t.count n).2 := by
  unfold count
  split
  · exact .refl t
  · exact { Extends.refl t with }

theorem extends_pushRun (o : Operands) : Extends t (t.pushRun o).2 :=
  { Extends.refl t with pool := List.prefix_append _ _ }

theorem extends_node (i : InstrRef) (span : Span) : Extends t (t.node i span).2 := by
  have haux := t.extends_aux i.operands.aux
  have hcount := (t.aux i.operands.aux).2.extends_count i.operands.uses.length
  have hrun := ((t.aux i.operands.aux).2.count i.operands.uses.length).2.extends_pushRun i.operands
  exact haux.trans (hcount.trans (hrun.trans (extends_file _ span)))

/-! ## Refusals -/

theorem refused_file (span : Span) : (t.file span).2.refused = t.refused := by
  unfold file
  split
  · rfl
  · split <;> rfl

theorem refused_aux (a : Aux) : (t.aux a).2.refused = t.refused := by
  cases a <;> rfl

theorem refused_node (i : InstrRef) (span : Span) :
    (t.node i span).2.refused =
      if i.operands.uses.length ≤ maxUses then t.refused
      else t.refused.or (some (tooManyUses i.operands.uses.length)) := by
  unfold node
  rw [refused_file]
  dsimp only [count, pushRun]
  split <;> simp only [refused_aux]

end Tables

end Elle.Lir

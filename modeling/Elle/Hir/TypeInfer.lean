import Mathlib

/-! # Type inference over the HIR (`hir/typeinfer/infer.rs` and its modules)

The ascent runs a transfer function over the whole tree until the type environment stops moving,
pins what is still moving after `maxIters` passes at `top`, and starts over. A unit has `n` bindings
(the arena's indices) and node ids below `m`, so each map of the environment is a function on a
finite type.

The rules for single nodes that read nothing of the environment (which facts a test proves, what an
intrinsic or a primitive returns, what a `type-of` scrutinee is about) are parameters. -/

namespace Elle.TypeInfer

inductive Ty where
  | bottom | top | nil | bool | int | float | number | string | keyword | symbol | emptyList | bytes
  | array | mutableArray | struct | mutableStruct | mutableString | mutableBytes | set | mutableSet | pair
  deriving DecidableEq

namespace Ty

def join (a b : Ty) : Ty :=
  if a = b then a
  else if a = bottom then b
  else if b = bottom then a
  else
    match a, b with
    | int, float | float, int | int, number | float, number | number, int | number, float => number
    | _, _ => top

def meet (a b : Ty) : Ty :=
  if a = b then a
  else if a = top then b
  else if b = top then a
  else
    match a, b with
    | number, int | int, number => int
    | number, float | float, number => float
    | _, _ => bottom

/-- A fact meeting the start is the fact. -/
def refine (accumulated fact : Ty) : Ty :=
  if accumulated = bottom then fact else meet accumulated fact

end Ty

/-! ## The tree -/

/-- A literal or a quoted constant is its type; a match arm's pattern is the type keyword it names.
`let` and `letrec` are one form here, as `and` and `or` are. -/
inductive Hir (n m : Nat) where
  | const (id : Fin m) (ty : Ty)
  | var (id : Fin m) (b : Fin n)
  | intrinsic (id : Fin m) (op : Nat) (args : List (Hir n m))
  | let_ (id : Fin m) (bindings : List (Fin n × Hir n m)) (body : Hir n m)
  | assign (id : Fin m) (target : Fin n) (value : Hir n m)
  | define (id : Fin m) (binding : Fin n) (value : Hir n m)
  | loop (id : Fin m) (bindings : List (Fin n × Hir n m)) (body : Hir n m)
  | makeCell (id : Fin m) (value : Hir n m)
  | derefCell (id : Fin m) (cell : Hir n m)
  | setCell (id : Fin m) (cell value : Hir n m)
  | if_ (id : Fin m) (cond thenBranch elseBranch : Hir n m)
  | match_ (id : Fin m) (value : Hir n m) (arms : List (Option Ty × Option (Hir n m) × Hir n m))
  | cond (id : Fin m) (clauses : List (Hir n m × Hir n m)) (elseBranch : Option (Hir n m))
  | begin_ (id : Fin m) (exprs : List (Hir n m))
  | block (id : Fin m) (blockId : Nat) (body : List (Hir n m))
  | break_ (id : Fin m) (blockId : Nat) (value : Hir n m)
  | shortCircuit (id : Fin m) (exprs : List (Hir n m))
  | call (id : Fin m) (func : Hir n m) (args : List (Hir n m × Bool))
  | lambda (id : Fin m) (params : List (Fin n)) (restParam : Option (Fin n)) (collectsList : Bool) (body : Hir n m)
  | destructure (id : Fin m) (written : List (Fin n)) (value : Hir n m)
  | return_ (id : Fin m) (value : Hir n m)
  | other (id : Fin m) (children : List (Hir n m))

variable {n m : Nat}

namespace Hir

def id : Hir n m → Fin m
  | const i _ | var i _ | intrinsic i _ _ | let_ i _ _ | assign i _ _ | define i _ _ | loop i _ _ | makeCell i _
  | derefCell i _ | setCell i _ _ | if_ i _ _ _ | match_ i _ _ | cond i _ _ | begin_ i _ | block i _ _
  | break_ i _ _ | shortCircuit i _ | call i _ _ | lambda i _ _ _ _ | destructure i _ _ | return_ i _
  | other i _ => i

def children : Hir n m → List (Hir n m)
  | const _ _ | var _ _ => []
  | intrinsic _ _ es | begin_ _ es | block _ _ es | shortCircuit _ es | other _ es => es
  | let_ _ bs body | loop _ bs body => bs.map Prod.snd ++ [body]
  | assign _ _ e | define _ _ e | makeCell _ e | derefCell _ e | break_ _ _ e | lambda _ _ _ _ e
  | destructure _ _ e | return_ _ e => [e]
  | setCell _ c v => [c, v]
  | if_ _ c t e => [c, t, e]
  | match_ _ v arms => v :: arms.flatMap fun a => a.2.1.toList ++ [a.2.2]
  | cond _ clauses e => clauses.flatMap (fun c => [c.1, c.2]) ++ e.toList
  | call _ f args => args.map Prod.fst ++ [f]

theorem sizeOf_children {h c : Hir n m} (hc : c ∈ h.children) : sizeOf c < sizeOf h := by
  have pair {α β : Type} [SizeOf α] [SizeOf β] (p : α × β) : sizeOf p = 1 + sizeOf p.1 + sizeOf p.2 := by
    cases p; rfl
  have mem {α : Type} [SizeOf α] {a : α} {l : List α} (ha : a ∈ l) := List.sizeOf_lt_of_mem ha
  cases h <;> simp only [children, List.mem_append, List.mem_map, List.mem_flatMap, List.mem_cons,
    List.not_mem_nil, or_false, Option.mem_toList] at hc
  case match_ i v arms =>
    rcases hc with rfl | ⟨a, ha, h | rfl⟩
    · simp <;> omega
    · have hlt := mem ha
      rw [pair, pair, Option.mem_def.mp h, Option.some.sizeOf_spec] at hlt
      simp <;> omega
    · have hlt := mem ha
      rw [pair, pair] at hlt
      simp <;> omega
  case cond i clauses e =>
    rcases hc with ⟨a, ha, rfl | rfl⟩ | h
    iterate 2
      have hlt := mem ha
      rw [pair] at hlt
      simp <;> omega
    simp [Option.mem_def.mp h]
    omega
  case let_ | loop | call =>
    rcases hc with ⟨p, hp, rfl⟩ | rfl
    · have hlt := mem hp
      rw [pair] at hlt
      simp <;> omega
    · simp <;> omega
  all_goals
    first
    | (have hlt := mem hc; simp <;> omega)
    | (rcases hc with rfl | rfl | rfl <;> simp <;> omega)

theorem induct {P : Hir n m → Prop} (step : ∀ h, (∀ c ∈ h.children, P c) → P h) (h : Hir n m) : P h :=
  step h fun c _ => induct step c
termination_by sizeOf h
decreasing_by exact sizeOf_children ‹_›

def unwrapMakeCell : Hir n m → Hir n m
  | makeCell _ value => value
  | h => h

/-- The id of the body, where the node is a lambda. -/
def lambdaBody : Hir n m → Option (Fin m)
  | lambda _ _ _ _ body => some body.id
  | _ => none

/-- The binding a call through this expression names. -/
def calleeBinding : Hir n m → Option (Fin n)
  | var _ b | derefCell _ (var _ b) => some b
  | _ => none

end Hir

/-! ## The program's facts -/

structure LambdaSig (n : Nat) where
  all : List (Fin n)
  fixed : List (Fin n)
  rest : Option (Fin n × Bool)

namespace Hir

/-- Bindings written by `assign` or `setCell` anywhere in the tree. -/
def collectMutatedBindings (h : Hir n m) : List (Fin n) :=
  (match h with
    | assign _ target _ => [target]
    | setCell _ (var _ b) _ => [b]
    | _ => []) ++
    h.children.attach.flatMap fun c => c.1.collectMutatedBindings
termination_by sizeOf h
decreasing_by exact sizeOf_children c.2

def lambdaSig : Hir n m → Option (LambdaSig n)
  | lambda _ ps rest collectsList _ =>
    some
      { all := ps ++ rest.toList.filter fun r => !ps.contains r
        fixed := ps.filter fun p => some p != rest
        rest := rest.map (·, collectsList) }
  | _ => none

def recordLambda (params : Fin n → Option (LambdaSig n)) (b : Fin n) (value : Hir n m) :
    Fin n → Option (LambdaSig n) :=
  Function.update params b (value.unwrapMakeCell.lambdaSig.or (params b))

/-- The function bindings of the tree and their parameters; a later introduction of a binding
replaces an earlier one. -/
def collectLambdaInfo (h : Hir n m) (params : Fin n → Option (LambdaSig n)) : Fin n → Option (LambdaSig n) :=
  match _hh : h with
  | let_ _ bindings body =>
    body.collectLambdaInfo <|
      bindings.attach.foldl (fun ps b => b.1.2.collectLambdaInfo (recordLambda ps b.1.1 b.1.2)) params
  | define _ b value => value.collectLambdaInfo (recordLambda params b value)
  | h' => h'.children.attach.foldl (fun ps c => c.1.collectLambdaInfo ps) params
termination_by sizeOf h
decreasing_by
  · exact sizeOf_children (by simpa [children] using .inl ⟨b.1.1, b.2⟩)
  · exact sizeOf_children (by simp [children])
  · exact sizeOf_children (by simp [children])
  · exact sizeOf_children c.2

end Hir

/-- Where inference reads the type a grafted operand had. -/
inductive Operand (n m : Nat) where
  | type (ty : Ty)
  | local (b : Fin n)
  | occurrences (ids : List (Fin m)) (b : Fin n)

structure Contribution (n m : Nat) where
  function : Fin n
  param : Fin n
  operand : Operand n m

/-- A compilation unit: the tree, what its arena and the graft say, and the node rules. -/
structure CompUnit (n m : Nat) where
  hir : Hir n m
  declaredNumeric : Fin n → Bool
  /-- bindings with a value-position use -/
  valueUsed : Fin n → Bool
  record : List (Contribution n m)
  prior : Nat → Ty
  /-- the type facts a test proves in its true and in its false branch -/
  condFacts : Hir n m → List (Fin n × Ty) × List (Fin n × Ty)
  factsAfterStatement : Hir n m → List (Fin n × Ty)
  intrinsicReturnType : Nat → List Ty → Ty
  /-- `top` for a binding that is not a supplied primitive -/
  primitiveReturnType : Fin n → List Ty → Ty
  typeofSubject : Hir n m → Option (Fin n)

namespace CompUnit
variable (u : CompUnit n m)

def lambdaParams : Fin n → Option (LambdaSig n) := u.hir.collectLambdaInfo fun _ => none

def mutated (b : Fin n) : Bool := u.hir.collectMutatedBindings.contains b

def declaredFloor (b : Fin n) (ty : Ty) : Ty :=
  if u.declaredNumeric b then
    match ty.refine .number with
    | .bottom => .number
    | floored => floored
  else ty

end CompUnit

/-! ## The environment -/

structure Env (n m : Nat) where
  bindingTypes : Fin n → Option Ty
  hirTypes : Fin m → Option Ty
  lambdaBodyType : Fin n → Option Ty
  breakTypes : Nat → Option Ty
  paramJoins : Fin n → Option Ty

abbrev Infer (n m : Nat) := StateM (Env n m)

def typeOr (b : Fin n) (absent : Ty) : Infer n m Ty := fun s => ((s.bindingTypes b).getD absent, s)

def setType (b : Fin n) (ty : Ty) : Infer n m Unit := fun s =>
  ((), { s with bindingTypes := Function.update s.bindingTypes b (some ty) })

/-- `insert` into the node map what a sub-run inferred for the node. -/
def note (i : Fin m) (run : Infer n m Ty) : Infer n m Ty := fun s =>
  let r := run s
  (r.1, { r.2 with hirTypes := Function.update r.2.hirTypes i (some r.1) })

/-- Join into a binding's type; an absent entry starts at `bottom`. -/
def joinType (b : Fin n) (ty : Ty) (floor : Ty → Ty) : Infer n m Unit := do
  let old ← typeOr b .bottom
  setType b (floor (old.join ty))

def joinParam (p : Fin n) (ty : Ty) : Infer n m Unit := fun s =>
  ((), { s with paramJoins := Function.update s.paramJoins p (some (((s.paramJoins p).getD .bottom).join ty)) })

/-- One binding a fact narrowed: what it held before, and what the fact gave it. -/
structure Narrowed (n : Nat) where
  binding : Fin n
  prior : Option Ty
  narrowed : Ty

def narrowType (b : Fin n) (ty : Ty) : Infer n m (Narrowed n) := fun s =>
  (⟨b, s.bindingTypes b, ty⟩, { s with bindingTypes := Function.update s.bindingTypes b (some ty) })

def applyTypeFacts : List (Fin n × Ty) → Infer n m (List (Narrowed n))
  | [] => pure []
  | (b, fact) :: facts => do
    let old ← typeOr b .top
    let saved ← narrowType b (old.refine fact)
    return saved :: (← applyTypeFacts facts)

/-- End the scope of one fact. A binding the scope did not write takes back its prior type; one it
wrote takes the join of the two. -/
def restoreOne (x : Narrowed n) : Infer n m Unit := fun s =>
  let current := s.bindingTypes x.binding
  let restored :=
    if current = some x.narrowed then x.prior
    else some ((x.prior.getD .top).join (current.getD .top))
  ((), { s with bindingTypes := Function.update s.bindingTypes x.binding restored })

def restoreTypeFacts (saved : List (Narrowed n)) : Infer n m Unit := saved.reverse.forM restoreOne

/-! ## The transfer function -/

namespace CompUnit
variable (u : CompUnit n m)

/-- A function binding's result is its body's type, and `top` where the binding is ever written. -/
def recordLambdaBodyType (b : Fin n) (init : Hir n m) : Infer n m Unit := fun s =>
  match init.unwrapMakeCell.lambdaBody with
  | none => ((), s)
  | some i =>
    let ty := if u.mutated b then .top else (s.hirTypes i).getD .top
    ((), { s with lambdaBodyType := Function.update s.lambdaBodyType b (some ty) })

def bindLet (b : Fin n) (init : Hir n m) (ty : Ty) : Infer n m Unit := do
  u.recordLambdaBodyType b init
  match init.unwrapMakeCell.lambdaBody with
  | some _ => pure ()
  | none => joinType b ty (u.declaredFloor b)

def bindLoop (b : Fin n) (_init : Hir n m) (ty : Ty) : Infer n m Unit := joinType b ty (fun t => t)

/-- What a call contributes to the parameters of a function whose callers are all visible. -/
def contributions (sig : LambdaSig n) (argTypes : List Ty) (spliced : List Bool) : List (Fin n × Ty) :=
  let splicedAt := spliced.findIdx (·)
  let fixed := sig.fixed.zipIdx.map fun (p, i) => (p, if splicedAt ≤ i then .top else (argTypes[i]?).getD .nil)
  let rest := sig.rest.toList.map fun (r, collectsList) =>
    (r, if !collectsList || decide (splicedAt < spliced.length) then .top
      else if sig.fixed.length < spliced.length then .pair else .emptyList)
  fixed ++ rest

def callResult (func : Hir n m) (argTypes : List Ty) (spliced : List Bool) : Infer n m Ty :=
  match func.calleeBinding with
  | none => pure .top
  | some callee =>
    match u.lambdaParams callee with
    | some sig => do
      (if u.valueUsed callee then pure () else
        (contributions sig argTypes spliced).forM fun c => joinParam c.1 c.2)
      fun s => ((s.lambdaBodyType callee).getD .bottom, s)
    | none => pure (u.primitiveReturnType callee argTypes)

def joinBreak (blockId : Nat) (ty : Ty) : Infer n m Unit := fun s =>
  let joined := match s.breakTypes blockId with
    | some t => t.join ty
    | none => ty
  ((), { s with breakTypes := Function.update s.breakTypes blockId (some joined) })

/-- A block's type joins its tail with the values of its own `break`s. -/
def withBreaks (blockId : Nat) (run : Infer n m Ty) : Infer n m Ty := fun s =>
  let r := run { s with breakTypes := Function.update s.breakTypes blockId none }
  (r.1.join ((r.2.breakTypes blockId).getD .bottom),
    { r.2 with breakTypes := Function.update r.2.breakTypes blockId (s.breakTypes blockId) })

/-- The types the node map holds for these nodes. -/
def nodeTypes (ids : List (Fin m)) : Infer n m (List Ty) := fun s => (ids.map fun i => (s.hirTypes i).getD .top, s)

def floorParams (params : List (Fin n)) : Infer n m Unit :=
  (params.filter u.declaredNumeric).forM fun p => do
    let old ← typeOr p .top
    setType p (u.declaredFloor p old)

/-- A cell held by a variable has the variable's type. -/
def cellType : Hir n m → Infer n m Ty
  | .var _ b => typeOr b .top
  | _ => pure .top

def joinCell (ty : Ty) : Hir n m → Infer n m Unit
  | .var _ b => joinType b ty (fun t => t)
  | _ => pure ()

/-- In an arm whose pattern names a type the subject of the `type-of` has it. -/
def narrowSubject : Option (Fin n) → Option Ty → Infer n m (List (Narrowed n))
  | some b, some narrow => do
    let saved ← narrowType b narrow
    return [saved]
  | _, _ => pure []

mutual

def infer : Hir n m → Infer n m Ty
  | .const _ ty => pure ty
  | .var _ b => typeOr b .top
  | .intrinsic _ op args => do
    let _ ← inferAll args
    return u.intrinsicReturnType op (← nodeTypes (args.map Hir.id))
  | .let_ _ bindings body => do
    inferBindings u.bindLet bindings
    note body.id (infer body)
  | .assign _ b value | .define _ b value => do
    let ty ← infer value
    u.recordLambdaBodyType b value
    let ty ← note value.id (pure ty)
    joinType b ty (fun t => t)
    return ty
  | .loop _ bindings body => do
    inferBindings bindLoop bindings
    note body.id (infer body)
  | .makeCell _ value | .return_ _ value => note value.id (infer value)
  | .derefCell _ cell => do
    let _ ← note cell.id (infer cell)
    cellType cell
  | .setCell _ cell value => do
    let _ ← note cell.id (infer cell)
    let ty ← note value.id (infer value)
    joinCell ty cell
    return ty
  | .if_ _ cond thenBranch elseBranch => do
    let _ ← note cond.id (infer cond)
    let facts := u.condFacts cond
    let saved ← applyTypeFacts facts.1
    let thenTy ← note thenBranch.id (infer thenBranch)
    restoreTypeFacts saved
    let saved ← applyTypeFacts facts.2
    let elseTy ← note elseBranch.id (infer elseBranch)
    restoreTypeFacts saved
    return thenTy.join elseTy
  | .match_ _ value arms => do
    let _ ← note value.id (infer value)
    let ty ← inferArms (u.typeofSubject value) arms .bottom
    return if arms.isEmpty then .top else ty
  | .cond _ clauses elseBranch => do
    let (ty, saved) ← inferClauses clauses .bottom []
    let ty ← inferElse elseBranch ty
    restoreTypeFacts saved
    return ty
  | .begin_ _ exprs => inferSequence exprs .nil []
  | .block _ blockId body => withBreaks blockId (inferSequence body .nil [])
  | .break_ _ blockId value => do
    let ty ← note value.id (infer value)
    joinBreak blockId ty
    return .bottom
  | .shortCircuit _ exprs => return (← inferAll exprs).foldl Ty.join .bottom
  | .call _ func args => do
    let _ ← note func.id (infer func)
    let argTypes ← inferArgs args
    u.callResult func argTypes (args.map Prod.snd)
  | .lambda _ params _ _ body => do
    u.floorParams params
    let _ ← note body.id (infer body)
    return .top
  | .destructure _ written value => do
    let _ ← note value.id (infer value)
    written.forM fun b => setType b .top
    return .top
  | .other _ children => do
    let _ ← inferAll children
    return .top

def inferAll : List (Hir n m) → Infer n m (List Ty)
  | [] => pure []
  | h :: hs => do
    let ty ← note h.id (infer h)
    return ty :: (← inferAll hs)

def inferArgs : List (Hir n m × Bool) → Infer n m (List Ty)
  | [] => pure []
  | (h, _) :: hs => do
    let ty ← note h.id (infer h)
    return ty :: (← inferArgs hs)

def inferBindings (bind : Fin n → Hir n m → Ty → Infer n m Unit) : List (Fin n × Hir n m) → Infer n m Unit
  | [] => pure ()
  | (b, init) :: rest => do
    let ty ← note init.id (infer init)
    bind b init ty
    inferBindings bind rest

/-- Each statement's own fact holds for the statements after it; all end with the sequence. -/
def inferSequence : List (Hir n m) → Ty → List (Narrowed n) → Infer n m Ty
  | [], ty, saved => do
    restoreTypeFacts saved
    return ty
  | e :: es, _, saved => do
    let ty ← note e.id (infer e)
    let more ← applyTypeFacts (u.factsAfterStatement e)
    inferSequence es ty (saved ++ more)

/-- A failed test's facts hold for the clauses after it. -/
def inferClauses : List (Hir n m × Hir n m) → Ty → List (Narrowed n) → Infer n m (Ty × List (Narrowed n))
  | [], ty, fallthrough => pure (ty, fallthrough)
  | (test, body) :: rest, ty, fallthrough => do
    let _ ← note test.id (infer test)
    let facts := u.condFacts test
    let saved ← applyTypeFacts facts.1
    let bodyTy ← note body.id (infer body)
    restoreTypeFacts saved
    let more ← applyTypeFacts facts.2
    inferClauses rest (ty.join bodyTy) (fallthrough ++ more)

def inferElse : Option (Hir n m) → Ty → Infer n m Ty
  | some els, ty => do
    let elseTy ← note els.id (infer els)
    return ty.join elseTy
  | none, ty => pure ty

def inferGuard : Option (Hir n m) → Infer n m Unit
  | some g => do
    let _ ← note g.id (infer g)
  | none => pure ()

def inferArms (subject : Option (Fin n)) : List (Option Ty × Option (Hir n m) × Hir n m) → Ty → Infer n m Ty
  | [], ty => pure ty
  | (pat, guard, body) :: rest, ty => do
    inferGuard guard
    let saved ← narrowSubject subject pat
    let bodyTy ← note body.id (infer body)
    restoreTypeFacts saved
    inferArms subject rest (ty.join bodyTy)

end

end CompUnit

/-! ## The ascent -/

def maxIters : Nat := 10

namespace CompUnit
variable (u : CompUnit n m)

/-- What one graft contribution reads. -/
def operandType (s : Env n m) : Operand n m → Ty
  | .type t => t
  | .local b => (s.bindingTypes b).getD .top
  | .occurrences ids b =>
    match ids.filterMap s.hirTypes with
    | first :: seen => seen.foldl Ty.join first
    | [] => (s.bindingTypes b).getD .top

def joinGraftedOperands : Infer n m Unit :=
  u.record.zipIdx.forM fun (c, i) =>
    if u.valueUsed c.function || (u.lambdaParams c.function).isNone then pure ()
    else fun s => joinParam c.param ((operandType s c.operand).meet (u.prior i)) s

/-- The end of a pass: a contributed parameter takes this pass's join, and a widened entry is held
at `top`. -/
def close (widened : Finset (Fin n)) (s : Env n m) : Env n m where
  bindingTypes b :=
    if b ∈ widened then some .top
    else
      match s.paramJoins b with
      | some joined => if u.mutated b then s.bindingTypes b else some (u.declaredFloor b joined)
      | none => s.bindingTypes b
  hirTypes := s.hirTypes
  lambdaBodyType b := if b ∈ widened ∧ (u.lambdaParams b).isSome then some .top else s.lambdaBodyType b
  breakTypes := s.breakTypes
  paramJoins := fun _ => none

def pass (widened : Finset (Fin n)) (s : Env n m) : Env n m :=
  let run : Infer n m Unit := do
    let _ ← note u.hir.id (u.infer u.hir)
    u.joinGraftedOperands
  u.close widened (run { s with paramJoins := fun _ => none }).2

/-- The keys whose type differs between two snapshots; a key the later one lacks is not a move. -/
def moved (before after : Fin n → Option Ty) : Finset (Fin n) :=
  Finset.univ.filter fun b => (after b).isSome ∧ before b ≠ after b

/-- Passes until the environment settles or the budget runs out: how many, the bindings the last one
was still moving, and the environment left. -/
def ascend (widened : Finset (Fin n)) : Nat → Finset (Fin n) → Env n m → Nat × Option (Finset (Fin n)) × Env n m
  | 0, moving, s => (0, some moving, s)
  | k + 1, _, s =>
    let s' := u.pass widened s
    if s.hirTypes = s'.hirTypes ∧ s.bindingTypes = s'.bindingTypes ∧ s.lambdaBodyType = s'.lambdaBodyType then
      (1, none, s')
    else
      let r := ascend widened k
        (moved s.bindingTypes s'.bindingTypes ∪ moved s.lambdaBodyType s'.lambdaBodyType) s'
      (r.1 + 1, r.2)

/-- The bindings the environment has an entry for. -/
def keys (s : Env n m) : Finset (Fin n) :=
  Finset.univ.filter fun b => (s.bindingTypes b).isSome ∨ (s.lambdaBodyType b).isSome

/-- Hold every entry still moving at `top`, and the whole environment where that pins nothing new. -/
def widen (widened moving : Finset (Fin n)) (s : Env n m) : Finset (Fin n) :=
  if (widened ∪ moving).card = widened.card then widened ∪ moving ∪ keys s else widened ∪ moving

/-- Raise every `bottom` the ascent settled on to `top`. -/
def settle (s : Env n m) : Env n m :=
  { s with hirTypes := fun i => (s.hirTypes i).map fun ty => if ty = .bottom then .top else ty }

/-- The result of the ascent, with the number of passes it took. -/
structure Solved (n m : Nat) where
  passes : Nat
  widened : Finset (Fin n)
  env : Env n m

def solveFrom (widened : Finset (Fin n)) (s : Env n m) : Solved n m :=
  match u.ascend widened maxIters ∅ s with
  | (passes, none, s') => ⟨passes, widened, settle s'⟩
  | (passes, some moving, s') =>
    if widened.card < (widen widened moving s').card then
      let r := solveFrom (widen widened moving s') s'
      ⟨passes + r.passes, r.widened, r.env⟩
    else ⟨passes, widen widened moving s', settle s'⟩
termination_by n - widened.card
decreasing_by
  have := Finset.card_le_univ (widen widened moving s')
  rw [Fintype.card_fin] at this
  omega

/-- The start: a parameter that all its call sites are visible for begins at `bottom`. -/
def start : Env n m where
  bindingTypes p :=
    if ∃ b, u.valueUsed b = false ∧ ((u.lambdaParams b).any fun sig => sig.all.contains p) ∧ u.mutated p = false
    then some .bottom else none
  hirTypes := fun _ => none
  lambdaBodyType := fun _ => none
  breakTypes := fun _ => none
  paramJoins := fun _ => none

def solve : Solved n m := u.solveFrom ∅ u.start

end CompUnit

end Elle.TypeInfer

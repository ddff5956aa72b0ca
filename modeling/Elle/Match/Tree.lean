import Elle.Match.Pattern

/-!
# The decision tree

The compiler of `hir/decision/{mod,algo,constructors}.rs`: a matrix of pattern rows is split on one
column at a time, one case per constructor found in the column and a default for the rows that do
not look at it. `DecisionTree.run` is the run of the code `lower_decision_tree` emits: the cases in
order, then the default, a failed guard continuing in its fallback tree.

`compileMatrix` takes fuel; `compile` supplies the weight of the matrix, which is enough for plain
patterns.
-/

namespace Elle.Match

inductive AccessPath where
  | root
  | first (parent : AccessPath)
  | rest (parent : AccessPath)
  | index (parent : AccessPath) (i : Nat)
  | slice (parent : AccessPath) (start : Nat)
  | key (parent : AccessPath) (key : PatternKey)
  | structRest (parent : AccessPath) (exclude : List PatternKey)
  deriving DecidableEq

inductive Constructor (F : Type) where
  | literal (lit : PatternLiteral F)
  | pair
  | nil
  | emptyList
  | array (n : Nat)
  | arrayRest (n : Nat)
  | arrayMut (n : Nat)
  | arrayMutRest (n : Nat)
  | struct (keys : List PatternKey)
  | table (keys : List PatternKey)
  | set
  | setMut

structure PatternRow (F : Type) where
  patterns : List (HirPattern F)
  hasGuard : Bool
  armIndex : Nat
  /-- Variables of columns already removed, with the path each is read from. -/
  bindings : List (Nat × AccessPath)

inductive DecisionTree (F : Type) where
  | leaf (armIndex : Nat) (bindings : List (Nat × AccessPath))
  | fail
  | switch (access : AccessPath) (cases : List (Constructor F × DecisionTree F))
      (default : Option (DecisionTree F))
  | guard (armIndex : Nat) (bindings : List (Nat × AccessPath)) (otherwise : DecisionTree F)

variable {F : Type}

/-! ### Constructors -/

namespace Constructor

def arity : Constructor F → Nat
  | literal _ | nil | emptyList => 0
  | pair => 2
  | array n | arrayMut n => n
  | arrayRest n | arrayMutRest n => n + 1
  | struct keys | table keys => keys.length
  | set | setMut => 1

def structKeys? : Constructor F → Option (List PatternKey)
  | struct keys => some keys
  | _ => none

def tableKeys? : Constructor F → Option (List PatternKey)
  | table keys => some keys
  | _ => none

end Constructor

def isWildcard : HirPattern F → Bool
  | .wildcard | .var _ => true
  | _ => false

/-- The constructor a pattern tests for. A non-empty list is the pair of its head and the list of
the others. -/
def patternConstructor : HirPattern F → Option (Constructor F)
  | .wildcard | .var _ => none
  | .nil => some .nil
  | .literal lit => some (.literal lit)
  | .pair _ _ => some .pair
  | .list elements rest =>
    if elements.isEmpty && rest.isNone then some .emptyList else some .pair
  | .tuple elements rest =>
    if rest.isSome then some (.arrayRest elements.length) else some (.array elements.length)
  | .array elements rest =>
    if rest.isSome then some (.arrayMutRest elements.length) else some (.arrayMut elements.length)
  | .struct entries _ => some (.struct (entries.map (·.1)))
  | .table entries _ => some (.table (entries.map (·.1)))
  | .set _ => some .set
  | .setMut _ => some .setMut
  | .or _ => none

section

variable [Float64 F]

/-- The derived equality of literals; floats compare as IEEE numbers. -/
def PatternLiteral.eq : PatternLiteral F → PatternLiteral F → Bool
  | .bool a, .bool b => a == b
  | .int a, .int b => a == b
  | .float a, .float b => Float64.eq a b
  | .string a, .string b => a == b
  | .keyword a, .keyword b => a == b
  | _, _ => false

def Constructor.eq : Constructor F → Constructor F → Bool
  | .literal a, .literal b => a.eq b
  | .pair, .pair | .nil, .nil | .emptyList, .emptyList | .set, .set | .setMut, .setMut => true
  | .array n, .array m | .arrayRest n, .arrayRest m => n == m
  | .arrayMut n, .arrayMut m | .arrayMutRest n, .arrayMutRest m => n == m
  | .struct ks, .struct ks' | .table ks, .table ks' => ks == ks'
  | _, _ => false

/-- Equal constructors hash alike, but for floats: the hash reads the bits. -/
def Constructor.sameHash : Constructor F → Constructor F → Bool
  | .literal (.float a), .literal (.float b) => Float64.bits a == Float64.bits b
  | _, _ => true

def constructorCompatible : Constructor F → Constructor F → Bool
  | .struct _, .struct _ => true
  | .table _, .table _ => true
  | c, target => c.eq target

def emitConstructorTest (v : Value F) : Constructor F → Bool
  | .literal lit => literalEq lit v
  | .pair => v.isPair
  | .nil => v.isNil
  | .emptyList => v.isEmptyList
  | .array n => v.isArray && v.elements.length = n
  | .arrayRest n => v.isArray && n ≤ v.elements.length
  | .arrayMut n => v.isArrayMut && v.elements.length = n
  | .arrayMutRest n => v.isArrayMut && n ≤ v.elements.length
  | .struct _ => v.isStruct
  | .table _ => v.isStructMut
  | .set => v.isSet
  | .setMut => v.isSetMut

end

/-! ### Constructors of a column -/

mutual

/-- The constructors a pattern contributes to its column, or-patterns looked into. -/
def patternConstructors : HirPattern F → List (Constructor F)
  | .or alts => alternativeConstructors alts
  | p => (patternConstructor p).toList

def alternativeConstructors : List (HirPattern F) → List (Constructor F)
  | [] => []
  | p :: ps => patternConstructors p ++ alternativeConstructors ps

end

/-- A row's pattern in a column. The source indexes, and so stops on a row that is too short. -/
def PatternRow.column (row : PatternRow F) (col : Nat) : HirPattern F :=
  row.patterns.getD col .wildcard

def columnConstructors (rows : List (PatternRow F)) (col : Nat) : List (Constructor F) :=
  rows.flatMap fun row => patternConstructors (row.column col)

def unionKeys (seen keys : List PatternKey) : List PatternKey :=
  keys.foldl (fun seen k => if k ∈ seen then seen else seen ++ [k]) seen

/-- Replace all constructors of one keyed kind by one with the union of their keys. -/
def mergeKeyed (keysOf : Constructor F → Option (List PatternKey))
    (merged : List PatternKey → Constructor F) (ctors : List (Constructor F)) :
    List (Constructor F) :=
  if ctors.any fun c => (keysOf c).isSome then
    ctors.filter (fun c => (keysOf c).isNone) ++ [merged ((ctors.filterMap keysOf).foldl unionKeys [])]
  else ctors

def mergeStructTableConstructors (ctors : List (Constructor F)) : List (Constructor F) :=
  mergeKeyed Constructor.tableKeys? .table (mergeKeyed Constructor.structKeys? .struct ctors)

/-- Add a constructor unless `same` identifies it with one already seen. -/
def insertBy (same : Constructor F → Constructor F → Bool) (seen : List (Constructor F))
    (c : Constructor F) : List (Constructor F) :=
  if seen.any fun s => same s c then seen else seen ++ [c]

def distinctBy (same : Constructor F → Constructor F → Bool) (ctors : List (Constructor F)) :
    List (Constructor F) :=
  ctors.foldl (insertBy same) []

section

variable [Float64 F]

def collectConstructors (rows : List (PatternRow F)) (col : Nat) : List (Constructor F) :=
  mergeStructTableConstructors (distinctBy Constructor.eq (columnConstructors rows col))

def bestColumn (count : Nat → Nat) (ncols : Nat) : Nat × Nat :=
  (List.range ncols).foldl (fun best col =>
    if best.2 < count col then (col, count col) else best) (0, 0)

/-- The column with the most distinct constructors. -/
def selectColumn (rows : List (PatternRow F)) : Nat :=
  (bestColumn (fun col =>
    (distinctBy (fun s c => s.eq c && s.sameHash c) (columnConstructors rows col)).length)
    ((rows.head?.map fun row => row.patterns.length).getD 0)).1

end

/-! ### Specialisation -/

def extractSubPatterns (p : HirPattern F) (ctor : Constructor F) : List (HirPattern F) :=
  match p with
  | .wildcard | .var _ => List.replicate ctor.arity .wildcard
  | .pair head tail => [head, tail]
  | .list [] _ => []
  | .list [head] rest => [head, rest.getD (.list [] none)]
  | .list (head :: tail) rest => [head, .list tail rest]
  | .tuple elements rest | .array elements rest =>
    match ctor with
    | .arrayRest _ | .arrayMutRest _ => elements ++ [rest.getD .wildcard]
    | _ => elements
  | .struct entries _ | .table entries _ =>
    match ctor with
    | .struct keys | .table keys =>
      keys.map fun key => ((entries.find? fun e => e.1 = key).map (·.2)).getD .wildcard
    | _ => entries.map (·.2)
  | .set p | .setMut p => [p]
  | _ => []

mutual

def collectPatternBindings : HirPattern F → AccessPath → List (Nat × AccessPath)
  | .var b, access => [(b, access)]
  | .wildcard, _ | .nil, _ | .literal _, _ => []
  | .pair head tail, access =>
    collectPatternBindings head (.first access) ++ collectPatternBindings tail (.rest access)
  | .list es rest, access =>
    let spine := collectSpineBindings es access
    spine.1 ++ collectRestBindings rest spine.2
  | .tuple es rest, access | .array es rest, access =>
    collectElementBindings es 0 access ++ collectRestBindings rest (.slice access es.length)
  | .struct es rest, access | .table es rest, access =>
    collectEntryBindings es access ++ collectRestBindings rest (.structRest access (es.map (·.1)))
  | .set p, access | .setMut p, access => collectPatternBindings p access
  | .or alts, access => collectFirstBindings alts access

def collectSpineBindings :
    List (HirPattern F) → AccessPath → List (Nat × AccessPath) × AccessPath
  | [], access => ([], access)
  | p :: ps, access =>
    let spine := collectSpineBindings ps (.rest access)
    (collectPatternBindings p (.first access) ++ spine.1, spine.2)

def collectElementBindings : List (HirPattern F) → Nat → AccessPath → List (Nat × AccessPath)
  | [], _, _ => []
  | p :: ps, i, access =>
    collectPatternBindings p (.index access i) ++ collectElementBindings ps (i + 1) access

def collectEntryBindings :
    List (PatternKey × HirPattern F) → AccessPath → List (Nat × AccessPath)
  | [], _ => []
  | (k, p) :: es, access =>
    collectPatternBindings p (.key access k) ++ collectEntryBindings es access

def collectRestBindings : Option (HirPattern F) → AccessPath → List (Nat × AccessPath)
  | none, _ => []
  | some p, access => collectPatternBindings p access

def collectFirstBindings : List (HirPattern F) → AccessPath → List (Nat × AccessPath)
  | [], _ => []
  | p :: _, access => collectPatternBindings p access

end

/-- The binding of a variable pattern in a column that is being removed. -/
def varBinding (p : HirPattern F) (access : AccessPath) : List (Nat × AccessPath) :=
  match p with
  | .var b => [(b, access)]
  | _ => []

/-- The bindings of a keyed pattern's rest, which becomes no column of its own. -/
def keyedRestBindings (p : HirPattern F) (access : AccessPath) : List (Nat × AccessPath) :=
  match p with
  | .struct entries (some rest) | .table entries (some rest) =>
    collectPatternBindings rest (.structRest access (entries.map (·.1)))
  | _ => []

def replaceColumn {α : Type} (xs : List α) (col : Nat) (new : List α) : List α :=
  xs.take col ++ new ++ xs.drop (col + 1)

/-- The row with column `col` replaced by sub-patterns and some bindings added. -/
def PatternRow.replace (row : PatternRow F) (col : Nat) (subs : List (HirPattern F))
    (added : List (Nat × AccessPath)) : PatternRow F :=
  { row with
    patterns := replaceColumn row.patterns col subs
    bindings := row.bindings ++ added }

section

variable [Float64 F]

def specializeRow (col : Nat) (ctor : Constructor F) (access : AccessPath) (row : PatternRow F) :
    List (PatternRow F) :=
  let p := row.column col
  if isWildcard p then
    [row.replace col (List.replicate ctor.arity .wildcard) (varBinding p access)]
  else
    match p with
    | .or alts =>
      (alts.filter fun alt =>
        isWildcard alt || (patternConstructor alt).any (constructorCompatible · ctor)).map
      fun alt => row.replace col (extractSubPatterns alt ctor) (varBinding alt access)
    | _ =>
      if (patternConstructor p).any (constructorCompatible · ctor) then
        [row.replace col (extractSubPatterns p ctor) (keyedRestBindings p access)]
      else []

def specialize (rows : List (PatternRow F)) (col : Nat) (ctor : Constructor F)
    (access : AccessPath) : List (PatternRow F) :=
  rows.flatMap (specializeRow col ctor access)

end

def defaultMatrix (rows : List (PatternRow F)) (col : Nat) (access : AccessPath) : List (PatternRow F) :=
  (rows.filter fun row => isWildcard (row.column col)).map fun row =>
    row.replace col [] (varBinding (row.column col) access)

def subAccess (base : AccessPath) : Constructor F → List AccessPath
  | .literal _ | .nil | .emptyList => []
  | .pair => [.first base, .rest base]
  | .array n | .arrayMut n => (List.range n).map (.index base)
  | .arrayRest n | .arrayMutRest n => (List.range n).map (.index base) ++ [AccessPath.slice base n]
  | .struct keys | .table keys => keys.map (.key base)
  | .set | .setMut => [base]

def expandAccess (access : List AccessPath) (col : Nat) (ctor : Constructor F) : List AccessPath :=
  replaceColumn access col (subAccess (access.getD col .root) ctor)

def removeColumn (access : List AccessPath) (col : Nat) : List AccessPath :=
  replaceColumn access col []

/-! ### Compilation -/

def leafBindings (row : PatternRow F) (access : List AccessPath) : List (Nat × AccessPath) :=
  row.bindings ++ (row.patterns.zip access).flatMap fun pa => collectPatternBindings pa.1 pa.2

section

variable [Float64 F]

def compileMatrix : Nat → List (PatternRow F) → List AccessPath → DecisionTree F
  | 0, _, _ => .fail
  | _ + 1, [], _ => .fail
  | fuel + 1, row :: remaining, access =>
    if row.patterns.all isWildcard then
      if row.hasGuard then
        .guard row.armIndex (leafBindings row access) (compileMatrix fuel remaining access)
      else .leaf row.armIndex (leafBindings row access)
    else
      let rows := row :: remaining
      let col := selectColumn rows
      let base := access.getD col .root
      let cases := (collectConstructors rows col).map fun ctor =>
        (ctor, compileMatrix fuel (specialize rows col ctor base) (expandAccess access col ctor))
      let defaults := defaultMatrix rows col base
      .switch base cases
        (if defaults.isEmpty then none
          else some (compileMatrix fuel defaults (removeColumn access col)))

end

mutual

/-- How much splitting a pattern can still cause: a product over the parts of a pattern, because
the rows of an or-pattern each keep a copy of the other columns. -/
def patternWeight : HirPattern F → Nat
  | .wildcard | .var _ => 0
  | .nil | .literal _ => 1
  | .pair head tail => (1 + patternWeight head) * (1 + patternWeight tail)
  | .list es rest => spineWeight es (tailWeight rest)
  | .tuple es rest | .array es rest => columnsWeight es * (1 + restWeight rest)
  | .struct es rest | .table es rest => entriesWeight es * (1 + restWeight rest)
  | .set p | .setMut p => 1 + patternWeight p
  | .or alts => alternativesWeight alts

def spineWeight : List (HirPattern F) → Nat → Nat
  | [], tail => tail
  | p :: ps, tail => (1 + patternWeight p) * (1 + spineWeight ps tail)

def tailWeight : Option (HirPattern F) → Nat
  | none => 1
  | some p => patternWeight p

def columnsWeight : List (HirPattern F) → Nat
  | [] => 1
  | p :: ps => (1 + patternWeight p) * columnsWeight ps

def entriesWeight : List (PatternKey × HirPattern F) → Nat
  | [] => 1
  | (_, p) :: es => (1 + patternWeight p) * entriesWeight es

def restWeight : Option (HirPattern F) → Nat
  | none => 0
  | some p => patternWeight p

def alternativesWeight : List (HirPattern F) → Nat
  | [] => 0
  | p :: ps => 1 + patternWeight p + alternativesWeight ps

end

/-- Fuel that is enough to compile a matrix: every case and every default weighs less. -/
def rowsWeight (rows : List (PatternRow F)) : Nat :=
  (rows.map fun row => columnsWeight row.patterns).sum

def PatternRow.new (pattern : HirPattern F) (hasGuard : Bool) (armIndex : Nat) : PatternRow F :=
  ⟨[pattern], hasGuard, armIndex, []⟩

def fromArms : Nat → List (Arm F) → List (PatternRow F)
  | _, [] => []
  | i, arm :: arms =>
    (expandOrPattern arm.pattern).map (PatternRow.new · arm.hasGuard i) ++ fromArms (i + 1) arms

section

variable [Float64 F]

def compile (rows : List (PatternRow F)) (access : List AccessPath) : DecisionTree F :=
  compileMatrix (rowsWeight rows + 1) rows access

end

/-! ### Running the tree -/

/-- `load_access_path`; `none` is a type error signalled on the way. -/
def loadAccessPath (root : Value F) : AccessPath → Option (Value F)
  | .root => some root
  | .first parent => (loadAccessPath root parent).bind Value.first?
  | .rest parent => (loadAccessPath root parent).bind Value.rest?
  | .index parent i => (loadAccessPath root parent).bind (Value.index? i)
  | .slice parent start => (loadAccessPath root parent).bind (Value.slice? start)
  | .key parent key => (loadAccessPath root parent).map (Value.getOrNil key)
  | .structRest parent exclude => (loadAccessPath root parent).map (Value.structRest exclude)

def loadBindings (root : Value F) (bindings : List (Nat × AccessPath)) : Option (Stores F) :=
  bindings.mapM fun b => (loadAccessPath root b.2).map fun v => (b.1, v)

section

variable [Float64 F]

mutual

def DecisionTree.run (oracle : Oracle F) (root : Value F) : DecisionTree F → Next F
  | .leaf arm bindings =>
    match loadBindings root bindings with
    | none => fun trials => (.fault, trials)
    | some _ => fun trials => (.arm arm, trials)
  | .fail => fun trials => (.matchError, trials)
  | .switch access cases default =>
    match loadAccessPath root access with
    | none => fun trials => (.fault, trials)
    | some v => runCases oracle root v cases (runDefault oracle root default)
  | .guard arm bindings otherwise =>
    match loadBindings root bindings with
    | none => fun trials => (.fault, trials)
    | some stores => runGuard oracle arm stores (DecisionTree.run oracle root otherwise)

def runCases (oracle : Oracle F) (root v : Value F) :
    List (Constructor F × DecisionTree F) → Next F → Next F
  | [], otherwise => otherwise
  | (ctor, tree) :: cases, otherwise =>
    if emitConstructorTest v ctor then DecisionTree.run oracle root tree
    else runCases oracle root v cases otherwise

def runDefault (oracle : Oracle F) (root : Value F) : Option (DecisionTree F) → Next F
  | none => fun trials => (.matchError, trials)
  | some tree => DecisionTree.run oracle root tree

end

/-- `lower_match` when no guard may suspend. -/
def lowerMatch (oracle : Oracle F) (v : Value F) (arms : List (Arm F)) : Next F :=
  (compile (fromArms 0 arms) [.root]).run oracle v

end

end Elle.Match

import Mathlib

/-!
# Match patterns, values and the sequential lowering

The patterns of `hir/pattern.rs`, the runtime values they inspect, and what the code emitted for a
pattern does. `lowerPatternMatch` is the run of the code `lower_pattern_match` emits
(`lir/lower/pattern/{matching,seq,keyed}.rs`): it fails at the first test that does not hold, and
otherwise answers the variable stores in order. `lowerMatchSequential` tries the arms top to bottom
(`lir/lower/control/matcharms.rs`), expanding only the or-pattern at the top of an arm.

Floating-point numbers are a parameter `F`, and `Float64` names the laws of their comparison that the
compiler relies on.
-/

namespace Elle.Match

/-- What the compiler and the VM ask of `f64`: IEEE equality (not reflexive, because of NaN),
equality of an integer promoted to a float, and the bit pattern the hash reads. -/
class Float64 (F : Type) where
  eq : F → F → Bool
  ofIntEq : Int → F → Bool
  bits : F → Nat
  eq_symm : ∀ {x y}, eq x y → eq y x
  eq_trans : ∀ {x y z}, eq x y → eq y z → eq x z
  ofIntEq_of_eq : ∀ {n x y}, eq x y → ofIntEq n x → ofIntEq n y
  eq_self_of_ofIntEq : ∀ {n x}, ofIntEq n x → eq x x

inductive PatternLiteral (F : Type) where
  | bool (b : Bool)
  | int (n : Int)
  | float (x : F)
  | string (s : String)
  | keyword (k : String)

inductive PatternKey where
  | keyword (k : String)
  | symbol (id : Nat)
  deriving DecidableEq

/-- A struct's keys at run time; patterns name only the first two kinds. A keyword is known by its
name: two names with one hash are a fatal error of the registry. -/
inductive TableKey where
  | keyword (k : String)
  | symbol (id : Nat)
  | other (id : Nat)
  deriving DecidableEq

inductive Value (F : Type) where
  | nil
  | emptyList
  | bool (b : Bool)
  | int (n : Int)
  | float (x : F)
  | string (s : String)
  | stringMut (s : String)
  | keyword (k : String)
  | pair (first rest : Value F)
  | array (elements : List (Value F))
  | arrayMut (elements : List (Value F))
  | struct (entries : List (TableKey × Value F))
  | structMut (entries : List (TableKey × Value F))
  | set (elements : List (Value F))
  | setMut (elements : List (Value F))
  | other (id : Nat)

/-- `HirPattern`, without `NamedStruct`, which never occurs in a `match`. `tuple` is the pattern
`[..]` for immutable arrays and `array` the pattern `@[..]` for mutable ones; likewise `struct` and
`table`. A variable is known by the number of its `Binding`. -/
inductive HirPattern (F : Type) where
  | wildcard
  | nil
  | literal (lit : PatternLiteral F)
  | var (binding : Nat)
  | pair (head tail : HirPattern F)
  | list (elements : List (HirPattern F)) (rest : Option (HirPattern F))
  | tuple (elements : List (HirPattern F)) (rest : Option (HirPattern F))
  | array (elements : List (HirPattern F)) (rest : Option (HirPattern F))
  | struct (entries : List (PatternKey × HirPattern F)) (rest : Option (HirPattern F))
  | table (entries : List (PatternKey × HirPattern F)) (rest : Option (HirPattern F))
  | set (binding : HirPattern F)
  | setMut (binding : HirPattern F)
  | or (alts : List (HirPattern F))

variable {F : Type}

/-- Immediate sub-patterns: elements or entries first, then the rest. -/
def children : HirPattern F → List (HirPattern F)
  | .wildcard | .nil | .literal _ | .var _ => []
  | .pair head tail => [head, tail]
  | .list es rest | .tuple es rest | .array es rest => es ++ rest.toList
  | .struct es rest | .table es rest => es.map (·.2) ++ rest.toList
  | .set p | .setMut p => [p]
  | .or alts => alts

/-! ### Reading values -/

def patternKeyConst : PatternKey → TableKey
  | .keyword k => .keyword k
  | .symbol id => .symbol id

namespace Value

def isNil : Value F → Bool
  | nil => true
  | _ => false

def isEmptyList : Value F → Bool
  | emptyList => true
  | _ => false

def isPair : Value F → Bool
  | pair _ _ => true
  | _ => false

def isArray : Value F → Bool
  | array _ => true
  | _ => false

def isArrayMut : Value F → Bool
  | arrayMut _ => true
  | _ => false

def isStruct : Value F → Bool
  | struct _ => true
  | _ => false

def isStructMut : Value F → Bool
  | structMut _ => true
  | _ => false

def isSet : Value F → Bool
  | set _ => true
  | _ => false

def isSetMut : Value F → Bool
  | setMut _ => true
  | _ => false

def elements : Value F → List (Value F)
  | array vs => vs
  | arrayMut vs => vs
  | _ => []

def entries : Value F → List (TableKey × Value F)
  | struct es => es
  | structMut es => es
  | _ => []

/-- `First`; `none` is the type error it signals on anything but a pair. -/
def first? : Value F → Option (Value F)
  | pair a _ => some a
  | _ => none

def rest? : Value F → Option (Value F)
  | pair _ d => some d
  | _ => none

/-- `ArrayMutRefDestructure`, whose operand is the index cut to 16 bits. -/
def index? (i : Nat) (v : Value F) : Option (Value F) := v.elements[i % 65536]?

/-- `ArrayMutSliceFrom`: the tail of an array, of the same kind. -/
def slice? (start : Nat) : Value F → Option (Value F)
  | array vs => some (array (vs.drop (start % 65536)))
  | arrayMut vs => some (arrayMut (vs.drop (start % 65536)))
  | _ => none

/-- `StructGetOrNil` signals on nothing: a missing key reads as nil. -/
def getOrNil (key : PatternKey) (v : Value F) : Value F :=
  ((v.entries.find? fun e => e.1 = patternKeyConst key).map (·.2)).getD nil

def structRest (exclude : List PatternKey) (v : Value F) : Value F :=
  struct (v.entries.filter fun e => e.1 ∉ exclude.map patternKeyConst)

end Value

/-- The language's `=` between a value and a literal: numbers compare across int and float, and a
string literal equals a string of either kind. -/
def literalEq [Float64 F] : PatternLiteral F → Value F → Bool
  | .bool b, .bool c => b == c
  | .int n, .int m => n == m
  | .int n, .float x => Float64.ofIntEq n x
  | .float x, .int m => Float64.ofIntEq m x
  | .float x, .float y => Float64.eq y x
  | .string s, .string t => s == t
  | .string s, .stringMut t => s == t
  | .keyword k, .keyword k' => k == k'
  | _, _ => false

/-! ### One pattern -/

/-- The variable stores of a match, in the order they are made. -/
abbrev Stores (F : Type) := List (Nat × Value F)

/-- The length test of an array pattern: exact without a rest, at least with one. -/
def lengthOk (elements : List (HirPattern F)) (rest : Option (HirPattern F)) (v : Value F) : Bool :=
  if rest.isSome then elements.length ≤ v.elements.length else v.elements.length = elements.length

mutual

def expandOrPattern : HirPattern F → List (HirPattern F)
  | .or alts => expandAlternatives alts
  | p => [p]

def expandAlternatives : List (HirPattern F) → List (HirPattern F)
  | [] => []
  | p :: ps => expandOrPattern p ++ expandAlternatives ps

end

section

variable [Float64 F]

mutual

/-- The run of the code `lower_pattern_match` emits. A rest that builds no collection
(`own_rest_builds`) is a `_`, which matches whatever it would be given. -/
def lowerPatternMatch : HirPattern F → Value F → Option (Stores F)
  | .wildcard, _ => some []
  | .nil, v => if v.isNil then some [] else none
  | .literal lit, v => if literalEq lit v then some [] else none
  | .var b, v => some [(b, v)]
  | .pair head tail, v => do
    let a ← v.first?
    let s ← lowerPatternMatch head a
    let d ← v.rest?
    let t ← lowerPatternMatch tail d
    return s ++ t
  | .list es rest, v => do
    let (s, current) ← lowerSpine es v
    let t ← lowerListRest rest current
    return s ++ t
  | .tuple es rest, v =>
    if v.isArray && lengthOk es rest v then do
      let s ← lowerElements es 0 v
      let t ← lowerSliceRest rest es.length v
      return s ++ t
    else none
  | .array es rest, v =>
    if v.isArrayMut && lengthOk es rest v then do
      let s ← lowerElements es 0 v
      let t ← lowerSliceRest rest es.length v
      return s ++ t
    else none
  | .struct es rest, v =>
    if v.isStruct then do
      let s ← lowerEntries es v
      let t ← lowerStructRest rest (es.map (·.1)) v
      return s ++ t
    else none
  | .table es rest, v =>
    if v.isStructMut then do
      let s ← lowerEntries es v
      let t ← lowerStructRest rest (es.map (·.1)) v
      return s ++ t
    else none
  | .set p, v => if v.isSet then lowerPatternMatch p v else none
  | .setMut p, v => if v.isSetMut then lowerPatternMatch p v else none
  | .or alts, v => lowerAlternatives alts v

/-- The elements of a list pattern, with the tail they leave. -/
def lowerSpine : List (HirPattern F) → Value F → Option (Stores F × Value F)
  | [], v => some ([], v)
  | p :: ps, v => do
    let a ← v.first?
    let s ← lowerPatternMatch p a
    let d ← v.rest?
    let (t, current) ← lowerSpine ps d
    return (s ++ t, current)

def lowerListRest : Option (HirPattern F) → Value F → Option (Stores F)
  | none, v => if v.isEmptyList then some [] else none
  | some p, v => lowerPatternMatch p v

/-- The elements of an array pattern from index `i` on. -/
def lowerElements : List (HirPattern F) → Nat → Value F → Option (Stores F)
  | [], _, _ => some []
  | p :: ps, i, v => do
    let a ← v.index? i
    let s ← lowerPatternMatch p a
    let t ← lowerElements ps (i + 1) v
    return s ++ t

def lowerSliceRest : Option (HirPattern F) → Nat → Value F → Option (Stores F)
  | none, _, _ => some []
  | some p, start, v => do
    let a ← v.slice? start
    lowerPatternMatch p a

def lowerEntries : List (PatternKey × HirPattern F) → Value F → Option (Stores F)
  | [], _ => some []
  | (k, p) :: es, v => do
    let s ← lowerPatternMatch p (v.getOrNil k)
    let t ← lowerEntries es v
    return s ++ t

def lowerStructRest : Option (HirPattern F) → List PatternKey → Value F → Option (Stores F)
  | none, _, _ => some []
  | some p, exclude, v => lowerPatternMatch p (v.structRest exclude)

def lowerAlternatives : List (HirPattern F) → Value F → Option (Stores F)
  | [], _ => none
  | p :: ps, v =>
    match lowerPatternMatch p v with
    | some s => some s
    | none => lowerAlternatives ps v

end

end

/-! ### The arms in order -/

/-- An arm of a `match`, as far as the choice of an arm depends on it. -/
structure Arm (F : Type) where
  pattern : HirPattern F
  hasGuard : Bool

/-- What a match ends in. `fault` is a type error signalled by a load. -/
inductive Outcome where
  | arm (index : Nat)
  | matchError
  | fault
  deriving DecidableEq

/-- The variables as a guard reads them. -/
abbrev Slots (F : Type) := Nat → Option (Value F)

def slots (stores : Stores F) : Slots F :=
  stores.foldl (fun σ s => Function.update σ s.1 (some s.2)) fun _ => none

/-- A guard run: the arm and the variables its guard saw. -/
abbrev Trial (F : Type) := Nat × Slots F

/-- What the guards answer. They may be impure, so the answer depends on the guards run before. -/
abbrev Oracle (F : Type) := List (Trial F) → Trial F → Bool

/-- The rest of a match, given the guards run so far. -/
abbrev Next (F : Type) := List (Trial F) → Outcome × List (Trial F)

def runGuard (oracle : Oracle F) (arm : Nat) (stores : Stores F) (otherwise : Next F) : Next F :=
  fun trials =>
    let trial := (arm, slots stores)
    if oracle trials trial then (.arm arm, trials ++ [trial]) else otherwise (trials ++ [trial])

variable [Float64 F]

def runAlternatives (oracle : Oracle F) (arm : Nat) (hasGuard : Bool) (v : Value F) (next : Next F) :
    List (HirPattern F) → Next F
  | [] => next
  | alt :: alts =>
    match lowerPatternMatch alt v with
    | none => runAlternatives oracle arm hasGuard v next alts
    | some stores =>
      if hasGuard then runGuard oracle arm stores (runAlternatives oracle arm hasGuard v next alts)
      else fun trials => (.arm arm, trials)

/-- The run of the code `lower_match_sequential` emits for the arms from index `i` on. -/
def lowerMatchSequential (oracle : Oracle F) (v : Value F) : Nat → List (Arm F) → Next F
  | _, [] => fun trials => (.matchError, trials)
  | i, arm :: arms =>
    runAlternatives oracle i arm.hasGuard v (lowerMatchSequential oracle v (i + 1) arms)
      (expandOrPattern arm.pattern)

end Elle.Match

import Elle.Lib.Choices
import Elle.Match.Tree

/-!
# Pattern shapes

What a pattern asks of a value, apart from how the source writes it: a shape matches anything,
binds a variable, tests a constructor and goes on in some parts of the value, or offers
alternatives. `Shape.choices` lists every way a value matches; the sequential lowering takes the
first.
-/

namespace Elle.Match

open Choices

inductive Step where
  | first
  | rest
  | index (i : Nat)
  | slice (start : Nat)
  | key (key : PatternKey)
  | structRest (exclude : List PatternKey)
  | self

inductive Shape (F : Type) where
  | any
  | bind (binding : Nat)
  | node (ctor : Constructor F) (children : List (Step × Shape F))
  | alts (alternatives : List (Shape F))

variable {F : Type}

namespace Step

def path (base : AccessPath) : Step → AccessPath
  | first => .first base
  | rest => .rest base
  | index i => .index base i
  | slice start => .slice base start
  | key k => .key base k
  | structRest exclude => .structRest base exclude
  | self => base

def read (v : Value F) : Step → Option (Value F)
  | first => v.first?
  | rest => v.rest?
  | index i => v.index? i
  | slice start => v.slice? start
  | key k => some (v.getOrNil k)
  | structRest exclude => some (v.structRest exclude)
  | self => some v

theorem loadAccessPath_path {root v : Value F} {base : AccessPath}
    (h : loadAccessPath root base = some v) (s : Step) :
    loadAccessPath root (s.path base) = s.read v := by
  cases s <;> simp [path, read, loadAccessPath, h]

end Step

/-! ### The shape of a pattern -/

mutual

def HirPattern.shape : HirPattern F → Shape F
  | .wildcard => .any
  | .nil => .node .nil []
  | .literal lit => .node (.literal lit) []
  | .var b => .bind b
  | .pair head tail => .node .pair [(.first, head.shape), (.rest, tail.shape)]
  | .list es rest => spineShape es (tailShape rest)
  | .tuple es rest =>
    .node (if rest.isSome then .arrayRest es.length else .array es.length)
      (elementShapes es 0 ++ restShapes (.slice es.length) rest)
  | .array es rest =>
    .node (if rest.isSome then .arrayMutRest es.length else .arrayMut es.length)
      (elementShapes es 0 ++ restShapes (.slice es.length) rest)
  | .struct es rest =>
    .node (.struct (es.map (·.1))) (entryShapes es ++ restShapes (.structRest (es.map (·.1))) rest)
  | .table es rest =>
    .node (.table (es.map (·.1))) (entryShapes es ++ restShapes (.structRest (es.map (·.1))) rest)
  | .set p => .node .set [(.self, p.shape)]
  | .setMut p => .node .setMut [(.self, p.shape)]
  | .or alts => .alts (alternativeShapes alts)

def spineShape : List (HirPattern F) → Shape F → Shape F
  | [], tail => tail
  | p :: ps, tail => .node .pair [(.first, p.shape), (.rest, spineShape ps tail)]

def tailShape : Option (HirPattern F) → Shape F
  | none => .node .emptyList []
  | some p => p.shape

def elementShapes : List (HirPattern F) → Nat → List (Step × Shape F)
  | [], _ => []
  | p :: ps, i => (.index i, p.shape) :: elementShapes ps (i + 1)

def entryShapes : List (PatternKey × HirPattern F) → List (Step × Shape F)
  | [] => []
  | (k, p) :: es => (.key k, p.shape) :: entryShapes es

def restShapes (step : Step) : Option (HirPattern F) → List (Step × Shape F)
  | none => []
  | some p => [(step, p.shape)]

def alternativeShapes : List (HirPattern F) → List (Shape F)
  | [] => []
  | p :: ps => p.shape :: alternativeShapes ps

end

section

variable [Float64 F]

mutual

/-- The variable stores of every combination of alternatives under which the value matches. -/
def Shape.choices : Shape F → Value F → List (Stores F)
  | .any, _ => [[]]
  | .bind b, v => [[(b, v)]]
  | .node ctor children, v => if emitConstructorTest v ctor then childChoices children v else []
  | .alts qs, v => alternativeChoices qs v

def childChoices : List (Step × Shape F) → Value F → List (Stores F)
  | [], _ => [[]]
  | (s, q) :: children, v =>
    match s.read v with
    | none => []
    | some u => cross (q.choices u) (childChoices children v)

def alternativeChoices : List (Shape F) → Value F → List (Stores F)
  | [], _ => []
  | q :: qs, v => q.choices v ++ alternativeChoices qs v

end

mutual

/-- The constructor tests a shape makes on a value and the value passes, with the path of the part
each is made on. -/
def Shape.tests : Shape F → AccessPath → Value F → List (AccessPath × Constructor F)
  | .any, _, _ => []
  | .bind _, _, _ => []
  | .node ctor children, access, v =>
    if emitConstructorTest v ctor then (access, ctor) :: childTests children access v else []
  | .alts qs, access, v => alternativeTests qs access v

def childTests : List (Step × Shape F) → AccessPath → Value F → List (AccessPath × Constructor F)
  | [], _, _ => []
  | (s, q) :: children, access, v =>
    (match s.read v with
      | none => []
      | some u => q.tests (s.path access) u) ++ childTests children access v

def alternativeTests : List (Shape F) → AccessPath → Value F → List (AccessPath × Constructor F)
  | [], _, _ => []
  | q :: qs, access, v => q.tests access v ++ alternativeTests qs access v

end

/-! ### The sequential lowering takes the first choice -/

@[simp] theorem childChoices_nil (v : Value F) : childChoices [] v = [[]] := rfl

theorem childChoices_cons (s : Step) (q : Shape F) (children : List (Step × Shape F))
    (v : Value F) : childChoices ((s, q) :: children) v =
      match s.read v with
      | none => []
      | some u => cross (q.choices u) (childChoices children v) := rfl

theorem head?_childChoices_append (cs ds : List (Step × Shape F)) (v : Value F) :
    (childChoices (cs ++ ds) v).head? =
      (childChoices cs v).head?.bind fun s => (childChoices ds v).head?.map fun t => s ++ t := by
  induction cs with
  | nil => simp
  | cons c cs ih =>
    rcases c with ⟨s, q⟩
    rw [List.cons_append, childChoices_cons, childChoices_cons]
    cases s.read v with
    | none => rfl
    | some u =>
      simp only [head?_cross, ih]
      cases (q.choices u).head? <;> cases (childChoices cs v).head? <;>
        cases (childChoices ds v).head? <;> simp

theorem head?_node (ctor : Constructor F) (children : List (Step × Shape F)) (v : Value F) :
    ((Shape.node ctor children).choices v).head? =
      if emitConstructorTest v ctor then (childChoices children v).head? else none := by
  rw [Shape.choices]
  split <;> rfl

theorem head?_node_pair (p q : Shape F) (v : Value F) :
    ((Shape.node .pair [(.first, p), (.rest, q)]).choices v).head? =
      v.first?.bind fun a => (p.choices a).head?.bind fun s =>
        v.rest?.bind fun d => (q.choices d).head?.map fun t => s ++ t := by
  cases v with
  | pair a d =>
    simp only [Shape.choices, childChoices, emitConstructorTest, Value.isPair, Step.read,
      Value.first?, Value.rest?, Option.bind_some, if_true, head?_cross]
    cases (p.choices a).head? <;> cases (q.choices d).head? <;> simp
  | _ => simp [Shape.choices, emitConstructorTest, Value.isPair, Value.first?]

theorem head?_childChoices_cons (s : Step) (q : Shape F) (children : List (Step × Shape F))
    (v : Value F) : (childChoices ((s, q) :: children) v).head? =
      (s.read v).bind fun u => (q.choices u).head?.bind fun x =>
        (childChoices children v).head?.map fun y => x ++ y := by
  rw [childChoices_cons]
  cases s.read v with
  | none => rfl
  | some u => exact head?_cross _ _

mutual

theorem lowerPatternMatch_eq_head? :
    ∀ (p : HirPattern F) (v : Value F), lowerPatternMatch p v = (p.shape.choices v).head?
  | .wildcard, v => rfl
  | .var b, v => rfl
  | .nil, v | .literal lit, v => by
    rw [lowerPatternMatch, HirPattern.shape, head?_node]
    rfl
  | .pair head tail, v => by
    rw [lowerPatternMatch, HirPattern.shape, head?_node_pair]
    simp only [lowerPatternMatch_eq_head? head, lowerPatternMatch_eq_head? tail]
    cases v.first? <;> cases v.rest? <;> simp [Option.map_eq_bind, Function.comp_def]
  | .list es rest, v => by
    rw [lowerPatternMatch, HirPattern.shape]
    exact lowerSpine_eq_head? es _ _ (lowerListRest_eq_head? rest) v
  | .tuple es rest, v | .array es rest, v => by
    rw [lowerPatternMatch, HirPattern.shape, head?_node, head?_childChoices_append, lowerElements_eq_head?,
      lowerSliceRest_eq_head?]
    cases rest <;> simp [emitConstructorTest, lengthOk, Option.map_eq_bind, Function.comp_def]
  | .struct es rest, v | .table es rest, v => by
    rw [lowerPatternMatch, HirPattern.shape, head?_node, head?_childChoices_append, lowerEntries_eq_head?,
      lowerStructRest_eq_head?]
    simp [emitConstructorTest, Option.map_eq_bind, Function.comp_def]
  | .set p, v | .setMut p, v => by
    rw [lowerPatternMatch, HirPattern.shape, head?_node, head?_childChoices_cons,
      lowerPatternMatch_eq_head? p]
    simp [emitConstructorTest, Step.read]
  | .or alts, v => lowerAlternatives_eq_head? alts v

theorem lowerSpine_eq_head? :
    ∀ (es : List (HirPattern F)) (tail : Shape F) (lowerTail : Value F → Option (Stores F)),
      (∀ u, lowerTail u = (tail.choices u).head?) → ∀ v : Value F,
      (do let (s, current) ← lowerSpine es v
          let t ← lowerTail current
          return s ++ t) = ((spineShape es tail).choices v).head?
  | [], tail, lowerTail, h, v => by
    rw [spineShape, ← h]
    simp [lowerSpine]
  | p :: ps, tail, lowerTail, h, v => by
    have ih := lowerSpine_eq_head? ps tail lowerTail h
    rw [spineShape, head?_node_pair]
    simp only [lowerSpine, lowerPatternMatch_eq_head? p, ← ih]
    cases v.first? with
    | none => rfl
    | some a =>
      cases hs : (p.shape.choices a).head? with
      | none => simp [hs]
      | some s =>
        cases v.rest? with
        | none => simp
        | some d =>
          cases hd : lowerSpine ps d with
          | none => simp [hd]
          | some r => cases hl : lowerTail r.2 <;> simp [hs, hd, hl]

theorem lowerListRest_eq_head? :
    ∀ (rest : Option (HirPattern F)) (v : Value F),
      lowerListRest rest v = ((tailShape rest).choices v).head?
  | none, v => by
    rw [lowerListRest, tailShape, head?_node]
    rfl
  | some p, v => lowerPatternMatch_eq_head? p v

theorem lowerElements_eq_head? :
    ∀ (es : List (HirPattern F)) (i : Nat) (v : Value F),
      lowerElements es i v = (childChoices (elementShapes es i) v).head?
  | [], _, _ => rfl
  | p :: ps, i, v => by
    rw [elementShapes, head?_childChoices_cons, lowerElements, ← lowerElements_eq_head? ps]
    simp [lowerPatternMatch_eq_head? p, Step.read, Option.map_eq_bind, Function.comp_def]

theorem lowerSliceRest_eq_head? :
    ∀ (rest : Option (HirPattern F)) (start : Nat) (v : Value F),
      lowerSliceRest rest start v = (childChoices (restShapes (.slice start) rest) v).head?
  | none, _, _ => rfl
  | some p, start, v => by
    rw [restShapes, head?_childChoices_cons, lowerSliceRest]
    simp only [lowerPatternMatch_eq_head? p, Step.read, childChoices_nil]
    cases v.slice? start <;> simp

theorem lowerEntries_eq_head? :
    ∀ (es : List (PatternKey × HirPattern F)) (v : Value F),
      lowerEntries es v = (childChoices (entryShapes es) v).head?
  | [], _ => rfl
  | (k, p) :: es, v => by
    rw [entryShapes, head?_childChoices_cons, lowerEntries, ← lowerEntries_eq_head? es]
    simp [lowerPatternMatch_eq_head? p, Step.read, Option.map_eq_bind, Function.comp_def]

theorem lowerStructRest_eq_head? :
    ∀ (rest : Option (HirPattern F)) (exclude : List PatternKey) (v : Value F),
      lowerStructRest rest exclude v = (childChoices (restShapes (.structRest exclude) rest) v).head?
  | none, _, _ => rfl
  | some p, exclude, v => by
    rw [restShapes, head?_childChoices_cons, lowerStructRest]
    simp [lowerPatternMatch_eq_head? p, Step.read]

theorem lowerAlternatives_eq_head? :
    ∀ (alts : List (HirPattern F)) (v : Value F),
      lowerAlternatives alts v = (alternativeChoices (alternativeShapes alts) v).head?
  | [], _ => rfl
  | p :: ps, v => by
    rw [lowerAlternatives, lowerPatternMatch_eq_head? p, lowerAlternatives_eq_head? ps,
      alternativeShapes, alternativeChoices, List.head?_append]
    cases (p.shape.choices v).head? <;> simp

end

end

end Elle.Match

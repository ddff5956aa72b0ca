import Elle.Match.Shape

/-!
# Splitting a pattern on a constructor

What `specialize` does to one pattern. When a value passes the test of a constructor that refines
the pattern's own (`Refines`: the same one, or the merged one of a keyed kind), the ways the pattern
matches the value are the products of the ways its sub-patterns match the parts.

This is true of `plain` patterns. The others are where the compiler departs from the sequential
lowering: `(& r)` is given the constructor of a pair but no sub-patterns, an alternative of a
nested or-pattern that is a variable, a wildcard or itself an or-pattern is dropped, the second entry
for a key and the rest of a struct are never tested, and the rest of a struct inside an or-pattern is
not bound.
-/

namespace Elle.Match

open Choices List

variable {F : Type}

/-! ### Plain patterns -/

def bindsRest : HirPattern F → Bool
  | .struct _ (some (.var _)) | .table _ (some (.var _)) => true
  | _ => false

/-- `(& r)`, a list pattern that is nothing but its rest. It tests for a pair and has no parts. -/
def bareRest : HirPattern F → Bool
  | .list [] (some _) => true
  | _ => false

/-- A rest the compiler can ignore: it matches whatever it is given. -/
def irrefutableRest : Option (HirPattern F) → Bool
  | none => true
  | some p => isWildcard p

mutual

/-- Patterns the matrix treats as what they are. With `keep`, the variables they bind count too. -/
def plain (keep : Bool) : HirPattern F → Bool
  | .wildcard | .var _ | .nil | .literal _ => true
  | .pair head tail => plain keep head && plain keep tail
  | .list es rest => !(es.isEmpty && rest.isSome) && plainAll keep es && plainRest keep rest
  | .tuple es rest | .array es rest => plainAll keep es && plainRest keep rest
  | .struct es rest | .table es rest =>
    decide (es.map (·.1)).Nodup && plainEntries keep es && irrefutableRest rest
  | .set p | .setMut p => plain keep p
  | .or alts => !alts.isEmpty && plainAlternatives keep alts

def plainAll (keep : Bool) : List (HirPattern F) → Bool
  | [] => true
  | p :: ps => plain keep p && plainAll keep ps

def plainEntries (keep : Bool) : List (PatternKey × HirPattern F) → Bool
  | [] => true
  | (_, p) :: es => plain keep p && plainEntries keep es

def plainRest (keep : Bool) : Option (HirPattern F) → Bool
  | none => true
  | some p => plain keep p

/-- The alternatives of an or-pattern below the top of an arm: each tests a constructor. -/
def plainAlternatives (keep : Bool) : List (HirPattern F) → Bool
  | [] => true
  | p :: ps =>
    (patternConstructor p).isSome && !(keep && bindsRest p) && plain keep p && plainAlternatives keep ps

end

theorem bareRest_of_plain {keep : Bool} {p : HirPattern F} (hp : plain keep p) :
    bareRest p = false := by
  cases p with
  | list es rest => rcases es with - | ⟨e, es⟩ <;> rcases rest with - | r <;> simp_all [plain, bareRest]
  | _ => rfl

theorem plainAll_iff {keep : Bool} {ps : List (HirPattern F)} :
    plainAll keep ps ↔ ∀ p ∈ ps, plain keep p := by
  induction ps with
  | nil => simp [plainAll]
  | cons p ps ih => simp [plainAll, ih]

theorem plainEntries_iff {keep : Bool} {es : List (PatternKey × HirPattern F)} :
    plainEntries keep es ↔ ∀ e ∈ es, plain keep e.2 := by
  induction es with
  | nil => simp [plainEntries]
  | cons e es ih =>
    rcases e with ⟨k, p⟩
    simp [plainEntries, ih]

theorem plainAlternatives_iff {keep : Bool} {ps : List (HirPattern F)} :
    plainAlternatives keep ps ↔ ∀ p ∈ ps, (patternConstructor p).isSome ∧
      (keep → bindsRest p = false) ∧ plain keep p := by
  induction ps with
  | nil => simp [plainAlternatives]
  | cons p ps ih =>
    simp only [plainAlternatives, Bool.and_eq_true, ih, forall_mem_cons]
    cases keep <;> simp [and_assoc]

/-! ### The parts of a value -/

/-- The steps to a constructor's parts, in the order of its sub-patterns. -/
def Constructor.steps : Constructor F → List Step
  | literal _ | nil | emptyList => []
  | pair => [.first, .rest]
  | array n | arrayMut n => (List.range n).map .index
  | arrayRest n | arrayMutRest n => (List.range n).map .index ++ [Step.slice n]
  | struct keys | table keys => keys.map .key
  | set | setMut => [.self]

theorem subAccess_eq_map (base : AccessPath) (c : Constructor F) :
    subAccess base c = c.steps.map (Step.path base) := by
  cases c <;> simp [subAccess, Constructor.steps, Step.path, Function.comp_def]

@[simp] theorem Constructor.length_steps (c : Constructor F) : c.steps.length = c.arity := by
  cases c <;> simp [steps, arity]

def Step.get (v : Value F) (s : Step) : Value F := (s.read v).getD .nil

def subValues (c : Constructor F) (v : Value F) : List (Value F) := c.steps.map (Step.get v)

theorem Value.index?_isSome {v : Value F} {i : Nat} (h : i < v.elements.length) :
    (v.index? i).isSome := by
  have : i % 65536 < v.elements.length := lt_of_le_of_lt (Nat.mod_le _ _) h
  simp [index?, this]

section

variable [Float64 F]

theorem read_isSome {v : Value F} {c : Constructor F} (h : emitConstructorTest v c) :
    ∀ s ∈ c.steps, (s.read v).isSome := by
  intro s hs
  cases c with
  | literal _ | nil | emptyList => simp [Constructor.steps] at hs
  | pair =>
    cases v <;> simp [emitConstructorTest, Value.isPair] at h
    rcases List.mem_pair.1 hs with rfl | rfl <;> rfl
  | array n | arrayMut n =>
    obtain ⟨i, hi, rfl⟩ := List.mem_map.1 hs
    simp [emitConstructorTest] at h
    exact Value.index?_isSome (by simpa [h.2] using hi)
  | arrayRest n | arrayMutRest n =>
    simp [emitConstructorTest] at h
    rcases List.mem_append.1 hs with hs | hs
    · obtain ⟨i, hi, rfl⟩ := List.mem_map.1 hs
      exact Value.index?_isSome (lt_of_lt_of_le (List.mem_range.1 hi) h.2)
    · rcases List.mem_singleton.1 hs with rfl
      cases v <;> simp [Value.isArray, Value.isArrayMut] at h
      rfl
  | struct keys | table keys =>
    obtain ⟨k, -, rfl⟩ := List.mem_map.1 hs
    rfl
  | set | setMut =>
    rcases List.mem_singleton.1 hs with rfl
    rfl

/-! ### Compatible constructors -/

theorem PatternLiteral.eq_symm {a b : PatternLiteral F} (h : a.eq b) : b.eq a := by
  cases a <;> cases b <;> simp_all [PatternLiteral.eq]
  exact Float64.eq_symm h

theorem literalEq_of_eq {a b : PatternLiteral F} {v : Value F} (h : a.eq b)
    (ha : literalEq a v) : literalEq b v := by
  cases a <;> cases b <;> simp [PatternLiteral.eq] at h
  case float x y =>
    cases v with
    | int n => exact Float64.ofIntEq_of_eq h ha
    | float z => exact Float64.eq_trans ha h
    | _ => simp [literalEq] at ha
  all_goals rwa [← h]

/-- A constructor stands for another one: equal to it, or of the same keyed kind with all of its
keys. -/
inductive Refines : Constructor F → Constructor F → Prop where
  | literal {a b} (h : a.eq b) : Refines (.literal a) (.literal b)
  | refl {c} (hs : c.structKeys? = none) (ht : c.tableKeys? = none) : Refines c c
  | struct {ks keys} (hnodup : keys.Nodup) (hsub : ∀ k ∈ ks, k ∈ keys) :
    Refines (.struct ks) (.struct keys)
  | table {ks keys} (hnodup : keys.Nodup) (hsub : ∀ k ∈ ks, k ∈ keys) :
    Refines (.table ks) (.table keys)

theorem Refines.test_eq {c target : Constructor F} (h : Refines c target) (v : Value F) :
    emitConstructorTest v c = emitConstructorTest v target := by
  cases h with
  | literal h =>
    rw [Bool.eq_iff_iff]
    exact ⟨literalEq_of_eq h, literalEq_of_eq (PatternLiteral.eq_symm h)⟩
  | refl => rfl
  | struct => rfl
  | table => rfl

/-! ### The shape of a pattern that tests a constructor -/

section

omit [Float64 F]

theorem elementShapes_eq_zip (es : List (HirPattern F)) (i : Nat) : elementShapes es i =
    ((List.range' i es.length).map Step.index).zip (es.map HirPattern.shape) := by
  induction es generalizing i with
  | nil => rfl
  | cons p ps ih => simp [elementShapes, ih, range'_succ]

theorem entryShapes_eq_map (es : List (PatternKey × HirPattern F)) :
    entryShapes es = es.map fun e => (Step.key e.1, e.2.shape) := by
  induction es with
  | nil => rfl
  | cons e es ih =>
    rcases e with ⟨k, p⟩
    simp [entryShapes, ih]

theorem alternativeShapes_eq_map (ps : List (HirPattern F)) :
    alternativeShapes ps = ps.map HirPattern.shape := by
  induction ps with
  | nil => rfl
  | cons p ps ih => simp [alternativeShapes, ih]

theorem elementShapes_append_rest (es : List (HirPattern F)) (p : HirPattern F) :
    elementShapes es 0 ++ restShapes (.slice es.length) (some p) =
      ((List.range es.length).map Step.index ++ [Step.slice es.length]).zip
        ((es ++ [p]).map HirPattern.shape) := by
  rw [elementShapes_eq_zip, map_append, zip_append (by simp), range_eq_range']
  rfl

end

/-! ### The two kinds of split -/

def restStores : HirPattern F → Value F → Stores F
  | .struct es (some (.var b)), v | .table es (some (.var b)), v =>
    [(b, v.structRest (es.map (·.1)))]
  | _, _ => []

/-- How a plain pattern with constructor `c` is split on `target`: into its own parts, or, for a
keyed pattern, into one column per key of the merged constructor. -/
inductive Split (keep : Bool) (p : HirPattern F) (c target : Constructor F) : Prop where
  | parts
    (hshape : p.shape = .node c (target.steps.zip ((extractSubPatterns p target).map (·.shape))))
    (hlen : (extractSubPatterns p target).length = target.arity)
    (hplain : ∀ q ∈ extractSubPatterns p target, plain keep q)
    (hrest : ∀ v, restStores p v = [])
    (hbind : ∀ a, keyedRestBindings p a = [])
    (hweight : columnsWeight (extractSubPatterns p target) ≤ patternWeight p)
  | keyed (es : List (PatternKey × HirPattern F)) (rest : Option (HirPattern F))
    (keys : List PatternKey)
    (hshape : p.shape = .node c
      (es.map (fun e => (Step.key e.1, e.2.shape)) ++ restShapes (.structRest (es.map (·.1))) rest))
    (hsubs : extractSubPatterns p target =
      keys.map fun k => ((es.find? fun e => e.1 = k).map (·.2)).getD .wildcard)
    (hsteps : target.steps = keys.map .key)
    (hnodup : (es.map (·.1)).Nodup)
    (hkeys : keys.Nodup)
    (hsub : ∀ e ∈ es, e.1 ∈ keys)
    (hplain : ∀ e ∈ es, plain keep e.2)
    (hrest : rest = none ∨ rest = some .wildcard ∨ ∃ b, rest = some (.var b))
    (hstores : ∀ v, restStores p v = (rest.toList.flatMap fun r => match r with
      | .var b => [(b, v.structRest (es.map (·.1)))]
      | _ => []))
    (hbind : ∀ a, keyedRestBindings p a =
      rest.toList.flatMap fun r => collectPatternBindings r (.structRest a (es.map (·.1))))
    (hweight : patternWeight p = entriesWeight es * (1 + restWeight rest))

omit [Float64 F] in
theorem irrefutableRest_iff {rest : Option (HirPattern F)} :
    irrefutableRest rest ↔ rest = none ∨ rest = some .wildcard ∨ ∃ b, rest = some (.var b) := by
  rcases rest with - | p
  · simp [irrefutableRest]
  · cases p <;> simp [irrefutableRest, isWildcard]

omit [Float64 F] in
theorem columnsWeight_append (ps qs : List (HirPattern F)) :
    columnsWeight (ps ++ qs) = columnsWeight ps * columnsWeight qs := by
  induction ps with
  | nil => simp [columnsWeight]
  | cons p ps ih => simp [columnsWeight, ih, Nat.mul_assoc]

section

variable {p : HirPattern F} {c : Constructor F} (hc : patternConstructor p = some c)
variable (hs : c.structKeys? = none) (ht : c.tableKeys? = none)
include hc hs ht
omit [Float64 F]

/-- The children of a pattern's node are its sub-patterns at the constructor's parts. A keyed
pattern has its own entries instead. -/
theorem shape_eq_node (hbare : bareRest p = false) :
    p.shape = .node c (c.steps.zip ((extractSubPatterns p c).map HirPattern.shape)) ∧
      (extractSubPatterns p c).length = c.arity := by
  cases p with
  | wildcard | var b | or alts => cases hc
  | struct es rest => cases hc; cases hs
  | table es rest => cases hc; cases ht
  | nil | literal lit | pair head tail | set p | setMut p => cases hc; exact ⟨rfl, rfl⟩
  | list es rest =>
    match es, rest with
    | [], none | [e], none | [e], some r | e :: e' :: es, rest => cases hc; exact ⟨rfl, rfl⟩
    | [], some r => cases hbare
  | tuple es rest | array es rest =>
    cases rest with
    | none =>
      cases hc
      refine ⟨?_, rfl⟩
      simp [HirPattern.shape, restShapes, elementShapes_eq_zip, Constructor.steps,
        extractSubPatterns, range_eq_range']
    | some r =>
      cases hc
      refine ⟨?_, by simp [extractSubPatterns, Constructor.arity]⟩
      rw [HirPattern.shape, elementShapes_append_rest]
      rfl

theorem plain_extractSubPatterns {keep : Bool} (hp : plain keep p) :
    ∀ q ∈ extractSubPatterns p c, plain keep q := by
  cases p with
  | wildcard | var b | or alts => cases hc
  | struct es rest => cases hc; cases hs
  | table es rest => cases hc; cases ht
  | nil | literal lit => simp [extractSubPatterns]
  | pair head tail | set p | setMut p => simpa [extractSubPatterns, plain] using hp
  | list es rest =>
    match es, rest with
    | [], rest => simp [extractSubPatterns]
    | [e], none | [e], some r => simp_all [extractSubPatterns, plain, plainAll, plainRest]
    | e :: e' :: es, rest => simp_all [extractSubPatterns, plain, plainAll]
  | tuple es rest | array es rest =>
    cases rest <;> cases hc <;>
      simp_all [extractSubPatterns, plain, plainAll_iff, plainRest, or_imp]

theorem columnsWeight_extractSubPatterns (hbare : bareRest p = false) :
    columnsWeight (extractSubPatterns p c) ≤ patternWeight p := by
  cases p with
  | struct es rest => cases hc; cases hs
  | table es rest => cases hc; cases ht
  | list es rest =>
    match es, rest with
    | [], some r => cases hbare
    | [], none | [e], none | [e], some r | e :: e' :: es, rest =>
      simp [extractSubPatterns, columnsWeight, patternWeight, spineWeight, tailWeight]
  | tuple es rest | array es rest =>
    cases rest <;> cases hc <;>
      simp [extractSubPatterns, columnsWeight_append, columnsWeight, patternWeight, restWeight]
  | _ => cases hc <;> simp [extractSubPatterns, columnsWeight, patternWeight]

theorem Split.of_parts {keep : Bool} (hp : plain keep p) : Split keep p c c := by
  have hbare := bareRest_of_plain hp
  obtain ⟨hshape, hlen⟩ := shape_eq_node hc hs ht hbare
  refine .parts hshape hlen (plain_extractSubPatterns hc hs ht hp) ?_ ?_
    (columnsWeight_extractSubPatterns hc hs ht hbare)
  all_goals
    intro v
    cases p with
    | struct es rest => cases hc; cases hs
    | table es rest => cases hc; cases ht
    | _ => rfl

end

section

omit [Float64 F]

theorem eq_literal_of_constructor {p : HirPattern F} {lit : PatternLiteral F}
    (h : patternConstructor p = some (.literal lit)) : p = .literal lit := by
  cases p with
  | literal l => cases h; rfl
  | list es rest | tuple es rest | array es rest => rw [patternConstructor] at h; split at h <;> cases h
  | _ => cases h

theorem eq_struct_of_constructor {p : HirPattern F} {keys : List PatternKey}
    (h : patternConstructor p = some (.struct keys)) :
    ∃ es rest, p = .struct es rest ∧ keys = es.map (·.1) := by
  cases p with
  | struct es rest => cases h; exact ⟨es, rest, rfl, rfl⟩
  | list es rest | tuple es rest | array es rest => rw [patternConstructor] at h; split at h <;> cases h
  | _ => cases h

theorem eq_table_of_constructor {p : HirPattern F} {keys : List PatternKey}
    (h : patternConstructor p = some (.table keys)) :
    ∃ es rest, p = .table es rest ∧ keys = es.map (·.1) := by
  cases p with
  | table es rest => cases h; exact ⟨es, rest, rfl, rfl⟩
  | list es rest | tuple es rest | array es rest => rw [patternConstructor] at h; split at h <;> cases h
  | _ => cases h

end

theorem Refines.split {keep : Bool} {p : HirPattern F} {c target : Constructor F}
    (hr : Refines c target) (hp : plain keep p) (hc : patternConstructor p = some c) :
    Split keep p c target := by
  cases hr with
  | refl hs ht => exact Split.of_parts hc hs ht hp
  | literal h =>
    rcases eq_literal_of_constructor hc with rfl
    exact .parts rfl rfl (by simp [extractSubPatterns]) (fun _ => rfl) (fun _ => rfl)
      (by simp [extractSubPatterns, columnsWeight, patternWeight])
  | @struct ks keys hkeys hsub | @table ks keys hkeys hsub =>
    first
    | obtain ⟨es, rest, rfl, rfl⟩ := eq_struct_of_constructor hc
    | obtain ⟨es, rest, rfl, rfl⟩ := eq_table_of_constructor hc
    simp only [plain, Bool.and_eq_true, decide_eq_true_eq, plainEntries_iff] at hp
    have hrest := irrefutableRest_iff.1 hp.2
    refine .keyed es rest keys (by rw [HirPattern.shape, entryShapes_eq_map]) rfl rfl hp.1.1 hkeys
      (fun e he => hsub e.1 (List.mem_map.2 ⟨e, he, rfl⟩)) hp.1.2 hrest ?_ ?_ rfl
    · rcases hrest with rfl | rfl | ⟨b, rfl⟩ <;> exact fun _ => rfl
    · rcases hrest with rfl | rfl | ⟨b, rfl⟩ <;> exact fun _ => rfl

/-! ### What a split keeps -/

section

variable {keep : Bool} {p : HirPattern F} {c target : Constructor F}

section

omit [Float64 F]

theorem Split.length (h : Split keep p c target) : (extractSubPatterns p target).length = target.arity := by
  cases h with
  | parts _ hlen => exact hlen
  | keyed es rest keys _ hsubs hsteps =>
    rw [hsubs, ← Constructor.length_steps, hsteps, length_map, length_map]

theorem find?_getD_wildcard {es : List (PatternKey × HirPattern F)} {k : PatternKey}
    {P : HirPattern F → Prop} (hw : P .wildcard) (h : ∀ e ∈ es, e.1 = k → P e.2) :
    P (((es.find? fun e => e.1 = k).map (·.2)).getD .wildcard) := by
  cases hf : es.find? fun e => e.1 = k with
  | none => exact hw
  | some e => exact h e (mem_of_find?_eq_some hf) (by simpa using find?_some hf)

theorem Split.plain_subs (h : Split keep p c target) :
    ∀ q ∈ extractSubPatterns p target, plain keep q := by
  cases h with
  | parts _ _ hplain => exact hplain
  | keyed es rest keys _ hsubs _ _ _ _ hplain =>
    intro q hq
    rw [hsubs] at hq
    obtain ⟨k, -, rfl⟩ := List.mem_map.1 hq
    exact find?_getD_wildcard (P := fun q => plain keep q = true) rfl fun e he _ => hplain e he

theorem columnsWeight_eq_prod (ps : List (HirPattern F)) :
    columnsWeight ps = (ps.map fun p => 1 + patternWeight p).prod := by
  induction ps with
  | nil => rfl
  | cons p ps ih => simp [columnsWeight, ih]

theorem getD_map_eq {A : Type} (es : List (PatternKey × HirPattern F)) (k : PatternKey)
    (f : HirPattern F → A) :
    f (((es.find? fun e => e.1 = k).map (·.2)).getD .wildcard) =
      ((es.find? fun e => e.1 = k).map fun e => f e.2).getD (f .wildcard) := by
  cases es.find? fun e => e.1 = k <;> rfl

theorem Split.loadBindings (h : Split keep p c target) {root v : Value F} {base : AccessPath}
    (hload : loadAccessPath root base = some v) :
    Match.loadBindings root (keyedRestBindings p base) = some (restStores p v) := by
  cases h with
  | parts _ _ _ hrest hbind => rw [hbind, hrest]; rfl
  | keyed es rest keys _ _ _ _ _ _ _ hrest hstores hbind =>
    rw [hbind, hstores]
    rcases hrest with rfl | rfl | ⟨b, rfl⟩ <;>
      simp [Match.loadBindings, collectPatternBindings, loadAccessPath, hload]

end

theorem total_childChoices (w : Nat × Value F → Nat) (children : List (Step × Shape F))
    (v : Value F) (h : ∀ child ∈ children, (child.1.read v).isSome) :
    total w (childChoices children v) =
      (children.map fun child => total w (child.2.choices (child.1.get v))).prod := by
  induction children with
  | nil => simp [childChoices]
  | cons child children ih =>
    rcases child with ⟨s, q⟩
    obtain ⟨u, hu⟩ := Option.isSome_iff_exists.1 (h (s, q) mem_cons_self)
    have hrest := ih fun child hc => h child (mem_cons_of_mem _ hc)
    rw [childChoices_cons, hu, map_cons, prod_cons, ← hrest, Step.get, hu]
    exact total_cross w _ _

theorem choices_of_test_false {children : List (Step × Shape F)} {v : Value F}
    (h : emitConstructorTest v c = false) : (Shape.node c children).choices v = [] := by
  rw [Shape.choices, h]
  rfl

theorem choices_of_test {children : List (Step × Shape F)} {v : Value F}
    (h : emitConstructorTest v c) :
    (Shape.node c children).choices v = childChoices children v := by
  rw [Shape.choices, h]
  rfl

theorem map_zip_steps (w : Nat × Value F → Nat) (steps : List Step) (subs : List (HirPattern F))
    (v : Value F) :
    ((steps.zip (subs.map HirPattern.shape)).map fun child =>
        total w (child.2.choices (child.1.get v))) =
      List.zipWith (fun q u => total w (q.shape.choices u)) subs (steps.map (Step.get v)) := by
  rw [List.zip, map_zipWith, zipWith_map_right, zipWith_map_right, zipWith_comm]

/-- The ways a pattern matches a value that passes the test are the products of the ways its
sub-patterns match the parts. -/
theorem Split.total_choices (h : Split keep p c target) (hr : Refines c target)
    (w : Nat × Value F → Nat) {v : Value F} (hv : emitConstructorTest v target) :
    total w (p.shape.choices v) =
      (List.zipWith (fun q u => total w (q.shape.choices u)) (extractSubPatterns p target)
        (subValues target v)).prod * ((restStores p v).map w).prod := by
  have hvc : emitConstructorTest v c := (hr.test_eq v).trans hv
  cases h with
  | parts hshape hlen _ hrest =>
    rw [hshape, choices_of_test hvc, total_childChoices, hrest, map_zip_steps, subValues]
    · simp
    · intro child hc
      exact read_isSome hv _ (of_mem_zip hc).1
  | keyed es rest keys hshape hsubs hsteps hnodup hkeys hsub _ hrest hstores =>
    have hread : ∀ child ∈ es.map (fun e => (Step.key e.1, e.2.shape)) ++
        restShapes (.structRest (es.map (·.1))) rest, (child.1.read v).isSome := by
      intro child hc
      rcases List.mem_append.1 hc with hc | hc
      · obtain ⟨e, -, rfl⟩ := List.mem_map.1 hc
        rfl
      · rcases rest with - | r
        · cases hc
        · rcases List.mem_singleton.1 hc with rfl
          rfl
    have hprod := prod_lookup (fun k q => total w (q.shape.choices (v.getOrNil k))) es keys hnodup
      hkeys hsub
    rw [hshape, choices_of_test hvc, total_childChoices w _ v hread, map_append,
      prod_append, List.map_map, hsubs, subValues, hsteps, List.map_map, zipWith_map,
      zipWith_self, hstores]
    congr 1
    · rw [show ((fun child : Step × Shape F => total w (child.2.choices (child.1.get v))) ∘
          fun e : PatternKey × HirPattern F => (Step.key e.1, e.2.shape)) =
          fun e => total w (e.2.shape.choices (v.getOrNil e.1)) from rfl, ← hprod]
      congr 1
      refine map_congr_left fun k _ => ?_
      rw [getD_map_eq es k fun q => total w (q.shape.choices ((Step.get v ∘ Step.key) k))]
      rfl
    · rcases hrest with rfl | rfl | ⟨b, rfl⟩ <;>
        simp [restShapes, HirPattern.shape, Shape.choices, Step.get, Step.read]

theorem mem_childTests {children : List (Step × Shape F)} {s : Step} {q : Shape F} {u v : Value F}
    {base : AccessPath} {t : AccessPath × Constructor F} (hc : (s, q) ∈ children)
    (hu : s.read v = some u) (ht : t ∈ q.tests (s.path base) u) :
    t ∈ childTests children base v := by
  induction children with
  | nil => cases hc
  | cons child children ih =>
    rcases List.mem_cons.1 hc with rfl | hc
    · exact mem_append_left _ (by rwa [hu])
    · exact mem_append_right _ (ih hc)

theorem tests_of_test {children : List (Step × Shape F)} {base : AccessPath} {v : Value F}
    (h : emitConstructorTest v c) :
    (Shape.node c children).tests base v = (base, c) :: childTests children base v := by
  rw [Shape.tests, h]
  rfl

theorem Split.tests_subset (h : Split keep p c target) (hr : Refines c target) {v : Value F}
    (hv : emitConstructorTest v target) {base : AccessPath} {q : HirPattern F} {s : Step}
    (hq : (q, s) ∈ (extractSubPatterns p target).zip target.steps) :
    ∀ t ∈ q.shape.tests (s.path base) (s.get v), t ∈ p.shape.tests base v := by
  intro t ht
  have hvc : emitConstructorTest v c := (hr.test_eq v).trans hv
  obtain ⟨u, hu⟩ := Option.isSome_iff_exists.1 (read_isSome hv s (of_mem_zip hq).2)
  rw [Step.get, hu] at ht
  cases h with
  | parts hshape =>
    rw [hshape, tests_of_test hvc]
    refine mem_cons_of_mem _ (mem_childTests ?_ hu ht)
    have hswap : target.steps.zip ((extractSubPatterns p target).map HirPattern.shape) =
        ((extractSubPatterns p target).zip target.steps).map fun qs => (qs.2, qs.1.shape) := by
      rw [List.zip, List.zip, map_zipWith, zipWith_map_right, zipWith_comm]
    rw [hswap]
    exact List.mem_map.2 ⟨(q, s), hq, rfl⟩
  | keyed es rest keys hshape hsubs hsteps =>
    rw [hshape, tests_of_test hvc]
    refine mem_cons_of_mem _ ?_
    rw [hsubs, hsteps, zip_map', mem_map] at hq
    obtain ⟨k, -, hqk⟩ := hq
    cases hqk
    cases hf : es.find? fun e => e.1 = k with
    | none => simp [hf, HirPattern.shape, Shape.tests] at ht
    | some e =>
      have hk : e.1 = k := by simpa using find?_some hf
      rw [hf] at ht
      have hmem : (Step.key k, e.2.shape) ∈ es.map fun e => (Step.key e.1, e.2.shape) :=
        List.mem_map.2 ⟨e, mem_of_find?_eq_some hf, by rw [hk]⟩
      exact mem_childTests (mem_append_left _ hmem) hu ht

end

end

end Elle.Match

import Elle.Match.Calls

/-!
# What a leaf binds

A leaf or a guard of the tree carries variables with the paths they are loaded from. It was reached
for one alternative of an arm with an alternative chosen at each or-pattern further in. `specialize`
forgets the rest of a keyed pattern that is an alternative of an or-pattern.

A `Mark` is a variable store with the note whether it is forgotten. `Shape.Takes` runs a shape on a
value for one choice of alternatives and answers the marks. Splitting a column leaves them what they
are up to their order, so a leaf loads the marks of its row that are not forgotten (`Traced.run`).
-/

namespace Elle.Match

open List

variable {F : Type}

/-! ### The leaves a value reaches -/

section

variable [Float64 F]

/-- A leaf or guard of the tree is reached for some answers of the guards before it. -/
inductive DecisionTree.Reaches (root : Value F) :
    DecisionTree F → Nat → List (Nat × AccessPath) → Prop where
  | leaf (arm : Nat) (bindings : List (Nat × AccessPath)) :
      Reaches root (.leaf arm bindings) arm bindings
  | guard (arm : Nat) (bindings : List (Nat × AccessPath)) (otherwise : DecisionTree F) :
      Reaches root (.guard arm bindings otherwise) arm bindings
  | otherwise {i arm : Nat} {b bindings : List (Nat × AccessPath)} {otherwise : DecisionTree F}
      (h : Reaches root otherwise i b) : Reaches root (.guard arm bindings otherwise) i b
  | case {i : Nat} {b : List (Nat × AccessPath)} {access : AccessPath}
      {cases : List (Constructor F × DecisionTree F)} {default : Option (DecisionTree F)}
      {v : Value F} {ctor : Constructor F} {tree : DecisionTree F}
      (hload : loadAccessPath root access = some v)
      (hfind : (cases.find? fun c => emitConstructorTest v c.1) = some (ctor, tree))
      (h : Reaches root tree i b) : Reaches root (.switch access cases default) i b
  | default {i : Nat} {b : List (Nat × AccessPath)} {access : AccessPath}
      {cases : List (Constructor F × DecisionTree F)} {v : Value F} {tree : DecisionTree F}
      (hload : loadAccessPath root access = some v)
      (hnone : (cases.find? fun c => emitConstructorTest v c.1) = none)
      (h : Reaches root tree i b) : Reaches root (.switch access cases (some tree)) i b

end

/-! ### Regular patterns -/

def restNames : Option (HirPattern F) → List Nat
  | some (.var b) => [b]
  | _ => []

/-- Keyed patterns name each key once and bind their rest to a variable or to nothing, and no list
pattern is nothing but a rest. -/
def regularNode : HirPattern F → Bool
  | .list [] (some _) => false
  | .struct es rest | .table es rest => decide (es.map (·.1)).Nodup && irrefutableRest rest
  | _ => true

def Regular (p : HirPattern F) : Prop := p.Everywhere regularNode

theorem regularNode_of_bare (q : HirPattern F) (hbare : bareRest q = false)
    (hkeyed : isKeyed q = false) : regularNode q := by
  cases q with
  | list es rest => rcases es with - | ⟨e, es⟩ <;> rcases rest with - | r <;> first | rfl | cases hbare
  | struct es rest => cases hkeyed
  | table es rest => cases hkeyed
  | _ => rfl

theorem bareRest_of_regular {q : HirPattern F} (h : regularNode q) : bareRest q = false := by
  cases q with
  | list es rest => rcases es with - | ⟨e, es⟩ <;> rcases rest with - | r <;> first | rfl | cases h
  | _ => rfl

/-! ### Marks -/

/-- A variable store, and whether the tree forgets it. -/
abbrev Mark (F : Type) := (Nat × Value F) × Bool

def marks (forgotten : Bool) (stores : Stores F) : List (Mark F) :=
  stores.map fun s => (s, forgotten)

/-- The marks of a child, which a keyed alternative forgets if the child is its rest. -/
def Step.mark (nested : Bool) (s : Step) (ms : List (Mark F)) : List (Mark F) :=
  match s with
  | .structRest _ => if nested then marks true (ms.map (·.1)) else ms
  | _ => ms

section

variable [Float64 F]

mutual

inductive Shape.Takes : Bool → Shape F → Value F → List (Mark F) → Prop where
  | any (nested : Bool) (v : Value F) : Shape.Takes nested .any v []
  | bind (nested : Bool) (b : Nat) (v : Value F) : Shape.Takes nested (.bind b) v [((b, v), false)]
  | node {nested : Bool} {c : Constructor F} {children : List (Step × Shape F)} {v : Value F}
      {ms : List (Mark F)} (htest : emitConstructorTest v c)
      (h : ChildrenTake nested children v ms) : Shape.Takes nested (.node c children) v ms
  | alts {nested : Bool} {q : Shape F} {qs : List (Shape F)} {v : Value F} {ms : List (Mark F)}
      (hq : q ∈ qs) (h : Shape.Takes true q v ms) : Shape.Takes nested (.alts qs) v ms

inductive ChildrenTake : Bool → List (Step × Shape F) → Value F → List (Mark F) → Prop where
  | nil (nested : Bool) (v : Value F) : ChildrenTake nested [] v []
  | cons {nested : Bool} {s : Step} {q : Shape F} {children : List (Step × Shape F)} {u v : Value F}
      {ms ms' : List (Mark F)} (hread : s.read v = some u) (h : Shape.Takes false q u ms)
      (hchildren : ChildrenTake nested children v ms') :
      ChildrenTake nested ((s, q) :: children) v (s.mark nested ms ++ ms')

end

/-- The columns of a row, each with a choice of its own. -/
inductive ColumnsTake : List (HirPattern F) → List (Value F) → List (Mark F) → Prop where
  | nil : ColumnsTake [] [] []
  | cons {p : HirPattern F} {v : Value F} {ps : List (HirPattern F)} {vs : List (Value F)}
      {ms ms' : List (Mark F)} (hp : p.shape.Takes false v ms) (hps : ColumnsTake ps vs ms') :
      ColumnsTake (p :: ps) (v :: vs) (ms ++ ms')

namespace ColumnsTake

variable {ms : List (Mark F)}

theorem append {ps qs : List (HirPattern F)} {us vs : List (Value F)} {ms' : List (Mark F)}
    (h : ColumnsTake ps us ms) (h' : ColumnsTake qs vs ms') :
    ColumnsTake (ps ++ qs) (us ++ vs) (ms ++ ms') := by
  induction h with
  | nil => exact h'
  | cons hp _ ih =>
    rw [append_assoc]
    exact .cons hp ih

theorem append_inv {ps qs : List (HirPattern F)} {us vs : List (Value F)} (hlen : ps.length = us.length)
    (h : ColumnsTake (ps ++ qs) (us ++ vs) ms) :
    ∃ m₁ m₂, ms = m₁ ++ m₂ ∧ ColumnsTake ps us m₁ ∧ ColumnsTake qs vs m₂ := by
  induction ps generalizing us ms with
  | nil =>
    rcases us with - | ⟨u, us⟩
    · exact ⟨[], ms, rfl, .nil, h⟩
    · cases hlen
  | cons p ps ih =>
    rcases us with - | ⟨u, us⟩
    · cases hlen
    · cases h with
      | cons hp hps =>
        obtain ⟨m₁, m₂, rfl, h₁, h₂⟩ := ih (Nat.succ_injective hlen) hps
        exact ⟨_, m₂, (append_assoc ..).symm, .cons hp h₁, h₂⟩

theorem wildcards {n : Nat} {vs : List (Value F)} (h : ColumnsTake (List.replicate n .wildcard) vs ms) :
    ms = [] := by
  induction n generalizing vs ms with
  | zero => cases h; rfl
  | succ n ih =>
    cases h with
    | cons hp hps =>
      cases hp
      exact ih hps

end ColumnsTake

/-! ### Splitting a column -/

variable {nested : Bool} {v root : Value F} {ms : List (Mark F)} {c : Constructor F}
  {q : HirPattern F} {vs : List (Value F)} {row : PatternRow F}

theorem ChildrenTake.append {cs ds : List (Step × Shape F)} {ms' : List (Mark F)}
    (h : ChildrenTake nested cs v ms) (h' : ChildrenTake nested ds v ms') :
    ChildrenTake nested (cs ++ ds) v (ms ++ ms') := by
  induction cs generalizing ms with
  | nil => cases h; exact h'
  | cons c cs ih =>
    cases h with
    | cons hread hq hcs =>
      rw [append_assoc]
      exact .cons hread hq (ih hcs)

omit [Float64 F] in
theorem mark_of_mem_steps {s : Step} (hs : s ∈ c.steps) (nested : Bool) (ms : List (Mark F)) :
    s.mark nested ms = ms := by
  cases s with
  | structRest exclude => cases c <;> simp [Constructor.steps] at hs
  | _ => rfl

theorem childrenTake_parts {steps : List Step} {subs : List (HirPattern F)}
    (hread : ∀ s ∈ steps, (s.read v).isSome)
    (hmark : ∀ s ∈ steps, ∀ ms : List (Mark F), s.mark nested ms = ms)
    (h : ColumnsTake subs (steps.map (Step.get v)) ms) :
    ChildrenTake nested (steps.zip (subs.map HirPattern.shape)) v ms := by
  induction steps generalizing subs ms with
  | nil => cases h; exact .nil ..
  | cons s steps ih =>
    cases h with
    | @cons p _ ps _ m m' hp hps =>
      obtain ⟨u, hu⟩ := Option.isSome_iff_exists.1 (hread s mem_cons_self)
      rw [Step.get, hu] at hp
      have hrest := ih (fun s hs => hread s (mem_cons_of_mem _ hs))
        (fun s hs => hmark s (mem_cons_of_mem _ hs)) hps
      rw [← hmark s mem_cons_self m]
      exact .cons hu hp hrest

/-- The columns of the merged keys take what the entries take: each entry has the column of its
key, and the columns of other keys take nothing. -/
theorem childrenTake_entries (es : List (PatternKey × HirPattern F)) {keys : List PatternKey}
    (hes : (es.map (·.1)).Nodup) (hkeys : keys.Nodup) (hsub : ∀ e ∈ es, e.1 ∈ keys)
    (h : ColumnsTake (keys.map fun k => ((es.find? fun e => e.1 = k).map (·.2)).getD .wildcard)
      (keys.map fun k => v.getOrNil k) ms) :
    ∃ ms', ChildrenTake nested (es.map fun e => (Step.key e.1, e.2.shape)) v ms' ∧ ms'.Perm ms := by
  induction es generalizing keys ms with
  | nil =>
    have hwild : (keys.map fun k => ((([] : List (PatternKey × HirPattern F)).find?
        fun e => e.1 = k).map (·.2)).getD .wildcard) = List.replicate keys.length .wildcard := by
      simp [map_const']
    rw [hwild] at h
    exact ⟨[], .nil .., by rw [h.wildcards]⟩
  | cons e es ih =>
    rcases e with ⟨k, p⟩
    rw [map_cons, nodup_cons] at hes
    obtain ⟨l₁, l₂, rfl⟩ := append_of_mem (hsub (k, p) mem_cons_self)
    have hk : k ∉ l₁ ++ l₂ := (List.nodup_middle.1 hkeys).notMem
    rw [mem_append, not_or] at hk
    rw [map_append, map_append, map_cons, map_cons,
      map_lookup_cons p es hk.1, map_lookup_cons p es hk.2, find?_cons_of_pos (by simp)] at h
    obtain ⟨m₁, m₂, rfl, h₁, h₂⟩ := h.append_inv (by simp)
    cases h₂ with
    | @cons _ _ _ _ m m₂ hp h₂ =>
      have hcols := h₁.append h₂
      rw [← map_append, ← map_append] at hcols
      have hsub' : ∀ e ∈ es, e.1 ∈ l₁ ++ l₂ := by
        intro e he
        have hne : e.1 ≠ k := fun heq => hes.1 (heq ▸ List.mem_map.2 ⟨e, he, rfl⟩)
        have := hsub e (mem_cons_of_mem _ he)
        simp only [mem_append, mem_cons] at this ⊢
        tauto
      obtain ⟨ms', hms', hperm⟩ := ih hes.2 (List.nodup_middle.1 hkeys).of_cons hsub' hcols
      refine ⟨m ++ ms', .cons rfl hp hms', ?_⟩
      refine (hperm.append_left m).trans ?_
      rw [← append_assoc, ← append_assoc]
      exact List.perm_append_comm.append_right m₂

/-- A rest is recorded or forgotten, as the pattern it belongs to stands in a column or is an
alternative there. -/
theorem childrenTake_rest {rest : Option (HirPattern F)} (hrest : irrefutableRest rest)
    (nested : Bool) (exclude : List PatternKey) (v : Value F) :
    ChildrenTake nested (restShapes (.structRest exclude) rest) v
      (marks nested ((restNames rest).map fun b => (b, v.structRest exclude))) := by
  rcases irrefutableRest_iff.1 hrest with rfl | rfl | ⟨b, rfl⟩
  · exact .nil ..
  · have h : ChildrenTake nested [(.structRest exclude, .any)] v
        (Step.mark nested (.structRest exclude) [] ++ []) :=
      .cons rfl (Shape.Takes.any ..) (.nil ..)
    cases nested <;> exact h
  · have h : ChildrenTake nested [(.structRest exclude, .bind b)] v
        (Step.mark nested (.structRest exclude) [((b, v.structRest exclude), false)] ++ []) :=
      .cons rfl (Shape.Takes.bind ..) (.nil ..)
    cases nested <;> exact h

theorem exists_takes_keyed {es : List (PatternKey × HirPattern F)} {rest : Option (HirPattern F)}
    {keys : List PatternKey} (htest : emitConstructorTest v c)
    (hreg : (decide (es.map (·.1)).Nodup && irrefutableRest rest)) (hkeys : keys.Nodup)
    (hsub : ∀ k ∈ es.map (·.1), k ∈ keys)
    (h : ColumnsTake (keys.map fun k => ((es.find? fun e => e.1 = k).map (·.2)).getD .wildcard)
      (keys.map fun k => v.getOrNil k) ms) :
    ∃ ms', (Shape.node c (entryShapes es ++ restShapes (.structRest (es.map (·.1))) rest)).Takes
        nested v ms' ∧
      ms'.Perm (marks nested ((restNames rest).map fun b => (b, v.structRest (es.map (·.1)))) ++ ms) := by
  rw [Bool.and_eq_true, decide_eq_true_eq] at hreg
  have hentries : ∃ ms', ChildrenTake nested (es.map fun e => (Step.key e.1, e.2.shape)) v ms' ∧
      ms'.Perm ms :=
    childrenTake_entries es hreg.1 hkeys (fun e he => hsub e.1 (List.mem_map.2 ⟨e, he, rfl⟩)) h
  obtain ⟨ms', hms', hperm⟩ := hentries
  rw [← entryShapes_eq_map] at hms'
  refine ⟨_, .node htest (hms'.append (childrenTake_rest hreg.2 ..)), ?_⟩
  exact List.perm_append_comm.trans (hperm.append_left _)

/-- The columns a pattern is split into take what the pattern takes, but for its rest. -/
theorem exists_takes (nested : Bool) {target : Constructor F} (hreg : regularNode q)
    (hc : patternConstructor q = some c) (hr : Refines c target) (hv : emitConstructorTest v target)
    (h : ColumnsTake (extractSubPatterns q target) (subValues target v) ms) :
    ∃ ms', q.shape.Takes nested v ms' ∧ ms'.Perm (marks nested (restStores q v) ++ ms) := by
  have hvc : emitConstructorTest v c := (hr.test_eq v).trans hv
  cases hr with
  | literal hlit =>
    rcases eq_literal_of_constructor hc with rfl
    cases h
    exact ⟨[], .node hvc (.nil ..), .refl _⟩
  | refl hs ht =>
    have hstores : restStores q v = [] := by
      cases q with
      | struct es rest => cases hc; cases hs
      | table es rest => cases hc; cases ht
      | _ => rfl
    rw [(shape_eq_node hc hs ht (bareRest_of_regular hreg)).1, hstores]
    exact ⟨ms, .node hv (childrenTake_parts (read_isSome hv)
      (fun s hs => mark_of_mem_steps hs nested) h), .refl _⟩
  | struct hkeys hsub | table hkeys hsub =>
    first
    | obtain ⟨es, rest, rfl, rfl⟩ := eq_struct_of_constructor hc
    | obtain ⟨es, rest, rfl, rfl⟩ := eq_table_of_constructor hc
    rw [subValues, Constructor.steps, List.map_map] at h
    rcases irrefutableRest_iff.1 (Bool.and_eq_true .. ▸ hreg).2 with rfl | rfl | ⟨b, rfl⟩ <;>
      exact exists_takes_keyed hvc hreg hkeys hsub h

omit [Float64 F] in
theorem loadBindings_keyedRest (hreg : regularNode q) {base : AccessPath}
    (hload : loadAccessPath root base = some v) :
    loadBindings root (keyedRestBindings q base) = some (restStores q v) := by
  cases q with
  | struct es rest | table es rest =>
    rcases irrefutableRest_iff.1 (Bool.and_eq_true .. ▸ hreg).2 with rfl | rfl | ⟨b, rfl⟩ <;>
      simp [keyedRestBindings, restStores, collectPatternBindings, loadBindings, loadAccessPath, hload]
  | _ => rfl

theorem takes_of_branch {p : HirPattern F} (hq : q ∈ branches p) (h : q.shape.Takes (isOr p) v ms) :
    p.shape.Takes false v ms := by
  cases p with
  | or alts =>
    refine .alts ?_ h
    rw [alternativeShapes_eq_map]
    exact List.mem_map.2 ⟨q, hq, rfl⟩
  | _ => rcases List.mem_singleton.1 hq with rfl; exact h

theorem exists_branchMarks {p : HirPattern F} {target : Constructor F} {base : AccessPath}
    (hreg : regularNode q) (hq : q ∈ branches p) (hadm : admits target q)
    (hr : ∀ c, patternConstructor q = some c → Refines c target) (hload : loadAccessPath root base = some v)
    (hv : emitConstructorTest v target) :
    ∃ stores forgotten, loadBindings root (branchBindings p q base) = some stores ∧
      ∀ ms, ColumnsTake (extractSubPatterns q target) (subValues target v) ms →
        ∃ ms', p.shape.Takes false v ms' ∧ ms'.Perm (marks false stores ++ marks true forgotten ++ ms) := by
  cases hwild : isWildcard q with
  | true =>
    have hbind : branchBindings p q base = varBinding q base := by
      rcases eq_of_isWildcard hwild with rfl | ⟨b, rfl⟩ <;> simp [branchBindings, keyedRestBindings]
    refine ⟨_, [], by rw [hbind]; exact loadBindings_varBinding hload q, fun ms hms => ?_⟩
    rcases eq_of_isWildcard hwild with rfl | ⟨b, rfl⟩
    · rw [ColumnsTake.wildcards hms]
      exact ⟨[], takes_of_branch hq (.any ..), .refl _⟩
    · rw [ColumnsTake.wildcards hms]
      exact ⟨_, takes_of_branch hq (.bind ..), .refl _⟩
  | false =>
    obtain ⟨c, hc⟩ : ∃ c, patternConstructor q = some c := by
      simp only [admits, hwild, Bool.false_or, Option.any_eq_true] at hadm
      exact hadm.imp fun _ h => h.1
    cases hor : isOr p with
    | true =>
      refine ⟨[], restStores q v, ?_, fun ms hms => ?_⟩
      · simp [branchBindings, hor, varBinding_eq_nil hc, loadBindings]
      · obtain ⟨ms', htakes, hperm⟩ := exists_takes true hreg hc (hr c hc) hv hms
        exact ⟨ms', takes_of_branch hq (hor ▸ htakes), hperm⟩
    | false =>
      refine ⟨restStores q v, [], ?_, fun ms hms => ?_⟩
      · simpa [branchBindings, hor, varBinding_eq_nil hc] using loadBindings_keyedRest hreg hload
      · obtain ⟨ms', htakes, hperm⟩ := exists_takes false hreg hc (hr c hc) hv hms
        refine ⟨ms', takes_of_branch hq (hor ▸ htakes), ?_⟩
        simpa [marks] using hperm

/-! ### Rows and the alternatives they stand for -/

omit [Float64 F] in
theorem marks_append (forgotten : Bool) (xs ys : Stores F) :
    marks forgotten (xs ++ ys) = marks forgotten xs ++ marks forgotten ys := map_append

/-- The row stands for an alternative of its arm: whatever its columns take, the alternative takes,
together with the variables recorded and those forgotten so far. -/
def Origin (arms : List (Arm F)) (root : Value F) (vs : List (Value F)) (row : PatternRow F) :
    Prop :=
  ∃ arm, arms[row.armIndex]? = some arm ∧ ∃ alt ∈ expandOrPattern arm.pattern,
    ∃ stores forgotten, loadBindings root row.bindings = some stores ∧
      ∀ ms, ColumnsTake row.patterns vs ms → ∃ ms', alt.shape.Takes false root ms' ∧
        ms'.Perm (marks false stores ++ marks true forgotten ++ ms)

theorem Origin.replace {arms : List (Arm F)} {us : List (Value F)} {col : Nat} {subs : List (HirPattern F)}
    {added : List (Nat × AccessPath)} {s f : Stores F} (h : Origin arms root vs row)
    (hlen : row.patterns.length = vs.length) (hcol : col < vs.length) (hsubs : subs.length = us.length)
    (hadded : loadBindings root added = some s)
    (htakes : ∀ ms, ColumnsTake subs us ms → ∃ ms', (row.column col).shape.Takes false (vs.getD col .nil) ms' ∧
      ms'.Perm (marks false s ++ marks true f ++ ms)) :
    Origin arms root (replaceColumn vs col us) (row.replace col subs added) := by
  obtain ⟨arm, harm, alt, halt, stores, forgotten, hload, horigin⟩ := h
  refine ⟨arm, harm, alt, halt, stores ++ s, forgotten ++ f, loadBindings_append hload hadded, ?_⟩
  intro ms hms
  obtain ⟨m, m₃, rfl, h₁₂, h₃⟩ := hms.append_inv (by simp [hlen, hsubs])
  obtain ⟨m₁, m₂, rfl, h₁, h₂⟩ := h₁₂.append_inv (by simp [hlen])
  obtain ⟨m', hm', hperm⟩ := htakes m₂ h₂
  have hcolumns := (h₁.append (.cons hm' .nil)).append h₃
  change ColumnsTake (replaceColumn row.patterns col [row.patterns.getD col .wildcard])
    (replaceColumn vs col [vs.getD col .nil]) _ at hcolumns
  rw [replaceColumn_self (hlen ▸ hcol), replaceColumn_self hcol] at hcolumns
  obtain ⟨ms', htaken, hperm'⟩ := horigin _ hcolumns
  refine ⟨ms', htaken, hperm'.trans ?_⟩
  classical
  rw [perm_iff_count] at hperm ⊢
  intro a
  have := hperm a
  simp only [marks_append, count_append, append_nil] at this ⊢
  omega

structure Traced (arms : List (Arm F)) (root : Value F) (vs : List (Value F)) (call : Call F) : Prop where
  load : List.Forall₂ (fun a v => loadAccessPath root a = some v) call.access vs
  width : call.Width
  regular : call.Everywhere regularNode
  origin : ∀ row ∈ call.rows, Origin arms root vs row

namespace Traced

variable {arms : List (Arm F)} {root : Value F} {vs : List (Value F)} {call : Call F}

section

variable (h : Traced arms root vs call)
include h

theorem apart : call.Apart :=
  h.regular.apart regularNode_of_bare fun _ => bareRest_of_regular

theorem load_base (hsplit : call.splits) :
    loadAccessPath root call.base = some (vs.getD call.column .nil) := by
  have hcol := h.width.column hsplit
  have hlen := h.load.length_eq
  rw [Call.base, getD_eq_getElem_of_lt hcol, getD_eq_getElem_of_lt (hlen ▸ hcol)]
  exact h.load.get hcol (hlen ▸ hcol)

theorem case (hsplit : call.splits) {ctor : Constructor F}
    (hctor : ctor ∈ call.constructors)
    (hv : emitConstructorTest (vs.getD call.column .nil) ctor) :
    Traced arms root (replaceColumn vs call.column (subValues ctor (vs.getD call.column .nil)))
      (call.case ctor) := by
  have hmakes : Call.Makes call (call.case ctor) := .case hsplit hctor
  have hload := h.load_base hsplit
  have hlen := h.load.length_eq
  refine ⟨forall₂_replaceColumn h.load (Aligned.forall₂_subValues hload hv) call.column,
    h.width.step h.apart hmakes, h.regular.step regularNode_of_bare hmakes, ?_⟩
  intro row' hrow'
  obtain ⟨row, hrow, q, hq, hadm, rfl⟩ := exists_of_mem_specialize hrow'
  have hreg := ((h.regular.column regularNode_of_bare hrow call.column).branch hq).self
  obtain ⟨s, f, hadded, htakes⟩ := exists_branchMarks hreg hq hadm
    (refines_of_admits hrow hctor hq hadm) hload hv
  refine (h.origin row hrow).replace ((h.width row hrow).trans hlen) (hlen ▸ h.width.column hsplit)
    ?_ hadded htakes
  rw [(h.width.inRange h.apart).arity hsplit ctor hctor row hrow q hq hadm, subValues,
    length_map, Constructor.length_steps]

theorem default (hsplit : call.splits)
    (hne : call.default.rows ≠ []) :
    Traced arms root (replaceColumn vs call.column []) call.default := by
  have hmakes : Call.Makes call call.default := .default hsplit hne
  have hlen := h.load.length_eq
  refine ⟨forall₂_replaceColumn h.load .nil call.column, h.width.step h.apart hmakes,
    h.regular.step regularNode_of_bare hmakes, ?_⟩
  intro row' hrow'
  obtain ⟨row, hrow, rfl⟩ := List.mem_map.1 hrow'
  obtain ⟨hrow, hwild⟩ := List.mem_filter.1 hrow
  refine Origin.replace (f := []) (h.origin row hrow) ((h.width row hrow).trans hlen)
    (hlen ▸ h.width.column hsplit) rfl (loadBindings_varBinding (h.load_base hsplit) _) ?_
  intro ms hms
  cases hms
  rcases eq_of_isWildcard hwild with hp | ⟨b, hp⟩
  · rw [hp]
    exact ⟨[], .any .., .refl _⟩
  · rw [hp]
    exact ⟨_, .bind .., .refl _⟩

end

theorem otherwise {row : PatternRow F} {remaining : List (PatternRow F)}
    {access : List AccessPath} (h : Traced arms root vs ⟨row :: remaining, access⟩) :
    Traced arms root vs ⟨remaining, access⟩ :=
  ⟨h.load, fun r hr => h.width r (mem_cons_of_mem _ hr),
    fun r hr => h.regular r (mem_cons_of_mem _ hr),
    fun r hr => h.origin r (mem_cons_of_mem _ hr)⟩

end Traced

/-! ### The leaf -/

/-- The bindings load the stores of some choice of alternatives, but for the forgotten ones. -/
def Loads (arms : List (Arm F)) (root : Value F) (i : Nat) (bindings : List (Nat × AccessPath)) :
    Prop :=
  ∃ arm, arms[i]? = some arm ∧ ∃ alt ∈ expandOrPattern arm.pattern,
    ∃ stores forgotten ms, loadBindings root bindings = some stores ∧
      alt.shape.Takes false root ms ∧ ms.Perm (marks false stores ++ marks true forgotten)

variable {arms : List (Arm F)} {root : Value F}

theorem Traced.leaf {remaining : List (PatternRow F)} {access : List AccessPath}
    (h : Traced arms root vs ⟨row :: remaining, access⟩) (hwild : row.patterns.all isWildcard) :
    Loads arms root row.armIndex (leafBindings row access) := by
  have hrow : row ∈ row :: remaining := mem_cons_self
  obtain ⟨arm, harm, alt, halt, stores, forgotten, hstores, horigin⟩ := h.origin row hrow
  obtain ⟨s, hs, hcolumns⟩ := exists_loaded (P := fun ps vs s => ColumnsTake ps vs (marks false s)) .nil
    (fun {ps vs s v} h => ColumnsTake.cons (p := .wildcard) (.any false v) h)
    (fun {ps vs s v b} h => ColumnsTake.cons (p := .var b) (.bind false b v) h) h.load
    (h.width row hrow) hwild
  obtain ⟨ms, htakes, hperm⟩ := horigin _ hcolumns
  refine ⟨arm, harm, alt, halt, stores ++ s, forgotten, ms, loadBindings_append hstores hs, htakes,
    hperm.trans ?_⟩
  rw [marks_append, append_assoc, append_assoc]
  exact List.perm_append_comm.append_left _

theorem Traced.run (fuel : Nat) : ∀ {vs : List (Value F)} {call : Call F},
    Traced arms root vs call → ∀ {i : Nat} {b : List (Nat × AccessPath)},
      (call.compile fuel).Reaches root i b → Loads arms root i b := by
  induction fuel with
  | zero => intro vs call _ i b hreach; cases hreach
  | succ fuel ih =>
    intro vs call h i b hreach
    cases hsplit : call.splits with
    | true =>
      rw [Call.compile_of_splits hsplit] at hreach
      have hload := h.load_base hsplit
      generalize hdefault : (if call.default.rows.isEmpty then none
        else some (call.default.compile fuel)) = default at hreach
      cases hreach with
      | case hv hfind hreach =>
        rw [hload] at hv
        cases hv
        obtain ⟨ctor, hctor, hcase⟩ := List.mem_map.1 (mem_of_find?_eq_some hfind)
        cases hcase
        have htest := find?_some hfind
        exact ih (h.case hsplit hctor htest) hreach
      | default hv hnone hreach =>
        split at hdefault
        · cases hdefault
        · next hne =>
          cases hdefault
          exact ih (h.default hsplit (by simpa using hne)) hreach
    | false =>
      rcases call with ⟨rows, access⟩
      rcases rows with - | ⟨row, remaining⟩
      · cases hreach
      · have hwild : row.patterns.all isWildcard := by simpa [Call.splits] using hsplit
        rw [Call.compile, compileMatrix, if_pos hwild] at hreach
        split at hreach
        · cases hreach with
          | guard => exact h.leaf hwild
          | otherwise hreach => exact ih h.otherwise hreach
        · cases hreach
          exact h.leaf hwild

omit [Float64 F] in
theorem exists_of_mem_fromArms {i : Nat} (h : row ∈ fromArms i arms) :
    ∃ j arm, arms[j]? = some arm ∧ ∃ alt ∈ expandOrPattern arm.pattern,
      row = PatternRow.new alt arm.hasGuard (i + j) := by
  induction arms generalizing i with
  | nil => cases h
  | cons arm arms ih =>
    rcases List.mem_append.1 h with h | h
    · obtain ⟨alt, halt, rfl⟩ := List.mem_map.1 h
      exact ⟨0, arm, rfl, alt, halt, rfl⟩
    · obtain ⟨j, arm', harm', alt, halt, rfl⟩ := ih h
      exact ⟨j + 1, arm', harm', alt, halt, by rw [Nat.add_assoc, Nat.add_comm 1 j]⟩

theorem traced_compileCall (hreg : ∀ arm ∈ arms, Regular arm.pattern) (v : Value F) :
    Traced arms v [v] (compileCall arms) := by
  refine ⟨.cons rfl .nil, width_compileCall arms, everywhere_compileCall hreg, ?_⟩
  intro row hrow
  obtain ⟨j, arm, harm, alt, halt, rfl⟩ := exists_of_mem_fromArms hrow
  rw [Nat.zero_add]
  refine ⟨arm, harm, alt, halt, [], [], rfl, fun ms hms => ?_⟩
  cases hms with
  | cons hp hnil =>
    cases hnil
    exact ⟨_, hp, by simp [marks]⟩

end

end Elle.Match

import Mathlib

/-! # `(environment)` against `lookup` (`hir/analyze/forms/special.rs`, `hir/analyze/scopes.rs`)

Two searches over the same stack of frames. `lookup` walks the frames from the innermost out and
takes, in the first frame that has one, the candidate with the largest scope set within the
reference's; outside a definition environment it must also carry every intro scope of the reference.
When no frame answers, a parent capture of the same name does. `analyzeEnvironment` walks the same
frames for all symbols at once, but looks at neither intro scopes nor captures. -/

namespace Elle.Environment

open List

abbrev ScopeId := BitVec 32
abbrev SymbolId := Nat
abbrev Binding := Nat

def introBit : ScopeId := 1 <<< 31

def isIntro (s : ScopeId) : Bool := s &&& introBit != 0

structure ScopedBinding where
  scopes : List ScopeId
  binding : Binding

/-- A lexical frame. The binding map is listed by ascending symbol, which is the order
`analyzeEnvironment` sorts it into. -/
structure Scope where
  bindings : List (SymbolId × List ScopedBinding)
  isFunction : Bool
  definitionEnv : Bool
  introProvenance : List ScopeId
  sorted : (bindings.map Prod.fst).Pairwise (· < ·)

structure BindingInner where
  name : SymbolId
  isSynthetic : Bool
  isImmutable : Bool
  isCaptured : Bool

inductive CaptureKind where
  | local
  | capture (index : Nat)
  | recursive (binding : Binding)

structure CaptureInfo where
  binding : Binding
  kind : CaptureKind

structure Analyzer where
  /-- outermost first, as the vector grows -/
  scopes : List Scope
  arena : Binding → BindingInner
  primitiveValues : List Binding
  structBinding : Binding
  currentInitBinding : Option Binding
  currentInitBindingDepth : Nat
  fnDepth : Nat
  currentCaptures : List CaptureInfo
  parentCaptures : List CaptureInfo

def isScopeSubset (subset superset : List ScopeId) : Bool :=
  subset.all fun s => superset.contains s

/-- `Iterator::max_by_key`: of equally large elements the last one. -/
def maxByKey {α : Type} (key : α → Nat) : List α → Option α
  | [] => none
  | a :: l =>
    match maxByKey key l with
    | none => some a
    | some b => if key a ≤ key b then some b else some a

section MaxByKey
variable {α : Type} {key : α → Nat}
variable {l : List α}

theorem maxByKey_eq_none : maxByKey key l = none ↔ l = [] := by
  cases l with
  | nil => simp [maxByKey]
  | cons a l =>
    rw [maxByKey]
    split
    · simp
    · split <;> simp

theorem maxByKey_spec {w : α} (h : maxByKey key l = some w) : w ∈ l ∧ ∀ a ∈ l, key a ≤ key w := by
  induction l generalizing w with
  | nil => simp [maxByKey] at h
  | cons a l ih =>
    rw [maxByKey] at h
    split at h
    next hn =>
      obtain rfl := maxByKey_eq_none.mp hn
      simp_all
    next b hb =>
      obtain ⟨hmem, hle⟩ := ih hb
      split at h
      · obtain rfl := Option.some.inj h
        grind
      · obtain rfl := Option.some.inj h
        grind

theorem maxByKey_filter {w : α} {p : α → Bool} (h : maxByKey key l = some w) (hp : p w) :
    maxByKey key (l.filter p) = some w := by
  induction l generalizing w with
  | nil => simp [maxByKey] at h
  | cons a l ih =>
    rw [maxByKey] at h
    split at h
    next hn =>
      obtain rfl := maxByKey_eq_none.mp hn
      obtain rfl := Option.some.inj h
      simp [hp, maxByKey]
    next b hb =>
      split at h
      next hab =>
        obtain rfl := Option.some.inj h
        rw [filter_cons]
        split
        · rw [maxByKey, ih hb hp]
          simp [hab]
        · exact ih hb hp
      next hab =>
        obtain rfl := Option.some.inj h
        rw [filter_cons_of_pos hp, maxByKey]
        split
        · rfl
        next c hc =>
          have hcl := (maxByKey_spec hc).1
          have := (maxByKey_spec hb).2 c (List.mem_filter.mp hcl).1
          rw [if_neg (by omega)]

end MaxByKey

/-! ## The two searches -/

/-- The intro-scope rule of `lookup`. -/
def visible (scope : Scope) (ref : List ScopeId) (c : ScopedBinding) : Bool :=
  scope.definitionEnv ||
    ref.all fun s => !isIntro s || c.scopes.contains s || scope.introProvenance.contains s

/-- What `lookup` takes in one frame. -/
def Scope.best (scope : Scope) (sym : SymbolId) (ref : List ScopeId) : Option ScopedBinding :=
  (scope.bindings.lookup sym).bind fun candidates =>
    maxByKey (·.scopes.length)
      ((candidates.filter fun c => isScopeSubset c.scopes ref).filter (visible scope ref))

/-- The walk of `lookup` over the frames, innermost first: the binding, and whether the walk
left a function on the way. -/
def findInScopes (sym : SymbolId) (ref : List ScopeId) : Bool → List Scope → Option (Binding × Bool)
  | _, [] => none
  | crossed, scope :: rest =>
    match scope.best sym ref with
    | some winner => some (winner.binding, crossed)
    | none => findInScopes sym ref (crossed || scope.isFunction) rest

namespace Analyzer

def markCaptured (a : Analyzer) (b : Binding) : Analyzer :=
  { a with arena := Function.update a.arena b { a.arena b with isCaptured := true } }

def addCapture (a : Analyzer) (b : Binding) (kind : CaptureKind) : Analyzer :=
  if a.currentCaptures.any (·.binding == b) then a
  else { a with currentCaptures := a.currentCaptures ++ [⟨b, kind⟩] }

def parentCapture (a : Analyzer) (sym : SymbolId) : Option (CaptureInfo × Nat) :=
  a.parentCaptures.zipIdx.find? fun c => (a.arena c.1.binding).name == sym

def lookup (a : Analyzer) (sym : SymbolId) (ref : List ScopeId) : Option Binding × Analyzer :=
  match findInScopes sym ref false a.scopes.reverse with
  | some (b, false) => (some b, a)
  | some (b, true) =>
    if a.primitiveValues.contains b then (some b, a)
    else if a.currentInitBinding == some b && a.fnDepth == a.currentInitBindingDepth + 1 &&
        (a.arena b).isImmutable then
      -- a self-edge does not mark the binding captured
      (some b, a.addCapture b (.recursive b))
    else (some b, (a.markCaptured b).addCapture b .local)
  | none =>
    match a.parentCapture sym with
    | some (cap, i) => (some cap.binding, (a.markCaptured cap.binding).addCapture cap.binding (.capture (i % 2 ^ 16)))
    | none => (none, a)

/-- Primitives and compiler temporaries are left out of the struct. -/
def hidden (a : Analyzer) (b : Binding) : Bool :=
  a.primitiveValues.contains b || (a.arena b).isSynthetic

end Analyzer

/-- The candidate `analyzeEnvironment` takes from one entry of a frame. -/
def winner (ref : List ScopeId) (candidates : List ScopedBinding) : Option ScopedBinding :=
  maxByKey (·.scopes.length) (candidates.filter fun c => isScopeSubset c.scopes ref)

/-- The symbols met so far and the pairs to reify. -/
structure Reified where
  seen : List SymbolId := []
  pairs : List (SymbolId × Binding) := []

inductive Hir where
  | var (b : Binding)
  | quote (sym : SymbolId)
  | call (func : Hir) (args : List (Hir × Bool)) (isTail : Bool)

namespace Analyzer
variable (a : Analyzer) (ref : List ScopeId)

def reifyEntry (r : Reified) (entry : SymbolId × List ScopedBinding) : Reified :=
  if r.seen.contains entry.1 then r
  else
    match winner ref entry.2 with
    | none => r
    | some w =>
      if a.hidden w.binding then { r with seen := entry.1 :: r.seen }
      else ⟨entry.1 :: r.seen, r.pairs ++ [(entry.1, w.binding)]⟩

def reify : Reified :=
  a.scopes.reverse.foldl (fun r scope => scope.bindings.foldl (a.reifyEntry ref) r) {}

end Analyzer

/-- The arguments of `(struct 'x x 'y y …)`, none of them spliced. -/
def structArgs (pairs : List (SymbolId × Binding)) : List (Hir × Bool) :=
  pairs.flatMap fun p => [(.quote p.1, false), (.var p.2, false)]

/-- `items` are the scope sets of the form's parts; the first is the head symbol's. -/
def Analyzer.analyzeEnvironment (a : Analyzer) (items : List (List ScopeId)) (span : String) : Except String Hir :=
  match items with
  | [ref] => .ok (.call (.var a.structBinding) (structArgs (a.reify ref).pairs) false)
  | _ => .error s!"{span}: environment takes no arguments"

/-! ## What the form finds -/

/-- The candidate the form takes for one symbol in one frame. -/
def Scope.pick (scope : Scope) (ref : List ScopeId) (sym : SymbolId) : Option ScopedBinding :=
  (scope.bindings.lookup sym).bind (winner ref)

/-- The innermost frame with a candidate whose scopes the reference carries, and its winner. -/
def nearest (ref : List ScopeId) (sym : SymbolId) (scopes : List Scope) : Option (Scope × ScopedBinding) :=
  scopes.findSome? fun scope => (scope.pick ref sym).map (scope, ·)

theorem nearest_cons (ref : List ScopeId) (sym : SymbolId) (scope : Scope) (rest : List Scope) :
    nearest ref sym (scope :: rest) = ((scope.pick ref sym).map (scope, ·)).or (nearest ref sym rest) := by
  rw [nearest, findSome?_cons]
  cases scope.pick ref sym <;> rfl

/-- The first entry of `sym` in a run of entries that has a winner. -/
def firstWinner (ref : List ScopeId) (sym : SymbolId) (entries : List (SymbolId × List ScopedBinding)) :
    Option ScopedBinding :=
  entries.findSome? fun e => if e.1 = sym then winner ref e.2 else none

theorem firstWinner_eq_pick (ref : List ScopeId) (sym : SymbolId) (scope : Scope) :
    firstWinner ref sym scope.bindings = scope.pick ref sym := by
  obtain ⟨bindings, _, _, _, hs⟩ := scope
  dsimp only [Scope.pick]
  induction bindings with
  | nil => rfl
  | cons e es ih =>
    obtain ⟨hlt, hs⟩ := List.pairwise_cons.mp hs
    rw [firstWinner, findSome?_cons, lookup_cons]
    by_cases he : sym = e.1
    · subst he
      -- no later entry has this symbol, so a frame's entry without a winner ends the frame
      have hrest : es.findSome? (fun x => if x.1 = e.1 then winner ref x.2 else none) = none := by
        rw [findSome?_eq_none_iff]
        intro x hx
        have := hlt x.1 (mem_map_of_mem hx)
        rw [if_neg (Nat.ne_of_gt this)]
      simp only [if_true, beq_self_eq_true, hrest, Option.bind_some]
      cases winner ref e.2 <;> rfl
    · have : (sym == e.1) = false := by simpa using he
      simp only [if_neg (Ne.symm he), this]
      exact ih hs

theorem firstWinner_flatMap (ref : List ScopeId) (sym : SymbolId) (scopes : List Scope) :
    firstWinner ref sym (scopes.flatMap (·.bindings)) = (nearest ref sym scopes).map Prod.snd := by
  induction scopes with
  | nil => rfl
  | cons scope rest ih =>
    have hsplit : firstWinner ref sym ((scope :: rest).flatMap (·.bindings)) =
        (firstWinner ref sym scope.bindings).or (firstWinner ref sym (rest.flatMap (·.bindings))) := by
      simp [firstWinner, findSome?_append]
    rw [hsplit, firstWinner_eq_pick, ih, nearest_cons]
    cases scope.pick ref sym <;> rfl

namespace Analyzer
variable (a : Analyzer) (ref : List ScopeId)

theorem foldl_reifyEntry (entries : List (SymbolId × List ScopedBinding)) (r : Reified) (sym : SymbolId)
    (b : Binding) :
    (sym, b) ∈ (entries.foldl (a.reifyEntry ref) r).pairs ↔ (sym, b) ∈ r.pairs ∨
      sym ∉ r.seen ∧ (firstWinner ref sym entries).map (·.binding) = some b ∧ a.hidden b = false := by
  induction entries generalizing r with
  | nil => simp [firstWinner]
  | cons e es ih =>
    rw [foldl_cons, ih, reifyEntry]
    have hcons : firstWinner ref sym (e :: es) =
        (if e.1 = sym then winner ref e.2 else none).or (firstWinner ref sym es) := by
      rw [firstWinner, findSome?_cons]
      split <;> simp_all [firstWinner]
    rw [hcons]
    by_cases he : e.1 = sym
    · cases hw : winner ref e.2 <;> by_cases hseen : e.1 ∈ r.seen <;>
        by_cases hh : a.hidden b <;> simp_all <;> grind
    · cases winner ref e.2 <;> by_cases hseen : e.1 ∈ r.seen <;> simp [he, hseen]
      grind

theorem mem_reify (sym : SymbolId) (b : Binding) :
    (sym, b) ∈ (a.reify ref).pairs ↔
      (nearest ref sym a.scopes.reverse).map (·.2.binding) = some b ∧ a.hidden b = false := by
  rw [reify, ← foldl_flatMap, foldl_reifyEntry, firstWinner_flatMap]
  simp [Function.comp_def]

end Analyzer

/-! ## What `lookup` finds -/

variable {scope : Scope} {ref : List ScopeId} {sym : SymbolId}

theorem best_of_pick {w : ScopedBinding} (h : scope.pick ref sym = some w) (hv : visible scope ref w) :
    scope.best sym ref = some w := by
  obtain ⟨cs, hcs, hw⟩ := Option.bind_eq_some_iff.mp h
  rw [Scope.best, hcs]
  exact maxByKey_filter hw hv

theorem best_of_pick_none (h : scope.pick ref sym = none) : scope.best sym ref = none := by
  rw [Scope.best]
  cases hcs : scope.bindings.lookup sym with
  | none => rfl
  | some cs =>
    rw [Scope.pick, hcs] at h
    have hempty := maxByKey_eq_none.mp (h : winner ref cs = none)
    simp only [Option.bind_some, hempty, filter_nil, maxByKey]

theorem findInScopes_of_nearest {scopes : List Scope} {crossed : Bool} {w : ScopedBinding}
    (h : nearest ref sym scopes = some (scope, w)) (hv : visible scope ref w) :
    (findInScopes sym ref crossed scopes).map Prod.fst = some w.binding := by
  induction scopes generalizing crossed with
  | nil => simp [nearest] at h
  | cons s rest ih =>
    rw [nearest_cons] at h
    rw [findInScopes]
    cases hp : s.pick ref sym with
    | none =>
      rw [best_of_pick_none hp]
      exact ih (by simpa [hp] using h)
    | some v =>
      obtain ⟨rfl, rfl⟩ : s = scope ∧ v = w := by simpa [hp] using h
      rw [best_of_pick hp hv]
      rfl

theorem findInScopes_of_nearest_none {scopes : List Scope} {crossed : Bool}
    (h : nearest ref sym scopes = none) : findInScopes sym ref crossed scopes = none := by
  induction scopes generalizing crossed with
  | nil => rfl
  | cons s rest ih =>
    rw [nearest_cons] at h
    rw [findInScopes]
    cases hp : s.pick ref sym with
    | none =>
      rw [best_of_pick_none hp]
      exact ih (by simpa [hp] using h)
    | some v => simp [hp] at h

theorem Analyzer.lookup_fst (a : Analyzer) (sym : SymbolId) (ref : List ScopeId) :
    (a.lookup sym ref).1 = ((findInScopes sym ref false a.scopes.reverse).map Prod.fst).or
      ((a.parentCapture sym).map (·.1.binding)) := by
  rw [lookup]
  rcases findInScopes sym ref false a.scopes.reverse with _ | ⟨b, _ | _⟩
  · cases a.parentCapture sym <;> rfl
  · rfl
  · dsimp only
    split
    · rfl
    · split <;> rfl

/-! ## Where the two agree -/

/-- The call pairs the quoted symbol with a reference to the binding. -/
inductive Hir.Pairs (sym : SymbolId) (b : Binding) : List (Hir × Bool) → Prop
  | here {rest} : Pairs sym b ((.quote sym, false) :: (.var b, false) :: rest)
  | later {k v rest} : Pairs sym b rest → Pairs sym b (k :: v :: rest)

theorem pairs_structArgs {b : Binding} {pairs : List (SymbolId × Binding)} :
    Hir.Pairs sym b (structArgs pairs) ↔ (sym, b) ∈ pairs := by
  induction pairs with
  | nil => exact ⟨fun h => (nomatch h), fun h => (nomatch h)⟩
  | cons p rest ih =>
    have hcons : structArgs (p :: rest) = (.quote p.1, false) :: (.var p.2, false) :: structArgs rest := rfl
    rw [hcons, mem_cons, ← ih]
    constructor
    · intro h
      cases h with
      | here => exact .inl rfl
      | later h => exact .inr h
    · rintro (rfl | h)
      · exact .here
      · exact .later h

/-- The result is the struct call, and `sym` is paired with `b` in it. -/
def Reifies (result : Except String Hir) (sym : SymbolId) (b : Binding) : Prop :=
  ∃ func args, result = .ok (.call func args false) ∧ Hir.Pairs sym b args

theorem Analyzer.reifies_iff (a : Analyzer) (ref : List ScopeId) (span : String) (sym : SymbolId) (b : Binding) :
    Reifies (a.analyzeEnvironment [ref] span) sym b ↔
      (nearest ref sym a.scopes.reverse).map (·.2.binding) = some b ∧ a.hidden b = false := by
  rw [← a.mem_reify, ← pairs_structArgs]
  constructor
  · rintro ⟨func, args, hok, h⟩
    obtain ⟨rfl, rfl⟩ : _ ∧ _ := by simpa [analyzeEnvironment] using hok
    exact h
  · exact fun h => ⟨_, _, rfl, h⟩

/-- The nearest winner passes the intro-scope rule, or the rule changes nothing: `lookup` comes to
the same binding elsewhere, or both bindings are left out. A symbol of no frame has no parent
capture that the form would have to show. -/
def Agrees (a : Analyzer) (ref : List ScopeId) (sym : SymbolId) : Prop :=
  match nearest ref sym a.scopes.reverse with
  | some (scope, w) =>
    visible scope ref w ∨ (a.lookup sym ref).1 = some w.binding ∨
      a.hidden w.binding ∧ ∀ b ∈ (a.lookup sym ref).1, a.hidden b
  | none => ∀ cap ∈ a.parentCapture sym, a.hidden cap.1.binding

/-- `(let [x 1] (m))` where the macro `m` expands to `(environment)`: the form's head carries the
expansion's intro scope, the frame of the `let` does not. -/
def macroEnvironment : Analyzer where
  scopes := [⟨[(0, [⟨[], 0⟩])], false, false, [], by decide⟩]
  arena := fun _ => ⟨0, false, true, false⟩
  primitiveValues := []
  structBinding := 1
  currentInitBinding := none
  currentInitBindingDepth := 0
  fnDepth := 0
  currentCaptures := []
  parentCaptures := []

end Elle.Environment

import Elle.Match.Reachable

/-!
# The match checker

The two checks an analysed `match` has to pass: `unreachableArms` (`hir/decision/mod.rs`) and
`firstDeadAlternative` (`hir/decision/redundancy.rs`), which probes every alternative of every
or-pattern by compiling a matrix with the arm pinned to that alternative below all that shadows it.
-/

namespace Elle.Match

open Choices List

variable {F : Type}
variable {p new child : HirPattern F} {es : List (PatternKey × HirPattern F)}
  {rest : Option (HirPattern F)} {step : Nat} {path : List Nat}

/-! ### Pinning an alternative -/

/-- The shared splice rule: positional children first, then the rest. -/
def splice (es : List (HirPattern F)) (rest : Option (HirPattern F)) (index : Nat)
    (new : HirPattern F) : List (HirPattern F) × Option (HirPattern F) :=
  if index < es.length then (es.set index new, rest) else (es, some new)

def spliceEntries (es : List (PatternKey × HirPattern F)) (rest : Option (HirPattern F))
    (index : Nat) (new : HirPattern F) :
    List (PatternKey × HirPattern F) × Option (HirPattern F) :=
  if index < es.length then (es.modify index fun e => (e.1, new), rest) else (es, some new)

/-- The pattern with one child replaced. A leaf has no child, and `pin` never rebuilds an
or-pattern. -/
def withChild (p : HirPattern F) (index : Nat) (new : HirPattern F) : HirPattern F :=
  match p with
  | .pair head tail => if index = 0 then .pair new tail else .pair head new
  | .list es rest => .list (splice es rest index new).1 (splice es rest index new).2
  | .tuple es rest => .tuple (splice es rest index new).1 (splice es rest index new).2
  | .array es rest => .array (splice es rest index new).1 (splice es rest index new).2
  | .struct es rest =>
    .struct (spliceEntries es rest index new).1 (spliceEntries es rest index new).2
  | .table es rest =>
    .table (spliceEntries es rest index new).1 (spliceEntries es rest index new).2
  | .set _ => .set new
  | .setMut _ => .setMut new
  | p => p

/-- The pattern with the or-node at a path, and every or-node on the way, collapsed to one
alternative. -/
def pin : HirPattern F → List Nat → Nat → HirPattern F
  | .or alts, [], alternative => alts.getD alternative .wildcard
  | .or alts, step :: path, alternative => pin (alts.getD step .wildcard) path alternative
  | p, [], _ => p
  | p, step :: path, alternative =>
    withChild p step (pin ((children p).getD step .wildcard) path alternative)

mutual

/-- The or-nodes of a pattern in pre-order, each with its number of alternatives. -/
def enumerateOrNodes : HirPattern F → List (List Nat × Nat)
  | .wildcard | .nil | .literal _ | .var _ => []
  | .pair head tail =>
    (enumerateOrNodes head).map (fun n => (0 :: n.1, n.2)) ++
      (enumerateOrNodes tail).map fun n => (1 :: n.1, n.2)
  | .list es rest | .tuple es rest | .array es rest =>
    enumerateChildren es 0 ++ enumerateRest rest es.length
  | .struct es rest | .table es rest => enumerateEntries es 0 ++ enumerateRest rest es.length
  | .set p | .setMut p => (enumerateOrNodes p).map fun n => (0 :: n.1, n.2)
  | .or alts => ([], alts.length) :: enumerateChildren alts 0

def enumerateChildren : List (HirPattern F) → Nat → List (List Nat × Nat)
  | [], _ => []
  | p :: ps, i =>
    (enumerateOrNodes p).map (fun n => (i :: n.1, n.2)) ++ enumerateChildren ps (i + 1)

def enumerateEntries : List (PatternKey × HirPattern F) → Nat → List (List Nat × Nat)
  | [], _ => []
  | (_, p) :: es, i =>
    (enumerateOrNodes p).map (fun n => (i :: n.1, n.2)) ++ enumerateEntries es (i + 1)

def enumerateRest : Option (HirPattern F) → Nat → List (List Nat × Nat)
  | none, _ => []
  | some p, i => (enumerateOrNodes p).map fun n => (i :: n.1, n.2)

end

/-- The pattern pinned to the earlier alternatives of every or-node a path steps through; `node` is
the sub-pattern the steps `done` lead to. -/
def ancestorPins (pattern : HirPattern F) :
    HirPattern F → List Nat → List Nat → List (HirPattern F)
  | _, _, [] => []
  | .or alts, done, step :: path =>
    (List.range step).map (pin pattern done) ++
      ancestorPins pattern (alts.getD step .wildcard) (done ++ [step]) path
  | node, done, step :: path =>
    ancestorPins pattern ((children node).getD step .wildcard) (done ++ [step]) path

def pushRows (patterns : List (HirPattern F)) (hasGuard : Bool) (arm : Nat) : List (PatternRow F) :=
  patterns.flatMap fun p => (expandOrPattern p).map (PatternRow.new · hasGuard arm)

section

variable [Float64 F]

/-- The probes of one or-node: the first alternative whose rows the compiled tree does not reach.
The rows of an alternative stay for the next probe. -/
def probeAlternatives (narms : Nat) (pattern : HirPattern F) (hasGuard : Bool) (path : List Nat) :
    List (PatternRow F) → List Nat → Option Nat
  | _, [] => none
  | rows, alt :: alts =>
    let rows := rows ++ pushRows [pin pattern path alt] hasGuard (narms + alt)
    if narms + alt ∈ (compile rows [.root]).reachableArms then
      probeAlternatives narms pattern hasGuard path rows alts
    else some alt

/-- The first dead alternative, with the path of its or-node. -/
def firstDeadProbe (arms : List (Arm F)) : Option (Nat × List Nat × Nat) :=
  arms.zipIdx.findSome? fun (arm, i) =>
    (enumerateOrNodes arm.pattern).findSome? fun (path, nalts) =>
      (probeAlternatives arms.length arm.pattern arm.hasGuard path
        (fromArms 0 (arms.take i) ++
          pushRows (ancestorPins arm.pattern arm.pattern [] path) arm.hasGuard i)
        (List.range nalts)).map fun alt => (i, path, alt)

/-- `first_dead_alternative`: the arm and the number of the alternative. -/
def firstDeadAlternative (arms : List (Arm F)) : Option (Nat × Nat) :=
  (firstDeadProbe arms).map fun probe => (probe.1, probe.2.2)

end

/-! ### Pinning keeps a pattern plain -/

def HasPath : HirPattern F → List Nat → Prop
  | _, [] => True
  | p, step :: path => ∃ child, (children p)[step]? = some child ∧ HasPath child path

theorem isWildcard_pin (hp : isWildcard p) (path : List Nat) (alt : Nat) :
    isWildcard (pin p path alt) := by
  rcases eq_of_isWildcard hp with rfl | ⟨b, rfl⟩ <;> cases path <;> rfl

theorem plain_mem_expand {alt : HirPattern F} (hp : plain false p) (halt : alt ∈ expandOrPattern p) :
    plain false alt := by
  cases p with
  | or alts =>
    rw [plain, Bool.and_eq_true, plainAlternatives_iff] at hp
    have key : ∀ qs : List (HirPattern F), (∀ q ∈ qs, q ∈ alts) → alt ∈ expandAlternatives qs →
        plain false alt := by
      intro qs hqs hin
      induction qs with
      | nil => cases hin
      | cons q qs ih =>
        obtain ⟨hctor, -, hplain⟩ := hp.2 q (hqs q mem_cons_self)
        rcases List.mem_append.1 hin with hin | hin
        · -- an alternative with a constructor is no or-pattern itself
          cases q <;> first | exact List.mem_singleton.1 hin ▸ hplain | cases hctor
        · exact ih (fun r hr => hqs r (mem_cons_of_mem _ hr)) hin
    exact key alts (fun q hq => hq) halt
  | _ => exact List.mem_singleton.1 halt ▸ hp

theorem plain_splice {es : List (HirPattern F)} {index : Nat} (hes : ∀ p ∈ es, plain false p)
    (hrest : plainRest false rest) (hnew : plain false new) :
    (∀ p ∈ (splice es rest index new).1, plain false p) ∧
      plainRest false (splice es rest index new).2 := by
  unfold splice
  split
  · refine ⟨fun p hp => ?_, hrest⟩
    rcases mem_or_eq_of_mem_set hp with hp | rfl
    · exact hes p hp
    · exact hnew
  · exact ⟨hes, hnew⟩

theorem keys_modify (es : List (PatternKey × HirPattern F)) (index : Nat) (new : HirPattern F) :
    (es.modify index fun e => (e.1, new)).map (·.1) = es.map (·.1) := by
  induction es generalizing index with
  | nil => simp
  | cons e es ih => cases index <;> simp [ih]

theorem plain_modify (hes : ∀ e ∈ es, plain false e.2) (index : Nat) (hnew : plain false new) :
    ∀ e ∈ es.modify index fun e => (e.1, new), plain false e.2 := by
  intro e he
  obtain ⟨j, hj⟩ := mem_iff_getElem?.1 he
  rw [getElem?_modify] at hj
  obtain ⟨e', he', rfl⟩ := Option.map_eq_some_iff.1 hj
  split
  · exact hnew
  · exact hes e' (mem_of_getElem? he')

/-- The keyed patterns: the keys stay, and a rest that matches anything is never replaced by one
that does not. -/
theorem plain_spliceEntries {index : Nat}
    (hp : (decide (es.map (·.1)).Nodup && plainEntries false es && irrefutableRest rest))
    (hnew : plain false new) (hrest : es.length ≤ index → isWildcard new) :
    (decide ((spliceEntries es rest index new).1.map (·.1)).Nodup &&
      plainEntries false (spliceEntries es rest index new).1 &&
      irrefutableRest (spliceEntries es rest index new).2) := by
  simp only [Bool.and_eq_true, decide_eq_true_eq, plainEntries_iff] at hp ⊢
  unfold spliceEntries
  split
  · exact ⟨⟨(keys_modify es index new).symm ▸ hp.1.1, plain_modify hp.1.2 index hnew⟩, hp.2⟩
  · next h => exact ⟨hp.1, hrest (Nat.le_of_not_lt h)⟩

theorem plain_mem_elements {es : List (HirPattern F)}
    (hp : (plainAll false es && plainRest false rest)) (hin : child ∈ es ++ rest.toList) :
    plain false child := by
  rw [Bool.and_eq_true, plainAll_iff] at hp
  rcases List.mem_append.1 hin with hin | hin
  · exact hp.1 child hin
  · rw [Option.mem_toList] at hin
    cases hin
    exact hp.2

theorem plain_mem_entries
    (hp : (decide (es.map (·.1)).Nodup && plainEntries false es && irrefutableRest rest))
    (hin : child ∈ es.map (·.2) ++ rest.toList) : plain false child := by
  simp only [Bool.and_eq_true, plainEntries_iff] at hp
  rcases List.mem_append.1 hin with hin | hin
  · obtain ⟨e, he, rfl⟩ := List.mem_map.1 hin
    exact hp.1.2 e he
  · rw [Option.mem_toList] at hin
    cases hin
    rcases eq_of_isWildcard hp.2 with rfl | ⟨b, rfl⟩ <;> rfl

theorem plain_child (hp : plain false p) (hchild : (children p)[step]? = some child) :
    plain false child := by
  have hin := mem_of_getElem? hchild
  cases p with
  | wildcard => cases hin
  | nil => cases hin
  | literal lit => cases hin
  | var b => cases hin
  | pair head tail =>
    rw [plain, Bool.and_eq_true] at hp
    rcases List.mem_pair.1 hin with rfl | rfl
    · exact hp.1
    · exact hp.2
  | set p | setMut p => exact List.mem_singleton.1 hin ▸ hp
  | or alts =>
    rw [plain, Bool.and_eq_true, plainAlternatives_iff] at hp
    exact (hp.2 child hin).2.2
  | list es rest =>
    rw [plain, Bool.and_assoc, Bool.and_eq_true] at hp
    exact plain_mem_elements hp.2 hin
  | tuple es rest | array es rest => exact plain_mem_elements hp hin
  | struct es rest | table es rest => exact plain_mem_entries hp hin

theorem isWildcard_rest
    (hp : (decide (es.map (·.1)).Nodup && plainEntries false es && irrefutableRest rest))
    (hchild : (es.map (·.2) ++ rest.toList)[step]? = some child) (hstep : es.length ≤ step) :
    isWildcard child := by
  rw [Bool.and_eq_true] at hp
  rw [getElem?_append_right (by rwa [length_map])] at hchild
  have hin := mem_of_getElem? hchild
  rw [Option.mem_toList] at hin
  cases hin
  exact hp.2

theorem plain_withChild (hp : plain false p) (hchild : (children p)[step]? = some child)
    (hnew : plain false new) (hrest : isWildcard child → isWildcard new) :
    plain false (withChild p step new) := by
  have helements : ∀ {es : List (HirPattern F)} {rest : Option (HirPattern F)},
      (plainAll false es && plainRest false rest) →
      (plainAll false (splice es rest step new).1 &&
        plainRest false (splice es rest step new).2) := by
    intro es rest h
    rw [Bool.and_eq_true, plainAll_iff] at h ⊢
    exact plain_splice h.1 h.2 hnew
  cases p with
  | wildcard => exact hp
  | nil => exact hp
  | literal lit => exact hp
  | var b => exact hp
  | or alts => exact hp
  | set p => exact hnew
  | setMut p => exact hnew
  | pair head tail =>
    rw [plain, Bool.and_eq_true] at hp
    rw [withChild]
    split
    · rw [plain, hnew, hp.2]; rfl
    · rw [plain, hnew, hp.1]; rfl
  | tuple es rest => exact helements hp
  | array es rest => exact helements hp
  | list es rest =>
    rw [plain, Bool.and_assoc, Bool.and_eq_true] at hp
    rw [withChild, plain, Bool.and_assoc, helements hp.2, Bool.and_true]
    -- a list that has a child to replace is not empty, or has a rest and so an element
    unfold splice
    split
    · simpa using hp.1
    · next h =>
      cases es with
      | nil => cases rest <;> simp_all [children]
      | cons e es => rfl
  | struct es rest | table es rest =>
    exact plain_spliceEntries hp hnew fun h => hrest (isWildcard_rest hp hchild h)

/-- Every part of a plain pattern is plain, so is what is left after collapsing or-patterns. -/
theorem plain_pin {alt : Nat} : ∀ {p : HirPattern F}, plain false p →
    HasPath p path → plain false (pin p path alt) := by
  induction path with
  | nil =>
    intro p hp _
    cases p with
    | or alts =>
      rw [pin, getD_eq_getElem?_getD]
      cases halt : alts[alt]? with
      | none => rfl
      | some child => exact plain_child hp halt
    | _ => exact hp
  | cons step path ih =>
    rintro p hp ⟨child, hchild, hpath⟩
    have hnew := ih (plain_child hp hchild) hpath
    have hget : (children p).getD step .wildcard = child := by
      rw [getD_eq_getElem?_getD, hchild, Option.getD_some]
    cases p with
    | or alts => rw [pin, show alts.getD step .wildcard = child from hget]; exact hnew
    | _ =>
      show plain false (withChild _ step (pin ((children _).getD step .wildcard) path alt)) = true
      rw [hget]
      exact plain_withChild hp hchild hnew fun h => isWildcard_pin h path alt

/-- The patterns of an arm, its top or-pattern expanded, are plain up to what they bind. -/
def ArmPlain (p : HirPattern F) : Prop :=
  ∀ alt ∈ expandOrPattern p, plain false alt

theorem expand_subset {alts : List (HirPattern F)} {alt : HirPattern F} (hp : p ∈ alts)
    (halt : alt ∈ expandOrPattern p) : alt ∈ expandAlternatives alts := by
  induction alts with
  | nil => cases hp
  | cons q alts ih =>
    rcases List.mem_cons.1 hp with rfl | hp
    · exact mem_append_left _ halt
    · exact mem_append_right _ (ih hp)

theorem ArmPlain.pin {alt : Nat} : ∀ {p : HirPattern F}, ArmPlain p →
    HasPath p path → ArmPlain (pin p path alt) := by
  induction path with
  | nil =>
    intro p hp hpath
    cases p with
    | or alts =>
      rw [Match.pin, getD_eq_getElem?_getD]
      cases halt : alts[alt]? with
      | none => exact fun q hq => List.mem_singleton.1 hq ▸ rfl
      | some child => exact fun q hq => hp q (expand_subset (mem_of_getElem? halt) hq)
    | _ => exact fun q hq => plain_mem_expand (plain_pin (hp _ mem_cons_self) hpath) hq
  | cons step path ih =>
    intro p hp hpath
    cases p with
    | or alts =>
      obtain ⟨child, hchild, hpath⟩ := hpath
      have hget : alts.getD step .wildcard = child := by
        rw [getD_eq_getElem?_getD, show alts[step]? = some child from hchild, Option.getD_some]
      rw [Match.pin, hget]
      exact ih (fun q hq => hp q (expand_subset (mem_of_getElem? hchild) hq)) hpath
    | _ => exact fun q hq => plain_mem_expand (plain_pin (hp _ mem_cons_self) hpath) hq

theorem HasPath.of_append {post : List Nat} : ∀ {p : HirPattern F}, HasPath p (path ++ post) →
    HasPath p path := by
  induction path with
  | nil => exact fun _ => trivial
  | cons step path ih => exact fun ⟨child, hchild, h⟩ => ⟨child, hchild, ih h⟩

theorem mem_ancestorPins {pattern q : HirPattern F} :
    ∀ {node : HirPattern F} {done : List Nat}, q ∈ ancestorPins pattern node done path →
      ∃ pre post j, path = pre ++ post ∧ q = pin pattern (done ++ pre) j := by
  induction path with
  | nil => intro node done h; cases node <;> cases h
  | cons step path ih =>
    intro node done h
    have hrec : ∀ {child : HirPattern F}, q ∈ ancestorPins pattern child (done ++ [step]) path →
        ∃ pre post j, step :: path = pre ++ post ∧ q = pin pattern (done ++ pre) j := by
      intro child h
      obtain ⟨pre, post, j, rfl, rfl⟩ := ih h
      exact ⟨step :: pre, post, j, rfl, by rw [append_assoc, singleton_append]⟩
    cases node with
    | or alts =>
      rcases List.mem_append.1 h with h | h
      · obtain ⟨j, -, rfl⟩ := List.mem_map.1 h
        exact ⟨[], step :: path, j, rfl, by rw [append_nil]⟩
      · exact hrec h
    | _ => exact hrec h

theorem hasPath_of_children {ps : List (HirPattern F)} (hp : children p = ps ++ rest.toList)
    (h : (∃ j child sub, path = (0 + j) :: sub ∧ ps[j]? = some child ∧ HasPath child sub) ∨ ∃ child sub, path = ps.length :: sub ∧ rest = some child ∧ HasPath child sub) :
    HasPath p path := by
  rcases h with ⟨j, child, sub, rfl, hj, hsub⟩ | ⟨child, sub, rfl, rfl, hsub⟩
  · refine ⟨child, ?_, hsub⟩
    rw [hp, Nat.zero_add, getElem?_append_left (List.getElem?_eq_some_iff.1 hj).1, hj]
  · refine ⟨child, ?_, hsub⟩
    rw [hp, getElem?_append_right (Nat.le_refl _), Nat.sub_self]
    rfl

mutual

theorem hasPath_of_mem : ∀ {p : HirPattern F} {n : List Nat × Nat}, n ∈ enumerateOrNodes p →
    HasPath p n.1
  | .wildcard, _, h => by cases h
  | .nil, _, h => by cases h
  | .literal _, _, h => by cases h
  | .var _, _, h => by cases h
  | .pair head tail, _, h => by
    rcases List.mem_append.1 h with h | h <;> obtain ⟨m, hm, rfl⟩ := List.mem_map.1 h
    · exact ⟨head, rfl, hasPath_of_mem hm⟩
    · exact ⟨tail, rfl, hasPath_of_mem hm⟩
  | .set p, _, h | .setMut p, _, h => by
    obtain ⟨m, hm, rfl⟩ := List.mem_map.1 h
    exact ⟨p, rfl, hasPath_of_mem hm⟩
  | .or alts, n, h => by
    rw [enumerateOrNodes] at h
    rcases List.mem_cons.1 h with rfl | h
    · trivial
    · obtain ⟨j, child, path, hn, hj, hpath⟩ := hasPath_of_mem_children h
      rw [hn, Nat.zero_add]
      exact ⟨child, hj, hpath⟩
  | .list _ _, _, h | .tuple _ _, _, h | .array _ _, _, h => hasPath_of_children rfl <|
    (List.mem_append.1 h).imp hasPath_of_mem_children hasPath_of_mem_rest
  | .struct es _, _, h | .table es _, _, h => hasPath_of_children rfl <|
    (List.mem_append.1 h).imp hasPath_of_mem_entries
      fun h => by rw [length_map]; exact hasPath_of_mem_rest h

theorem hasPath_of_mem_children : ∀ {ps : List (HirPattern F)} {i : Nat} {n : List Nat × Nat},
    n ∈ enumerateChildren ps i → ∃ j child path, n.1 = (i + j) :: path ∧ ps[j]? = some child ∧
      HasPath child path
  | [], _, _, h => by cases h
  | p :: ps, i, n, h => by
    rw [enumerateChildren] at h
    rcases List.mem_append.1 h with h | h
    · obtain ⟨m, hm, rfl⟩ := List.mem_map.1 h
      exact ⟨0, p, m.1, rfl, rfl, hasPath_of_mem hm⟩
    · obtain ⟨j, child, path, hn, hj, hpath⟩ := hasPath_of_mem_children h
      exact ⟨j + 1, child, path, by rw [hn, Nat.add_right_comm, Nat.add_assoc], hj, hpath⟩

theorem hasPath_of_mem_entries : ∀ {es : List (PatternKey × HirPattern F)} {i : Nat}
    {n : List Nat × Nat}, n ∈ enumerateEntries es i →
      ∃ j child path, n.1 = (i + j) :: path ∧ (es.map (·.2))[j]? = some child ∧ HasPath child path
  | [], _, _, h => by cases h
  | (_, p) :: es, i, n, h => by
    rw [enumerateEntries] at h
    rcases List.mem_append.1 h with h | h
    · obtain ⟨m, hm, rfl⟩ := List.mem_map.1 h
      exact ⟨0, p, m.1, rfl, rfl, hasPath_of_mem hm⟩
    · obtain ⟨j, child, path, hn, hj, hpath⟩ := hasPath_of_mem_entries h
      exact ⟨j + 1, child, path, by rw [hn, Nat.add_right_comm, Nat.add_assoc], hj, hpath⟩

theorem hasPath_of_mem_rest : ∀ {rest : Option (HirPattern F)} {i : Nat} {n : List Nat × Nat},
    n ∈ enumerateRest rest i → ∃ child path, n.1 = i :: path ∧ rest = some child ∧ HasPath child path
  | none, _, _, h => by cases h
  | some p, _, _, h => by
    obtain ⟨m, hm, rfl⟩ := List.mem_map.1 h
    exact ⟨p, m.1, rfl, rfl, hasPath_of_mem hm⟩

end

/-! ### What the checker rejects -/

section

variable [Float64 F]
variable {alt arm : Nat} {hasGuard : Bool} {v : Value F} {arms : List (Arm F)} {path : List Nat}

def Matches (p : HirPattern F) (v : Value F) : Prop :=
  (lowerPatternMatch p v).isSome

instance (p : HirPattern F) (v : Value F) : Decidable (Matches p v) :=
  inferInstanceAs (Decidable ((lowerPatternMatch p v).isSome))

theorem ways_new_ne_nil {alt : HirPattern F} :
    (PatternRow.new alt hasGuard arm).ways v [v] ≠ [] ↔ Matches alt v := by
  rw [ways_new, Matches, lowerPatternMatch_eq_head?]
  cases alt.shape.choices v <;> simp

mutual

theorem matches_expand : ∀ (p : HirPattern F) (v : Value F),
    Matches p v ↔ ∃ alt ∈ expandOrPattern p, Matches alt v
  | .or alts, v => matches_expandAlternatives alts v
  | .wildcard, _ | .nil, _ | .literal _, _ | .var _, _ | .pair .., _ | .list .., _ | .tuple .., _
  | .array .., _ | .struct .., _ | .table .., _ | .set _, _ | .setMut _, _ => by
    simp [expandOrPattern]

theorem matches_expandAlternatives : ∀ (alts : List (HirPattern F)) (v : Value F),
    (lowerAlternatives alts v).isSome ↔ ∃ alt ∈ expandAlternatives alts, Matches alt v
  | [], _ => by simp [lowerAlternatives, expandAlternatives]
  | p :: ps, v => by
    have hp := matches_expand p v
    have hps := matches_expandAlternatives ps v
    simp only [expandAlternatives, mem_append, or_and_right, exists_or, ← hp, ← hps]
    rw [lowerAlternatives, Matches]
    cases lowerPatternMatch p v <;> simp

end

/-- Rows with plain patterns for one value, among them a match that no unguarded row of another arm
comes before: the tree has its arm. -/
theorem mem_reachableArms_compile {pre post : List (PatternRow F)} {alts : List (HirPattern F)}
    (hrows : ∀ row ∈ pre ++ (alts.map (PatternRow.new · hasGuard arm) ++ post), ∃ p g j, row = PatternRow.new p g j ∧ plain false p)
    (hpre : ∀ row ∈ pre, row.ways v [v] ≠ [] → row.hasGuard) (halts : ∃ alt ∈ alts, Matches alt v) :
    arm ∈ (compile (pre ++ (alts.map (PatternRow.new · hasGuard arm) ++ post)) [.root]).reachableArms := by
  obtain ⟨alt, halt, hmatch⟩ := halts
  obtain ⟨before, after, rfl⟩ := append_of_mem halt
  refine mem_reachableArms _ _ _ [v] ⟨.cons rfl .nil, ?_, ?_, ?_⟩ ?_ (Nat.lt_succ_self _)
  · intro row hrow
    obtain ⟨p, g, j, rfl, -⟩ := hrows row hrow
    rfl
  · intro row hrow p hp
    obtain ⟨q, g, j, rfl, hq⟩ := hrows row hrow
    exact List.mem_singleton.1 hp ▸ hq
  · intro row hrow
    obtain ⟨p, g, j, rfl, -⟩ := hrows row hrow
    exact ⟨[], rfl⟩
  · refine ⟨pre ++ before.map (PatternRow.new · hasGuard arm), PatternRow.new alt hasGuard arm,
      after.map (PatternRow.new · hasGuard arm) ++ post, by simp, rfl, ways_new_ne_nil.2 hmatch, ?_⟩
    intro row hrow hways
    rcases List.mem_append.1 hrow with hrow | hrow
    · exact .inl (hpre row hrow hways)
    · obtain ⟨p, -, rfl⟩ := List.mem_map.1 hrow
      exact .inr rfl

omit [Float64 F] in
theorem fromArms_append (i : Nat) (arms arms' : List (Arm F)) :
    fromArms i (arms ++ arms') = fromArms i arms ++ fromArms (i + arms.length) arms' := by
  induction arms generalizing i with
  | nil => rfl
  | cons arm arms ih =>
    rw [cons_append, fromArms, fromArms, ih, append_assoc, length_cons, Nat.add_right_comm, Nat.add_assoc]

theorem hasGuard_of_fromArms {i : Nat} (h : ∀ arm ∈ arms, Matches arm.pattern v → arm.hasGuard) :
    ∀ row ∈ fromArms i arms, row.ways v [v] ≠ [] → row.hasGuard := by
  intro row hrow hways
  obtain ⟨arm, harm, alt, halt, j, rfl⟩ := mem_fromArms hrow
  exact h arm harm ((matches_expand _ _).2 ⟨alt, halt, ways_new_ne_nil.1 hways⟩)

theorem runAlternatives_eq_arm {oracle : Oracle F} {i j : Nat} {next : Next F} {alts : List (HirPattern F)}
    {trials : List (Trial F)} (h : (runAlternatives oracle i hasGuard v next alts trials).1 = .arm j) :
    (j = i ∧ ∃ alt ∈ alts, Matches alt v) ∨
      ((∀ alt ∈ alts, Matches alt v → hasGuard) ∧ ∃ trials', (next trials').1 = .arm j) := by
  induction alts generalizing trials with
  | nil => exact .inr ⟨by simp, trials, h⟩
  | cons alt alts ih =>
    have hlater : ∀ {trials}, (Matches alt v → hasGuard) →
        (runAlternatives oracle i hasGuard v next alts trials).1 = .arm j →
        (j = i ∧ ∃ q ∈ alt :: alts, Matches q v) ∨
          ((∀ q ∈ alt :: alts, Matches q v → hasGuard) ∧ ∃ trials', (next trials').1 = .arm j) := by
      intro trials hguard h
      rcases ih h with ⟨rfl, q, hq, hmatch⟩ | ⟨hall, hnext⟩
      · exact .inl ⟨rfl, q, mem_cons_of_mem _ hq, hmatch⟩
      · exact .inr ⟨List.forall_mem_cons.2 ⟨hguard, hall⟩, hnext⟩
    rw [runAlternatives] at h
    cases hmatch : lowerPatternMatch alt v with
    | none =>
      rw [hmatch] at h
      exact hlater (fun hm => by rw [Matches, hmatch] at hm; cases hm) h
    | some stores =>
      have hm : Matches alt v := by rw [Matches, hmatch]; rfl
      rw [hmatch] at h
      dsimp only at h
      cases hasGuard with
      | false =>
        cases h
        exact .inl ⟨rfl, alt, mem_cons_self, hm⟩
      | true =>
        rw [if_pos rfl, runGuard] at h
        split at h
        · cases h
          exact .inl ⟨rfl, alt, mem_cons_self, hm⟩
        · exact hlater (fun _ => rfl) h

theorem lowerMatchSequential_eq_arm {oracle : Oracle F} {j : Nat} :
    ∀ {i : Nat} {arms : List (Arm F)} {trials : List (Trial F)},
      (lowerMatchSequential oracle v i arms trials).1 = .arm j →
      ∃ (pre : List (Arm F)) (arm : Arm F) (post : _), arms = pre ++ arm :: post ∧ j = i + pre.length ∧ Matches arm.pattern v ∧
        ∀ earlier ∈ pre, Matches earlier.pattern v → earlier.hasGuard := by
  intro i arms
  induction arms generalizing i with
  | nil => intro trials h; cases h
  | cons arm arms ih =>
    intro trials h
    rcases runAlternatives_eq_arm h with ⟨rfl, hmatch⟩ | ⟨hguard, trials', h⟩
    · exact ⟨[], arm, arms, rfl, rfl, (matches_expand _ _).2 hmatch, fun _ h => by cases h⟩
    · obtain ⟨pre, found, post, rfl, rfl, hmatch, hpre⟩ := ih h
      refine ⟨arm :: pre, found, post, rfl, by rw [length_cons]; omega, hmatch, ?_⟩
      refine List.forall_mem_cons.2 ⟨fun hm => ?_, hpre⟩
      obtain ⟨alt, halt, hm⟩ := (matches_expand _ _).1 hm
      exact hguard alt halt hm

/-- What a value has to get past to come to an alternative of an arm: the arm with the earlier
alternatives of the or-patterns around it, and of its own. -/
def shadows (p : HirPattern F) (path : List Nat) (alt : Nat) : List (HirPattern F) :=
  ancestorPins p p [] path ++ (List.range alt).map (pin p path)

/-- The value comes to the alternative `alt` of the or-pattern at `path` in arm `i` before an arm or
an alternative that matches it ends the search. A guarded arm tries its alternatives one after the
other, as its guard fails. -/
def AlternativeReached (arms : List (Arm F)) (i : Nat) (path : List Nat) (alt : Nat) (v : Value F) :
    Prop :=
  ∃ arm, arms[i]? = some arm ∧ Matches (pin arm.pattern path alt) v ∧
    (∀ earlier ∈ arms.take i, Matches earlier.pattern v → earlier.hasGuard) ∧
    (arm.hasGuard ∨ ∀ q ∈ shadows arm.pattern path alt, ¬ Matches q v)

theorem probeAlternatives_eq_some {narms : Nat} {p : HirPattern F} {alts : List Nat} :
    ∀ {rows : List (PatternRow F)},
      probeAlternatives narms p hasGuard path rows alts = some alt →
      ∃ before after, alts = before ++ alt :: after ∧
        narms + alt ∉ (compile (rows ++
          before.flatMap (fun a => pushRows [pin p path a] hasGuard (narms + a)) ++
            pushRows [pin p path alt] hasGuard (narms + alt)) [.root]).reachableArms := by
  induction alts with
  | nil => intro rows h; cases h
  | cons a alts ih =>
    intro rows h
    rw [probeAlternatives] at h
    split at h
    · obtain ⟨before, after, rfl, hdead⟩ := ih h
      exact ⟨a :: before, after, rfl, by rwa [flatMap_cons, ← append_assoc]⟩
    · next hdead =>
      cases h
      exact ⟨[], alts, rfl, by rwa [flatMap_nil, append_nil]⟩

section

omit [Float64 F]

theorem mem_pushRows {ps : List (HirPattern F)} {row : PatternRow F} :
    row ∈ pushRows ps hasGuard arm ↔ ∃ p ∈ ps, ∃ alt ∈ expandOrPattern p,
      PatternRow.new alt hasGuard arm = row := by
  rw [pushRows, mem_flatMap]
  exact exists_congr fun p => and_congr_right fun _ => mem_map

theorem armPlain_shadows {p q : HirPattern F} (hp : ArmPlain p) (hpath : HasPath p path)
    (hq : q ∈ shadows p path alt) : ArmPlain q := by
  rcases List.mem_append.1 hq with hq | hq
  · obtain ⟨pre, post, j, rfl, rfl⟩ := mem_ancestorPins hq
    exact hp.pin (HasPath.of_append hpath)
  · obtain ⟨j, -, rfl⟩ := List.mem_map.1 hq
    exact hp.pin hpath

/-- The rows a probe puts before the alternative under test come from earlier arms or from what
shadows the alternative. -/
theorem mem_probe_rows {arm : Arm F} {i narms n : Nat} {before after : List Nat}
    (hsplit : List.range n = before ++ alt :: after) {row : PatternRow F}
    (h : row ∈ fromArms 0 (arms.take i) ++ pushRows (ancestorPins arm.pattern arm.pattern [] path) arm.hasGuard i ++ before.flatMap fun a => pushRows [pin arm.pattern path a] arm.hasGuard (narms + a)) :
    row ∈ fromArms 0 (arms.take i) ∨ ∃ q ∈ shadows arm.pattern path alt,
      ∃ p ∈ expandOrPattern q, ∃ j, row = PatternRow.new p arm.hasGuard j := by
  have hlt : ∀ a ∈ before, a < alt := by
    intro a ha
    have hpair := pairwise_lt_range (n := n)
    rw [hsplit, pairwise_append] at hpair
    exact hpair.2.2 a ha alt mem_cons_self
  rcases List.mem_append.1 h with h | h
  · rcases List.mem_append.1 h with h | h
    · exact .inl h
    · obtain ⟨q, hq, p, hp, rfl⟩ := mem_pushRows.1 h
      exact .inr ⟨q, mem_append_left _ hq, p, hp, i, rfl⟩
  · obtain ⟨a, ha, h⟩ := List.mem_flatMap.1 h
    obtain ⟨q, hq, p, hp, rfl⟩ := mem_pushRows.1 h
    rw [mem_singleton] at hq
    subst hq
    exact .inr ⟨_, mem_append_right _ (List.mem_map.2 ⟨a, List.mem_range.2 (hlt a ha), rfl⟩), p, hp, _, rfl⟩

end

theorem not_reached_of_firstDeadProbe (hplain : ∀ arm ∈ arms, ArmPlain arm.pattern) {i : Nat}
    (h : firstDeadProbe arms = some (i, path, alt)) (v : Value F) :
    ¬ AlternativeReached arms i path alt v := by
  rintro ⟨arm, harm, hmatch, hearlier, hshadow⟩
  obtain ⟨⟨arm', i'⟩, hmem, h⟩ := exists_of_findSome?_eq_some h
  obtain ⟨⟨path', n⟩, hnode, h⟩ := exists_of_findSome?_eq_some h
  obtain ⟨alt', hprobe, heq⟩ := Option.map_eq_some_iff.1 h
  obtain ⟨rfl, rfl, rfl⟩ : i' = i ∧ path' = path ∧ alt' = alt := by simpa using heq
  obtain rfl : arm' = arm := by
    have := mem_zipIdx_iff_getElem?.1 hmem
    exact Option.some.inj (this.symm.trans harm)
  obtain ⟨before, after, hsplit, hdead⟩ := probeAlternatives_eq_some hprobe
  have hp := hplain arm' (mem_of_getElem? harm)
  have hpath := hasPath_of_mem hnode
  have hpush : pushRows [pin arm'.pattern path' alt'] arm'.hasGuard (arms.length + alt') =
      (expandOrPattern (pin arm'.pattern path' alt')).map
        (PatternRow.new · arm'.hasGuard (arms.length + alt')) ++ [] := by
    rw [pushRows, flatMap_singleton, append_nil]
  rw [hpush] at hdead
  refine hdead (mem_reachableArms_compile ?_ ?_ ((matches_expand _ _).1 hmatch))
  · intro row hrow
    rcases List.mem_append.1 hrow with hrow | hrow
    · rcases mem_probe_rows hsplit hrow with hrow | ⟨q, hq, p, hpin, j, rfl⟩
      · obtain ⟨earlier, hearlier, p, hpin, j, rfl⟩ := mem_fromArms hrow
        exact ⟨p, _, j, rfl, hplain earlier (mem_of_mem_take hearlier) p hpin⟩
      · exact ⟨p, _, j, rfl, armPlain_shadows hp hpath hq p hpin⟩
    · rw [append_nil] at hrow
      obtain ⟨p, hpin, rfl⟩ := List.mem_map.1 hrow
      exact ⟨p, _, _, rfl, hp.pin hpath p hpin⟩
  · intro row hrow hways
    rcases mem_probe_rows hsplit hrow with hrow | ⟨q, hq, p, hpin, j, rfl⟩
    · exact hasGuard_of_fromArms hearlier row hrow hways
    · rcases hshadow with hguard | hnone
      · exact hguard
      · exact absurd ((matches_expand _ _).2 ⟨p, hpin, ways_new_ne_nil.1 hways⟩) (hnone q hq)

end

/-- Patterns of integer literals: `((or 1 2) . x)` and `(_ . 3)`. -/
def alternativeArms : List (Arm Int) :=
  [⟨.pair (.or [.literal (.int 1), .literal (.int 2)]) (.var 0), false⟩,
    ⟨.pair .wildcard (.literal (.int 3)), false⟩]

/-- The arms `(1 . _)` and `((or 1 _) . _)`. -/
def nestedWildcardArms : List (Arm Int) :=
  [⟨.pair (.literal (.int 1)) .wildcard, false⟩,
    ⟨.pair (.or [.literal (.int 1), .wildcard]) .wildcard, false⟩]

end Elle.Match

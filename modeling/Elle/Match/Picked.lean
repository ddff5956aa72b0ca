import Elle.Match.Leaves

/-!
# The choice behind a leaf

`Picks` names the choice a leaf was reached for, a pattern without or-patterns, and the variables
the tree forgets on the way to it. A leaf loads exactly what sequential destructuring by the chosen
pattern stores when nothing was forgotten (`leaf_binds_iff`).
-/

namespace Elle.Match

open List

variable {F : Type}
variable {a : List Nat}

/-! ### Choosing alternatives -/

mutual

/-- The second pattern is the first with an alternative chosen at each or-pattern. The list names
the rest variables of keyed patterns that are alternatives themselves; the flag tells whether the
whole pattern is one. -/
inductive Picks : Bool → HirPattern F → HirPattern F → List Nat → Prop where
  | wildcard (nested : Bool) : Picks nested .wildcard .wildcard []
  | nil (nested : Bool) : Picks nested .nil .nil []
  | literal (nested : Bool) (lit : PatternLiteral F) : Picks nested (.literal lit) (.literal lit) []
  | var (nested : Bool) (b : Nat) : Picks nested (.var b) (.var b) []
  | pair (nested : Bool) {p q p' q' : HirPattern F} {a b : List Nat} (hp : Picks false p p' a)
      (hq : Picks false q q' b) : Picks nested (.pair p q) (.pair p' q') (a ++ b)
  | list (nested : Bool) {es es' : List (HirPattern F)} {rest rest' : Option (HirPattern F)}
      {a b : List Nat} (hes : PicksAll es es' a) (hrest : PicksRest rest rest' b) :
      Picks nested (.list es rest) (.list es' rest') (a ++ b)
  | tuple (nested : Bool) {es es' : List (HirPattern F)} {rest rest' : Option (HirPattern F)}
      {a b : List Nat} (hes : PicksAll es es' a) (hrest : PicksRest rest rest' b) :
      Picks nested (.tuple es rest) (.tuple es' rest') (a ++ b)
  | array (nested : Bool) {es es' : List (HirPattern F)} {rest rest' : Option (HirPattern F)}
      {a b : List Nat} (hes : PicksAll es es' a) (hrest : PicksRest rest rest' b) :
      Picks nested (.array es rest) (.array es' rest') (a ++ b)
  | struct (nested : Bool) {es es' : List (PatternKey × HirPattern F)}
      {rest : Option (HirPattern F)} {a : List Nat} (hes : PicksEntries es es' a) :
      Picks nested (.struct es rest) (.struct es' rest) (a ++ if nested then restNames rest else [])
  | table (nested : Bool) {es es' : List (PatternKey × HirPattern F)}
      {rest : Option (HirPattern F)} {a : List Nat} (hes : PicksEntries es es' a) :
      Picks nested (.table es rest) (.table es' rest) (a ++ if nested then restNames rest else [])
  | set (nested : Bool) {p p' : HirPattern F} {a : List Nat} (hp : Picks false p p' a) :
      Picks nested (.set p) (.set p') a
  | setMut (nested : Bool) {p p' : HirPattern F} {a : List Nat} (hp : Picks false p p' a) :
      Picks nested (.setMut p) (.setMut p') a
  | or (nested : Bool) {alts : List (HirPattern F)} {alt q : HirPattern F} {a : List Nat}
      (halt : alt ∈ alts) (h : Picks true alt q a) : Picks nested (.or alts) q a

inductive PicksAll : List (HirPattern F) → List (HirPattern F) → List Nat → Prop where
  | nil : PicksAll [] [] []
  | cons {p q : HirPattern F} {ps qs : List (HirPattern F)} {a b : List Nat}
      (hp : Picks false p q a) (hps : PicksAll ps qs b) : PicksAll (p :: ps) (q :: qs) (a ++ b)

inductive PicksRest : Option (HirPattern F) → Option (HirPattern F) → List Nat → Prop where
  | none : PicksRest none none []
  | some {p q : HirPattern F} {a : List Nat} (hp : Picks false p q a) :
      PicksRest (some p) (some q) a

inductive PicksEntries : List (PatternKey × HirPattern F) → List (PatternKey × HirPattern F) →
    List Nat → Prop where
  | nil : PicksEntries [] [] []
  | cons (k : PatternKey) {p q : HirPattern F} {es es' : List (PatternKey × HirPattern F)}
      {a b : List Nat} (hp : Picks false p q a) (hes : PicksEntries es es' b) :
      PicksEntries ((k, p) :: es) ((k, q) :: es') (a ++ b)

end

theorem PicksAll.length_eq {es es' : List (HirPattern F)} (h : PicksAll es es' a) :
    es'.length = es.length := by
  induction es generalizing es' a with
  | nil => cases h; rfl
  | cons p ps ih =>
    cases h with
    | cons _ hps => rw [length_cons, length_cons, ih hps]

theorem PicksEntries.keys_eq {es es' : List (PatternKey × HirPattern F)} (h : PicksEntries es es' a) :
    es'.map (·.1) = es.map (·.1) := by
  induction es generalizing es' a with
  | nil => cases h; rfl
  | cons e es ih =>
    cases h with
    | cons k _ hes => rw [map_cons, map_cons, ih hes]

theorem PicksRest.isSome_eq {rest rest' : Option (HirPattern F)} (h : PicksRest rest rest' a) :
    rest'.isSome = rest.isSome := by
  cases h <;> rfl

/-! ### From marks to a choice -/

def forgottenNames (ms : List (Mark F)) : List Nat := (ms.filter (·.2)).map (·.1.1)

@[simp] theorem forgottenNames_append (xs ys : List (Mark F)) :
    forgottenNames (xs ++ ys) = forgottenNames xs ++ forgottenNames ys := by
  simp [forgottenNames]

section

variable [Float64 F]
variable {nested : Bool} {v : Value F} {ms : List (Mark F)}

theorem ChildrenTake.append_inv {cs ds : List (Step × Shape F)} (h : ChildrenTake nested (cs ++ ds) v ms) :
    ∃ m₁ m₂, ms = m₁ ++ m₂ ∧ ChildrenTake nested cs v m₁ ∧ ChildrenTake nested ds v m₂ := by
  induction cs generalizing ms with
  | nil => exact ⟨[], ms, rfl, .nil .., h⟩
  | cons c cs ih =>
    cases h with
    | cons hread hq hcs =>
      obtain ⟨m₁, m₂, rfl, h₁, h₂⟩ := ih hcs
      exact ⟨_, m₂, (append_assoc ..).symm, .cons hread hq h₁, h₂⟩

theorem ChildrenTake.single_inv {s : Step} {q : Shape F} (hs : ∀ ms : List (Mark F), s.mark nested ms = ms)
    (h : ChildrenTake nested [(s, q)] v ms) : ∃ u, s.read v = some u ∧ q.Takes false u ms := by
  cases h with
  | cons hread hq hnil =>
    cases hnil
    rw [hs, append_nil]
    exact ⟨_, hread, hq⟩

/-- Some choice of alternatives in the pattern stores what is marked, and forgets what is marked
so. -/
def Chosen (nested : Bool) (p : HirPattern F) (v : Value F) (ms : List (Mark F)) : Prop :=
  ∃ q, Picks nested p q (forgottenNames ms) ∧ lowerPatternMatch q v = some (ms.map (·.1))

theorem lowerStructRest_of_takes {rest : Option (HirPattern F)} (hrest : irrefutableRest rest)
    {exclude : List PatternKey} (h : ChildrenTake nested (restShapes (.structRest exclude) rest) v ms) :
    lowerStructRest rest exclude v = some (ms.map (·.1)) ∧
      forgottenNames ms = if nested then restNames rest else [] := by
  rcases irrefutableRest_iff.1 hrest with rfl | rfl | ⟨b, rfl⟩
  · cases h
    cases nested <;> exact ⟨rfl, rfl⟩
  all_goals
    rcases h with - | ⟨hread, hq, hnil⟩
    cases hnil
    cases hq
    cases hread
    cases nested <;> exact ⟨rfl, rfl⟩

mutual

theorem exists_chosen : ∀ (p : HirPattern F), Regular p → ∀ {nested : Bool} {v : Value F}
    {ms : List (Mark F)}, p.shape.Takes nested v ms → Chosen nested p v ms
  | .wildcard, _, nested, v, ms, h => by
    cases h
    exact ⟨.wildcard, .wildcard nested, rfl⟩
  | .var b, _, nested, v, ms, h => by
    cases h
    exact ⟨.var b, .var nested b, rfl⟩
  | .nil, _, nested, v, ms, h | .literal lit, _, nested, v, ms, h => by
    cases h with
    | node htest h =>
      cases h
      first
      | exact ⟨.nil, .nil nested, if_pos htest⟩
      | exact ⟨.literal _, .literal nested _, if_pos htest⟩
  | .pair head tail, hreg, nested, v, ms, h => by
    cases h with
    | node htest h =>
      cases h with
      | @cons _ _ _ _ a _ m m' hfirst hhead h =>
        obtain ⟨d, hrest, htail⟩ := h.single_inv fun _ => rfl
        obtain ⟨p, hp, hlp⟩ := exists_chosen head (hreg.part (by simp [children])) hhead
        obtain ⟨q, hq, hlq⟩ := exists_chosen tail (hreg.part (by simp [children])) htail
        refine ⟨.pair p q, ?_, ?_⟩
        · rw [forgottenNames_append]
          exact .pair nested hp hq
        · have hfirst : v.first? = some a := hfirst
          have hrest : v.rest? = some d := hrest
          simp [lowerPatternMatch, hfirst, hrest, hlp, hlq, Step.mark]
  | .list es rest, hreg, nested, v, ms, h => by
    obtain ⟨es', m₁, m₂, u, rfl, hes, hspine, htail⟩ := exists_chosen_spine es
      (fun e he => hreg.part (mem_append_left _ he)) h
    have hbare : (nested && es.isEmpty) → rest = none := by
      intro hempty
      have hself := hreg.self
      rcases es with - | ⟨e, es⟩
      · rcases rest with - | r
        · rfl
        · cases hself
      · simp at hempty
    obtain ⟨rest', hrest, hlrest⟩ := exists_chosen_tail rest
      (fun r hr => hreg.part (mem_append_right _ (by simpa using hr))) hbare htail
    refine ⟨.list es' rest', ?_, ?_⟩
    · rw [forgottenNames_append]
      exact .list nested hes hrest
    · simp [lowerPatternMatch, hspine, hlrest]
  | .tuple es rest, hreg, nested, v, ms, h | .array es rest, hreg, nested, v, ms, h => by
    cases h with
    | node htest h =>
      obtain ⟨m₁, m₂, rfl, h₁, h₂⟩ := h.append_inv
      obtain ⟨es', hes, hles⟩ := exists_chosen_elements es (fun e he => hreg.part (mem_append_left _ he)) h₁
      obtain ⟨rest', hrest, hlrest⟩ := exists_chosen_slice rest
        (fun r hr => hreg.part (mem_append_right _ (by simpa using hr))) h₂
      have hok : lengthOk es' rest' v = lengthOk es rest v := by
        rw [lengthOk, lengthOk, hes.length_eq, hrest.isSome_eq]
      rw [← hes.length_eq] at hlrest
      rw [Chosen, forgottenNames_append]
      first
      | refine ⟨.tuple es' rest', .tuple nested hes hrest, ?_⟩
      | refine ⟨.array es' rest', .array nested hes hrest, ?_⟩
      rw [lowerPatternMatch, hok, if_pos (by cases rest <;> exact htest)]
      simp [hles, hlrest]
  | .struct es rest, hreg, nested, v, ms, h | .table es rest, hreg, nested, v, ms, h => by
    cases h with
    | node htest h =>
      obtain ⟨m₁, m₂, rfl, h₁, h₂⟩ := h.append_inv
      obtain ⟨es', hes, hles⟩ := exists_chosen_entries es
        (fun e he => hreg.part (mem_append_left _ (List.mem_map.2 ⟨e, he, rfl⟩))) h₁
      obtain ⟨hlrest, hnames⟩ := lowerStructRest_of_takes (Bool.and_eq_true .. ▸ hreg.self).2 h₂
      rw [← hes.keys_eq] at hlrest
      rw [Chosen, forgottenNames_append, hnames]
      first
      | refine ⟨.struct es' rest, .struct nested hes, ?_⟩
      | refine ⟨.table es' rest, .table nested hes, ?_⟩
      refine (if_pos htest).trans ?_
      simp [hles, hlrest]
  | .set p, hreg, nested, v, ms, h | .setMut p, hreg, nested, v, ms, h => by
    cases h with
    | node htest h =>
      obtain ⟨u, hu, htakes⟩ := h.single_inv fun _ => rfl
      cases hu
      obtain ⟨q, hq, hlq⟩ := exists_chosen p (hreg.part (mem_singleton_self p)) htakes
      first
      | exact ⟨.set q, .set nested hq, (if_pos htest).trans hlq⟩
      | exact ⟨.setMut q, .setMut nested hq, (if_pos htest).trans hlq⟩
  | .or alts, hreg, nested, v, ms, h => by
    cases h with
    | alts hmem h =>
      obtain ⟨alt, halt, q, hq, hlq⟩ := exists_chosen_alternatives alts (fun a ha => hreg.part ha) hmem h
      exact ⟨q, .or nested halt hq, hlq⟩

theorem exists_chosen_spine : ∀ (es : List (HirPattern F)), (∀ e ∈ es, Regular e) →
    ∀ {nested : Bool} {tail : Shape F} {v : Value F} {ms : List (Mark F)},
      (spineShape es tail).Takes nested v ms → ∃ es' m₁ m₂ u, ms = m₁ ++ m₂ ∧
        PicksAll es es' (forgottenNames m₁) ∧ lowerSpine es' v = some (m₁.map (·.1), u) ∧
          tail.Takes (nested && es.isEmpty) u m₂
  | [], _, nested, tail, v, ms, h => by
    refine ⟨[], [], ms, v, rfl, .nil, rfl, ?_⟩
    rw [spineShape] at h
    simpa using h
  | p :: ps, hreg, nested, tail, v, ms, h => by
    cases h with
    | node htest h =>
      cases h with
      | @cons _ _ _ _ a _ m m' hfirst hhead h =>
        obtain ⟨d, hrest, htail⟩ := h.single_inv fun _ => rfl
        obtain ⟨q, hq, hlq⟩ := exists_chosen p (hreg p mem_cons_self) hhead
        obtain ⟨qs, m₁, m₂, u, rfl, hqs, hlqs, htakes⟩ := exists_chosen_spine ps
          (fun e he => hreg e (mem_cons_of_mem _ he)) htail
        refine ⟨q :: qs, m ++ m₁, m₂, u, (append_assoc ..).symm, ?_, ?_, by simpa using htakes⟩
        · rw [forgottenNames_append]
          exact .cons hq hqs
        · have hfirst : v.first? = some a := hfirst
          have hrest : v.rest? = some d := hrest
          simp [lowerSpine, hfirst, hrest, hlq, hlqs]

theorem exists_chosen_tail : ∀ (rest : Option (HirPattern F)), (∀ r ∈ rest, Regular r) →
    ∀ {nested : Bool} {v : Value F} {ms : List (Mark F)}, (nested → rest = none) →
      (tailShape rest).Takes nested v ms →
        ∃ rest', PicksRest rest rest' (forgottenNames ms) ∧ lowerListRest rest' v = some (ms.map (·.1))
  | none, _, nested, v, ms, _, h => by
    cases h with
    | node htest h =>
      cases h
      exact ⟨none, .none, if_pos htest⟩
  | some p, hreg, nested, v, ms, hnested, h => by
    have hfalse : nested = false := Bool.eq_false_iff.2 fun hn => nomatch hnested hn
    subst hfalse
    obtain ⟨q, hq, hlq⟩ := exists_chosen p (hreg p rfl) h
    exact ⟨some q, .some hq, hlq⟩

theorem exists_chosen_elements : ∀ (es : List (HirPattern F)), (∀ e ∈ es, Regular e) →
    ∀ {i : Nat} {nested : Bool} {v : Value F} {ms : List (Mark F)},
      ChildrenTake nested (elementShapes es i) v ms →
        ∃ es', PicksAll es es' (forgottenNames ms) ∧ lowerElements es' i v = some (ms.map (·.1))
  | [], _, i, nested, v, ms, h => by
    cases h
    exact ⟨[], .nil, rfl⟩
  | p :: ps, hreg, i, nested, v, ms, h => by
    cases h with
    | @cons _ _ _ _ a _ m m' hread hp h =>
      obtain ⟨q, hq, hlq⟩ := exists_chosen p (hreg p mem_cons_self) hp
      obtain ⟨qs, hqs, hlqs⟩ := exists_chosen_elements ps (fun e he => hreg e (mem_cons_of_mem _ he)) h
      refine ⟨q :: qs, ?_, ?_⟩
      · rw [forgottenNames_append]
        exact .cons hq hqs
      · have hread : v.index? i = some a := hread
        simp [lowerElements, hread, hlq, hlqs, Step.mark]

theorem exists_chosen_slice : ∀ (rest : Option (HirPattern F)), (∀ r ∈ rest, Regular r) →
    ∀ {start : Nat} {nested : Bool} {v : Value F} {ms : List (Mark F)},
      ChildrenTake nested (restShapes (.slice start) rest) v ms →
        ∃ rest', PicksRest rest rest' (forgottenNames ms) ∧
          lowerSliceRest rest' start v = some (ms.map (·.1))
  | none, _, start, nested, v, ms, h => by
    cases h
    exact ⟨none, .none, rfl⟩
  | some p, hreg, start, nested, v, ms, h => by
    obtain ⟨u, hread, htakes⟩ := h.single_inv fun _ => rfl
    obtain ⟨q, hq, hlq⟩ := exists_chosen p (hreg p rfl) htakes
    have hread : v.slice? start = some u := hread
    exact ⟨some q, .some hq, by simp [lowerSliceRest, hread, hlq]⟩

theorem exists_chosen_entries : ∀ (es : List (PatternKey × HirPattern F)),
    (∀ e ∈ es, Regular e.2) → ∀ {nested : Bool} {v : Value F} {ms : List (Mark F)},
      ChildrenTake nested (entryShapes es) v ms →
        ∃ es', PicksEntries es es' (forgottenNames ms) ∧ lowerEntries es' v = some (ms.map (·.1))
  | [], _, nested, v, ms, h => by
    cases h
    exact ⟨[], .nil, rfl⟩
  | (k, p) :: es, hreg, nested, v, ms, h => by
    cases h with
    | @cons _ _ _ _ a _ m m' hread hp h =>
      obtain ⟨q, hq, hlq⟩ := exists_chosen p (hreg (k, p) mem_cons_self) hp
      obtain ⟨es', hes, hles⟩ := exists_chosen_entries es (fun e he => hreg e (mem_cons_of_mem _ he)) h
      refine ⟨(k, q) :: es', ?_, ?_⟩
      · rw [forgottenNames_append]
        exact .cons k hq hes
      · cases hread
        simp [lowerEntries, hlq, hles, Step.mark]

theorem exists_chosen_alternatives : ∀ (alts : List (HirPattern F)), (∀ a ∈ alts, Regular a) →
    ∀ {q : Shape F} {v : Value F} {ms : List (Mark F)}, q ∈ alternativeShapes alts →
      q.Takes true v ms → ∃ alt ∈ alts, Chosen true alt v ms
  | p :: ps, hreg, q, v, ms, hmem, h => by
    rcases List.mem_cons.1 hmem with rfl | hmem
    · exact ⟨p, mem_cons_self, exists_chosen p (hreg p mem_cons_self) h⟩
    · obtain ⟨alt, halt, hchosen⟩ := exists_chosen_alternatives ps
        (fun a ha => hreg a (mem_cons_of_mem _ ha)) hmem h
      exact ⟨alt, mem_cons_of_mem _ halt, hchosen⟩

end

/-! ### The bindings of a leaf -/

omit [Float64 F] in
theorem forgottenNames_perm {stores forgotten : Stores F}
    (h : ms.Perm (marks false stores ++ marks true forgotten)) :
    (forgottenNames ms).Perm (forgotten.map (·.1)) := by
  have hfilter := (h.filter (·.2)).map (·.1.1)
  have hfalse : (marks false stores).filter (·.2) = [] := by simp [marks]
  have htrue : (marks true forgotten).filter (·.2) = marks true forgotten := by simp [marks]
  rw [filter_append, hfalse, htrue, nil_append] at hfilter
  simpa [forgottenNames, marks, Function.comp_def] using hfilter

end

/-- The arm `{:a x & r}`. -/
def keyedRestArms : List (Arm Int) :=
  [⟨.struct [(.keyword "a", .var 0)] (some (.var 1)), false⟩]

/-- The arm `[(or {:a 1 & r} {:b 2 & r})]`. -/
def forgottenRestArms : List (Arm Int) :=
  [⟨.tuple [.or [.struct [(.keyword "a", .literal (.int 1))] (some (.var 0)),
    .struct [(.keyword "b", .literal (.int 2))] (some (.var 0))]] none, false⟩]

end Elle.Match

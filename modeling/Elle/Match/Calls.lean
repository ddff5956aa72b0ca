import Elle.Match.Select

/-!
# The recursion of `compile_matrix`

`Call.Makes` names the recursive calls of `compile_matrix`. A call is in range when its matrix is as
wide as its list of access paths and a split of it replaces the selected column by as many patterns
as paths. The calls of a `match` are all in range, and finitely many, as long as no split meets a
list pattern that is nothing but its rest (`compiles_iff`): `pattern_constructor` takes `(& r)` for a
pair, `extract_sub_patterns` finds no parts in it.
-/

namespace Elle.Match

open List

variable {F : Type}

/-- The arguments of `compile_matrix`. -/
structure Call (F : Type) where
  rows : List (PatternRow F)
  access : List AccessPath

namespace Call

/-- The first row still looks at some column. -/
def splits (call : Call F) : Bool :=
  call.rows.head?.any fun row => !row.patterns.all isWildcard

section

variable [Float64 F]

def column (call : Call F) : Nat := selectColumn call.rows

def base (call : Call F) : AccessPath := call.access.getD call.column .root

def constructors (call : Call F) : List (Constructor F) := collectConstructors call.rows call.column

def case (call : Call F) (ctor : Constructor F) : Call F :=
  ⟨specialize call.rows call.column ctor call.base, expandAccess call.access call.column ctor⟩

def default (call : Call F) : Call F :=
  ⟨defaultMatrix call.rows call.column call.base, removeColumn call.access call.column⟩

def compile (call : Call F) (fuel : Nat) : DecisionTree F :=
  compileMatrix fuel call.rows call.access

inductive Makes : Call F → Call F → Prop where
  | otherwise {row : PatternRow F} {remaining : List (PatternRow F)} {access : List AccessPath}
      (hwild : row.patterns.all isWildcard) (hguard : row.hasGuard) :
      Makes ⟨row :: remaining, access⟩ ⟨remaining, access⟩
  | case {call : Call F} (hsplit : call.splits) {ctor : Constructor F}
      (h : ctor ∈ call.constructors) : Makes call (call.case ctor)
  | default {call : Call F} (hsplit : call.splits) (h : call.default.rows ≠ []) :
      Makes call call.default

/-- No index of the call runs out of a list: one pattern per path in every row, a selected column
that exists, and as many parts for a constructor from the paths and from each row it keeps. -/
structure InRange (call : Call F) : Prop where
  width : ∀ row ∈ call.rows, row.patterns.length = call.access.length
  column : call.splits → call.column < call.access.length
  paths : call.splits → ∀ ctor ∈ call.constructors, (subAccess call.base ctor).length = ctor.arity
  arity : call.splits → ∀ ctor ∈ call.constructors, ∀ row ∈ call.rows,
    ∀ q ∈ branches (row.column call.column), admits ctor q →
      (extractSubPatterns q ctor).length = ctor.arity

/-- The column the call splits offers no pattern that is nothing but a rest. -/
def Apart (call : Call F) : Prop :=
  call.splits → ∀ row ∈ call.rows, ∀ q ∈ branches (row.column call.column), bareRest q = false

def Width (call : Call F) : Prop := ∀ row ∈ call.rows, row.patterns.length = call.access.length

end

end Call

section

variable [Float64 F]

def compileCall (arms : List (Arm F)) : Call F := ⟨fromArms 0 arms, [.root]⟩

/-- A call made, directly or not, for the arms of a match. -/
def Made (arms : List (Arm F)) : Call F → Prop := Relation.ReflTransGen Call.Makes (compileCall arms)

/-- The compilation of a match ends, with every call of it in range. -/
structure Compiles (arms : List (Arm F)) : Prop where
  ends : Acc (fun callee caller => Call.Makes caller callee) (compileCall arms)
  fuel : ∃ enough, ∀ fuel ≥ enough, (compileCall arms).compile fuel = (compileCall arms).compile enough
  inRange : ∀ call, Made arms call → call.InRange

end

/-! ### One call -/

namespace Call

variable [Float64 F] {call callee : Call F}

omit [Float64 F] in
theorem splits_eq_true : call.splits ↔
    ∃ row remaining, call.rows = row :: remaining ∧ row.patterns.all isWildcard = false := by
  rcases call with ⟨rows, access⟩
  rcases rows with - | ⟨row, remaining⟩ <;> simp [splits]

theorem compile_of_splits (h : call.splits) (fuel : Nat) : call.compile (fuel + 1) =
    .switch call.base (call.constructors.map fun ctor => (ctor, (call.case ctor).compile fuel))
      (if call.default.rows.isEmpty then none else some (call.default.compile fuel)) := by
  rcases call with ⟨rows, access⟩
  obtain ⟨row, remaining, rfl, hwild⟩ := splits_eq_true.1 h
  rw [compile, compileMatrix, if_neg (by simp [hwild])]
  rfl

theorem Width.column (h : call.Width) (hsplit : call.splits) : call.column < call.access.length := by
  obtain ⟨row, remaining, hrows, hwild⟩ := splits_eq_true.1 hsplit
  have hpos : 0 < row.patterns.length := by
    rcases hp : row.patterns with - | ⟨p, ps⟩
    · simp [hp] at hwild
    · simp
  rw [← h row (by simp [hrows]), Call.column, hrows]
  exact selectColumn_lt hpos

theorem Width.inRange (h : call.Width) (hapart : call.Apart) : call.InRange := by
  refine ⟨h, h.column, ?_, ?_⟩
  · intro _ ctor _
    rw [subAccess_eq_map, length_map, Constructor.length_steps]
  · intro hsplit ctor hctor row hrow q hq hadm
    cases hw : isWildcard q with
    | true => rcases eq_of_isWildcard hw with rfl | ⟨b, rfl⟩ <;> simp [extractSubPatterns]
    | false =>
      have hr := refines_of_admits hrow hctor hq hadm
      simp only [admits, hw, Bool.false_or, Option.any_eq_true] at hadm
      obtain ⟨c, hc, -⟩ := hadm
      exact length_extractSubPatterns (hapart hsplit row hrow q hq) hc (hr c hc)

theorem InRange.apart (h : call.InRange) : call.Apart := by
  intro hsplit row hrow q hq
  cases hbare : bareRest q with
  | false => rfl
  | true =>
    obtain ⟨r, rfl⟩ : ∃ r, q = .list [] (some r) := by
      cases q with
      | list es rest =>
        rcases es with - | ⟨e, es⟩ <;> rcases rest with - | r <;> first | exact ⟨_, rfl⟩ | cases hbare
      | _ => cases hbare
    have hpair : Constructor.pair ∈ call.constructors := by
      obtain ⟨s, hs, rfl | heq⟩ := @exists_mem_distinctBy F Constructor.eq _ _
        (mem_columnConstructors hrow hq rfl)
      · exact mem_collectConstructors.2 (Or.inl ⟨hs, rfl, rfl⟩)
      · rcases Constructor.eq_cases heq with ⟨a, b, -, hlit, -⟩ | rfl
        · cases hlit
        · exact mem_collectConstructors.2 (Or.inl ⟨hs, rfl, rfl⟩)
    cases h.arity hsplit _ hpair row hrow _ hq rfl

/-! ### A call and the calls it makes -/

theorem Width.step (h : call.Width) (hapart : call.Apart) (hmakes : Makes call callee) :
    callee.Width := by
  cases hmakes with
  | otherwise hwild hguard => exact fun row hrow => h row (mem_cons_of_mem _ hrow)
  | @case call hsplit ctor hctor =>
    have hrange := h.inRange hapart
    intro row' hrow'
    obtain ⟨row, hrow, q, hq, hadm, rfl⟩ := exists_of_mem_specialize hrow'
    have hcol := h.column hsplit
    have hrow1 := length_replaceColumn (h row hrow ▸ hcol : call.column < row.patterns.length)
      (extractSubPatterns q ctor)
    have hacc := length_replaceColumn hcol (subAccess call.base ctor)
    rw [hrange.arity hsplit _ hctor row hrow q hq hadm, h row hrow] at hrow1
    rw [hrange.paths hsplit _ hctor] at hacc
    exact Nat.succ_injective (hrow1.trans hacc.symm)
  | default hsplit hne =>
    intro row' hrow'
    obtain ⟨row, hrow, rfl⟩ := List.mem_map.1 hrow'
    have hrow := (List.mem_filter.1 hrow).1
    have hcol := h.column hsplit
    have hrow1 := length_replaceColumn (h row hrow ▸ hcol : call.column < row.patterns.length) []
    have hacc := length_replaceColumn hcol []
    rw [h row hrow] at hrow1
    exact Nat.succ_injective (hrow1.trans hacc.symm)

/-- The weight of the matrix, and the number of columns for a split on a column that tests
nothing. -/
def size (call : Call F) : Nat × Nat := (rowsWeight call.rows, call.access.length)

theorem Width.size_lt (h : call.Width) (hapart : call.Apart) (hmakes : Makes call callee) :
    Prod.Lex (· < ·) (· < ·) callee.size call.size := by
  have hcolumn : call.splits → ∀ row ∈ call.rows, call.column < row.patterns.length :=
    fun hsplit row hrow => h row hrow ▸ h.column hsplit
  cases hmakes with
  | @otherwise row remaining access hwild hguard =>
    refine .left _ _ ?_
    have := columnsWeight_pos row.patterns
    simp only [rowsWeight, map_cons, sum_cons]
    omega
  | case hsplit hctor =>
    exact .left _ _ (weight_specialize (hcolumn hsplit) (hapart hsplit) hctor call.base)
  | default hsplit hne =>
    by_cases hnone : columnConstructors call.rows call.column = []
    · have hle := weight_defaultMatrix_le (hcolumn hsplit) call.base
      have hlen := length_replaceColumn (h.column hsplit) ([] : List AccessPath)
      rcases Nat.lt_or_eq_of_le hle with hlt | heq
      · exact .left _ _ hlt
      · rw [size, size, show rowsWeight call.default.rows = rowsWeight call.rows from heq]
        exact .right _ (Nat.lt_of_succ_le (Nat.le_of_eq hlen))
    · exact .left _ _ (weight_defaultMatrix (hcolumn hsplit) hnone call.base)

/-! ### A whole compilation -/

variable (hapart : ∀ d, Relation.ReflTransGen Makes call d → d.Apart)

include hapart in
theorem Width.run (h : call.Width) {d : Call F} (hd : Relation.ReflTransGen Makes call d) :
    d.Width := by
  induction hd with
  | refl => exact h
  | tail hd hmakes ih => exact ih.step (hapart _ hd) hmakes

include hapart in
theorem Width.acc (h : call.Width) : Acc (fun callee caller => Makes caller callee) call := by
  have hwf : WellFounded (Prod.Lex (· < ·) (· < ·) : Nat × Nat → Nat × Nat → Prop) :=
    WellFounded.prod_lex wellFounded_lt wellFounded_lt
  induction hsize : call.size using hwf.induction generalizing call with
  | _ n ih =>
    subst hsize
    refine Acc.intro _ fun callee hmakes => ?_
    exact ih _ (h.size_lt (hapart call .refl) hmakes) (fun d hd => hapart d (hd.head hmakes))
      (h.step (hapart call .refl) hmakes) rfl

theorem exists_fuel_forall {α : Type} (l : List α) (f : α → Call F)
    (h : ∀ x ∈ l, ∃ n, ∀ m ≥ n, (f x).compile m = (f x).compile n) :
    ∃ n, ∀ x ∈ l, ∀ m ≥ n, (f x).compile m = (f x).compile n := by
  induction l with
  | nil => exact ⟨0, fun x hx => nomatch hx⟩
  | cons y l ih =>
    obtain ⟨n, hn⟩ := ih fun x hx => h x (mem_cons_of_mem _ hx)
    obtain ⟨k, hk⟩ := h y mem_cons_self
    refine ⟨max n k, fun x hx m hm => ?_⟩
    rcases List.mem_cons.1 hx with rfl | hx
    · rw [hk m (by omega), hk (max n k) (by omega)]
    · rw [hn x hx m (by omega), hn x hx (max n k) (by omega)]

theorem exists_fuel (h : Acc (fun callee caller => Makes caller callee) call) :
    ∃ n, ∀ m ≥ n, call.compile m = call.compile n := by
  induction h with
  | intro call _ ih =>
    rcases call with ⟨rows, access⟩
    rcases rows with - | ⟨row, remaining⟩
    · refine ⟨1, fun m hm => ?_⟩
      obtain ⟨m, rfl⟩ := Nat.exists_eq_add_of_le' hm
      rfl
    cases hwild : row.patterns.all isWildcard with
    | true =>
      cases hguard : row.hasGuard with
      | false =>
        refine ⟨1, fun m hm => ?_⟩
        obtain ⟨m, rfl⟩ := Nat.exists_eq_add_of_le' hm
        simp [compile, compileMatrix, hwild, hguard]
      | true =>
        obtain ⟨n, hn⟩ := ih _ (.otherwise hwild hguard)
        refine ⟨n + 1, fun m hm => ?_⟩
        obtain ⟨m, rfl⟩ := Nat.exists_eq_add_of_le' (Nat.le_trans (Nat.le_add_left 1 n) hm)
        have := hn m (by omega)
        simp only [compile] at this
        simp [compile, compileMatrix, hwild, hguard, this]
    | false =>
      have hsplit : (⟨row :: remaining, access⟩ : Call F).splits := by simp [splits, hwild]
      obtain ⟨n, hn⟩ := exists_fuel_forall _ _ fun ctor hctor => ih _ (.case hsplit hctor)
      obtain ⟨k, hk⟩ : ∃ k, ∀ m ≥ k, (⟨row :: remaining, access⟩ : Call F).default.rows ≠ [] →
          (⟨row :: remaining, access⟩ : Call F).default.compile m =
            (⟨row :: remaining, access⟩ : Call F).default.compile k := by
        by_cases hne : (⟨row :: remaining, access⟩ : Call F).default.rows = []
        · exact ⟨0, fun m _ h => absurd hne h⟩
        · obtain ⟨k, hk⟩ := ih _ (.default hsplit hne)
          exact ⟨k, fun m hm _ => hk m hm⟩
      refine ⟨max n k + 1, fun m hm => ?_⟩
      obtain ⟨m, rfl⟩ := Nat.exists_eq_add_of_le' (Nat.le_trans (Nat.le_add_left 1 _) hm)
      rw [compile_of_splits hsplit, compile_of_splits hsplit]
      congr 1
      · refine map_congr_left fun ctor hctor => ?_
        rw [hn ctor hctor m (by omega), hn ctor hctor (max n k) (by omega)]
      · split
        · rfl
        · next hne =>
          rw [List.isEmpty_iff] at hne
          rw [hk m (by omega) hne, hk (max n k) (by omega) hne]

end Call

/-! ### The arms of a match -/

section

variable [Float64 F] {arms : List (Arm F)}

omit [Float64 F] in
theorem width_compileCall (arms : List (Arm F)) : (compileCall arms).Width := by
  intro row hrow
  obtain ⟨arm, -, alt, -, i, rfl⟩ := mem_fromArms hrow
  rfl

theorem compiles_iff_apart : Compiles arms ↔ ∀ call, Made arms call → call.Apart := by
  constructor
  · exact fun h call hmade => (h.inRange call hmade).apart
  · intro hapart
    have hwidth := width_compileCall arms
    have hends := hwidth.acc hapart
    exact ⟨hends, Call.exists_fuel hends,
      fun call hmade => (hwidth.run hapart hmade).inRange (hapart call hmade)⟩

end

/-! ### Patterns without a bare rest -/

/-- The second pattern occurs in the first. -/
def HirPattern.Contains : HirPattern F → HirPattern F → Prop :=
  Relation.ReflTransGen fun p q => q ∈ children p

def HirPattern.Everywhere (good : HirPattern F → Bool) (p : HirPattern F) : Prop :=
  ∀ q, p.Contains q → good q

/-- No list pattern in it is nothing but a rest. -/
def Spined (p : HirPattern F) : Prop := p.Everywhere fun q => !bareRest q

def isKeyed : HirPattern F → Bool
  | .struct _ _ | .table _ _ => true
  | _ => false

mutual

theorem contains_of_mem_expand : ∀ {p q : HirPattern F}, q ∈ expandOrPattern p → p.Contains q
  | .or alts, q, h => by
    obtain ⟨alt, halt, hq⟩ := exists_of_mem_expandAlternatives h
    exact .head halt hq
  | .wildcard, _, h | .nil, _, h | .literal _, _, h | .var _, _, h | .pair _ _, _, h
  | .list _ _, _, h | .tuple _ _, _, h | .array _ _, _, h | .struct _ _, _, h | .table _ _, _, h
  | .set _, _, h | .setMut _, _, h => List.mem_singleton.1 h ▸ .refl

theorem exists_of_mem_expandAlternatives : ∀ {alts : List (HirPattern F)} {q : HirPattern F},
    q ∈ expandAlternatives alts → ∃ alt ∈ alts, alt.Contains q
  | alt :: alts, q, h => by
    rcases List.mem_append.1 h with h | h
    · exact ⟨alt, mem_cons_self, contains_of_mem_expand h⟩
    · obtain ⟨a, ha, hq⟩ := exists_of_mem_expandAlternatives h
      exact ⟨a, mem_cons_of_mem _ ha, hq⟩

end

namespace HirPattern.Everywhere

variable {good : HirPattern F → Bool} {p q : HirPattern F}

theorem self (h : p.Everywhere good) : good p := h p .refl

theorem part (h : p.Everywhere good) (hq : q ∈ children p) : q.Everywhere good :=
  fun r hr => h r (.head hq hr)

theorem of_parts (hself : good p) (h : ∀ q ∈ children p, q.Everywhere good) :
    p.Everywhere good := by
  intro q hq
  rcases Relation.ReflTransGen.cases_head hq with rfl | ⟨r, hr, hq⟩
  · exact hself
  · exact h r hr q hq

theorem branch (h : p.Everywhere good) (hq : q ∈ branches p) : q.Everywhere good := by
  cases p with
  | or alts => exact h.part hq
  | _ => rcases List.mem_singleton.1 hq with rfl; exact h

theorem expand (h : p.Everywhere good) (hq : q ∈ expandOrPattern p) : q.Everywhere good :=
  fun r hr => h r ((contains_of_mem_expand hq).trans hr)

-- a column made of a list pattern is a shorter list, which no condition on keys or bare rests sees
variable (hgood : ∀ q : HirPattern F, bareRest q = false → isKeyed q = false → good q)

include hgood

theorem wildcard : (.wildcard : HirPattern F).Everywhere good :=
  of_parts (hgood _ rfl rfl) fun _ h => nomatch h

theorem elements {es : List (HirPattern F)} {rest : Option (HirPattern F)} (h : p.Everywhere good)
    (hparts : children p = es ++ rest.toList) (hq : q ∈ es ++ [rest.getD .wildcard]) :
    q.Everywhere good := by
  rcases List.mem_append.1 hq with hq | hq
  · exact h.part (hparts ▸ mem_append_left _ hq)
  · rcases rest with - | r
    · exact List.mem_singleton.1 hq ▸ wildcard hgood
    · exact h.part (hparts ▸ mem_append_right _ hq)

theorem entries {es : List (PatternKey × HirPattern F)} {rest : Option (HirPattern F)}
    {keys : List PatternKey} (h : p.Everywhere good)
    (hparts : children p = es.map (·.2) ++ rest.toList)
    (hq : q ∈ keys.map fun k => ((es.find? fun e => e.1 = k).map (·.2)).getD .wildcard) :
    q.Everywhere good := by
  obtain ⟨k, -, rfl⟩ := List.mem_map.1 hq
  cases hfind : es.find? fun e => e.1 = k with
  | none => exact wildcard hgood
  | some e =>
    refine h.part (hparts ▸ mem_append_left _ ?_)
    exact List.mem_map.2 ⟨e, mem_of_find?_eq_some hfind, rfl⟩

/-- The columns a pattern is split into are patterns of it, or shorter lists of them. -/
theorem extract {ctor : Constructor F} (h : p.Everywhere good)
    (hq : q ∈ extractSubPatterns p ctor) : q.Everywhere good := by
  cases p with
  | wildcard | var b => rw [(List.mem_replicate.1 hq).2]; exact wildcard hgood
  | nil => cases hq
  | literal lit => cases hq
  | or alts => cases hq
  | pair head tail | set p | setMut p => exact h.part hq
  | list es rest =>
    rcases es with _ | ⟨e, _ | ⟨e', es⟩⟩
    · cases hq
    · cases rest with
      | none =>
        rcases List.mem_pair.1 hq with rfl | rfl
        · exact h.part (by simp [children])
        · exact of_parts (hgood _ rfl rfl) fun _ h => by cases h
      | some r => exact h.part hq
    · rcases List.mem_pair.1 hq with rfl | rfl
      · exact h.part (by simp [children])
      · exact of_parts (hgood _ rfl rfl) fun r hr => h.part (mem_cons_of_mem _ hr)
  | tuple es rest | array es rest =>
    refine elements hgood h (rfl : _ = es ++ rest.toList) ?_
    cases ctor <;> first | exact hq | exact mem_append_left _ hq
  | struct es rest =>
    cases ctor <;> first
      | exact entries (p := .struct es rest) hgood h rfl hq
      | exact h.part (mem_append_left _ hq)
  | table es rest =>
    cases ctor <;> first
      | exact entries (p := .table es rest) hgood h rfl hq
      | exact h.part (mem_append_left _ hq)

end HirPattern.Everywhere

section

variable [Float64 F] {arms : List (Arm F)} {call callee : Call F} {good : HirPattern F → Bool}

/-- Every pattern of the matrix is good, and so is every pattern in it. -/
def Call.Everywhere (good : HirPattern F → Bool) (call : Call F) : Prop :=
  ∀ row ∈ call.rows, ∀ p ∈ row.patterns, p.Everywhere good

omit [Float64 F] in
theorem everywhere_compileCall (h : ∀ arm ∈ arms, arm.pattern.Everywhere good) :
    (compileCall arms).Everywhere good := by
  intro row hrow p hp
  obtain ⟨arm, harm, alt, halt, i, rfl⟩ := mem_fromArms hrow
  rcases List.mem_singleton.1 hp with rfl
  exact (h arm harm).expand halt

namespace Call.Everywhere

variable (hgood : ∀ q : HirPattern F, bareRest q = false → isKeyed q = false → good q)

omit [Float64 F] in
include hgood in
theorem column (h : call.Everywhere good) {row : PatternRow F} (hrow : row ∈ call.rows)
    (col : Nat) : (row.column col).Everywhere good := by
  rw [PatternRow.column, List.getD]
  cases hp : row.patterns[col]? with
  | none => exact .wildcard hgood
  | some p => exact h row hrow p (mem_of_getElem? hp)

include hgood in
theorem step (h : call.Everywhere good) (hmakes : Call.Makes call callee) :
    callee.Everywhere good := by
  cases hmakes with
  | otherwise => exact fun row hrow => h row (mem_cons_of_mem _ hrow)
  | @case call hsplit ctor hctor =>
    intro row' hrow' p hp
    obtain ⟨row, hrow, q, hq, -, rfl⟩ := exists_of_mem_specialize hrow'
    rcases mem_replaceColumn hp with hp | hp
    · exact h row hrow p hp
    · exact ((h.column hgood hrow _).branch hq).extract hgood hp
  | default =>
    intro row' hrow' p hp
    obtain ⟨row, hrow, rfl⟩ := List.mem_map.1 hrow'
    rcases mem_replaceColumn hp with hp | hp
    · exact h row (List.mem_filter.1 hrow).1 p hp
    · cases hp

include hgood in
theorem apart (h : call.Everywhere good) (hbare : ∀ q, good q → bareRest q = false) :
    call.Apart :=
  fun _ _ hrow _ hq => hbare _ ((h.column hgood hrow _).branch hq).self

end Call.Everywhere

/-- A match compiles with every index in range exactly when no split meets a list pattern that is
nothing but its rest; it does when no pattern contains one. -/
theorem compiles_iff (arms : List (Arm F)) :
    (Compiles arms ↔ ∀ call, Made arms call → call.Apart) ∧
      ((∀ arm ∈ arms, Spined arm.pattern) → Compiles arms) := by
  have hgood : ∀ q : HirPattern F, bareRest q = false → isKeyed q = false → (!bareRest q) = true :=
    fun q h _ => by rw [h]; rfl
  refine ⟨compiles_iff_apart, fun h => compiles_iff_apart.2 fun call hmade => ?_⟩
  have hspined : call.Everywhere fun q => !bareRest q := by
    induction hmade with
    | refl => exact everywhere_compileCall h
    | tail _ hmakes ih => exact ih.step hgood hmakes
  exact hspined.apart hgood fun q hq => by simpa using hq

end

/-- The arms `(1 2)` and `(& r)`. -/
def bareRestArms : List (Arm Int) :=
  [⟨.list [.literal (.int 1), .literal (.int 2)] none, false⟩, ⟨.list [] (some (.var 0)), false⟩]

/-- The case of pairs has a first row of two patterns and a second row of none; `select_column`
then reads the first pattern of each. -/
theorem bareRest_not_compiles :
    ¬ Compiles bareRestArms ∧ ∃ call, Made bareRestArms call ∧ call.splits = true ∧
      call.access.length = 2 ∧ call.rows.map (fun row => row.patterns.length) = [2, 0] := by
  have hmade : Made bareRestArms ((compileCall bareRestArms).case .pair) := by
    refine .single (.case rfl ?_)
    exact mem_singleton_self _
  have hlengths : ((compileCall bareRestArms).case .pair).rows.map
      (fun row => row.patterns.length) = [2, 0] := by decide +kernel
  refine ⟨fun h => ?_, _, hmade, by decide +kernel, by decide +kernel, hlengths⟩
  obtain ⟨row, hrow, hzero⟩ := List.mem_map.1 (hlengths ▸ mem_cons_of_mem 2 mem_cons_self)
  exact absurd ((h.inRange _ hmade).width row hrow) (by rw [hzero]; decide +kernel)

end Elle.Match

import Elle.Match.Matrix

/-!
# What a matrix loses when it is split

Every recursive call of the compiler works on less: a case replaces the patterns of one column by
their parts, the default drops the rows that look at the column. The weight of a matrix, a product
over the columns of a row added up over the rows, drops with both.
-/

namespace Elle.Match

open List

variable {F : Type} [Float64 F]

/-! ### Columns and parts -/

section

omit [Float64 F]

theorem columnsWeight_pos (ps : List (HirPattern F)) : 0 < columnsWeight ps := by
  induction ps with
  | nil => exact Nat.one_pos
  | cons p ps ih => exact Nat.mul_pos (by omega) ih

theorem columnsWeight_replaceColumn (ps subs : List (HirPattern F)) (col : Nat) :
    columnsWeight (replaceColumn ps col subs) =
      columnsWeight (ps.take col) * columnsWeight (ps.drop (col + 1)) * columnsWeight subs := by
  rw [replaceColumn, columnsWeight_append, columnsWeight_append]
  ac_rfl

theorem columnsWeight_column {ps : List (HirPattern F)} {col : Nat} (hcol : col < ps.length) :
    columnsWeight ps = columnsWeight (ps.take col) * columnsWeight (ps.drop (col + 1)) *
      (1 + patternWeight (ps.getD col .wildcard)) := by
  have h := columnsWeight_replaceColumn ps [ps.getD col .wildcard] col
  rw [replaceColumn_self hcol] at h
  simpa [columnsWeight] using h

theorem columnsWeight_wildcards (n : Nat) :
    columnsWeight (List.replicate n (.wildcard : HirPattern F)) = 1 := by
  induction n with
  | zero => rfl
  | succ n ih => simp [replicate_succ, columnsWeight, patternWeight, ih]

theorem map_lookup_cons (p : HirPattern F) (es : List (PatternKey × HirPattern F)) {k : PatternKey}
    {keys : List PatternKey} (hk : k ∉ keys) :
    (keys.map fun k' => ((((k, p) :: es).find? fun e => e.1 = k').map (·.2)).getD .wildcard) =
      keys.map fun k' => ((es.find? fun e => e.1 = k').map (·.2)).getD .wildcard := by
  refine map_congr_left fun k' hk' => ?_
  rw [find?_cons_of_neg (by simpa using fun h : k = k' => hk (h ▸ hk'))]

/-- A key named twice has one column only, so the entries weigh at least as much as the columns. -/
theorem columnsWeight_lookup_le (es : List (PatternKey × HirPattern F)) {keys : List PatternKey}
    (hkeys : keys.Nodup) :
    columnsWeight (keys.map fun k => ((es.find? fun e => e.1 = k).map (·.2)).getD .wildcard) ≤
      entriesWeight es := by
  induction es generalizing keys with
  | nil => simp [entriesWeight, columnsWeight_wildcards, map_const']
  | cons e es ih =>
    rcases e with ⟨k, p⟩
    by_cases hk : k ∈ keys
    · have hperm := (perm_cons_erase hk).map fun k' =>
        1 + patternWeight (((((k, p) :: es).find? fun e => e.1 = k').map (·.2)).getD .wildcard)
      rw [columnsWeight_eq_prod, List.map_map, Function.comp_def, hperm.prod_eq, map_cons,
        prod_cons, find?_cons_of_pos (by simp)]
      refine Nat.mul_le_mul_left _ ?_
      have h := ih (hkeys.erase k)
      rwa [← map_lookup_cons p es hkeys.not_mem_erase, columnsWeight_eq_prod, List.map_map] at h
    · rw [map_lookup_cons p es hk]
      exact (ih hkeys).trans (Nat.le_mul_of_pos_left _ (by omega))

end

section

variable {q : HirPattern F} {c target : Constructor F} (hbare : bareRest q = false)
variable (hc : patternConstructor q = some c) (hr : Refines c target)
include hbare hc hr

theorem length_extractSubPatterns : (extractSubPatterns q target).length = target.arity := by
  cases hr with
  | refl hs ht => exact (shape_eq_node hc hs ht hbare).2
  | literal h =>
    obtain rfl := eq_literal_of_constructor hc
    rfl
  | struct | table =>
    first
    | obtain ⟨es, rest, rfl, rfl⟩ := eq_struct_of_constructor hc
    | obtain ⟨es, rest, rfl, rfl⟩ := eq_table_of_constructor hc
    simp [extractSubPatterns, Constructor.arity]

theorem columnsWeight_extract_le : columnsWeight (extractSubPatterns q target) ≤ patternWeight q := by
  cases hr with
  | refl hs ht => exact columnsWeight_extractSubPatterns hc hs ht hbare
  | literal h =>
    obtain rfl := eq_literal_of_constructor hc
    simp [extractSubPatterns, columnsWeight, patternWeight]
  | struct hkeys _ | table hkeys _ =>
    first
    | obtain ⟨es, rest, rfl, rfl⟩ := eq_struct_of_constructor hc
    | obtain ⟨es, rest, rfl, rfl⟩ := eq_table_of_constructor hc
    exact (columnsWeight_lookup_le es hkeys).trans (Nat.le_mul_of_pos_right _ (by omega))

end

theorem sum_columnsWeight_branches {p : HirPattern F} {target : Constructor F}
    (hwild : isWildcard p = false) (hbare : ∀ q ∈ branches p, bareRest q = false)
    (hr : ∀ q ∈ branches p, admits target q →
      ∀ c, patternConstructor q = some c → Refines c target) :
    (((branches p).filter (admits target)).map fun q =>
      columnsWeight (extractSubPatterns q target)).sum ≤ patternWeight p := by
  have hctor : ∀ q ∈ branches p, admits target q → isWildcard q = false →
      columnsWeight (extractSubPatterns q target) ≤ patternWeight q := by
    intro q hq hadm hw
    obtain ⟨c, hc⟩ : ∃ c, patternConstructor q = some c := by
      simp only [admits, hw, Bool.false_or, Option.any_eq_true] at hadm
      exact hadm.imp fun _ h => h.1
    exact columnsWeight_extract_le (hbare q hq) hc (hr q hq hadm c hc)
  cases p with
  | or alts =>
    -- one row per alternative, and the weight of an or-pattern counts one for each
    have key : ∀ l : List (HirPattern F), (∀ q ∈ l, q ∈ alts) →
        ((l.filter (admits target)).map fun q => columnsWeight (extractSubPatterns q target)).sum ≤
          alternativesWeight l := by
      intro l
      induction l with
      | nil => exact fun _ => Nat.le_refl _
      | cons q l ih =>
        intro hl
        have htail := ih fun x hx => hl x (mem_cons_of_mem _ hx)
        rw [alternativesWeight]
        cases hadm : admits target q with
        | false =>
          rw [filter_cons_of_neg (by simp [hadm])]
          omega
        | true =>
          rw [filter_cons_of_pos hadm, map_cons, sum_cons]
          cases hw : isWildcard q with
          | true =>
            have hone : columnsWeight (extractSubPatterns q target) = 1 := by
              rcases eq_of_isWildcard hw with rfl | ⟨b, rfl⟩ <;> exact columnsWeight_wildcards _
            omega
          | false =>
            have := hctor q (hl q mem_cons_self) hadm hw
            omega
    exact key alts fun _ h => h
  | _ =>
    simp only [branches, filter_cons, filter_nil]
    split
    · next hadm => simpa using hctor _ (mem_singleton_self _) hadm hwild
    · exact Nat.zero_le _

/-! ### Rows -/

variable {rows : List (PatternRow F)} {row : PatternRow F} {col : Nat} {target : Constructor F}

theorem weight_specializeRow (hcol : col < row.patterns.length)
    (hbare : ∀ q ∈ branches (row.column col), bareRest q = false)
    (hr : ∀ q ∈ branches (row.column col), admits target q →
      ∀ c, patternConstructor q = some c → Refines c target) (base : AccessPath) :
    rowsWeight (specializeRow col target base row) ≤ columnsWeight row.patterns ∧
      (isWildcard (row.column col) = false →
        rowsWeight (specializeRow col target base row) < columnsWeight row.patterns) := by
  have hpos : 0 < columnsWeight (row.patterns.take col) * columnsWeight (row.patterns.drop (col + 1)) :=
    Nat.mul_pos (columnsWeight_pos _) (columnsWeight_pos _)
  have hrows : rowsWeight (specializeRow col target base row) =
      columnsWeight (row.patterns.take col) * columnsWeight (row.patterns.drop (col + 1)) *
        (((branches (row.column col)).filter (admits target)).map fun q =>
          columnsWeight (extractSubPatterns q target)).sum := by
    rw [rowsWeight, specializeRow_eq, List.map_map, ← sum_map_mul_left]
    congr 1
    exact map_congr_left fun q _ => columnsWeight_replaceColumn row.patterns _ col
  rw [hrows, columnsWeight_column hcol]
  cases hwild : isWildcard (row.column col) with
  | true =>
    refine ⟨Nat.mul_le_mul_left _ ?_, fun hfalse => nomatch hfalse⟩
    rcases eq_of_isWildcard hwild with hw | ⟨b, hw⟩ <;>
      simp [hw, branches, admits, isWildcard, extractSubPatterns, columnsWeight_wildcards]
  | false =>
    have hlt := Nat.mul_lt_mul_of_pos_left
      (Nat.lt_one_add_iff.2 (sum_columnsWeight_branches hwild hbare hr)) hpos
    exact ⟨Nat.le_of_lt hlt, fun _ => hlt⟩

omit [Float64 F] in
theorem exists_not_wildcard (hne : columnConstructors rows col ≠ []) :
    ∃ row ∈ rows, isWildcard (row.column col) = false := by
  obtain ⟨c, hc⟩ := exists_mem_of_ne_nil _ hne
  obtain ⟨row, hrow, hin⟩ := List.mem_flatMap.1 hc
  refine ⟨row, hrow, Bool.eq_false_iff.2 fun hwild => ?_⟩
  rcases eq_of_isWildcard hwild with hp | ⟨b, hp⟩ <;> simp [hp, patternConstructors, patternConstructor] at hin

omit [Float64 F] in
theorem rowsWeight_flatMap (rows : List (PatternRow F)) (f : PatternRow F → List (PatternRow F)) :
    rowsWeight (rows.flatMap f) = (rows.map fun row => rowsWeight (f row)).sum := by
  induction rows with
  | nil => rfl
  | cons row rows ih =>
    rw [flatMap_cons, map_cons, sum_cons, ← ih]
    simp [rowsWeight]

theorem weight_specialize (hcol : ∀ row ∈ rows, col < row.patterns.length)
    (hbare : ∀ row ∈ rows, ∀ q ∈ branches (row.column col), bareRest q = false)
    (ht : target ∈ collectConstructors rows col) (base : AccessPath) :
    rowsWeight (specialize rows col target base) < rowsWeight rows := by
  obtain ⟨c, hc, -⟩ := exists_refines ht
  obtain ⟨row, hrow, hwild⟩ := exists_not_wildcard (ne_nil_of_mem hc)
  have hstep : ∀ row ∈ rows, _ := fun row hrow => weight_specializeRow (hcol row hrow)
    (hbare row hrow) (fun _ hq hadm => refines_of_admits hrow ht hq hadm) base
  rw [specialize, rowsWeight_flatMap]
  exact sum_lt_sum _ _ (fun row hrow => (hstep row hrow).1) ⟨row, hrow, (hstep row hrow).2 hwild⟩

section

omit [Float64 F]

theorem defaultMatrix_eq_flatMap (rows : List (PatternRow F)) (col : Nat) (base : AccessPath) :
    defaultMatrix rows col base = rows.flatMap fun row =>
      if isWildcard (row.column col) then
        [row.replace col [] (varBinding (row.column col) base)] else [] := by
  unfold defaultMatrix
  induction rows with
  | nil => rfl
  | cons row rows ih =>
    rw [flatMap_cons, ← ih]
    cases hw : isWildcard (row.column col) <;> simp [hw]

theorem weight_defaultRow (hcol : col < row.patterns.length) (base : AccessPath) :
    rowsWeight (if isWildcard (row.column col) then
        [row.replace col [] (varBinding (row.column col) base)] else []) ≤
      columnsWeight row.patterns := by
  split
  · rw [rowsWeight, map_singleton, sum_singleton, PatternRow.replace,
      columnsWeight_replaceColumn, columnsWeight_column hcol]
    exact Nat.mul_le_mul_left _ (Nat.le_add_right 1 _)
  · exact Nat.zero_le _

theorem weight_defaultMatrix_le (hcol : ∀ row ∈ rows, col < row.patterns.length)
    (base : AccessPath) : rowsWeight (defaultMatrix rows col base) ≤ rowsWeight rows := by
  rw [defaultMatrix_eq_flatMap, rowsWeight_flatMap]
  exact sum_le_sum fun row hrow => weight_defaultRow (hcol row hrow) base

theorem weight_defaultMatrix (hcol : ∀ row ∈ rows, col < row.patterns.length)
    (hne : columnConstructors rows col ≠ []) (base : AccessPath) :
    rowsWeight (defaultMatrix rows col base) < rowsWeight rows := by
  obtain ⟨row, hrow, hwild⟩ := exists_not_wildcard hne
  rw [defaultMatrix_eq_flatMap, rowsWeight_flatMap]
  refine sum_lt_sum _ _ (fun row hrow => weight_defaultRow (hcol row hrow) base) ⟨row, hrow, ?_⟩
  rw [hwild]
  exact columnsWeight_pos _

end

/-! ### Plain matrices -/

namespace Aligned

variable {keep : Bool → Bool} {root : Value F} {access : List AccessPath} {vs : List (Value F)}

omit [Float64 F] in
theorem column_lt (h : Aligned keep root access vs rows) (hcol : col < access.length) :
    ∀ row ∈ rows, col < row.patterns.length := fun row hrow => h.width row hrow ▸ hcol

theorem weight_specialize (h : Aligned keep root access vs rows) (hcol : col < access.length)
    (ht : target ∈ collectConstructors rows col) (base : AccessPath) :
    rowsWeight (Match.specialize rows col target base) < rowsWeight rows :=
  Match.weight_specialize (h.column_lt hcol)
    (fun _ hrow _ hq => bareRest_of_plain (plain_branch (h.plain_column hrow hcol) hq)) ht base

end Aligned

end Elle.Match

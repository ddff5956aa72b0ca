import Elle.Match.FirstMatch
import Elle.Match.Weight

/-!
# The compiled match selects what the sequential one selects

`run_compileMatrix`: on a scrutinee at which no two tests the arms pass at one place are
incompatible (`Coherent`), the tree of a matrix of plain rows runs like the first match over the
rows. Overlapping constructors break it: an array of two elements passes both `[_ _]` and `[_ & r]`,
and the tree commits to the first case.
-/

namespace Elle.Match

open Choices List

variable {F : Type} [Float64 F]

/-! ### Tests at one place -/

/-- No two constructors tested and passed at one place exclude each other. -/
def Coherent (tests : List (AccessPath × Constructor F)) : Prop :=
  ∀ s ∈ tests, ∀ t ∈ tests, s.1 = t.1 → constructorCompatible s.2 t.2

instance (tests : List (AccessPath × Constructor F)) : Decidable (Coherent tests) :=
  inferInstanceAs (Decidable (∀ s ∈ tests, ∀ t ∈ tests, s.1 = t.1 →
    constructorCompatible s.2 t.2))

/-- The tests the rows pass at their columns are among `tests`. -/
def TestsWithin (tests : List (AccessPath × Constructor F)) (access : List AccessPath)
    (vs : List (Value F)) (row : PatternRow F) : Prop :=
  ∀ x ∈ row.patterns.zip (access.zip vs), ∀ t ∈ x.1.shape.tests x.2.1 x.2.2, t ∈ tests

theorem PatternLiteral.eq_trans {a b c : PatternLiteral F} (h : a.eq b)
    (h' : b.eq c) : a.eq c := by
  cases a <;> cases b <;> simp [PatternLiteral.eq] at h
  case float x y =>
    cases c <;> simp [PatternLiteral.eq] at h'
    exact Float64.eq_trans h h'
  all_goals rwa [h]

theorem Refines.compatible {c d target : Constructor F} (hr : Refines d target)
    (h : constructorCompatible c d) : constructorCompatible c target := by
  cases hr with
  | literal hab =>
    cases c with
    | literal a => exact PatternLiteral.eq_trans h hab
    | _ => cases h
  | refl => exact h
  | struct =>
    cases c with
    | struct ks => rfl
    | _ => cases h
  | table =>
    cases c with
    | table ks => rfl
    | _ => cases h

theorem tests_branch {p q : HirPattern F} (hq : q ∈ branches p) (base : AccessPath) (v : Value F) :
    ∀ t ∈ q.shape.tests base v, t ∈ p.shape.tests base v := by
  intro t ht
  cases p with
  | or alts =>
    have key : ∀ l : List (HirPattern F), q ∈ l → t ∈ alternativeTests (alternativeShapes l) base v := by
      intro l
      induction l with
      | nil => exact fun h => nomatch h
      | cons p l ih =>
        intro h
        rcases List.mem_cons.1 h with rfl | h
        · exact mem_append_left _ ht
        · exact mem_append_right _ (ih h)
    exact key alts hq
  | _ =>
    rcases List.mem_singleton.1 hq with rfl
    exact ht

theorem mem_tests_of_test {keep : Bool} {q : HirPattern F} {c : Constructor F} {v : Value F}
    (hp : plain keep q) (hc : patternConstructor q = some c)
    (hv : emitConstructorTest v c) (base : AccessPath) :
    (base, c) ∈ q.shape.tests base v := by
  obtain ⟨children, h⟩ := exists_shape_node hp hc
  rw [h, tests_of_test hv]
  exact mem_cons_self

omit [Float64 F] in
theorem exists_branch_of_mem {keep : Bool} {p : HirPattern F} {c : Constructor F}
    (hp : plain keep p) (hc : c ∈ patternConstructors p) :
    ∃ q ∈ branches p, patternConstructor q = some c := by
  cases p with
  | or alts =>
    have key : ∀ l : List (HirPattern F), c ∈ alternativeConstructors l →
        ∃ q ∈ l, c ∈ patternConstructors q := by
      intro l
      induction l with
      | nil => exact fun h => nomatch h
      | cons p l ih =>
        intro h
        rcases List.mem_append.1 h with h | h
        · exact ⟨p, mem_cons_self, h⟩
        · obtain ⟨q, hq, hqc⟩ := ih h
          exact ⟨q, mem_cons_of_mem _ hq, hqc⟩
    obtain ⟨q, hq, hqc⟩ := key alts hc
    simp only [plain, Bool.and_eq_true, plainAlternatives_iff] at hp
    obtain ⟨d, hd⟩ := Option.isSome_iff_exists.1 (hp.2 q hq).1
    refine ⟨q, hq, ?_⟩
    cases q with
    | or alts' => cases hd
    | _ => exact Option.mem_toList.1 hqc
  | _ => exact ⟨_, mem_singleton_self _, Option.mem_toList.1 hc⟩

omit [Float64 F] in
theorem zip_replaceColumn {α β : Type} {xs : List α} {ys : List β} {new : List α} {new' : List β}
    (h : xs.length = ys.length) (hnew : new.length = new'.length) (col : Nat) :
    (replaceColumn xs col new).zip (replaceColumn ys col new') =
      replaceColumn (xs.zip ys) col (new.zip new') := by
  unfold replaceColumn
  rw [zip_append (by simp [h, hnew]), zip_append (by simp [h]), zip_eq_zipWith,
    zip_eq_zipWith, zip_eq_zipWith, ← take_zipWith, ← drop_zipWith]
  rfl

section

variable {keep : Bool → Bool} {root : Value F} {access : List AccessPath} {vs : List (Value F)}
  {rows : List (PatternRow F)} {row : PatternRow F} {col : Nat} {target : Constructor F}
  {tests : List (AccessPath × Constructor F)}

omit [Float64 F] in
theorem Aligned.mem_zip_column (h : Aligned keep root access vs rows) (hrow : row ∈ rows)
    (hcol : col < access.length) :
    (row.column col, access.getD col .root, vs.getD col .nil) ∈ row.patterns.zip (access.zip vs) := by
  have hp : col < row.patterns.length := h.width row hrow ▸ hcol
  have hv : col < vs.length := h.load.length_eq ▸ hcol
  refine List.mem_iff_getElem.2 ⟨col, by simp [hp, hcol, hv], ?_⟩
  rw [getElem_zip, getElem_zip, PatternRow.column, getD_eq_getElem_of_lt hp,
    getD_eq_getElem_of_lt hcol, getD_eq_getElem_of_lt hv]

section

variable (h : Aligned keep root access vs rows) (hin : ∀ row ∈ rows, TestsWithin tests access vs row)
variable (hcol : col < access.length) (ht : target ∈ collectConstructors rows col)
variable (hv : emitConstructorTest (vs.getD col .nil) target)
include h hin hcol ht hv

theorem Aligned.admits_of_test (hT : Coherent tests) (hrow : row ∈ rows) {q : HirPattern F} (hq : q ∈ branches (row.column col)) {c : Constructor F}
    (hc : patternConstructor q = some c)
    (hvc : emitConstructorTest (vs.getD col .nil) c) : admits target q := by
  have hmem : ∀ {row' : PatternRow F} {q' : HirPattern F} {c' : Constructor F}, row' ∈ rows →
      q' ∈ branches (row'.column col) → patternConstructor q' = some c' →
      emitConstructorTest (vs.getD col .nil) c' → (access.getD col .root, c') ∈ tests := by
    intro row' q' c' hrow' hq' hc' hv'
    have hp := plain_branch (h.plain_column hrow' hcol) hq'
    exact hin row' hrow' _ (h.mem_zip_column hrow' hcol) _
      (tests_branch hq' _ _ _ (mem_tests_of_test hp hc' hv' _))
  obtain ⟨d, hd, hr⟩ := exists_refines ht
  obtain ⟨row', hrow', hin'⟩ := List.mem_flatMap.1 hd
  obtain ⟨q', hq', hc'⟩ := exists_branch_of_mem (h.plain_column hrow' hcol) hin'
  have hcd := hT _ (hmem hrow hq hc hvc) _ (hmem hrow' hq' hc' ((hr.test_eq _).trans hv)) rfl
  simp [admits, hc, hr.compatible hcd]

theorem Aligned.testsWithin_specialize : ∀ row ∈ Match.specialize rows col target (access.getD col .root),
      TestsWithin tests (expandAccess access col target)
        (replaceColumn vs col (subValues target (vs.getD col .nil))) row := by
  intro row' hrow' x hx t htest
  obtain ⟨row, hrow, q, hq, hadm, rfl⟩ := exists_of_mem_specialize hrow'
  have hlenV := h.load.length_eq
  have hlen := (h.length_extract hrow hcol ht hq hadm).1
  have hzip : (subAccess (access.getD col .root) target).zip (subValues target (vs.getD col .nil)) =
      target.steps.map fun s => (s.path (access.getD col .root), s.get (vs.getD col .nil)) := by
    rw [subAccess_eq_map, subValues, zip_map']
  have hwidth : row.patterns.length = (access.zip vs).length := by
    simp [h.width row hrow, hlenV]
  rw [expandAccess, zip_replaceColumn hlenV (by simp [subAccess_eq_map, subValues]), hzip] at hx
  replace hx : x ∈ (replaceColumn row.patterns col (extractSubPatterns q target)).zip _ := hx
  rw [zip_replaceColumn hwidth (by rw [hlen, length_map, Constructor.length_steps])] at hx
  rcases mem_replaceColumn hx with hx | hx
  · exact hin row hrow x hx t htest
  · rw [zip_map_right] at hx
    obtain ⟨⟨q', s⟩, hqs, rfl⟩ := List.mem_map.1 hx
    refine hin row hrow _ (h.mem_zip_column hrow hcol) t (tests_branch hq _ _ t ?_)
    have hp := h.plain_column hrow hcol
    rcases branch_cases hp hq with hw | ⟨c, hc⟩
    · have hq' : q' = .wildcard := by
        have := (of_mem_zip hqs).1
        rcases eq_of_isWildcard hw with rfl | ⟨b, rfl⟩ <;>
          exact (List.mem_replicate.1 this).2
      rw [hq'] at htest
      cases htest
    · have hr := refines_of_admits hrow ht hq hadm c hc
      exact (hr.split (plain_branch hp hq) hc).tests_subset hr hv hqs t htest

end

theorem Aligned.testsWithin_defaultMatrix (h : Aligned keep root access vs rows)
    (hin : ∀ row ∈ rows, TestsWithin tests access vs row) :
    ∀ row ∈ Match.defaultMatrix rows col (access.getD col .root),
      TestsWithin tests (removeColumn access col) (replaceColumn vs col []) row := by
  intro row' hrow' x hx t htest
  obtain ⟨row, hrow, rfl⟩ := List.mem_map.1 hrow'
  have hrow := (List.mem_filter.1 hrow).1
  have hlenV := h.load.length_eq
  have hwidth : row.patterns.length = (access.zip vs).length := by
    simp [h.width row hrow, hlenV]
  rw [removeColumn, zip_replaceColumn hlenV rfl] at hx
  replace hx : x ∈ (replaceColumn row.patterns col []).zip _ := hx
  rw [zip_replaceColumn hwidth rfl] at hx
  rcases mem_replaceColumn hx with hx | hx
  · exact hin row hrow x hx t htest
  · cases hx

/-! ### The rows of a case and of the default -/

def candidates (root : Value F) (vs : List (Value F)) (rows : List (PatternRow F)) : List (Candidate F) :=
  rows.map fun row => ⟨row.armIndex, row.hasGuard, row.ways root vs⟩

omit [Float64 F] in
theorem mem_specializeRow_eq [Float64 F] {row' : PatternRow F} {base : AccessPath}
    (h : row' ∈ specializeRow col target base row) :
    row'.armIndex = row.armIndex ∧ row'.hasGuard = row.hasGuard := by
  rw [specializeRow_eq] at h
  obtain ⟨q, -, rfl⟩ := List.mem_map.1 h
  exact ⟨rfl, rfl⟩

/-- The guarded rows match in at most one way. -/
def GuardsClear (root : Value F) (vs : List (Value F)) (rows : List (PatternRow F)) : Prop :=
  ∀ row ∈ rows, row.hasGuard → Clear (row.ways root vs)

section

variable (h : Aligned id root access vs rows) (hin : ∀ row ∈ rows, TestsWithin tests access vs row)
variable (hcol : col < access.length) (ht : target ∈ collectConstructors rows col)
variable (hv : emitConstructorTest (vs.getD col .nil) target) (hT : Coherent tests)
include h hin hcol ht hv hT

theorem Aligned.sameWays_specializeRow (hrow : row ∈ rows) : SameWays row.hasGuard
      ((specializeRow col target (access.getD col .root) row).map (PatternRow.ways root
        (replaceColumn vs col (subValues target (vs.getD col .nil))))).flatten
      (row.ways root vs) := by
  intro w hw
  obtain ⟨stores, hs⟩ := h.stores row hrow
  have hp := h.plain_column hrow hcol
  rw [total_flatten, List.map_map, h.total_row hcol hrow hs]
  refine (h.total_specializeRow hcol ht hv hrow hs hw).trans ?_
  congr 1
  -- a branch that is not kept fails its own test, so it matches in no way
  have hdrop : ∀ l : List (HirPattern F), (∀ q ∈ l, q ∈ branches (row.column col)) →
      ((l.filter (admits target)).map fun q => total w (q.shape.choices (vs.getD col .nil))).sum =
        (l.map fun q => total w (q.shape.choices (vs.getD col .nil))).sum := by
    intro l
    induction l with
    | nil => exact fun _ => rfl
    | cons q l ih =>
      intro hl
      have ih := ih fun q' hq' => hl q' (mem_cons_of_mem _ hq')
      have hq := hl q mem_cons_self
      cases hadm : admits target q with
      | true => rw [filter_cons_of_pos hadm, map_cons, map_cons, sum_cons, sum_cons, ih]
      | false =>
        have hzero : total w (q.shape.choices (vs.getD col .nil)) = 0 := by
          rcases branch_cases hp hq with hwild | ⟨c, hc⟩
          · simp [admits, hwild] at hadm
          · refine total_eq_zero_of_test_false (plain_branch hp hq) hc ?_ w
            refine Bool.eq_false_iff.2 fun hvc => ?_
            rw [h.admits_of_test hin hcol ht hv hT hrow hq hc hvc] at hadm
            cases hadm
        rw [filter_cons_of_neg (by simp [hadm]), ih, map_cons, sum_cons, hzero, Nat.zero_add]
  exact hdrop _ fun _ hq => hq

theorem Aligned.guardsClear_specialize (hclear : GuardsClear root vs rows) :
    GuardsClear root (replaceColumn vs col (subValues target (vs.getD col .nil)))
      (Match.specialize rows col target (access.getD col .root)) := by
  intro row' hrow' hguard
  obtain ⟨row, hrow, hin'⟩ := List.mem_flatMap.1 hrow'
  have hg : row.hasGuard := (mem_specializeRow_eq hin').2 ▸ hguard
  have hsame := h.sameWays_specializeRow hin hcol ht hv hT hrow
  rw [hg] at hsame
  refine (Clear.of_sameWays hsame (hclear row hrow hg)).sublist ?_
  exact sublist_flatten_of_mem (List.mem_map.2 ⟨row', hin', rfl⟩)

theorem Aligned.firstMatch_specialize (oracle : Oracle F) (hclear : GuardsClear root vs rows) :
    firstMatch oracle (candidates root
        (replaceColumn vs col (subValues target (vs.getD col .nil)))
        (Match.specialize rows col target (access.getD col .root))) =
      firstMatch oracle (candidates root vs rows) :=
  firstMatch_flatMap oracle rows _ (·.armIndex) (·.hasGuard) _ _
    (fun _ _ _ hr => mem_specializeRow_eq hr)
    (fun _ hrow => h.sameWays_specializeRow hin hcol ht hv hT hrow) hclear

end

section

variable (h : Aligned id root access vs rows) (hcol : col < access.length)
include h hcol

section

variable (hv : ∀ target ∈ collectConstructors rows col, emitConstructorTest (vs.getD col .nil) target = false)
include hv

theorem Aligned.sameWays_default (hrow : row ∈ rows) :
    SameWays row.hasGuard ((if isWildcard (row.column col) then
        [row.replace col [] (varBinding (row.column col) (access.getD col .root))] else []).map
          (PatternRow.ways root (replaceColumn vs col []))).flatten
      (row.ways root vs) := by
  intro w _
  cases hwild : isWildcard (row.column col) with
  | true => simpa using h.total_defaultRow hcol hrow hwild w
  | false => simpa using (h.total_dropped hcol hv hrow hwild w).symm

theorem Aligned.firstMatch_default (oracle : Oracle F) (hclear : GuardsClear root vs rows) :
    firstMatch oracle (candidates root (replaceColumn vs col [])
        (Match.defaultMatrix rows col (access.getD col .root))) =
      firstMatch oracle (candidates root vs rows) := by
  rw [defaultMatrix_eq_flatMap]
  refine firstMatch_flatMap oracle rows _ (·.armIndex) (·.hasGuard) _ _ (fun row _ row' hr => ?_)
    (fun _ hrow => h.sameWays_default hcol hv hrow) hclear
  split at hr
  · rcases List.mem_singleton.1 hr with rfl
    exact ⟨rfl, rfl⟩
  · cases hr

end

theorem Aligned.guardsClear_default (hclear : GuardsClear root vs rows) :
    GuardsClear root (replaceColumn vs col []) (Match.defaultMatrix rows col (access.getD col .root)) := by
  intro row' hrow' hguard
  obtain ⟨row, hrow, rfl⟩ := List.mem_map.1 hrow'
  obtain ⟨hrow, hwild⟩ := List.mem_filter.1 hrow
  exact Clear.of_sameWays (fun w _ => h.total_defaultRow hcol hrow hwild w) (hclear row hrow hguard)

end

/-! ### The run of a tree -/

omit [Float64 F] in
theorem exists_loaded {P : List (HirPattern F) → List (Value F) → Stores F → Prop} (nil : P [] [] [])
    (wildcard : ∀ {ps vs s v}, P ps vs s → P (.wildcard :: ps) (v :: vs) s)
    (var : ∀ {ps vs s v b}, P ps vs s → P (.var b :: ps) (v :: vs) ((b, v) :: s))
    (hload : List.Forall₂ (fun a v => loadAccessPath root a = some v) access vs)
    {ps : List (HirPattern F)} (hlen : ps.length = access.length) (hwild : ps.all isWildcard) :
    ∃ s, loadBindings root
      ((ps.zip access).flatMap fun pa => collectPatternBindings pa.1 pa.2) = some s ∧ P ps vs s := by
  induction hload generalizing ps with
  | nil =>
    rcases ps with - | ⟨p, ps⟩
    · exact ⟨[], rfl, nil⟩
    · cases hlen
  | @cons a v access vs ha _ ih =>
    rcases ps with - | ⟨p, ps⟩
    · cases hlen
    · rw [all_cons, Bool.and_eq_true] at hwild
      obtain ⟨s, hs, hp⟩ := ih (Nat.succ_injective hlen) hwild.2
      rcases eq_of_isWildcard hwild.1 with rfl | ⟨b, rfl⟩
      · exact ⟨s, hs, wildcard hp⟩
      · have hb : loadBindings root [(b, a)] = some [(b, v)] := by simp [loadBindings, ha]
        exact ⟨(b, v) :: s, loadBindings_append hb hs, var hp⟩

theorem Aligned.leaf (h : Aligned keep root access vs rows) (hrow : row ∈ rows)
    (hwild : row.patterns.all isWildcard) :
    ∃ s, loadBindings root (leafBindings row access) = some s ∧ row.ways root vs = [s] := by
  obtain ⟨s, hs⟩ := h.stores row hrow
  obtain ⟨t, ht, hways⟩ := exists_loaded (P := fun ps vs s => columnsChoices ps vs = [s]) rfl
    (fun h => by rw [columnsChoices, h]; rfl) (fun h => by rw [columnsChoices, h]; rfl) h.load
    (h.width row hrow) hwild
  refine ⟨s ++ t, loadBindings_append hs ht, ?_⟩
  rw [PatternRow.ways, hways, hs]
  rfl

theorem runCases_map (oracle : Oracle F) (v : Value F) (ctors : List (Constructor F))
    (f : Constructor F → DecisionTree F) (otherwise : Next F) :
    runCases oracle root v (ctors.map fun c => (c, f c)) otherwise =
      match ctors.find? (emitConstructorTest v) with
      | some c => (f c).run oracle root
      | none => otherwise := by
  induction ctors with
  | nil => rfl
  | cons c ctors ih =>
    rw [map_cons, runCases, ih, find?_cons]
    cases emitConstructorTest v c <;> rfl

theorem Aligned.selectColumn_spec {remaining : List (PatternRow F)}
    (h : Aligned keep root access vs (row :: remaining))
    (hwild : row.patterns.all isWildcard = false) :
    selectColumn (row :: remaining) < access.length ∧
      columnConstructors (row :: remaining) (selectColumn (row :: remaining)) ≠ [] := by
  obtain ⟨p, hp, hpw⟩ := List.all_eq_false.1 hwild
  obtain ⟨i, hi, rfl⟩ := List.mem_iff_getElem.1 hp
  have hrow : row ∈ row :: remaining := mem_cons_self
  have hpw : isWildcard row.patterns[i] = false := Bool.eq_false_iff.2 hpw
  have hcolumn : row.column i = row.patterns[i] := getD_eq_getElem_of_lt hi _
  obtain ⟨hne, hctor⟩ := exists_branch (h.plain row hrow _ hp) hpw
  obtain ⟨q, hq⟩ := exists_mem_of_ne_nil _ hne
  obtain ⟨c, hc⟩ := hctor q hq
  have hmem : c ∈ columnConstructors (row :: remaining) i :=
    mem_columnConstructors hrow (by rwa [hcolumn]) hc
  have hspec := Match.selectColumn_spec hi (ne_nil_of_mem hmem)
  exact ⟨h.width row hrow ▸ hspec.1, hspec.2⟩

end

theorem run_compileMatrix (oracle : Oracle F) {root : Value F}
    {tests : List (AccessPath × Constructor F)} (hT : Coherent tests) :
    ∀ (fuel : Nat) (rows : List (PatternRow F)) (access : List AccessPath) (vs : List (Value F)),
      Aligned id root access vs rows → (∀ row ∈ rows, TestsWithin tests access vs row) →
      GuardsClear root vs rows → rowsWeight rows < fuel →
      (compileMatrix fuel rows access).run oracle root =
        firstMatch oracle (candidates root vs rows) := by
  intro fuel
  induction fuel with
  | zero => intro rows access vs _ _ _ hfuel; exact absurd hfuel (Nat.not_lt_zero _)
  | succ fuel ih =>
    intro rows access vs h hin hclear hfuel
    rcases rows with - | ⟨row, remaining⟩
    · rfl
    have hrow : row ∈ row :: remaining := mem_cons_self
    rw [compileMatrix]
    cases hwild : row.patterns.all isWildcard with
    | true =>
      obtain ⟨s, hs, hways⟩ := h.leaf hrow hwild
      have hremaining := ih remaining access vs
        ⟨h.load, fun r hr => h.width r (mem_cons_of_mem _ hr),
          fun r hr => h.plain r (mem_cons_of_mem _ hr),
          fun r hr => h.stores r (mem_cons_of_mem _ hr)⟩
        (fun r hr => hin r (mem_cons_of_mem _ hr))
        (fun r hr => hclear r (mem_cons_of_mem _ hr))
        (by
          have := columnsWeight_pos row.patterns
          rw [rowsWeight, map_cons, sum_cons] at hfuel
          rw [rowsWeight]
          omega)
      rw [if_pos rfl, candidates, map_cons, hways, firstMatch]
      cases hg : row.hasGuard with
      | true =>
        rw [if_pos rfl, if_pos rfl, DecisionTree.run, hs]
        rw [hremaining]
        rfl
      | false =>
        simp [DecisionTree.run, hs]
    | false =>
      obtain ⟨hcol, hne⟩ := h.selectColumn_spec hwild
      rw [if_neg (by simp)]
      simp only [DecisionTree.run, runCases_map]
      generalize selectColumn (row :: remaining) = col at hcol hne ⊢
      rw [h.load_column hcol]
      dsimp only
      cases hfind : (collectConstructors (row :: remaining) col).find?
          (emitConstructorTest (vs.getD col .nil)) with
      | some target =>
        have ht := mem_of_find?_eq_some hfind
        have hv := find?_some hfind
        have hweight := h.weight_specialize hcol ht (access.getD col .root)
        exact (ih _ _ _ (h.specialize hcol ht hv) (h.testsWithin_specialize hin hcol ht hv)
          (h.guardsClear_specialize hin hcol ht hv hT hclear) (by omega)).trans
          (h.firstMatch_specialize hin hcol ht hv hT oracle hclear)
      | none =>
        have hv : ∀ target ∈ collectConstructors (row :: remaining) col,
            emitConstructorTest (vs.getD col .nil) target = false := by
          intro target ht
          exact Bool.eq_false_iff.2 (List.find?_eq_none.1 hfind target ht)
        have hdefault := h.firstMatch_default hcol hv oracle hclear
        have hweight := weight_defaultMatrix (h.column_lt hcol) hne (access.getD col .root)
        rw [← hdefault]
        show runDefault oracle root _ = _
        split
        · next hempty =>
          rw [List.isEmpty_iff.1 hempty]
          rfl
        · exact ih _ _ _ (h.defaultMatrix hcol) (h.testsWithin_defaultMatrix hin)
            (h.guardsClear_default hcol hclear) (by omega)

/-! ### The two lowerings of a match -/

/-- The patterns of an arm, its top or-pattern expanded, are plain. -/
def ArmsPlain (arms : List (Arm F)) : Prop :=
  ∀ arm ∈ arms, ∀ alt ∈ expandOrPattern arm.pattern, plain arm.hasGuard alt

/-- The tests the arms make on a scrutinee and it passes. -/
def armTests (arms : List (Arm F)) (v : Value F) : List (AccessPath × Constructor F) :=
  arms.flatMap fun arm => (expandOrPattern arm.pattern).flatMap fun alt => alt.shape.tests .root v

/-- Each alternative of a guarded arm matches the scrutinee in at most one way. -/
def ArmsClear (arms : List (Arm F)) (v : Value F) : Prop :=
  ∀ arm ∈ arms, arm.hasGuard → ∀ alt ∈ expandOrPattern arm.pattern, Clear (alt.shape.choices v)

instance (arms : List (Arm F)) : Decidable (ArmsPlain arms) :=
  inferInstanceAs (Decidable (∀ arm ∈ arms, ∀ alt ∈ expandOrPattern arm.pattern,
    plain arm.hasGuard alt))

instance (arms : List (Arm F)) (v : Value F) : Decidable (ArmsClear arms v) :=
  inferInstanceAs (Decidable (∀ arm ∈ arms, arm.hasGuard →
    ∀ alt ∈ expandOrPattern arm.pattern, Clear (alt.shape.choices v)))

theorem ways_new (alt : HirPattern F) (hasGuard : Bool) (arm : Nat) (v : Value F) :
    (PatternRow.new alt hasGuard arm).ways v [v] = alt.shape.choices v := by
  have hnil : ∀ xs : List (Stores F), cross xs [[]] = xs := by
    intro xs
    induction xs with
    | nil => rfl
    | cons x xs ih => simp_all [cross]
  show cross [[]] (cross (alt.shape.choices v) [[]]) = _
  simp [cross]

omit [Float64 F] in
theorem mem_fromArms {arms : List (Arm F)} {i : Nat} {row : PatternRow F}
    (h : row ∈ fromArms i arms) : ∃ arm ∈ arms, ∃ alt ∈ expandOrPattern arm.pattern, ∃ j,
      row = PatternRow.new alt arm.hasGuard j := by
  induction arms generalizing i with
  | nil => cases h
  | cons arm arms ih =>
    rcases List.mem_append.1 h with h | h
    · obtain ⟨alt, halt, rfl⟩ := List.mem_map.1 h
      exact ⟨arm, mem_cons_self, alt, halt, i, rfl⟩
    · obtain ⟨arm', harm', rest⟩ := ih h
      exact ⟨arm', mem_cons_of_mem _ harm', rest⟩

theorem runAlternatives_eq_firstMatch (oracle : Oracle F) (i : Nat) {hasGuard : Bool} {v : Value F}
    (cs : List (Candidate F)) {alts : List (HirPattern F)}
    (hclear : hasGuard → ∀ alt ∈ alts, Clear (alt.shape.choices v)) :
    runAlternatives oracle i hasGuard v (firstMatch oracle cs) alts =
      firstMatch oracle (alts.map (fun alt => ⟨i, hasGuard, alt.shape.choices v⟩) ++ cs) := by
  induction alts with
  | nil => rfl
  | cons alt alts ih =>
    have ih := ih fun hg a ha => hclear hg a (mem_cons_of_mem _ ha)
    rw [runAlternatives, lowerPatternMatch_eq_head?, ih, map_cons, cons_append, firstMatch]
    cases hways : alt.shape.choices v with
    | nil => cases hasGuard <;> rfl
    | cons s ss =>
      cases hasGuard with
      | false => rfl
      | true =>
        have hle := (hclear rfl alt mem_cons_self).1
        rw [hways, length_cons] at hle
        rcases ss with - | ⟨s', ss⟩
        · rfl
        · simp at hle

theorem lowerMatchSequential_eq_firstMatch (oracle : Oracle F) {v : Value F} {arms : List (Arm F)}
    (hclear : ArmsClear arms v) (i : Nat) :
    lowerMatchSequential oracle v i arms =
      firstMatch oracle (candidates v [v] (fromArms i arms)) := by
  induction arms generalizing i with
  | nil => rfl
  | cons arm arms ih =>
    have ih := ih (fun a ha => hclear a (mem_cons_of_mem _ ha)) (i + 1)
    rw [lowerMatchSequential, ih,
      runAlternatives_eq_firstMatch oracle i _ (hclear arm mem_cons_self), fromArms,
      candidates, candidates, map_append, List.map_map]
    congr 2
    refine map_congr_left fun alt _ => ?_
    rw [Function.comp_apply, ways_new]
    rfl

/-- Integers in the place of floats, to evaluate matches. -/
instance : Float64 Int where
  eq := (· == ·)
  ofIntEq := (· == ·)
  bits := Int.toNat
  eq_symm := by
    intro x y h
    rwa [BEq.comm]
  eq_trans := by
    intro x y z h h'
    rw [eq_of_beq h]
    exact h'
  ofIntEq_of_eq := by
    intro n x y h h'
    rw [← eq_of_beq h]
    exact h'
  eq_self_of_ofIntEq := fun _ => beq_self_eq_true _

/-- The arms `[1 x] when ..` and `[(or 1 2) y]`. -/
def pairArms : List (Arm Int) :=
  [⟨.tuple [.literal (.int 1), .var 0] none, true⟩,
    ⟨.tuple [.or [.literal (.int 1), .literal (.int 2)], .var 1] none, false⟩]

/-- The arms `[1 9]` and `[x & r]`: an array of two elements passes the tests of both. -/
def overlappingArms : List (Arm Int) :=
  [⟨.tuple [.literal (.int 1), .literal (.int 9)] none, false⟩, ⟨.tuple [.var 0] (some (.var 1)), false⟩]

end Elle.Match

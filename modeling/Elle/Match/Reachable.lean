import Elle.Match.Select

/-!
# The arms a tree reaches

The unreachable-arm check reads the arms off the leaves and guards of the compiled tree. A row that
matches is followed into the case of its own constructor, where no row that fails the value can have
become one of wildcards. So overlapping constructors do no harm here.
-/

namespace Elle.Match

open Choices List

variable {F : Type}

mutual

def DecisionTree.reachableArms : DecisionTree F → List Nat
  | .leaf arm _ => [arm]
  | .fail => []
  | .switch _ cases default => reachableCases cases ++ reachableDefault default
  | .guard arm _ otherwise => arm :: otherwise.reachableArms

def reachableCases : List (Constructor F × DecisionTree F) → List Nat
  | [] => []
  | (_, tree) :: cases => tree.reachableArms ++ reachableCases cases

def reachableDefault : Option (DecisionTree F) → List Nat
  | none => []
  | some tree => tree.reachableArms

end

theorem mem_reachableCases {cases : List (Constructor F × DecisionTree F)} {c : Constructor F}
    {tree : DecisionTree F} {i : Nat} (h : (c, tree) ∈ cases) (hi : i ∈ tree.reachableArms) :
    i ∈ reachableCases cases := by
  induction cases with
  | nil => cases h
  | cons d cases ih =>
    rcases List.mem_cons.1 h with rfl | h
    · exact mem_append_left _ hi
    · exact mem_append_right _ (ih h)

variable [Float64 F]

def unreachableArms (arms : List (Arm F)) : List Nat :=
  (List.range arms.length).filter fun i =>
    i ∉ (compile (fromArms 0 arms) [.root]).reachableArms

theorem literalEq_self {lit : PatternLiteral F} {v : Value F} (h : literalEq lit v) :
    lit.eq lit := by
  cases lit with
  | float x =>
    cases v with
    | int n => exact Float64.eq_self_of_ofIntEq h
    | float y => exact Float64.eq_trans (Float64.eq_symm h) h
    | _ => cases h
  | _ => simp [PatternLiteral.eq]

theorem exists_compatible_test {rows : List (PatternRow F)} {col : Nat} {c : Constructor F}
    {v : Value F} (hc : c ∈ columnConstructors rows col) (hv : emitConstructorTest v c) :
    ∃ target ∈ collectConstructors rows col, constructorCompatible c target ∧
      emitConstructorTest v target := by
  cases c with
  | struct ks =>
    have hd := mem_distinct_of_keyed hc (Or.inl rfl)
    exact ⟨_, mem_collectConstructors.2 (Or.inr (Or.inl ⟨rfl, _, hd, rfl⟩)), rfl, hv⟩
  | table ks =>
    have hd := mem_distinct_of_keyed hc (Or.inr rfl)
    exact ⟨_, mem_collectConstructors.2 (Or.inr (Or.inr ⟨rfl, _, hd, rfl⟩)), rfl, hv⟩
  | literal lit =>
    obtain ⟨s, hs, hsame⟩ := @exists_mem_distinctBy F Constructor.eq _ _ hc
    have heq : ∃ lit', s = .literal lit' ∧ lit.eq lit' := by
      rcases hsame with rfl | heq
      · exact ⟨lit, rfl, literalEq_self hv⟩
      · rcases Constructor.eq_cases heq with ⟨a, b, rfl, hb, hab⟩ | rfl
        · cases hb
          exact ⟨a, rfl, PatternLiteral.eq_symm hab⟩
        · exact ⟨lit, rfl, literalEq_self hv⟩
    obtain ⟨lit', rfl, heq⟩ := heq
    exact ⟨_, mem_collectConstructors.2 (Or.inl ⟨hs, rfl, rfl⟩), heq, literalEq_of_eq heq hv⟩
  | _ =>
    obtain ⟨s, hs, rfl | heq⟩ := @exists_mem_distinctBy F Constructor.eq _ _ hc
    · exact ⟨_, mem_collectConstructors.2 (Or.inl ⟨hs, rfl, rfl⟩), by
        simp [constructorCompatible, Constructor.eq], hv⟩
    · rcases Constructor.eq_cases heq with ⟨a, b, -, hb, -⟩ | rfl
      · cases hb
      · exact ⟨_, mem_collectConstructors.2 (Or.inl ⟨hs, rfl, rfl⟩), heq, hv⟩

/-! ### Following a row that matches -/

section

variable {keep : Bool → Bool} {root : Value F} {access : List AccessPath} {vs : List (Value F)}
  {rows : List (PatternRow F)} {row : PatternRow F} {col : Nat} {target : Constructor F}

/-- A row that matches, with every row before it that matches guarded or for the same arm. -/
def Follows (root : Value F) (vs : List (Value F)) (arm : Nat) (rows : List (PatternRow F)) : Prop :=
  ∃ (pre : List (PatternRow F)) (row : PatternRow F) (post : _), rows = pre ++ row :: post ∧ row.armIndex = arm ∧ row.ways root vs ≠ [] ∧
    ∀ r ∈ pre, r.ways root vs ≠ [] → r.hasGuard ∨ r.armIndex = arm

omit [Float64 F] in
theorem ways_ne_nil {ways : List (Stores F)} : ways ≠ [] ↔ total (fun _ => 1) ways ≠ 0 := by
  rw [total_one, Ne, Ne, length_eq_zero_iff]

section

variable (h : Aligned (fun _ => false) root access vs rows) (hcol : col < access.length)
include h hcol

theorem Aligned.ways_of_specializeRow (ht : target ∈ collectConstructors rows col)
    (hv : emitConstructorTest (vs.getD col .nil) target) (hrow : row ∈ rows)
    {row' : PatternRow F} (hin : row' ∈ specializeRow col target (access.getD col .root) row)
    (hways : row'.ways root (replaceColumn vs col (subValues target (vs.getD col .nil))) ≠ []) :
    row.ways root vs ≠ [] := by
  obtain ⟨s, hs⟩ := h.stores row hrow
  have hsum := h.total_specializeRow hcol ht hv hrow hs (fun _ => rfl)
  rw [ways_ne_nil] at hways ⊢
  rw [h.total_row hcol hrow hs]
  intro hzero
  have hle : (((branches (row.column col)).filter (admits target)).map fun q =>
      total (fun _ => 1) (q.shape.choices (vs.getD col .nil))).sum ≤
      ((branches (row.column col)).map fun q =>
        total (fun _ => 1) (q.shape.choices (vs.getD col .nil))).sum :=
    (List.filter_sublist.map _).sum_le_sum fun _ _ => Nat.zero_le _
  have hall : ((specializeRow col target (access.getD col .root) row).map fun row' =>
      total (fun _ => 1)
        (row'.ways root (replaceColumn vs col (subValues target (vs.getD col .nil))))).sum = 0 := by
    rw [hsum]
    rcases Nat.mul_eq_zero.1 hzero with hz | hz
    · rw [hz, Nat.zero_mul]
    · rw [hz] at hle
      rw [Nat.le_zero.1 hle, Nat.mul_zero]
  exact hways (List.sum_eq_zero_iff.1 hall _ (List.mem_map.2 ⟨row', hin, rfl⟩))

/-- A row that matches goes on in a case the value passes, or it does not look at the column and the
value passes none. -/
theorem Aligned.exists_case (hrow : row ∈ rows) (hways : row.ways root vs ≠ []) :
    (∃ target ∈ collectConstructors rows col,
      emitConstructorTest (vs.getD col .nil) target ∧
      ∃ row' ∈ specializeRow col target (access.getD col .root) row,
        row'.ways root (replaceColumn vs col (subValues target (vs.getD col .nil))) ≠ []) ∨
    (isWildcard (row.column col) ∧ ∀ target ∈ collectConstructors rows col,
      emitConstructorTest (vs.getD col .nil) target = false) := by
  obtain ⟨s, hs⟩ := h.stores row hrow
  have hp := h.plain_column hrow hcol
  rw [ways_ne_nil, h.total_row hcol hrow hs, Ne, Nat.mul_eq_zero, not_or] at hways
  obtain ⟨q, hq, hqne⟩ : ∃ q ∈ branches (row.column col),
      total (fun _ => 1) (q.shape.choices (vs.getD col .nil)) ≠ 0 := by
    by_contra hnone
    refine hways.2 (sum_eq_zero fun n hn => ?_)
    obtain ⟨q, hq, rfl⟩ := List.mem_map.1 hn
    by_contra hne
    exact hnone ⟨q, hq, hne⟩
  -- a constructor whose case keeps `q` keeps a row that matches
  have hfollow : ∀ target ∈ collectConstructors rows col,
      emitConstructorTest (vs.getD col .nil) target → admits target q →
      ∃ row' ∈ specializeRow col target (access.getD col .root) row,
        row'.ways root (replaceColumn vs col (subValues target (vs.getD col .nil))) ≠ [] := by
    intro target ht hv hadm
    by_contra hnone
    have hsum := h.total_specializeRow hcol ht hv hrow hs (fun _ => rfl)
    have hzero : ((specializeRow col target (access.getD col .root) row).map fun row' =>
        total (fun _ => 1)
          (row'.ways root (replaceColumn vs col (subValues target (vs.getD col .nil))))).sum = 0 := by
      refine sum_eq_zero fun n hn => ?_
      obtain ⟨row', hrow', rfl⟩ := List.mem_map.1 hn
      by_contra hne
      exact hnone ⟨row', hrow', ways_ne_nil.2 hne⟩
    rw [hsum, Nat.mul_eq_zero] at hzero
    refine hqne (List.sum_eq_zero_iff.1 (hzero.resolve_left hways.1) _ ?_)
    exact List.mem_map.2 ⟨q, List.mem_filter.2 ⟨hq, hadm⟩, rfl⟩
  rcases branch_cases hp hq with hwild | ⟨c, hc⟩
  · by_cases hpass : ∃ target ∈ collectConstructors rows col,
        emitConstructorTest (vs.getD col .nil) target
    · obtain ⟨target, ht, hv⟩ := hpass
      exact Or.inl ⟨target, ht, hv, hfollow target ht hv (by simp [admits, hwild])⟩
    · refine Or.inr ⟨?_, fun target ht => Bool.eq_false_iff.2 fun hv => hpass ⟨target, ht, hv⟩⟩
      by_contra hnw
      obtain ⟨c, hc⟩ := (exists_branch hp (Bool.eq_false_iff.2 hnw)).2 q hq
      rcases eq_of_isWildcard hwild with rfl | ⟨b, rfl⟩ <;> cases hc
  · have hv : emitConstructorTest (vs.getD col .nil) c := by
      by_contra hne
      exact hqne (total_eq_zero_of_test_false (plain_branch hp hq) hc (Bool.eq_false_iff.2 hne) _)
    obtain ⟨target, ht, hcomp, hvt⟩ := exists_compatible_test (mem_columnConstructors hrow hq hc) hv
    exact Or.inl ⟨target, ht, hvt, hfollow target ht hvt (by simp [admits, hc, hcomp])⟩

end

theorem Aligned.follows_specialize {arm : Nat} {pre post : List (PatternRow F)}
    (h : Aligned (fun _ => false) root access vs (pre ++ row :: post)) (hcol : col < access.length)
    (ht : target ∈ collectConstructors (pre ++ row :: post) col)
    (hv : emitConstructorTest (vs.getD col .nil) target) (harm : row.armIndex = arm)
    (hpre : ∀ r ∈ pre, r.ways root vs ≠ [] → r.hasGuard ∨ r.armIndex = arm)
    {row' : PatternRow F} (hrow' : row' ∈ specializeRow col target (access.getD col .root) row)
    (hways : row'.ways root (replaceColumn vs col (subValues target (vs.getD col .nil))) ≠ []) :
    Follows root (replaceColumn vs col (subValues target (vs.getD col .nil))) arm
      (Match.specialize (pre ++ row :: post) col target (access.getD col .root)) := by
  obtain ⟨before, after, hsplit⟩ := append_of_mem hrow'
  refine ⟨pre.flatMap (specializeRow col target (access.getD col .root)) ++ before, row',
    after ++ post.flatMap (specializeRow col target (access.getD col .root)), ?_, ?_, hways, ?_⟩
  · rw [Match.specialize, flatMap_append, flatMap_cons, hsplit, append_assoc, append_assoc, cons_append]
  · rw [(mem_specializeRow_eq hrow').1, harm]
  · intro r hr hrways
    rcases List.mem_append.1 hr with hr | hr
    · obtain ⟨r₀, hr₀, hin⟩ := List.mem_flatMap.1 hr
      have hways₀ := h.ways_of_specializeRow hcol ht hv (mem_append_left _ hr₀) hin hrways
      obtain ⟨ha, hg⟩ := mem_specializeRow_eq hin
      rw [ha, hg]
      exact hpre r₀ hr₀ hways₀
    · have hin : r ∈ specializeRow col target (access.getD col .root) row := by
        rw [hsplit]
        exact mem_append_left _ hr
      exact Or.inr ((mem_specializeRow_eq hin).1.trans harm)

theorem Aligned.follows_default {arm : Nat} {pre post : List (PatternRow F)}
    (h : Aligned (fun _ => false) root access vs (pre ++ row :: post)) (hcol : col < access.length)
    (hwild : isWildcard (row.column col)) (harm : row.armIndex = arm)
    (hways : row.ways root vs ≠ [])
    (hpre : ∀ r ∈ pre, r.ways root vs ≠ [] → r.hasGuard ∨ r.armIndex = arm) :
    Follows root (replaceColumn vs col []) arm
      (Match.defaultMatrix (pre ++ row :: post) col (access.getD col .root)) := by
  have hkeep : ∀ r ∈ pre ++ row :: post, isWildcard (r.column col) →
      ((r.replace col [] (varBinding (r.column col) (access.getD col .root))).ways root
        (replaceColumn vs col []) ≠ [] ↔ r.ways root vs ≠ []) := by
    intro r hr hw
    rw [ways_ne_nil, ways_ne_nil, h.total_defaultRow hcol hr hw]
  have hrow : row ∈ pre ++ row :: post := mem_append_right _ mem_cons_self
  refine ⟨Match.defaultMatrix pre col (access.getD col .root),
    row.replace col [] (varBinding (row.column col) (access.getD col .root)),
    Match.defaultMatrix post col (access.getD col .root), ?_, harm, (hkeep row hrow hwild).2 hways, ?_⟩
  · simp [Match.defaultMatrix, hwild]
  · intro r hr hrways
    obtain ⟨r₀, hr₀, rfl⟩ := List.mem_map.1 hr
    obtain ⟨hr₀, hw⟩ := List.mem_filter.1 hr₀
    exact hpre r₀ hr₀ ((hkeep r₀ (mem_append_left _ hr₀) hw).1 hrways)

end

theorem mem_reachableArms {root : Value F} {arm : Nat} :
    ∀ (fuel : Nat) (rows : List (PatternRow F)) (access : List AccessPath) (vs : List (Value F)),
      Aligned (fun _ => false) root access vs rows → Follows root vs arm rows →
      rowsWeight rows < fuel → arm ∈ (compileMatrix fuel rows access).reachableArms := by
  intro fuel
  induction fuel with
  | zero => intro rows access vs _ _ hfuel; exact absurd hfuel (Nat.not_lt_zero _)
  | succ fuel ih =>
    rintro rows access vs h ⟨pre, row, post, rfl, harm, hways, hpre⟩ hfuel
    obtain ⟨first, remaining, hrows⟩ := exists_cons_of_ne_nil (show pre ++ row :: post ≠ [] by simp)
    have hrow : row ∈ first :: remaining := hrows ▸ mem_append_right _ mem_cons_self
    have hfirst : first ∈ first :: remaining := mem_cons_self
    rw [hrows] at h hfuel ⊢
    rw [compileMatrix]
    cases hwild : first.patterns.all isWildcard with
    | true =>
      obtain ⟨s, -, hs⟩ := h.leaf hfirst hwild
      rw [if_pos rfl]
      -- the first row matches: it is the row followed, or one before it
      rcases pre with - | ⟨p, pre⟩
      · cases hrows
        split <;> simp [DecisionTree.reachableArms, harm]
      · rw [cons_append] at hrows
        obtain ⟨rfl, rfl⟩ := List.cons_eq_cons.1 hrows
        rcases hpre p mem_cons_self (by simp [hs]) with hg | ha
        · have hweight := columnsWeight_pos p.patterns
          rw [rowsWeight, map_cons, sum_cons] at hfuel
          have hrest := ih (pre ++ row :: post) access vs
            ⟨h.load, fun r hr => h.width r (mem_cons_of_mem _ hr),
              fun r hr => h.plain r (mem_cons_of_mem _ hr),
              fun r hr => h.stores r (mem_cons_of_mem _ hr)⟩
            ⟨pre, row, post, rfl, harm, hways, fun r hr => hpre r (mem_cons_of_mem _ hr)⟩
            (by rw [rowsWeight]; omega)
          rw [if_pos hg, DecisionTree.reachableArms]
          exact mem_cons_of_mem _ hrest
        · split <;> simp [DecisionTree.reachableArms, ha]
    | false =>
      obtain ⟨hcol, hne⟩ := h.selectColumn_spec hwild
      simp only [DecisionTree.reachableArms]
      generalize selectColumn (first :: remaining) = col at hcol hne ⊢
      rcases h.exists_case hcol hrow hways with ⟨target, ht, hv, row', hrow', hways'⟩ | ⟨hw, hnone⟩
      · refine mem_append_left _ (mem_reachableCases (List.mem_map.2 ⟨target, ht, rfl⟩) ?_)
        have hweight := h.weight_specialize hcol ht (access.getD col .root)
        refine ih _ _ _ (h.specialize hcol ht hv) ?_ (by omega)
        rw [← hrows] at h ht ⊢
        exact h.follows_specialize hcol ht hv harm hpre hrow' hways'
      · have hweight := weight_defaultMatrix (h.column_lt hcol) hne (access.getD col .root)
        have hfollows : Follows root (replaceColumn vs col []) arm
            (defaultMatrix (first :: remaining) col (access.getD col .root)) := by
          rw [← hrows] at h ⊢
          exact h.follows_default hcol hw harm hways hpre
        refine mem_append_right _ ?_
        split
        · next hempty =>
          obtain ⟨pre', row', post', heq, -⟩ := hfollows
          rw [List.isEmpty_iff.1 hempty] at heq
          simp at heq
        · exact ih _ _ _ (h.defaultMatrix hcol) hfollows (by omega)

end Elle.Match

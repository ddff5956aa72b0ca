import Elle.Match.Split

/-!
# The constructors of a column

`collectConstructors` against the patterns it is read off. Every constructor of the list stands for
one of the column, every constructor of the column that is compatible with one of the list is
refined by it, and a value that passes the test of some pattern in the column passes a test of the
list. `selectColumn` picks a column that tests something.
-/

namespace Elle.Match

open List

variable {F : Type}

/-! ### Distinct constructors -/

section

variable {same : Constructor F → Constructor F → Bool} {seen ctors : List (Constructor F)}
  {c : Constructor F}

theorem mem_insertBy_self (h : c ∈ seen) (d : Constructor F) : c ∈ insertBy same seen d := by
  unfold insertBy
  split
  · exact h
  · exact mem_append_left _ h

theorem exists_mem_insertBy (c : Constructor F) : ∃ s ∈ insertBy same seen c, s = c ∨ same s c := by
  unfold insertBy
  split
  · next h =>
    obtain ⟨s, hs, hsame⟩ := List.any_eq_true.1 h
    exact ⟨s, hs, Or.inr hsame⟩
  · exact ⟨c, by simp, Or.inl rfl⟩

theorem mem_of_mem_insertBy {d : Constructor F} (h : c ∈ insertBy same seen d) : c ∈ seen ∨ c = d := by
  unfold insertBy at h
  split at h
  · exact Or.inl h
  · simpa using h

theorem mem_of_mem_foldl_insertBy (h : c ∈ ctors.foldl (insertBy same) seen) : c ∈ seen ∨ c ∈ ctors := by
  induction ctors generalizing seen with
  | nil => exact Or.inl h
  | cons d ctors ih =>
    rcases ih h with h | h
    · rcases mem_of_mem_insertBy h with h | rfl
      · exact Or.inl h
      · exact Or.inr mem_cons_self
    · exact Or.inr (mem_cons_of_mem _ h)

theorem mem_foldl_insertBy_self (h : c ∈ seen) : c ∈ ctors.foldl (insertBy same) seen := by
  induction ctors generalizing seen with
  | nil => exact h
  | cons d ctors ih => exact ih (mem_insertBy_self h d)

theorem exists_mem_foldl_insertBy (h : c ∈ ctors) :
    ∃ s ∈ ctors.foldl (insertBy same) seen, s = c ∨ same s c := by
  induction ctors generalizing seen with
  | nil => cases h
  | cons d ctors ih =>
    rcases List.mem_cons.1 h with rfl | h
    · obtain ⟨s, hs, hsame⟩ := @exists_mem_insertBy F same seen c
      refine ⟨s, ?_, hsame⟩
      rw [foldl_cons]
      exact mem_foldl_insertBy_self hs
    · exact ih h

theorem mem_of_mem_distinctBy (h : c ∈ distinctBy same ctors) : c ∈ ctors :=
  (mem_of_mem_foldl_insertBy h).resolve_left not_mem_nil

theorem exists_mem_distinctBy (h : c ∈ ctors) : ∃ s ∈ distinctBy same ctors, s = c ∨ same s c :=
  exists_mem_foldl_insertBy h

theorem distinctBy_ne_nil : distinctBy same ctors ≠ [] ↔ ctors ≠ [] := by
  constructor
  · rintro h rfl
    exact h rfl
  · intro h hnil
    obtain ⟨c, hc⟩ := exists_mem_of_ne_nil _ h
    obtain ⟨s, hs, -⟩ := @exists_mem_distinctBy F same ctors c hc
    rw [hnil] at hs
    cases hs

end

/-! ### Merged keys -/

theorem mem_unionKeys {keys seen : List PatternKey} {k : PatternKey} :
    k ∈ unionKeys seen keys ↔ k ∈ seen ∨ k ∈ keys := by
  unfold unionKeys
  induction keys generalizing seen with
  | nil => simp
  | cons k' keys ih =>
    rw [foldl_cons, ih, mem_cons]
    split
    · next h => exact ⟨by tauto, by rintro (h' | rfl | h') <;> tauto⟩
    · simp only [mem_append, mem_singleton]
      tauto

theorem nodup_unionKeys {keys seen : List PatternKey} (h : seen.Nodup) : (unionKeys seen keys).Nodup := by
  unfold unionKeys
  induction keys generalizing seen with
  | nil => exact h
  | cons k keys ih =>
    rw [foldl_cons]
    refine ih ?_
    split
    · exact h
    · next hk => exact List.nodup_append.2 ⟨h, nodup_singleton k, by
        intro a ha b hb hab
        exact hk (List.mem_singleton.1 hb ▸ hab ▸ ha)⟩

theorem mem_foldl_unionKeys {kss : List (List PatternKey)} {seen : List PatternKey}
    {k : PatternKey} : k ∈ kss.foldl unionKeys seen ↔ k ∈ seen ∨ ∃ ks ∈ kss, k ∈ ks := by
  induction kss generalizing seen with
  | nil => simp
  | cons ks kss ih =>
    rw [foldl_cons, ih, mem_unionKeys]
    simp [or_assoc]

theorem nodup_foldl_unionKeys {kss : List (List PatternKey)} {seen : List PatternKey}
    (h : seen.Nodup) : (kss.foldl unionKeys seen).Nodup := by
  induction kss generalizing seen with
  | nil => exact h
  | cons ks kss ih => exact ih (nodup_unionKeys h)

/-- The keys a column names for one keyed kind. -/
def mergedKeys (keysOf : Constructor F → Option (List PatternKey)) (ctors : List (Constructor F)) :
    List PatternKey :=
  (ctors.filterMap keysOf).foldl unionKeys []

theorem nodup_mergedKeys (keysOf : Constructor F → Option (List PatternKey))
    (ctors : List (Constructor F)) : (mergedKeys keysOf ctors).Nodup :=
  nodup_foldl_unionKeys nodup_nil

theorem mem_mergedKeys {keysOf : Constructor F → Option (List PatternKey)}
    {ctors : List (Constructor F)} {c : Constructor F} {ks : List PatternKey} {k : PatternKey}
    (hc : c ∈ ctors) (hks : keysOf c = some ks) (hk : k ∈ ks) : k ∈ mergedKeys keysOf ctors :=
  mem_foldl_unionKeys.2 (Or.inr ⟨ks, List.mem_filterMap.2 ⟨c, hc, hks⟩, hk⟩)

theorem mem_mergeKeyed {keysOf : Constructor F → Option (List PatternKey)}
    {merged : List PatternKey → Constructor F} {ctors : List (Constructor F)} {c : Constructor F} :
    c ∈ mergeKeyed keysOf merged ctors ↔ c ∈ ctors ∧ keysOf c = none ∨
      c = merged (mergedKeys keysOf ctors) ∧ ∃ d ∈ ctors, (keysOf d).isSome := by
  unfold mergeKeyed
  split
  · next h =>
    rw [any_eq_true] at h
    rw [mem_append, mem_filter, mem_singleton, Option.isNone_iff_eq_none]
    exact or_congr_right ⟨fun hc => ⟨hc, h⟩, fun hc => hc.1⟩
  · next h =>
    have hnone : ∀ d ∈ ctors, keysOf d = none := by
      intro d hd
      by_contra hne
      exact h (List.any_eq_true.2 ⟨d, hd, Option.isSome_iff_ne_none.2 hne⟩)
    constructor
    · exact fun hc => Or.inl ⟨hc, hnone c hc⟩
    · rintro (⟨hc, -⟩ | ⟨-, d, hd, hsome⟩)
      · exact hc
      · rw [hnone d hd] at hsome
        cases hsome

/-! ### The list of a column -/

section

variable [Float64 F]

theorem Constructor.eq_cases {c d : Constructor F} (h : c.eq d) :
    (∃ a b, c = .literal a ∧ d = .literal b ∧ a.eq b) ∨ c = d := by
  cases c <;> cases d <;> simp_all [Constructor.eq]

theorem eq_of_compatible {c target : Constructor F} (h : constructorCompatible c target) :
    (∃ ks keys, c = .struct ks ∧ target = .struct keys) ∨
      (∃ ks keys, c = .table ks ∧ target = .table keys) ∨ c.eq target := by
  cases c <;> cases target <;> simp_all [constructorCompatible]

variable {rows : List (PatternRow F)} {col : Nat} {c target : Constructor F}

/-- A keyed constructor is equal only to itself, so it stays in the list of distinct ones. -/
theorem mem_distinct_of_keyed (hc : c ∈ columnConstructors rows col)
    (hkeyed : c.structKeys?.isSome ∨ c.tableKeys?.isSome) :
    c ∈ distinctBy Constructor.eq (columnConstructors rows col) := by
  obtain ⟨s, hs, rfl | heq⟩ := @exists_mem_distinctBy F Constructor.eq _ _ hc
  · exact hs
  · rcases Constructor.eq_cases heq with ⟨a, b, -, rfl, -⟩ | rfl
    · rcases hkeyed with h | h <;> cases h
    · exact hs

theorem mem_collectConstructors : target ∈ collectConstructors rows col ↔
    (target ∈ distinctBy Constructor.eq (columnConstructors rows col) ∧
      target.structKeys? = none ∧ target.tableKeys? = none) ∨
    (target = .struct (mergedKeys Constructor.structKeys?
        (distinctBy Constructor.eq (columnConstructors rows col))) ∧
      ∃ d ∈ distinctBy Constructor.eq (columnConstructors rows col), d.structKeys?.isSome) ∨
    (target = .table (mergedKeys Constructor.tableKeys?
        (mergeKeyed Constructor.structKeys? .struct
          (distinctBy Constructor.eq (columnConstructors rows col)))) ∧
      ∃ d ∈ distinctBy Constructor.eq (columnConstructors rows col), d.tableKeys?.isSome) := by
  have htable : ∀ l : List (Constructor F),
      (∃ d ∈ mergeKeyed Constructor.structKeys? .struct l, d.tableKeys?.isSome) ↔
        ∃ d ∈ l, d.tableKeys?.isSome := by
    intro l
    constructor
    · rintro ⟨d, hd, h⟩
      rcases mem_mergeKeyed.1 hd with ⟨hd, -⟩ | ⟨rfl, -⟩
      · exact ⟨d, hd, h⟩
      · cases h
    · rintro ⟨d, hd, h⟩
      refine ⟨d, mem_mergeKeyed.2 (Or.inl ⟨hd, ?_⟩), h⟩
      cases d <;> first | rfl | cases h
  unfold collectConstructors mergeStructTableConstructors
  rw [mem_mergeKeyed, mem_mergeKeyed, htable]
  constructor
  · rintro (⟨⟨h, hs⟩ | ⟨rfl, h⟩, ht⟩ | h)
    · exact Or.inl ⟨h, hs, ht⟩
    · exact Or.inr (Or.inl ⟨rfl, h⟩)
    · exact Or.inr (Or.inr h)
  · rintro (⟨h, hs, ht⟩ | ⟨rfl, h⟩ | h)
    · exact Or.inl ⟨Or.inl ⟨h, hs⟩, ht⟩
    · exact Or.inl ⟨Or.inr ⟨rfl, h⟩, rfl⟩
    · exact Or.inr h

/-- A constructor of the column that is compatible with one of the list is refined by it: the
merged constructor of its kind has all of its keys. -/
theorem refines_of_compatible (hc : c ∈ columnConstructors rows col)
    (ht : target ∈ collectConstructors rows col) (h : constructorCompatible c target) :
    Refines c target := by
  rcases eq_of_compatible h with ⟨ks, keys, rfl, rfl⟩ | ⟨ks, keys, rfl, rfl⟩ | heq
  · rcases mem_collectConstructors.1 ht with ⟨-, hs, -⟩ | ⟨hk, -⟩ | ⟨hk, -⟩
    · cases hs
    · cases hk
      refine .struct (nodup_mergedKeys _ _) fun k hmem => ?_
      exact mem_mergedKeys (mem_distinct_of_keyed hc (Or.inl rfl)) rfl hmem
    · cases hk
  · rcases mem_collectConstructors.1 ht with ⟨-, -, ht⟩ | ⟨hk, -⟩ | ⟨hk, -⟩
    · cases ht
    · cases hk
    · cases hk
      refine .table (nodup_mergedKeys _ _) fun k hmem => ?_
      have hd := mem_distinct_of_keyed hc (Or.inr rfl)
      exact mem_mergedKeys (mem_mergeKeyed.2 (Or.inl ⟨hd, rfl⟩)) rfl hmem
  · rcases Constructor.eq_cases heq with ⟨a, b, rfl, rfl, hab⟩ | rfl
    · exact .literal hab
    · cases c with
      | struct ks =>
        rcases mem_collectConstructors.1 ht with ⟨-, hs, -⟩ | ⟨hk, -⟩ | ⟨hk, -⟩
        · cases hs
        · cases hk
          exact .struct (nodup_mergedKeys _ _) fun _ hmem => hmem
        · cases hk
      | table ks =>
        rcases mem_collectConstructors.1 ht with ⟨-, -, ht⟩ | ⟨hk, -⟩ | ⟨hk, -⟩
        · cases ht
        · cases hk
        · cases hk
          exact .table (nodup_mergedKeys _ _) fun _ hmem => hmem
      | _ => exact .refl rfl rfl

theorem exists_refines (ht : target ∈ collectConstructors rows col) :
    ∃ c ∈ columnConstructors rows col, Refines c target := by
  rcases mem_collectConstructors.1 ht with ⟨h, hs, hk⟩ | ⟨rfl, d, hd, hs⟩ | ⟨rfl, d, hd, hs⟩
  · exact ⟨target, mem_of_mem_distinctBy h, .refl hs hk⟩
  · refine ⟨d, mem_of_mem_distinctBy hd, refines_of_compatible (mem_of_mem_distinctBy hd) ht ?_⟩
    cases d <;> first | rfl | cases hs
  · refine ⟨d, mem_of_mem_distinctBy hd, refines_of_compatible (mem_of_mem_distinctBy hd) ht ?_⟩
    cases d <;> first | rfl | cases hs

theorem exists_test {v : Value F} (hc : c ∈ columnConstructors rows col)
    (hv : emitConstructorTest v c) :
    ∃ target ∈ collectConstructors rows col, emitConstructorTest v target := by
  obtain ⟨s, hs, hsame⟩ := @exists_mem_distinctBy F Constructor.eq _ _ hc
  have hsv : emitConstructorTest v s := by
    rcases hsame with rfl | heq
    · exact hv
    · rcases Constructor.eq_cases heq with ⟨a, b, rfl, rfl, hab⟩ | rfl
      · exact literalEq_of_eq (PatternLiteral.eq_symm hab) hv
      · exact hv
  cases hks : s.structKeys? with
  | some ks =>
    refine ⟨_, mem_collectConstructors.2 (Or.inr (Or.inl ⟨rfl, s, hs, by rw [hks]; rfl⟩)), ?_⟩
    cases s <;> first | exact hsv | cases hks
  | none =>
    cases hkt : s.tableKeys? with
    | some ks =>
      refine ⟨_, mem_collectConstructors.2 (Or.inr (Or.inr ⟨rfl, s, hs, by rw [hkt]; rfl⟩)), ?_⟩
      cases s <;> first | exact hsv | cases hkt
    | none => exact ⟨s, mem_collectConstructors.2 (Or.inl ⟨hs, hks, hkt⟩), hsv⟩

/-! ### The selected column -/

omit [Float64 F] in
theorem bestColumn_spec (count : Nat → Nat) (ncols : Nat) :
    (∀ col < ncols, count col ≤ (bestColumn count ncols).2) ∧
      (0 < (bestColumn count ncols).2 →
        (bestColumn count ncols).1 < ncols ∧
        count (bestColumn count ncols).1 = (bestColumn count ncols).2) := by
  unfold bestColumn
  induction ncols with
  | zero => simp
  | succ n ih =>
    rw [range_succ, foldl_append, foldl_cons, foldl_nil]
    revert ih
    generalize (List.range n).foldl (fun best col =>
      if best.2 < count col then (col, count col) else best) (0, 0) = best
    rintro ⟨hmax, hcount⟩
    split
    · next h =>
      refine ⟨fun col hcol => ?_, fun _ => ⟨Nat.lt_succ_self n, rfl⟩⟩
      rcases Nat.lt_succ_iff_lt_or_eq.1 hcol with hcol | rfl
      · exact (hmax col hcol).trans (Nat.le_of_lt h)
      · exact Nat.le_refl _
    · next h =>
      refine ⟨fun col hcol => ?_, fun hpos => ?_⟩
      · rcases Nat.lt_succ_iff_lt_or_eq.1 hcol with hcol | rfl
        · exact hmax col hcol
        · exact Nat.le_of_not_lt h
      · exact ⟨Nat.lt_succ_of_lt (hcount hpos).1, (hcount hpos).2⟩

omit [Float64 F] in
theorem bestColumn_lt (count : Nat → Nat) {ncols : Nat} (h : 0 < ncols) :
    (bestColumn count ncols).1 < ncols := by
  have key : ∀ n ≤ ncols, ((List.range n).foldl (fun best col =>
      if best.2 < count col then (col, count col) else best) (0, 0)).1 < ncols := by
    intro n
    induction n with
    | zero => exact fun _ => h
    | succ n ih =>
      intro hn
      rw [range_succ, foldl_append, foldl_cons, foldl_nil]
      split
      · exact hn
      · exact ih (Nat.le_of_succ_le hn)
  exact key ncols (Nat.le_refl _)

theorem selectColumn_lt {row : PatternRow F} {remaining : List (PatternRow F)}
    (h : 0 < row.patterns.length) : selectColumn (row :: remaining) < row.patterns.length :=
  bestColumn_lt _ h

theorem selectColumn_spec {row : PatternRow F} {remaining : List (PatternRow F)}
    (hcol : col < row.patterns.length) (h : columnConstructors (row :: remaining) col ≠ []) :
    selectColumn (row :: remaining) < row.patterns.length ∧
      columnConstructors (row :: remaining) (selectColumn (row :: remaining)) ≠ [] := by
  have hspec := bestColumn_spec (fun col => (distinctBy (fun s c => s.eq c && s.sameHash c)
    (columnConstructors (row :: remaining) col)).length) row.patterns.length
  have hpos := Nat.lt_of_lt_of_le (List.length_pos_iff.2 (distinctBy_ne_nil.2 h)) (hspec.1 col hcol)
  obtain ⟨hlt, hcount⟩ := hspec.2 hpos
  have hlen := Nat.lt_of_lt_of_eq hpos hcount.symm
  exact ⟨hlt, distinctBy_ne_nil.1 (List.length_pos_iff.1 hlen)⟩

end

end Elle.Match

import Elle.Match.Column

/-!
# What specialisation and defaulting do to a row

A row is worth, on a scrutinee, the ways its columns match their values, joined with the variables
of the columns already removed (`PatternRow.ways`). Specialising a row on a constructor the value
passes keeps exactly the ways of the branches it keeps (`total_specializeRow`), and a row kept by
the default keeps all of its ways (`total_defaultRow`).

`Aligned` is what the matrix keeps along the way: every row has one plain pattern per column.
-/

namespace Elle.Match

open Choices List

variable {F : Type}
variable {α : Type} {col : Nat}

/-! ### Columns -/

theorem getD_eq_getElem_of_lt {xs : List α} {i : Nat} (h : i < xs.length) (d : α) :
    xs.getD i d = xs[i] := by simp [List.getD, h]

theorem replaceColumn_self {xs : List α} (h : col < xs.length) (d : α) :
    replaceColumn xs col [xs.getD col d] = xs := by
  rw [replaceColumn, getD_eq_getElem_of_lt h, append_assoc, singleton_append,
    getElem_cons_drop, take_append_drop]

theorem length_replaceColumn {xs : List α} (h : col < xs.length) (new : List α) :
    (replaceColumn xs col new).length + 1 = xs.length + new.length := by
  simp only [replaceColumn, length_append, length_take, length_drop]
  omega

theorem mem_replaceColumn {xs new : List α} {x : α} (h : x ∈ replaceColumn xs col new) : x ∈ xs ∨ x ∈ new := by
  simp only [replaceColumn, mem_append] at h
  rcases h with (h | h) | h
  · exact Or.inl (mem_of_mem_take h)
  · exact Or.inr h
  · exact Or.inl (mem_of_mem_drop h)

theorem forall₂_replaceColumn {β : Type} {R : α → β → Prop} {xs : List α} {ys : List β} {new : List α}
    {new' : List β} (h : List.Forall₂ R xs ys) (hnew : List.Forall₂ R new new') (col : Nat) :
    List.Forall₂ R (replaceColumn xs col new) (replaceColumn ys col new') := by
  exact rel_append (rel_append (forall₂_take col h) hnew) (forall₂_drop (col + 1) h)

/-! ### Branches -/

/-- The alternatives a pattern offers to its column. -/
def branches : HirPattern F → List (HirPattern F)
  | .or alts => alts
  | p => [p]

def isOr : HirPattern F → Bool
  | .or _ => true
  | _ => false

/-- The bindings a branch adds when it is specialised. A keyed pattern's rest is recorded only
outside an or-pattern. -/
def branchBindings (p q : HirPattern F) (access : AccessPath) : List (Nat × AccessPath) :=
  varBinding q access ++ if isOr p then [] else keyedRestBindings q access

section

variable [Float64 F]
variable {p q : HirPattern F} {c : Constructor F} {row : PatternRow F} {col : Nat} {keep : Bool}
  {root : Value F}

/-- The branches `specialize` keeps for a constructor. -/
def admits (target : Constructor F) (q : HirPattern F) : Bool :=
  isWildcard q || (patternConstructor q).any (constructorCompatible · target)

theorem specializeRow_eq (col : Nat) (target : Constructor F) (access : AccessPath)
    (row : PatternRow F) :
    specializeRow col target access row = ((branches (row.column col)).filter (admits target)).map fun q =>
        row.replace col (extractSubPatterns q target) (branchBindings (row.column col) q access) := by
  unfold specializeRow
  cases hp : row.column col with
  | wildcard => rfl
  | var b => rfl
  | or alts =>
    refine map_congr_left fun alt _ => ?_
    simp [branchBindings, isOr]
  | _ =>
    simp only [isWildcard, branches, admits, Bool.false_or, filter_cons, filter_nil,
      Bool.false_eq_true, if_false]
    split <;> simp [branchBindings, varBinding, isOr]

theorem exists_of_mem_specialize {rows : List (PatternRow F)} {row' : PatternRow F} {target : Constructor F}
    {access : AccessPath} (h : row' ∈ specialize rows col target access) :
    ∃ row ∈ rows, ∃ q ∈ branches (row.column col), admits target q ∧
      row' = row.replace col (extractSubPatterns q target) (branchBindings (row.column col) q access) := by
  obtain ⟨row, hrow, hin⟩ := List.mem_flatMap.1 h
  rw [specializeRow_eq] at hin
  obtain ⟨q, hq, rfl⟩ := List.mem_map.1 hin
  obtain ⟨hq, hadm⟩ := List.mem_filter.1 hq
  exact ⟨row, hrow, q, hq, hadm, rfl⟩

section

omit [Float64 F]

theorem mem_patternConstructors (hq : q ∈ branches p) (hc : patternConstructor q = some c) :
    c ∈ patternConstructors p := by
  have hself : patternConstructors q = [c] := by
    cases q with
    | or alts => cases hc
    | _ => exact congrArg Option.toList hc
  cases p with
  | or alts =>
    have key : ∀ l : List (HirPattern F), q ∈ l → c ∈ alternativeConstructors l := by
      intro l
      induction l with
      | nil => exact fun h => nomatch h
      | cons p l ih =>
        intro h
        rcases List.mem_cons.1 h with rfl | h
        · exact mem_append_left _ (by rw [hself]; exact mem_singleton_self c)
        · exact mem_append_right _ (ih h)
    exact key alts hq
  | _ =>
    rcases List.mem_singleton.1 hq with rfl
    rw [hself]
    exact mem_singleton_self c

theorem mem_columnConstructors {rows : List (PatternRow F)} (hrow : row ∈ rows)
    (hq : q ∈ branches (row.column col)) (hc : patternConstructor q = some c) :
    c ∈ columnConstructors rows col :=
  List.mem_flatMap.2 ⟨row, hrow, mem_patternConstructors hq hc⟩

theorem plain_branch (hp : plain keep p) (hq : q ∈ branches p) : plain keep q := by
  cases p with
  | or alts =>
    simp only [plain, Bool.and_eq_true, plainAlternatives_iff] at hp
    exact (hp.2 q hq).2.2
  | _ =>
    rcases List.mem_singleton.1 hq with rfl
    exact hp

theorem exists_branch (hp : plain keep p) (hw : isWildcard p = false) :
    branches p ≠ [] ∧ ∀ q ∈ branches p, ∃ c, patternConstructor q = some c := by
  cases p with
  | wildcard => cases hw
  | var b => cases hw
  | or alts =>
    simp only [plain, Bool.and_eq_true, plainAlternatives_iff] at hp
    refine ⟨by simpa [branches] using hp.1, fun q hq => ?_⟩
    exact Option.isSome_iff_exists.1 (hp.2 q hq).1
  | list es rest | tuple es rest | array es rest =>
    refine ⟨by simp [branches], fun q hq => ?_⟩
    rcases List.mem_singleton.1 hq with rfl
    rw [patternConstructor]
    split <;> exact ⟨_, rfl⟩
  | _ =>
    refine ⟨by simp [branches], fun q hq => ?_⟩
    rcases List.mem_singleton.1 hq with rfl
    exact ⟨_, rfl⟩

end

theorem total_alternativeChoices (w : Nat × Value F → Nat) (ps : List (HirPattern F))
    (v : Value F) : total w (alternativeChoices (alternativeShapes ps) v) =
      (ps.map fun q => total w (q.shape.choices v)).sum := by
  induction ps with
  | nil => rfl
  | cons p ps ih =>
    rw [alternativeShapes, alternativeChoices, total_append, ih, map_cons, sum_cons]

theorem total_branches (w : Nat × Value F → Nat) (p : HirPattern F) (v : Value F) :
    total w (p.shape.choices v) = ((branches p).map fun q => total w (q.shape.choices v)).sum := by
  cases p with
  | or alts => exact total_alternativeChoices w alts v
  | _ => simp [branches]

/-! ### One branch -/

omit [Float64 F] in
theorem loadBindings_append {xs ys : List (Nat × AccessPath)} {s t : Stores F}
    (hx : loadBindings root xs = some s) (hy : loadBindings root ys = some t) :
    loadBindings root (xs ++ ys) = some (s ++ t) := by
  unfold loadBindings at hx hy ⊢
  rw [mapM_append, hx, hy]
  rfl

omit [Float64 F] in
theorem loadBindings_varBinding {v : Value F} {base : AccessPath}
    (hload : loadAccessPath root base = some v) (q : HirPattern F) :
    loadBindings root (varBinding q base) = some (match q with | .var b => [(b, v)] | _ => []) := by
  cases q <;> simp [varBinding, loadBindings, hload]

theorem total_wildcards (w : Nat × Value F → Nat) (us : List (Value F)) :
    (List.zipWith (fun (q : HirPattern F) u => total w (q.shape.choices u))
      (List.replicate us.length .wildcard) us).prod = 1 := by
  induction us with
  | nil => rfl
  | cons u us ih => simpa [replicate_succ, HirPattern.shape, Shape.choices] using ih

section

omit [Float64 F]

theorem eq_of_isWildcard (h : isWildcard q) : q = .wildcard ∨ ∃ b, q = .var b := by
  cases q with
  | wildcard => exact Or.inl rfl
  | var b => exact Or.inr ⟨b, rfl⟩
  | _ => cases h

theorem branch_cases (hp : plain keep p) (hq : q ∈ branches p) :
    isWildcard q ∨ ∃ c, patternConstructor q = some c := by
  cases hw : isWildcard p with
  | false => exact Or.inr ((exists_branch hp hw).2 q hq)
  | true =>
    have hqp : q = p := by
      cases p with
      | or alts => cases hw
      | _ => exact List.mem_singleton.1 hq
    exact Or.inl (hqp ▸ hw)

theorem varBinding_eq_nil (hc : patternConstructor q = some c) (base : AccessPath) :
    varBinding q base = [] := by
  cases q with
  | var b => cases hc
  | _ => rfl

theorem restStores_eq_nil (h : bindsRest q = false) (v : Value F) : restStores q v = [] := by
  unfold bindsRest at h
  unfold restStores
  split at h
  · cases h
  · cases h
  · next h1 h2 =>
    split
    · next b => exact absurd rfl (h1 _ b)
    · next b => exact absurd rfl (h2 _ b)
    · rfl

end

/-- What specialising one branch on a constructor the value passes amounts to. The weights are
arbitrary for a row whose variables count, and 1 otherwise. -/
theorem exists_branchStores {target : Constructor F} {v : Value F} {base : AccessPath}
    (hp : plain keep p) (hq : q ∈ branches p)
    (hr : ∀ c, patternConstructor q = some c → Refines c target) (hload : loadAccessPath root base = some v)
    (hv : emitConstructorTest v target) :
    ∃ stores, loadBindings root (branchBindings p q base) = some stores ∧
      ∀ w : Nat × Value F → Nat, (keep = false → w = fun _ => 1) →
        total w (q.shape.choices v) =
          (List.zipWith (fun q u => total w (q.shape.choices u)) (extractSubPatterns q target)
            (subValues target v)).prod * (stores.map w).prod := by
  rcases branch_cases hp hq with hwild | ⟨c, hc⟩
  · have hsubs : extractSubPatterns q target = List.replicate (subValues target v).length .wildcard := by
      rw [subValues, length_map, Constructor.length_steps]
      rcases eq_of_isWildcard hwild with rfl | ⟨b, rfl⟩ <;> rfl
    have hbind : branchBindings p q base = varBinding q base := by
      rcases eq_of_isWildcard hwild with rfl | ⟨b, rfl⟩ <;> simp [branchBindings, keyedRestBindings]
    refine ⟨_, by rw [hbind]; exact loadBindings_varBinding hload q, fun w _ => ?_⟩
    rw [hsubs, total_wildcards, Nat.one_mul]
    rcases eq_of_isWildcard hwild with rfl | ⟨b, rfl⟩ <;> simp [HirPattern.shape, Shape.choices]
  · have hsplit := (hr c hc).split (plain_branch hp hq) hc
    cases p with
    | or alts =>
      -- the rest of a keyed alternative goes unrecorded: it may not bind a variable that counts
      refine ⟨[], by simp [branchBindings, isOr, varBinding_eq_nil hc, loadBindings], fun w hw => ?_⟩
      rw [hsplit.total_choices (hr c hc) w hv]
      congr 1
      cases keep with
      | false => simp [hw rfl]
      | true =>
        simp only [plain, Bool.and_eq_true, plainAlternatives_iff] at hp
        rw [restStores_eq_nil ((hp.2 q hq).2.1 trivial)]
    | _ =>
      refine ⟨restStores q v, ?_, fun w _ => hsplit.total_choices (hr c hc) w hv⟩
      simpa [branchBindings, isOr, varBinding_eq_nil hc] using hsplit.loadBindings hload

/-! ### The ways of a row -/

def columnsChoices : List (HirPattern F) → List (Value F) → List (Stores F)
  | p :: ps, v :: vs => cross (p.shape.choices v) (columnsChoices ps vs)
  | _, _ => [[]]

/-- Every way a row matches the values of its columns, with the variables it has already bound. -/
def PatternRow.ways (root : Value F) (vs : List (Value F)) (row : PatternRow F) : List (Stores F) :=
  cross [(loadBindings root row.bindings).getD []] (columnsChoices row.patterns vs)

def columnsTotal (w : Nat × Value F → Nat) (ps : List (HirPattern F)) (vs : List (Value F)) : Nat :=
  (List.zipWith (fun p v => total w (p.shape.choices v)) ps vs).prod

theorem total_columnsChoices (w : Nat × Value F → Nat) (ps : List (HirPattern F))
    (vs : List (Value F)) : total w (columnsChoices ps vs) = columnsTotal w ps vs := by
  induction ps generalizing vs with
  | nil => simp [columnsChoices, columnsTotal]
  | cons p ps ih =>
    rcases vs with - | ⟨v, vs⟩
    · simp [columnsChoices, columnsTotal]
    · rw [columnsChoices, total_cross, ih]
      simp [columnsTotal]

theorem total_ways (w : Nat × Value F → Nat) {stores : Stores F}
    (h : loadBindings root row.bindings = some stores) (vs : List (Value F)) :
    total w (row.ways root vs) = (stores.map w).prod * columnsTotal w row.patterns vs := by
  rw [PatternRow.ways, total_cross, total_columnsChoices, h]
  simp

theorem columnsTotal_append (w : Nat × Value F → Nat) {ps qs : List (HirPattern F)}
    {us vs : List (Value F)} (h : ps.length = us.length) :
    columnsTotal w (ps ++ qs) (us ++ vs) = columnsTotal w ps us * columnsTotal w qs vs := by
  rw [columnsTotal, zipWith_append h, prod_append]
  rfl

def othersTotal (w : Nat × Value F → Nat) (ps : List (HirPattern F)) (vs : List (Value F))
    (col : Nat) : Nat :=
  columnsTotal w (ps.take col) (vs.take col) * columnsTotal w (ps.drop (col + 1)) (vs.drop (col + 1))

theorem columnsTotal_replaceColumn (w : Nat × Value F → Nat) {ps subs : List (HirPattern F)}
    {vs us : List (Value F)} (col : Nat) (hlen : ps.length = vs.length)
    (hsubs : subs.length = us.length) :
    columnsTotal w (replaceColumn ps col subs) (replaceColumn vs col us) =
      othersTotal w ps vs col * columnsTotal w subs us := by
  rw [replaceColumn, replaceColumn, columnsTotal_append, columnsTotal_append, othersTotal,
    Nat.mul_right_comm]
  · simp [hlen]
  · simp [hlen, hsubs]

theorem columnsTotal_column (w : Nat × Value F → Nat) {ps : List (HirPattern F)} {vs : List (Value F)}
    (hlen : ps.length = vs.length) (hcol : col < ps.length) :
    columnsTotal w ps vs =
      othersTotal w ps vs col * total w ((ps.getD col .wildcard).shape.choices (vs.getD col .nil)) := by
  have h : columnsTotal w (replaceColumn ps col [ps.getD col .wildcard])
      (replaceColumn vs col [vs.getD col .nil]) = _ := columnsTotal_replaceColumn w col hlen rfl
  rw [replaceColumn_self hcol, replaceColumn_self (hlen ▸ hcol)] at h
  simpa [columnsTotal] using h

/-- What a matrix keeps while it is compiled, on a scrutinee whose parts are `vs`. -/
structure Aligned (keep : Bool → Bool) (root : Value F) (access : List AccessPath)
    (vs : List (Value F)) (rows : List (PatternRow F)) : Prop where
  load : List.Forall₂ (fun a v => loadAccessPath root a = some v) access vs
  width : ∀ row ∈ rows, row.patterns.length = access.length
  plain : ∀ row ∈ rows, ∀ p ∈ row.patterns, plain (keep row.hasGuard) p
  stores : ∀ row ∈ rows, ∃ stores, loadBindings root row.bindings = some stores

omit [Float64 F] in
theorem exists_shape_node (hp : Match.plain keep q) (hc : patternConstructor q = some c) :
    ∃ children, q.shape = .node c children := by
  cases hs : c.structKeys? with
  | some ks =>
    cases c <;> cases hs
    obtain ⟨es, rest, rfl, rfl⟩ := eq_struct_of_constructor hc
    exact ⟨_, rfl⟩
  | none =>
    cases ht : c.tableKeys? with
    | some ks =>
      cases c <;> cases ht
      obtain ⟨es, rest, rfl, rfl⟩ := eq_table_of_constructor hc
      exact ⟨_, rfl⟩
    | none => exact ⟨_, (shape_eq_node hc hs ht (bareRest_of_plain hp)).1⟩

theorem total_eq_zero_of_test_false {v : Value F} (hp : Match.plain keep q)
    (hc : patternConstructor q = some c) (hv : emitConstructorTest v c = false) (w : Nat × Value F → Nat) :
    total w (q.shape.choices v) = 0 := by
  obtain ⟨children, h⟩ := exists_shape_node hp hc
  rw [h, choices_of_test_false hv, total_nil]

theorem refines_of_admits {rows : List (PatternRow F)} {target : Constructor F} (hrow : row ∈ rows)
    (ht : target ∈ collectConstructors rows col) (hq : q ∈ branches (row.column col))
    (hadm : admits target q) : ∀ c, patternConstructor q = some c → Refines c target := by
  intro c hc
  refine refines_of_compatible (mem_columnConstructors hrow hq hc) ht ?_
  rcases Bool.or_eq_true .. ▸ hadm with hw | hcomp
  · rcases eq_of_isWildcard hw with rfl | ⟨b, rfl⟩ <;> cases hc
  · simpa [hc] using hcomp

namespace Aligned

variable {keep : Bool → Bool} {root : Value F} {access : List AccessPath} {vs : List (Value F)}
  {rows : List (PatternRow F)} {row : PatternRow F} {col : Nat} {target : Constructor F}

omit [Float64 F] in
theorem load_column (h : Aligned keep root access vs rows) (hcol : col < access.length) :
    loadAccessPath root (access.getD col .root) = some (vs.getD col .nil) := by
  have hlen := h.load.length_eq
  rw [getD_eq_getElem_of_lt hcol, getD_eq_getElem_of_lt (hlen ▸ hcol)]
  exact h.load.get hcol (hlen ▸ hcol)

omit [Float64 F] in
theorem plain_column (h : Aligned keep root access vs rows) (hrow : row ∈ rows)
    (hcol : col < access.length) : Match.plain (keep row.hasGuard) (row.column col) := by
  have hlt : col < row.patterns.length := h.width row hrow ▸ hcol
  rw [PatternRow.column, getD_eq_getElem_of_lt hlt]
  exact h.plain row hrow _ (getElem_mem hlt)

theorem forall₂_subValues {base : AccessPath} {v : Value F}
    (hload : loadAccessPath root base = some v) (hv : emitConstructorTest v target) :
    List.Forall₂ (fun a v => loadAccessPath root a = some v) (subAccess base target)
      (subValues target v) := by
  rw [subAccess_eq_map, subValues, forall₂_map_left_iff, forall₂_map_right_iff]
  refine List.forall₂_same.2 fun s hs => ?_
  obtain ⟨u, hu⟩ := Option.isSome_iff_exists.1 (read_isSome hv s hs)
  rw [Step.loadAccessPath_path hload, Step.get, hu]
  rfl

theorem length_extract (h : Aligned keep root access vs rows) (hrow : row ∈ rows)
    (hcol : col < access.length) (ht : target ∈ collectConstructors rows col) {q : HirPattern F}
    (hq : q ∈ branches (row.column col)) (hadm : admits target q) :
    (extractSubPatterns q target).length = target.arity ∧
      ∀ q' ∈ extractSubPatterns q target, Match.plain (keep row.hasGuard) q' := by
  have hp := h.plain_column hrow hcol
  rcases branch_cases hp hq with hw | ⟨c, hc⟩
  · rcases eq_of_isWildcard hw with rfl | ⟨b, rfl⟩ <;>
      simp [extractSubPatterns, Match.plain, mem_replicate]
  · have hsplit := (refines_of_admits hrow ht hq hadm c hc).split (plain_branch hp hq) hc
    exact ⟨hsplit.length, hsplit.plain_subs⟩

section

variable (h : Aligned keep root access vs rows) (hcol : col < access.length)
include h hcol

theorem specialize (ht : target ∈ collectConstructors rows col)
    (hv : emitConstructorTest (vs.getD col .nil) target) :
    Aligned keep root (expandAccess access col target)
      (replaceColumn vs col (subValues target (vs.getD col .nil)))
      (Match.specialize rows col target (access.getD col .root)) := by
  have hload := h.load_column hcol
  refine ⟨forall₂_replaceColumn h.load (forall₂_subValues hload hv) col, ?_, ?_, ?_⟩
  · intro row' hrow'
    obtain ⟨row, hrow, q, hq, hadm, rfl⟩ := exists_of_mem_specialize hrow'
    have h1 := length_replaceColumn (h.width row hrow ▸ hcol : col < row.patterns.length)
      (extractSubPatterns q target)
    have h2 := length_replaceColumn hcol (subAccess (access.getD col .root) target)
    have hsub : (subAccess (access.getD col .root) target).length = target.arity := by
      rw [subAccess_eq_map, length_map, Constructor.length_steps]
    rw [(h.length_extract hrow hcol ht hq hadm).1, h.width row hrow] at h1
    rw [hsub] at h2
    exact Nat.succ_injective (h1.trans h2.symm)
  · intro row' hrow' p hp
    obtain ⟨row, hrow, q, hq, hadm, rfl⟩ := exists_of_mem_specialize hrow'
    rcases mem_replaceColumn hp with hp | hp
    · exact h.plain row hrow p hp
    · exact (h.length_extract hrow hcol ht hq hadm).2 p hp
  · intro row' hrow'
    obtain ⟨row, hrow, q, hq, hadm, rfl⟩ := exists_of_mem_specialize hrow'
    obtain ⟨s, hs⟩ := h.stores row hrow
    obtain ⟨t, ht', -⟩ := exists_branchStores (h.plain_column hrow hcol) hq
      (refines_of_admits hrow ht hq hadm) hload hv
    exact ⟨s ++ t, loadBindings_append hs ht'⟩

omit [Float64 F] in
theorem defaultMatrix : Aligned keep root (removeColumn access col) (replaceColumn vs col [])
      (Match.defaultMatrix rows col (access.getD col .root)) := by
  have hload := h.load_column hcol
  refine ⟨forall₂_replaceColumn h.load .nil col, ?_, ?_, ?_⟩
  · intro row' hrow'
    obtain ⟨row, hrow, rfl⟩ := List.mem_map.1 hrow'
    have hrow := (List.mem_filter.1 hrow).1
    have h1 := length_replaceColumn (h.width row hrow ▸ hcol : col < row.patterns.length) []
    have h2 := length_replaceColumn hcol []
    rw [h.width row hrow] at h1
    exact Nat.succ_injective (h1.trans h2.symm)
  · intro row' hrow' p hp
    obtain ⟨row, hrow, rfl⟩ := List.mem_map.1 hrow'
    rcases mem_replaceColumn hp with hp | hp
    · exact h.plain row (List.mem_filter.1 hrow).1 p hp
    · cases hp
  · intro row' hrow'
    obtain ⟨row, hrow, rfl⟩ := List.mem_map.1 hrow'
    obtain ⟨s, hs⟩ := h.stores row (List.mem_filter.1 hrow).1
    exact ⟨_, loadBindings_append hs (loadBindings_varBinding hload _)⟩

theorem total_specializeRow (ht : target ∈ collectConstructors rows col)
    (hv : emitConstructorTest (vs.getD col .nil) target) (hrow : row ∈ rows)
    {stores : Stores F} (hs : loadBindings root row.bindings = some stores)
    {w : Nat × Value F → Nat} (hw : keep row.hasGuard = false → w = fun _ => 1) :
    ((specializeRow col target (access.getD col .root) row).map fun row' =>
        total w (row'.ways root (replaceColumn vs col (subValues target (vs.getD col .nil))))).sum =
      (stores.map w).prod * othersTotal w row.patterns vs col *
        (((branches (row.column col)).filter (admits target)).map fun q =>
          total w (q.shape.choices (vs.getD col .nil))).sum := by
  have hlen : row.patterns.length = vs.length := (h.width row hrow).trans h.load.length_eq
  rw [specializeRow_eq, List.map_map, ← sum_map_mul_left]
  congr 1
  refine map_congr_left fun q hq => ?_
  obtain ⟨hq, hadm⟩ := List.mem_filter.1 hq
  obtain ⟨t, hload, htotal⟩ := exists_branchStores (h.plain_column hrow hcol) hq
    (refines_of_admits hrow ht hq hadm) (h.load_column hcol) hv
  have hsubs : (extractSubPatterns q target).length = (subValues target (vs.getD col .nil)).length := by
    rw [(h.length_extract hrow hcol ht hq hadm).1, subValues, length_map, Constructor.length_steps]
  rw [Function.comp_apply, total_ways w (loadBindings_append hs hload), PatternRow.replace,
    columnsTotal_replaceColumn w col hlen hsubs, htotal w hw, map_append, prod_append]
  ac_rfl

theorem total_row (hrow : row ∈ rows) {stores : Stores F} (hs : loadBindings root row.bindings = some stores)
    (w : Nat × Value F → Nat) : total w (row.ways root vs) =
      (stores.map w).prod * othersTotal w row.patterns vs col * ((branches (row.column col)).map fun q =>
          total w (q.shape.choices (vs.getD col .nil))).sum := by
  have hlen : row.patterns.length = vs.length := (h.width row hrow).trans h.load.length_eq
  rw [total_ways w hs, columnsTotal_column w hlen (h.width row hrow ▸ hcol), ← total_branches,
    Nat.mul_assoc]
  rfl

theorem total_defaultRow (hrow : row ∈ rows) (hwild : isWildcard (row.column col)) (w : Nat × Value F → Nat) :
    total w ((row.replace col [] (varBinding (row.column col) (access.getD col .root))).ways root
      (replaceColumn vs col [])) = total w (row.ways root vs) := by
  have hlen : row.patterns.length = vs.length := (h.width row hrow).trans h.load.length_eq
  obtain ⟨s, hs⟩ := h.stores row hrow
  have hload := loadBindings_varBinding (h.load_column hcol) (row.column col)
  rw [total_ways w (loadBindings_append hs hload), PatternRow.replace,
    columnsTotal_replaceColumn w col hlen rfl, h.total_row hcol hrow hs w, map_append,
    prod_append]
  rcases eq_of_isWildcard hwild with hp | ⟨b, hp⟩ <;>
    simp [hp, branches, HirPattern.shape, Shape.choices, columnsTotal, Nat.mul_right_comm]

theorem total_dropped
    (hv : ∀ target ∈ collectConstructors rows col, emitConstructorTest (vs.getD col .nil) target = false)
    (hrow : row ∈ rows) (hwild : isWildcard (row.column col) = false) (w : Nat × Value F → Nat) :
    total w (row.ways root vs) = 0 := by
  obtain ⟨s, hs⟩ := h.stores row hrow
  have hp := h.plain_column hrow hcol
  have hzero : ((branches (row.column col)).map fun q =>
      total w (q.shape.choices (vs.getD col .nil))).sum = 0 := by
    refine sum_eq_zero fun n hn => ?_
    obtain ⟨q, hq, rfl⟩ := List.mem_map.1 hn
    obtain ⟨c, hc⟩ := (exists_branch hp hwild).2 q hq
    refine total_eq_zero_of_test_false (plain_branch hp hq) hc (Bool.eq_false_iff.2 fun htest => ?_) w
    obtain ⟨target, ht, hpass⟩ := exists_test (mem_columnConstructors hrow hq hc) htest
    rw [hv target ht] at hpass
    cases hpass
  rw [h.total_row hcol hrow hs w, hzero, Nat.mul_zero]

end

end Aligned

end

end Elle.Match

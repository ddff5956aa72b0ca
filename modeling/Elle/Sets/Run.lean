import Elle.Sets.Freeze
import Elle.Lib.Runs

/-!
# Runs that mutate

A program allocates objects, overwrites mutable ones with whatever it likes, and builds and changes
sets. An element that is not layered keeps something mutable when it is frozen, and a later write to
it disorders the set.
-/

namespace Elle.Repr.Sets

open Sorted Runs List

variable {F : Type}

/-- What a program may put in an object: a struct is keyed by keys, and sets are built by the set
primitives. -/
def storable (h : Heap F) : Cell F → Bool
  | .struct _ es => es.all fun e => (view h e.1).any Value.isKey
  | .set _ _ => false
  | _ => true

/-- A mutable object keeps its type when it is overwritten. -/
def Cell.overwritable : Cell F → Cell F → Bool
  | .string true _, .string true _ | .bytes true _, .bytes true _ | .array true _, .array true _
  | .struct true _, .struct true _ => true
  | .box c _, .box c' _ => c == c'
  | _, _ => false

inductive Op (F : Type) where
  | alloc (c : Cell F)
  | overwrite (slot : Nat) (c : Cell F)
  | set (args : List (Ref F))
  | atSet (args : List (Ref F))
  | add (coll element : Ref F)
  | del (coll element : Ref F)

section

variable [TotalFloat F] (lossy : List UInt8 → List UInt8)

/-- The heap after an operation; the same if it is not one the program can do or does not return. -/
def apply (h : Heap F) : Op F → Heap F
  | .alloc c => if storable h c then h ++ [c] else h
  | .overwrite x c => if storable h c && h[x]?.any (·.overwritable c) then h.set x c else h
  | .set args => ((primSet lossy h args).map (·.2)).getD h
  | .atSet args => ((primAtSet lossy h args).map (·.2)).getD h
  | .add coll r => ((primAdd lossy h coll r).map (·.2)).getD h
  | .del coll r => ((primDel lossy h coll r).map (·.2)).getD h

omit [TotalFloat F] in
/-- A value whose frozen copy can be an element. -/
def Fit (h : Heap F) (r : Ref F) : Prop := ∃ v, view h r = some v ∧ Layered v

omit [TotalFloat F] in
def Allowed (h : Heap F) : Op F → Prop
  | .set args | .atSet args => ∀ r ∈ args, Fit h r
  | .add _ r => Fit h r
  | .alloc _ | .overwrite _ _ | .del _ _ => True

variable {lossy} {h : Heap F}

omit [TotalFloat F] in
theorem keys_of_storable {c : Cell F} (hc : storable h c) {m : Bool}
    {es : List (Ref F × Ref F)} (hes : c = .struct m es) :
    ∀ e ∈ es, ∃ k, view h e.1 = some k ∧ k.isKey := by
  subst hes
  intro e he
  have hany := List.all_eq_true.1 hc e he
  cases hv : view h e.1 with
  | none => simp [hv] at hany
  | some k => exact ⟨k, rfl, by simpa [hv] using hany⟩

theorem cellOk_of_storable {c : Cell F} (hc : storable h c) : CellOk h c := by
  refine ⟨fun m es hes => keys_of_storable hc hes, ?_⟩
  rintro m es rfl
  cases hc

omit [TotalFloat F] in
theorem isMutable_of_overwritable {c c' : Cell F} (hc : c.overwritable c') : c.isMutable := by
  unfold Cell.overwritable at hc
  split at hc <;> first | rfl | cases hc

variable (lossy) in
theorem freezeValue_fit (hinv : Inv h) {r : Ref F} (hr : Fit h r) :
    ∃ p u, freezeValue lossy h r = some p ∧ Grown h p.2 ∧ Member p.2 (p.1, u) := by
  obtain ⟨v, hv, hl⟩ := hr
  obtain ⟨p, u, hp, hu⟩ := hl.freezes h.length h r hinv (Nat.le_refl _) hv
  exact ⟨p, u, hp, freezeWith_grown hinv hp, hu⟩

theorem Grown.fit {h' : Heap F} (hg : Grown h h') {r : Ref F} (hr : Fit h r) : Fit h' r := by
  obtain ⟨v, hv, hl⟩ := hr
  exact ⟨v, hg.view hv, hl⟩

variable (lossy) in
theorem insertAll_ok (hinv : Inv h) {es args : List (Ref F)} (hes : SetOk h es)
    (hargs : ∀ r ∈ args, Fit h r) :
    ∃ p, insertAll lossy h es args = some p ∧ Grown h p.2 ∧ SetOk p.2 p.1 := by
  induction args generalizing h es with
  | nil => exact ⟨(es, h), rfl, .refl hinv, hes⟩
  | cons r rs ih =>
    obtain ⟨p, u, hp, hg, hu⟩ := freezeValue_fit lossy hinv (hargs r mem_cons_self)
    obtain ⟨es', hes', hok⟩ := (hes.keeps hg.keeps).insertRef hg.inv.keysOk hu
    obtain ⟨q, hq, hg', hqok⟩ := ih hg.inv hok fun r hr => hg.fit (hargs r (mem_cons_of_mem _ hr))
    refine ⟨q, ?_, hg.trans hg', hqok⟩
    rw [insertAll, hp, Option.bind_some, hes', Option.bind_some, hq]

theorem setOk_nil (h : Heap F) : SetOk h [] := ⟨[], rfl, nofun, .nil⟩

theorem cellOk_set {m : Bool} {es : List (Ref F)} (hes : SetOk h es) : CellOk h (.set m es) := by
  refine ⟨nofun, ?_⟩
  rintro _ _ ⟨⟩
  exact hes

theorem setOk_of_cellOf (hinv : Inv h) {coll : Ref F} {m : Bool} {es : List (Ref F)}
    (hc : cellOf h coll = some (.set m es)) : SetOk h es := by
  cases coll with
  | imm _ => cases hc
  | obj x => exact (hinv x _ hc).set m es rfl

theorem changeSet_inv (hinv : Inv h) {prim : String}
    {change : Heap F → List (Ref F) → Option (List (Ref F))}
    (hchange : ∀ es es', SetOk h es → change h es = some es' → SetOk h es') {coll : Ref F}
    {p : Reply F × Heap F} (hp : changeSet prim change h coll = some p) : Inv p.2 := by
  unfold changeSet at hp
  split at hp
  · next es hc =>
    obtain ⟨es', hes', hp⟩ := Option.bind_eq_some_iff.1 hp
    obtain ⟨es'', hes'', rfl⟩ := Option.map_eq_some_iff.1 hp
    obtain ⟨es₁, hes₁, hok⟩ := (setOk_of_cellOf hinv hc).collectRefs hinv.keysOk
    obtain rfl := Option.some.inj (hes₁.symm.trans hes')
    exact hinv.alloc (cellOk_set (hchange es₁ es'' hok hes''))
  · next x es hc =>
    obtain ⟨es', hes', rfl⟩ := Option.map_eq_some_iff.1 hp
    exact hinv.set hc rfl (cellOk_set (hchange es es' ((hinv x _ hc).set true es rfl) hes'))
  · cases hp
    exact hinv

theorem inv_getD {q : Option (Reply F × Heap F)} (hinv : Inv h) (hq : ∀ p, q = some p → Inv p.2) :
    Inv ((q.map (·.2)).getD h) := by
  cases q with
  | none => exact hinv
  | some p => exact hq p rfl

theorem inv_apply {op : Op F} (hinv : Inv h) (hop : Allowed h op) : Inv (apply lossy h op) := by
  cases op with
  | alloc c =>
    rw [apply]
    split
    · next hc => exact hinv.alloc (cellOk_of_storable hc)
    · exact hinv
  | overwrite x c =>
    rw [apply]
    split
    · next hc =>
      obtain ⟨hc, hx⟩ := Bool.and_eq_true_iff.1 hc
      cases hget : h[x]? with
      | none => simp [hget] at hx
      | some d =>
        rw [hget] at hx
        exact hinv.set hget (isMutable_of_overwritable hx) (cellOk_of_storable hc)
    · exact hinv
  | set args =>
    refine inv_getD hinv fun p hp => ?_
    obtain ⟨q, hq, hg, hok⟩ := insertAll_ok lossy hinv (setOk_nil h) hop
    rw [primSet, hq] at hp
    cases hp
    exact hg.inv.alloc (cellOk_set hok)
  | atSet args =>
    refine inv_getD hinv fun p hp => ?_
    obtain ⟨q, hq, hg, hok⟩ := insertAll_ok lossy hinv (setOk_nil h) hop
    rw [primAtSet, hq] at hp
    cases hp
    exact hg.inv.alloc (cellOk_set hok)
  | add coll r =>
    refine inv_getD hinv fun p hp => ?_
    obtain ⟨q, u, hq, hg, hu⟩ := freezeValue_fit lossy hinv hop
    rw [primAdd, hq, Option.bind_some] at hp
    refine changeSet_inv hg.inv (fun es es' hes he => ?_) hp
    obtain ⟨es₁, hes₁, hok⟩ := hes.insertRef hg.inv.keysOk hu
    obtain rfl := Option.some.inj (hes₁.symm.trans he)
    exact hok
  | del coll r =>
    refine inv_getD hinv fun p hp => ?_
    obtain ⟨q, hq, hp⟩ := Option.bind_eq_some_iff.1 hp
    have hg := freezeWith_grown hinv hq
    exact changeSet_inv hg.inv (fun es es' hes he => hes.removeRef he) hp

theorem collHas_member (hinv : Inv h) {x : Nat} {m : Bool} {es : List (Ref F)}
    (hx : h[x]? = some (.set m es)) {r : Ref F} (hr : r ∈ es) :
    collHas lossy h (.obj x) r = some true := by
  obtain ⟨ms, rfl, hms, hasc⟩ := (hinv x _ hx).set m _ rfl
  obtain ⟨e, he, rfl⟩ := List.mem_map.1 hr
  have hmem := hms e he
  have hfreeze : freezeValue lossy h e.1 = some (e.1, h) := freezeWith_viewed hmem.view_eq hmem.settled
  have hmembers := members_eq fun m hm => (hms m hm).view_eq
  have hord := ordered_member hinv.keysOk
  simp only [collHas, hfreeze, Option.bind_some, hmem.view_eq, cellOf, hx]
  cases m with
  | false =>
    obtain ⟨pre, post, rfl⟩ := append_of_mem he
    have hfound := hord.binarySearchBy_eq hmem hms hasc (cmp_self e.2)
    simp only [hmembers, Option.map_some, Option.some.injEq]
    rw [show (e.1, e.2) = e from rfl, hfound]
  | true =>
    have hfound := hord.lookup_eq (fun {a} _ => cmp_self a.2) hms hasc he
    simp only [hmembers, Option.map_some, Option.some.injEq]
    rw [show (e.1, e.2) = e from rfl, hfound]
    rfl

/-- In every run whose elements are layered, each set is strictly ascending, and a membership test
finds each of its elements. -/
theorem sets_stay_sorted (hreach : Runs.Reachable (apply lossy) Allowed [] h) {x : Nat} {m : Bool}
    {es : List (Ref F)} (hx : h[x]? = some (.set m es)) :
    (∃ vs, es.mapM (view h) = some vs ∧ Ascending Value.cmp vs) ∧
      ∀ r ∈ es, collHas lossy h (.obj x) r = some true := by
  have hinv : Inv h := hreach.inv (fun x c hc => (by cases hc)) fun h op => inv_apply
  refine ⟨?_, fun r hr => collHas_member hinv hx hr⟩
  obtain ⟨ms, rfl, hms, hasc⟩ := (hinv x _ hx).set m _ rfl
  refine ⟨ms.map Prod.snd, Pointwise.mapM_eq_some_iff.2 (forall₂_view_members hms), ?_⟩
  exact List.pairwise_map.2 hasc

end

def number (n : Int) : Ref Int := .imm ⟨.int n, nofun⟩

/-- The set `(@set @[1] 2)`, after `@[1]` became `@[3]`. -/
theorem sets_stay_sorted_array :
    let ops : List (Op Int) := [.alloc (.array true [number 1]), .atSet [.obj 0, number 2],
      .overwrite 0 (.array true [number 3])]
    let h := ops.foldl (apply id) []
    AllowsAll (apply id) Allowed [] ops ∧ h[2]? = some (.set true [number 2, .obj 1]) ∧
      collHas id h (.obj 2) (.obj 1) = some true := by
  intro ops h
  have hnumber : ∀ n : Int, Settled (.int n : Value Int) := fun n =>
    Value.all_immediate nofun ⟨nofun, nofun⟩
  have hallowed : AllowsAll (apply id) Allowed [] ops := by
    refine ⟨trivial, ?_, trivial, trivial⟩
    intro r hr
    rcases List.mem_pair.1 hr with rfl | rfl
    · refine ⟨.heap 0 (.array true [.int 1]), by with_unfolding_all rfl,
        .collection rfl nofun fun c hc => ?_⟩
      cases List.mem_singleton.1 hc
      exact .settled (hnumber 1)
    · exact ⟨_, rfl, .settled (hnumber 2)⟩
  have hx : h[2]? = some (.set true [number 2, .obj 1]) := by with_unfolding_all rfl
  have hreach : Runs.Reachable (apply id) Allowed [] h := Runs.Reachable.foldl .start hallowed
  exact ⟨hallowed, hx, (sets_stay_sorted hreach hx).2 (.obj 1) (by simp)⟩

/-- The arrays `[@[1]]` and `[@[2]]` are put in a set, then `@[1]` becomes `@[3]`: the set is out of
order and does not find its first element. -/
theorem set_disordered :
    let ops : List (Op Int) := [.alloc (.array true [number 1]), .alloc (.array true [number 2]),
      .alloc (.array false [.obj 0]), .alloc (.array false [.obj 1]), .set [.obj 2, .obj 3],
      .overwrite 0 (.array true [number 3])]
    let h := ops.foldl (apply id) []
    h[4]? = some (.set false [.obj 2, .obj 3]) ∧
      (∃ v w, view h (.obj 2) = some v ∧ view h (.obj 3) = some w ∧ v.cmp w = .gt) ∧
      collHas id h (.obj 4) (.obj 2) = some false := by
  refine ⟨by with_unfolding_all rfl, ⟨_, _, by with_unfolding_all rfl, by with_unfolding_all rfl, ?_⟩, ?_⟩
  all_goals decide +kernel

end Elle.Repr.Sets

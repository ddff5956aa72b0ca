import Elle.Match.Matrix

/-!
# First match over candidates

The meaning both lowerings share: candidates in order, each with the ways it matches; an unguarded
candidate that matches at all is selected, a guarded one runs its guard once per way.
`firstMatch_flatMap` says when each candidate may be replaced, in place, by several that together
have the same ways. For a guarded candidate that means at most one way.
-/

namespace Elle.Match

open Choices List

variable {F : Type}

structure Candidate (F : Type) where
  arm : Nat
  hasGuard : Bool
  ways : List (Stores F)

def tryWays (oracle : Oracle F) (arm : Nat) (next : Next F) : List (Stores F) → Next F
  | [] => next
  | s :: ss => runGuard oracle arm s (tryWays oracle arm next ss)

def firstMatch (oracle : Oracle F) : List (Candidate F) → Next F
  | [] => fun trials => (.matchError, trials)
  | c :: cs =>
    if c.hasGuard then tryWays oracle c.arm (firstMatch oracle cs) c.ways
    else if c.ways.isEmpty then firstMatch oracle cs
    else fun trials => (.arm c.arm, trials)

/-- At most one way to match, which binds no variable twice. -/
def Clear (ways : List (Stores F)) : Prop :=
  ways.length ≤ 1 ∧ ∀ s ∈ ways, (s.map (·.1)).Nodup

instance (ways : List (Stores F)) : Decidable (Clear ways) :=
  inferInstanceAs (Decidable (ways.length ≤ 1 ∧ ∀ s ∈ ways, (s.map (·.1)).Nodup))

/-- Two lists of ways a candidate cannot tell apart: as many, and for a guarded candidate also with
the same stores. -/
def SameWays (hasGuard : Bool) (xs ys : List (Stores F)) : Prop :=
  ∀ w : Nat × Value F → Nat, (hasGuard = false → w = fun _ => 1) → total w xs = total w ys

theorem slots_eq_of_perm {s t : Stores F} (h : s.Perm t) (hnodup : (s.map (·.1)).Nodup) :
    slots s = slots t := by
  refine h.foldl_eq' (fun x hx y hy σ => ?_) _
  by_cases hxy : x.1 = y.1
  · rw [inj_on_of_nodup_map hnodup hx hy hxy]
  · exact Function.update_comm (fun heq => hxy heq) _ _ _

theorem SameWays.length_eq {hasGuard : Bool} {xs ys : List (Stores F)}
    (h : SameWays hasGuard xs ys) : xs.length = ys.length := by
  rw [← total_one, ← total_one, h _ fun _ => rfl]

theorem Clear.of_sameWays {xs ys : List (Stores F)} (h : SameWays true xs ys) (hc : Clear ys) :
    Clear xs := by
  rcases single_of_total_eq (fun w => h w nofun) hc.1 with ⟨rfl, -⟩ | ⟨x, y, rfl, rfl, hperm⟩
  · exact ⟨Nat.zero_le 1, nofun⟩
  · refine ⟨Nat.le_refl 1, fun s hs => ?_⟩
    rcases List.mem_singleton.1 hs with rfl
    exact ((hperm.map _).nodup_iff).2 (hc.2 y (mem_singleton_self y))

theorem Clear.sublist {xs ys : List (Stores F)} (h : xs.Sublist ys) (hc : Clear ys) : Clear xs :=
  ⟨h.length_le.trans hc.1, fun s hs => hc.2 s (h.subset hs)⟩

variable (oracle : Oracle F)

theorem runGuard_congr (arm : Nat) {s t : Stores F} (h : slots s = slots t) :
    runGuard oracle arm s = runGuard oracle arm t := by
  unfold runGuard
  rw [h]

theorem tryWays_append (arm : Nat) (next : Next F) (xs ys : List (Stores F)) :
    tryWays oracle arm next (xs ++ ys) = tryWays oracle arm (tryWays oracle arm next ys) xs := by
  induction xs with
  | nil => rfl
  | cons x xs ih => rw [cons_append, tryWays, ih, tryWays]

theorem firstMatch_cons (c : Candidate F) {cs ds : List (Candidate F)}
    (h : firstMatch oracle cs = firstMatch oracle ds) :
    firstMatch oracle (c :: cs) = firstMatch oracle (c :: ds) := by
  rw [firstMatch, firstMatch, h]

theorem firstMatch_group (arm : Nat) (hasGuard : Bool) (ways : List (List (Stores F)))
    (cs : List (Candidate F)) :
    firstMatch oracle (ways.map (⟨arm, hasGuard, ·⟩) ++ cs) =
      firstMatch oracle (⟨arm, hasGuard, ways.flatten⟩ :: cs) := by
  induction ways with
  | nil => cases hasGuard <;> rfl
  | cons ws ways ih =>
    rw [map_cons, cons_append, firstMatch, ih, firstMatch, firstMatch]
    cases hasGuard with
    | true => simp [tryWays_append]
    | false => cases ws <;> simp

theorem firstMatch_sameWays (arm : Nat) {hasGuard : Bool} {xs ys : List (Stores F)}
    (cs : List (Candidate F)) (h : SameWays hasGuard xs ys) (hclear : hasGuard → Clear ys) :
    firstMatch oracle (⟨arm, hasGuard, xs⟩ :: cs) = firstMatch oracle (⟨arm, hasGuard, ys⟩ :: cs) := by
  cases hasGuard with
  | false =>
    have hlen := h.length_eq
    have hempty : xs.isEmpty = ys.isEmpty := by
      rw [Bool.eq_iff_iff, isEmpty_iff_length_eq_zero, isEmpty_iff_length_eq_zero, hlen]
    simp [firstMatch, hempty]
  | true =>
    have hc := hclear rfl
    rcases single_of_total_eq (fun w => h w nofun) hc.1 with ⟨rfl, rfl⟩ | ⟨x, y, rfl, rfl, hperm⟩
    · rfl
    · have hslots : slots x = slots y :=
        slots_eq_of_perm hperm (((hperm.map _).nodup_iff).2 (hc.2 y (mem_singleton_self y)))
      simp [firstMatch, tryWays, runGuard_congr oracle arm hslots]

theorem firstMatch_flatMap {A : Type} (rows : List A) (f : A → List A) (arm : A → Nat)
    (hasGuard : A → Bool) (ways ways' : A → List (Stores F))
    (harm : ∀ row ∈ rows, ∀ row' ∈ f row, arm row' = arm row ∧ hasGuard row' = hasGuard row)
    (hways : ∀ row ∈ rows, SameWays (hasGuard row) ((f row).map ways').flatten (ways row))
    (hclear : ∀ row ∈ rows, hasGuard row → Clear (ways row)) :
    firstMatch oracle ((rows.flatMap f).map fun row => ⟨arm row, hasGuard row, ways' row⟩) =
      firstMatch oracle (rows.map fun row => ⟨arm row, hasGuard row, ways row⟩) := by
  induction rows with
  | nil => rfl
  | cons row rows ih =>
    have ih := ih (fun r hr => harm r (mem_cons_of_mem _ hr))
      (fun r hr => hways r (mem_cons_of_mem _ hr))
      (fun r hr => hclear r (mem_cons_of_mem _ hr))
    have hgroup : (f row).map (fun row => (⟨arm row, hasGuard row, ways' row⟩ : Candidate F)) =
        ((f row).map ways').map (⟨arm row, hasGuard row, ·⟩) := by
      rw [List.map_map]
      refine map_congr_left fun row' hr => ?_
      obtain ⟨ha, hg⟩ := harm row mem_cons_self row' hr
      rw [ha, hg]
      rfl
    rw [flatMap_cons, map_append, hgroup, firstMatch_group, map_cons,
      firstMatch_sameWays oracle _ _ (hways row mem_cons_self) (hclear row mem_cons_self)]
    exact firstMatch_cons oracle _ ih

end Elle.Match

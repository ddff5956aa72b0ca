import Mathlib

/-!
# Names that share cells

A store addressed by names whose cells may coincide. A history is what was read and written, newest first. A
read through the cells gives the last write to any name of the cell.
-/

namespace Cells

variable {ν κ α : Type}

inductive Event (ν α : Type) where
  | read (x : ν) (v : α)
  | write (x : ν) (v : α)

/-- What happened, newest first. -/
abbrev History (ν α : Type) := List (Event ν α)

/-- The last write to a name of the kind. -/
def last (p : ν → Prop) [DecidablePred p] : History ν α → Option (ν × α)
  | [] => none
  | .read _ _ :: h => last p h
  | .write x v :: h => if p x then some (x, v) else last p h

/-- Every read gave the value last written to the name, if it was written. -/
def Faithful [DecidableEq ν] (h : History ν α) : Prop :=
  ∀ newer x v older, h = newer ++ .read x v :: older → ∀ y w, last (· = x) older = some (y, w) → v = w

/-- At every read of a name that was written, the last write to it and to the names that share with it left
the value last written to it. -/
def Undisturbed [DecidableEq ν] (shares : ν → ν → Prop) [∀ x, DecidablePred (shares x)]
    (h : History ν α) : Prop :=
  ∀ newer x v older, h = newer ++ .read x v :: older →
    ∀ y w, last (· = x) older = some (y, w) →
      ∀ z u, last (fun z => z = x ∨ shares x z) older = some (z, u) → u = w

section

variable {p q : ν → Prop} [DecidablePred p] [DecidablePred q] {h : History ν α}

theorem last_congr (hpq : ∀ x v, .write x v ∈ h → (p x ↔ q x)) : last p h = last q h := by
  induction h with
  | nil => rfl
  | cons e h ih =>
    have htail := ih fun x v hmem => hpq x v (List.mem_cons_of_mem _ hmem)
    cases e with
    | read y w => exact htail
    | write y w =>
      have hy := hpq y w List.mem_cons_self
      rw [last, last, htail]
      by_cases hp : p y
      · rw [if_pos hp, if_pos (hy.mp hp)]
      · rw [if_neg hp, if_neg fun hq => hp (hy.mpr hq)]

theorem last_append_reads {es : History ν α} (hes : ∀ e ∈ es, ∃ x v, e = .read x v) :
    last p (es ++ h) = last p h := by
  induction es with
  | nil => rfl
  | cons e es ih =>
    obtain ⟨x, v, rfl⟩ := hes e List.mem_cons_self
    exact ih fun e he => hes e (List.mem_cons_of_mem _ he)

theorem last_isSome_of_imp (hpq : ∀ x, p x → q x) (hl : (last p h).isSome) : (last q h).isSome := by
  induction h with
  | nil => cases hl
  | cons e h ih =>
    cases e with
    | read y w => exact ih hl
    | write y w =>
      rw [last] at hl ⊢
      split
      · rfl
      · next hq =>
        rw [if_neg fun hp => hq (hpq y hp)] at hl
        exact ih hl

end

end Cells

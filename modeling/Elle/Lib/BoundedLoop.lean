import Mathlib

/-! # Loops that come with their bound

A `while` loop is a step function that answers `none` when the loop exits.  `BoundedLoop` packs the step
with a measure that every iteration lowers, so that the loop runs as a structural recursion on the measure
of its first state.
-/

/-- A loop over states `σ`: one iteration, and a measure which each iteration lowers. -/
structure BoundedLoop (σ : Type*) where
  step : σ → Option σ
  measure : σ → Nat
  decreases : ∀ {s s'}, step s = some s' → measure s' < measure s

namespace BoundedLoop

variable {σ : Type*} (L : BoundedLoop σ)

def iterate : Nat → σ → σ
  | 0, s => s
  | n + 1, s => match L.step s with
    | none => s
    | some s' => iterate n s'

def run (s : σ) : σ := L.iterate (L.measure s) s

/-- The state `t` is one the loop passes through when it starts in `s`. -/
def Reaches : σ → σ → Prop := Relation.ReflTransGen fun s s' => L.step s = some s'

variable {L} {s t : σ}

theorem Reaches.refl : L.Reaches s s := Relation.ReflTransGen.refl

theorem Reaches.head {s' : σ} (h : L.step s = some s') (ht : L.Reaches s' t) : L.Reaches s t :=
  Relation.ReflTransGen.head h ht

theorem iterate_reaches (n : Nat) (s : σ) : L.Reaches s (L.iterate n s) := by
  induction n generalizing s with
  | zero => exact .refl
  | succ n ih =>
    rw [iterate]
    cases h : L.step s with
    | none => exact .refl
    | some s' => exact .head h (ih s')

theorem run_reaches (s : σ) : L.Reaches s (L.run s) := iterate_reaches _ s

theorem step_iterate {n : Nat} (hn : L.measure s ≤ n) : L.step (L.iterate n s) = none := by
  induction n generalizing s with
  | zero =>
    cases h : L.step s with
    | none => rw [iterate, h]
    | some s' => exact absurd (L.decreases h) (by omega)
  | succ n ih =>
    rw [iterate]
    cases h : L.step s with
    | none => exact h
    | some s' => exact ih (by have := L.decreases h; omega)

/-- The measure is enough fuel: the run ends in a state where the loop exits. -/
theorem step_run (s : σ) : L.step (L.run s) = none := step_iterate (Nat.le_refl _)

theorem Reaches.inv {I : σ → Prop} (h : L.Reaches s t)
    (hstep : ∀ a b, L.Reaches s a → L.step a = some b → I a → I b) (hs : I s) : I t := by
  induction h with
  | refl => exact hs
  | tail hab hbc ih => exact hstep _ _ hab hbc ih

theorem run_inv {I : σ → Prop} (hstep : ∀ a b, L.step a = some b → I a → I b) (hs : I s) : I (L.run s) :=
  (run_reaches s).inv (fun a b _ => hstep a b) hs

end BoundedLoop

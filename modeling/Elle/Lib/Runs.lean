import Mathlib

/-! # Runs of a machine

A machine is a function that applies an event to a state; a run starts in a fixed state and applies events that
are allowed where they are applied.
-/

namespace Runs

variable {σ α : Type*}

/-- The states of the runs whose events are all allowed. -/
inductive Reachable (apply : σ → α → σ) (Allowed : σ → α → Prop) (start : σ) : σ → Prop
  | start : Reachable apply Allowed start start
  | step {s : σ} (a : α) : Reachable apply Allowed start s → Allowed s a → Reachable apply Allowed start (apply s a)

variable {apply : σ → α → σ} {Allowed : σ → α → Prop} {start s : σ}

/-- What holds at the start and is preserved by every allowed event holds in every reachable state. -/
theorem Reachable.inv {I : σ → Prop} (h0 : I start) (hstep : ∀ s a, I s → Allowed s a → I (apply s a))
    (h : Reachable apply Allowed start s) : I s := by
  induction h with
  | start => exact h0
  | step a _ ha ih => exact hstep _ a ih ha

/-- Every event of a list is allowed where it is applied. -/
def AllowsAll (apply : σ → α → σ) (Allowed : σ → α → Prop) : σ → List α → Prop
  | _, [] => True
  | s, a :: as => Allowed s a ∧ AllowsAll apply Allowed (apply s a) as

instance AllowsAll.decidable [∀ s a, Decidable (Allowed s a)] :
    ∀ (s : σ) (as : List α), Decidable (AllowsAll apply Allowed s as)
  | _, [] => .isTrue trivial
  | s, a :: as => @instDecidableAnd _ _ _ (AllowsAll.decidable (apply s a) as)

theorem Reachable.foldl (h : Reachable apply Allowed start s) {as : List α} (ha : AllowsAll apply Allowed s as) :
    Reachable apply Allowed start (as.foldl apply s) := by
  induction as generalizing s with
  | nil => exact h
  | cons a as ih => exact ih (.step a h ha.1) ha.2

end Runs

import Mathlib

/-!
# Machines that answer

A machine takes a call to an answer and the next state. Two machines whose states are related, and stay
so under every call while their answers agree, answer every sequence of calls alike.
-/

namespace Answers

variable {σ τ α β : Type*}

/-- The answers to a sequence of calls, and the state it ends in. -/
def run (call : σ → α → β × σ) (s : σ) : List α → List β × σ
  | [] => ([], s)
  | a :: as =>
    let (b, s') := call s a
    let (bs, s'') := run call s' as
    (b :: bs, s'')

theorem run_related {call : σ → α → β × σ} {call' : τ → α → β × τ} {R : σ → τ → Prop}
    (hstep : ∀ s t a, R s t → (call s a).1 = (call' t a).1 ∧ R (call s a).2 (call' t a).2)
    {s : σ} {t : τ} (h : R s t) (as : List α) :
    (run call s as).1 = (run call' t as).1 ∧ R (run call s as).2 (run call' t as).2 := by
  induction as generalizing s t with
  | nil => exact ⟨rfl, h⟩
  | cons a as ih =>
    obtain ⟨hanswer, hnext⟩ := hstep s t a h
    obtain ⟨hanswers, hend⟩ := ih hnext
    exact ⟨List.cons_eq_cons.2 ⟨hanswer, hanswers⟩, hend⟩

end Answers

import Elle.Lib.Runs

/-!
# One-time initialisation

`make-once` of `lib/sync.lisp` and the fibers that call its `:get`. A fiber runs until its thunk suspends or it waits
at the futex, and the others run meanwhile. What the thunk answers and what it raises are kept in one place: who comes
after the run is answered either.
-/

namespace Elle.Sync

inductive Phase where
  | pending | running | done
  deriving DecidableEq

structure Once (V : Type) (n : Nat) where
  bx : Phase := .pending
  result : V
  /-- The fiber inside the thunk. -/
  runner : Option (Fin n) := none
  parked : List (Fin n) := []
  woken : List (Fin n) := []
  starts : Nat := 0
  /-- How the calls of `:get` ended. -/
  ended : List (Except V V) := []

inductive OnceEvent (n : Nat) where
  | get (i : Fin n)
  /-- The thunk ends. -/
  | finish
  | goOn (i : Fin n)

namespace Once

variable {V : Type} {n : Nat}

/-- `(ftx:wait :running)`, and `(result 0)` after it. -/
def wait (s : Once V n) (i : Fin n) : Once V n :=
  if s.bx = .running then { s with parked := s.parked ++ [i] }
  else { s with ended := s.ended ++ [Except.ok s.result] }

/-- The second value of `protect`. -/
def val : Except V V → V
  | .ok v | .error v => v

def apply (thunk : Except V V) (s : Once V n) : OnceEvent n → Once V n
  | .get i =>
    match s.bx with
    | .done => { s with ended := s.ended ++ [Except.ok s.result] }
    | .running => s.wait i
    | .pending => { s with bx := .running, runner := some i, starts := s.starts + 1 }
  | .finish =>
    { s with
      bx := .done, result := val thunk, runner := none, parked := s.parked.drop 999999999,
      woken := s.woken ++ s.parked.take 999999999, ended := s.ended ++ [thunk] }
  | .goOn i => { s with woken := s.woken.erase i }.wait i

/-- A fiber calls when it does not wait; the thunk may call too, and does not end while it waits. -/
def Allowed (s : Once V n) : OnceEvent n → Prop
  | .get i => i ∉ s.parked ∧ i ∉ s.woken
  | .finish => ∃ i, s.runner = some i ∧ i ∉ s.parked ∧ i ∉ s.woken
  | .goOn i => i ∈ s.woken

/-- The states of every interleaving of the fibers, for a thunk that ends as given if it ends. -/
def Reachable (thunk : Except V V) (nil : V) : Once V n → Prop :=
  Runs.Reachable (apply thunk) Allowed { result := nil }

/-- One start at most, the thunk's outcome for every call, and nobody parked after its end. -/
def Exact (thunk : Except V V) (s : Once V n) : Prop :=
  s.starts ≤ 1 ∧ (∀ x ∈ s.ended, x = thunk) ∧ (s.bx = .done → s.parked = [])

structure Steady (v : V) (s : Once V n) : Prop where
  starts : s.starts = if s.bx = .pending then 0 else 1
  runner : s.runner.isSome → s.bx = .running
  woken : s.bx ≠ .done → s.woken = []
  nodup : s.parked.Nodup
  result : s.bx = .done → s.result = v
  ended : ∀ x ∈ s.ended, x = .ok v
  released : s.bx = .done → s.parked = []

variable {s : Once V n} {v nil : V}

theorem Steady.answer (h : Steady v s) (hdone : s.bx = .done) {woken : List (Fin n)} :
    Steady v { s with woken := woken, ended := s.ended ++ [Except.ok s.result] } := by
  refine ⟨h.starts, h.runner, fun hn => absurd hdone hn, h.nodup, h.result, fun x hx => ?_, h.released⟩
  rcases List.mem_append.1 hx with hx | hx
  · exact h.ended x hx
  · rw [List.mem_singleton.1 hx, h.result hdone]

theorem Steady.apply (hn : n ≤ 1000000000) (h : Steady v s) {e : OnceEvent n} (ha : s.Allowed e) :
    Steady v (s.apply (.ok v) e) := by
  cases e with
  | get i =>
    simp only [Once.apply]
    split
    next hbx => exact h.answer hbx
    next hbx =>
      have hnodup : (s.parked ++ [i]).Nodup := List.nodup_append.2 ⟨h.nodup, List.nodup_singleton i, by
        rintro a ha' b hb rfl
        exact ha.1 (List.mem_singleton.1 hb ▸ ha')⟩
      rw [wait, if_pos hbx]
      exact ⟨h.starts, h.runner, h.woken, hnodup, h.result, h.ended, fun hd => absurd (hbx.symm.trans hd) nofun⟩
    next hbx =>
      exact ⟨by simp [h.starts, hbx], fun _ => rfl, fun _ => h.woken (by simp [hbx]), h.nodup, nofun, h.ended, nofun⟩
  | finish =>
    obtain ⟨i, hi, hp, -⟩ := ha
    have hbx := h.runner (by simp [hi])
    -- the fiber in the thunk and those that wait for it are different ones
    have hlen : s.parked.length + 1 ≤ n := by
      simpa using (List.nodup_cons.2 ⟨hp, h.nodup⟩).length_le_card
    have hdrop : s.parked.drop 999999999 = [] := List.drop_eq_nil_of_le (by omega)
    refine ⟨by simp [Once.apply, h.starts, hbx], nofun, fun hd => absurd rfl hd, ?_, fun _ => rfl, fun x hx => ?_,
      fun _ => hdrop⟩
    · simp [Once.apply, hdrop]
    · exact (List.mem_append.1 hx).elim (h.ended x) List.mem_singleton.1
  | goOn i =>
    have hbx : s.bx = .done := by
      by_contra hne
      simp [Allowed, h.woken hne] at ha
    rw [Once.apply, wait, if_neg (by simp [hbx])]
    exact h.answer hbx

/-- Any number of fibers below `n` can park beside the one in the thunk. -/
theorem exists_parked (thunk : Except V V) (nil : V) (hn : 0 < n) (k : Nat) (hk : k < n) :
    ∃ s : Once V n, s.Reachable thunk nil ∧ s.bx = .running ∧ s.runner = some ⟨0, hn⟩ ∧ s.woken = [] ∧
      s.parked.length = k ∧ ∀ i ∈ s.parked, 0 < i.val ∧ i.val ≤ k := by
  induction k with
  | zero => exact ⟨_, .step (.get ⟨0, hn⟩) .start (by simp [Allowed]), rfl, rfl, rfl, rfl, nofun⟩
  | succ k ih =>
    obtain ⟨s, hs, hbx, hrun, hwoken, hlen, hpos⟩ := ih (by omega)
    have hnew : (⟨k + 1, hk⟩ : Fin n) ∉ s.parked := fun h => Nat.not_succ_le_self k (hpos _ h).2
    have hallowed : s.Allowed (.get ⟨k + 1, hk⟩) := ⟨hnew, by simp [hwoken]⟩
    refine ⟨_, .step _ hs hallowed, ?_⟩
    simp only [apply, hbx, wait, if_true, hrun, hwoken, List.length_append, hlen, List.length_singleton, true_and]
    intro i hi
    rcases List.mem_append.1 hi with hi | hi
    · exact ⟨(hpos i hi).1, Nat.le_succ_of_le (hpos i hi).2⟩
    · simp [List.mem_singleton.1 hi]

/-- A thunk that raises reaches its late callers as an answer; the other bound is the number `:get` wakes. -/
theorem once_exact_iff (thunk : Except V V) (nil : V) (n : Nat) :
    (∀ s : Once V n, s.Reachable thunk nil → s.Exact thunk) ↔
      n = 0 ∨ (∃ v, thunk = .ok v) ∧ n ≤ 1000000000 := by
  constructor
  · intro h
    rcases Nat.eq_zero_or_pos n with hn | hn
    · exact .inl hn
    refine .inr ⟨?_, ?_⟩
    · cases thunk with
      | ok v => exact ⟨v, rfl⟩
      | error e =>
        have hs := h ([.get ⟨0, hn⟩, .finish, .get ⟨0, hn⟩].foldl (apply (.error e)) { result := nil })
          (Runs.Reachable.start.foldl (by simp [Runs.AllowsAll, Allowed, apply]))
        have hlate := hs.2.1 (.ok e) (by simp [apply, val])
        cases hlate
    · by_contra hbig
      obtain ⟨s, hs, hbx, hrun, hwoken, hlen, hpos⟩ := exists_parked thunk nil hn 1000000000 (by omega)
      have hi : (⟨0, hn⟩ : Fin n) ∉ s.parked := fun hi => by simpa using (hpos _ hi).1
      have hallowed : s.Allowed .finish := ⟨_, hrun, hi, by simp [hwoken]⟩
      have hleft := (h _ (.step _ hs hallowed)).2.2 rfl
      have := congrArg List.length hleft
      simp [apply, hlen] at this
  · rintro (rfl | ⟨⟨v, rfl⟩, hn⟩) s hs
    · have hstart : s = { result := nil } := hs.inv (I := fun s => s = { result := nil }) rfl fun s e h ha => by
        cases e with
        | get i | goOn i => exact i.elim0
        | finish => simp [Allowed] at ha
      subst hstart
      exact ⟨by simp, by simp, fun _ => rfl⟩
    · have hsteady : s.Steady v := hs.inv ⟨rfl, by simp, fun _ => rfl, List.nodup_nil, by simp, by simp, fun _ => rfl⟩
        fun _ _ h ha => h.apply hn ha
      refine ⟨?_, hsteady.ended, hsteady.released⟩
      rw [hsteady.starts]
      split <;> simp

/-- The thunk raises 7 in the first caller and the second is answered 7. -/
theorem late_caller_answered : ∃ s : Once Nat 2, s.Reachable (.error 7) 0 ∧ s.ended = [.error 7, .ok 7] := by
  refine ⟨[.get 0, .finish, .get 1].foldl (apply (.error 7)) { result := 0 }, Runs.Reachable.start.foldl ?_, rfl⟩
  simp [Runs.AllowsAll, Allowed, apply]

end Once

end Elle.Sync

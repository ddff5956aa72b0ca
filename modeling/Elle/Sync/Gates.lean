import Elle.Lib.Runs

/-!
# Barriers

`make-barrier` of `lib/sync.lisp` and the fibers that call its `:wait`. The box counts the calls and is never reset, and
only the call that makes it `n` wakes anybody: the first `n` calls return together, and no call after them does.
-/

namespace Elle.Sync

/-- A barrier with the fibers that wait at it, each given by the count it waits to change. -/
structure Barrier where
  bx : Nat := 0
  parked : List Nat := []
  woken : List Nat := []
  /-- The calls that have returned. -/
  passed : Nat := 0

inductive BarrierEvent where
  | wait
  | goOn (expected : Nat)

namespace Barrier

/-- The futex's `:wait`. -/
def futexWait (s : Barrier) (expected : Nat) : Barrier :=
  if s.bx = expected then { s with parked := s.parked ++ [expected] } else { s with passed := s.passed + 1 }

def apply (n : Nat) (s : Barrier) : BarrierEvent → Barrier
  | .wait =>
    let count := s.bx + 1
    if count = n then
      { bx := count, parked := s.parked.drop 999999999, woken := s.woken ++ s.parked.take 999999999,
        passed := s.passed + 1 }
    else { s with bx := count }.futexWait count
  | .goOn expected => { s with woken := s.woken.erase expected }.futexWait expected

/-- Any fiber may call; a woken one goes on. -/
def Allowed (s : Barrier) : BarrierEvent → Prop
  | .wait => True
  | .goOn expected => expected ∈ s.woken

/-- The states of every interleaving of any number of fibers. -/
def Reachable (n : Nat) : Barrier → Prop := Runs.Reachable (apply n) Allowed {}

structure Steady (n : Nat) (s : Barrier) : Prop where
  calls : s.parked.length + s.woken.length + s.passed = s.bx
  closed : s.bx < n → s.woken = [] ∧ s.passed = 0
  once : s.woken.length + s.passed ≤ n
  early : ∀ e ∈ s.parked, e ≤ s.bx
  older : ∀ e ∈ s.woken, e < n
  released : s.bx = n → n ≤ 1000000000 → s.parked = []

variable {n : Nat} {s : Barrier}

theorem Steady.wait (h : Steady n s) : Steady n (s.apply n .wait) := by
  have hcalls := h.calls
  unfold apply
  dsimp only
  split
  next hlast =>
    -- the last of the `n` wakes those that wait, all of which came before it
    obtain ⟨hwoken, hpassed⟩ := h.closed (by omega)
    rw [hwoken, hpassed, List.length_nil] at hcalls
    rw [hwoken, hpassed, hlast]
    refine ⟨?_, fun hlt => absurd hlt (Nat.lt_irrefl n), ?_, fun e he => ?_, fun e he => ?_, fun _ hn => ?_⟩
    · simp only [List.nil_append, List.length_take, List.length_drop]
      omega
    · simp only [List.nil_append, List.length_take]
      omega
    · exact hlast ▸ Nat.le_succ_of_le (h.early e (List.mem_of_mem_drop he))
    · exact hlast ▸ Nat.lt_succ_of_le (h.early e (List.mem_of_mem_take he))
    · exact List.drop_eq_nil_of_le (by omega)
  next hlast =>
    rw [futexWait, if_pos rfl]
    refine ⟨?_, fun hlt => h.closed (Nat.lt_of_succ_lt hlt), h.once, fun e he => ?_, h.older, fun heq => absurd heq hlast⟩
    · simp only [List.length_append, List.length_singleton]
      omega
    · rcases List.mem_append.1 he with he | he
      · exact Nat.le_succ_of_le (h.early e he)
      · exact Nat.le_of_eq (List.mem_singleton.1 he)

theorem Steady.goOn (h : Steady n s) {e : Nat} (he : e ∈ s.woken) : Steady n (s.apply n (.goOn e)) := by
  have hcalls := h.calls
  have honce := h.once
  have hlen := List.length_erase_of_mem he
  have hpos := List.length_pos_of_mem he
  have hopen : ¬s.bx < n := by
    intro hlt
    rw [(h.closed hlt).1] at he
    cases he
  have hne : s.bx ≠ e := by
    have := h.older e he
    omega
  rw [apply, futexWait, if_neg hne]
  refine ⟨?_, fun hlt => absurd hlt hopen, ?_, h.early, fun x hx => h.older x (List.mem_of_mem_erase hx), h.released⟩
  all_goals
    dsimp only
    omega

/-- Nobody passes before `n` fibers have come; when `n` have come and nobody is runnable, all have passed; and however
many come later, no more than `n` ever pass. -/
theorem barrier_opens_once (n : Nat) :
    (∀ s : Barrier, s.Reachable n → (s.passed ≠ 0 → n ≤ s.bx) ∧ s.passed ≤ n) ∧
      (n ≤ 1000000000 → ∀ s : Barrier, s.Reachable n → s.bx = n → s.woken = [] → s.passed = n) := by
  have hstart : Steady n {} := ⟨rfl, by simp, Nat.zero_le n, by simp, by simp, by simp⟩
  have hsteady : ∀ s : Barrier, s.Reachable n → Steady n s := fun s hs => hs.inv hstart fun s e h ha => by
    cases e with
    | wait => exact h.wait
    | goOn e => exact h.goOn ha
  refine ⟨fun s hs => ⟨fun hpassed => ?_, ?_⟩, fun hn s hs hbx hwoken => ?_⟩
  · by_contra hlt
    exact hpassed ((hsteady s hs).closed (Nat.not_le.1 hlt)).2
  · exact Nat.le_trans (Nat.le_add_left _ _) (hsteady s hs).once
  · have hcalls := (hsteady s hs).calls
    rw [(hsteady s hs).released hbx hn, hwoken] at hcalls
    simpa [hbx] using hcalls

end Barrier

end Elle.Sync

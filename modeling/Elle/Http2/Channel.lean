import Elle.Lib.Runs

/-!
# The HTTP/2 channel

`make-channel` of `lib/http2/stream.lisp` with the fibers that take from it. A fiber runs until it waits at the
futex; a wake-up makes the oldest waiting fibers runnable, and each goes on at a moment of its own. One flag
tells `put` that somebody waits, and a taker that goes on clears it for all.
-/

namespace Elle.Http2

/-- What the users of a channel see. -/
inductive Happening (α : Type) where
  | put (v : α)
  | took (v : α)
  | closed
  | tookNil

/-- The histories of a queue, with what is still to be taken and whether it is closed. -/
inductive Queued {α : Type} : List (Happening α) → List α → Bool → Prop
  | start : Queued [] [] false
  | put {h q c} (v : α) (hq : Queued h q c) : Queued (h ++ [Happening.put v]) (q ++ [v]) c
  | took {h q c} {v : α} (hq : Queued h (v :: q) c) : Queued (h ++ [Happening.took v]) q c
  | close {h q c} (hq : Queued h q c) : Queued (h ++ [Happening.closed]) q true
  | tookNil {h} (hq : Queued h [] true) : Queued (h ++ [Happening.tookNil]) [] true

/-- A channel and the `n` fibers that take from it. -/
structure Channel (α : Type) (n : Nat) where
  buf : List α := []
  closed : Bool := false
  waiting : Bool := false
  /-- The generation in the box. -/
  bx : Nat := 0
  parked : List (Fin n) := []
  /-- The takers to go on. -/
  woken : List (Fin n) := []
  log : List (Happening α) := []

inductive ChannelEvent (α : Type) (n : Nat) where
  | put (v : α)
  | close
  | take (i : Fin n)
  | goOn (i : Fin n)

namespace Channel

variable {α : Type} {n : Nat}

/-- `ev/futex-wait`: the fiber parks if the box holds `gen`, and goes on otherwise. -/
def futexWait (s : Channel α n) (i : Fin n) (gen : Nat) : Channel α n :=
  if s.bx = gen then { s with parked := s.parked ++ [i] } else { s with woken := s.woken ++ [i] }

/-- `ev/futex-wake`, with the new generation its callers put in the box. -/
def futexWake (s : Channel α n) (count : Nat) : Channel α n :=
  { s with bx := s.bx + 1, parked := s.parked.drop count, woken := s.woken ++ s.parked.take count }

/-- `:take` from the test of its loop on. -/
def takeLoop (s : Channel α n) (i : Fin n) : Channel α n :=
  if s.closed = false ∧ s.buf = [] then
    -- nothing runs between the reading of the box and the wait
    { s with waiting := true }.futexWait i s.bx
  else
    match s.buf with
    | [] => { s with log := s.log ++ [Happening.tookNil] }
    | v :: rest => { s with buf := rest, log := s.log ++ [Happening.took v] }

def apply (s : Channel α n) : ChannelEvent α n → Channel α n
  | .put v =>
    let s := { s with buf := s.buf ++ [v], log := s.log ++ [Happening.put v] }
    if s.waiting then s.futexWake 1 else s
  | .close => { s with closed := true, log := s.log ++ [Happening.closed] }.futexWake 999999999
  | .take i => s.takeLoop i
  | .goOn i => { s with waiting := false, woken := s.woken.erase i }.takeLoop i

/-- A fiber takes when it is in no other take, and goes on once it is woken. -/
def Allowed (s : Channel α n) : ChannelEvent α n → Prop
  | .put _ | .close => True
  | .take i => i ∉ s.parked ∧ i ∉ s.woken
  | .goOn i => i ∈ s.woken

/-- The states of every interleaving of the fibers. -/
def Reachable : Channel α n → Prop := Runs.Reachable apply Allowed {}

/-- A taker is parked beside an item or a closed channel, and no wake-up is pending. -/
def Stranded (s : Channel α n) : Prop := (s.buf ≠ [] ∨ s.closed) ∧ s.parked ≠ [] ∧ s.woken = []

variable {s : Channel α n}

theorem queued_takeLoop (h : Queued s.log s.buf s.closed) (i : Fin n) :
    Queued (s.takeLoop i).log (s.takeLoop i).buf (s.takeLoop i).closed := by
  unfold takeLoop
  split
  · simpa [futexWait] using h
  next hgo =>
  split
  · next hbuf =>
    have hclosed : s.closed := by simpa [hbuf] using hgo
    rw [hbuf, hclosed] at h ⊢
    exact h.tookNil
  · next hbuf => exact (hbuf ▸ h).took

theorem queued_apply (h : Queued s.log s.buf s.closed) (e : ChannelEvent α n) :
    Queued (s.apply e).log (s.apply e).buf (s.apply e).closed := by
  cases e with
  | put v =>
    simp only [apply]
    split <;> exact h.put v
  | close => exact h.close
  | take i => exact queued_takeLoop h i
  | goOn i => exact queued_takeLoop (s := { s with waiting := false, woken := s.woken.erase i }) h i

/-- With one taker at most, it is parked only while there is nothing to take, and the flag says so. -/
structure Alone (s : Channel α n) : Prop where
  one : s.parked.length + s.woken.length ≤ 1
  idle : s.parked ≠ [] → s.waiting ∧ s.buf = [] ∧ s.closed = false

theorem alone_takeLoop (hp : s.parked = []) (hw : s.woken = []) (i : Fin n) : Alone (s.takeLoop i) := by
  unfold takeLoop
  split
  · next h => exact ⟨by simp [futexWait, hp, hw], fun _ => ⟨by simp [futexWait], by simpa [futexWait] using h.symm⟩⟩
  · split <;> exact ⟨by simp [hp, hw], fun h => absurd hp h⟩

theorem alone_futexWake (hone : s.parked.length + s.woken.length ≤ 1) {count : Nat} (hc : 0 < count) :
    Alone (s.futexWake count) := by
  refine ⟨?_, fun hp => absurd (List.drop_eq_nil_of_le (by omega)) hp⟩
  simp only [futexWake, List.length_drop, List.length_append, List.length_take]
  omega

theorem Alone.apply (hn : n ≤ 1) (h : Alone s) {e : ChannelEvent α n} (ha : s.Allowed e) : Alone (s.apply e) := by
  have hone := h.one
  cases e with
  | put v =>
    simp only [Channel.apply]
    split
    · refine alone_futexWake ?_ Nat.one_pos
      exact hone
    · next hflag => exact ⟨hone, fun hp => absurd (h.idle hp).1 hflag⟩
  | close =>
    refine alone_futexWake ?_ (by decide : 0 < 999999999)
    exact hone
  | take i =>
    have hnone {l : List (Fin n)} (hl : i ∉ l) : l = [] :=
      List.eq_nil_iff_forall_not_mem.2 fun j hj => hl (Fin.ext (by omega : i.val = j.val) ▸ hj)
    exact alone_takeLoop (hnone ha.1) (hnone ha.2) i
  | goOn i =>
    have hlen := List.length_erase_of_mem ha
    have hpos := List.length_pos_of_mem ha
    exact alone_takeLoop (List.length_eq_zero_iff.1 (by dsimp only; omega))
      (List.length_eq_zero_iff.1 (by dsimp only; omega)) i

/-- Two takers park, the first is woken by an item and takes it, and the next item comes. -/
theorem exists_stranded (v : α) (hn : 2 ≤ n) : ∃ s : Channel α n, s.Reachable ∧ s.Stranded := by
  let i : Fin n := ⟨0, by omega⟩
  let j : Fin n := ⟨1, by omega⟩
  refine ⟨[.take i, .take j, .put v, .goOn i, .put v].foldl apply {}, Runs.Reachable.start.foldl ?_, ?_⟩
  · simp [Runs.AllowsAll, Allowed, apply, takeLoop, futexWait, futexWake, i, j]
  · simp [Stranded, apply, takeLoop, futexWait, futexWake, i, j]

/-- The channel is a queue under every interleaving; it never strands a taker exactly if there is one taker at
most. -/
theorem channel_exact_iff (α : Type) [Inhabited α] (n : Nat) :
    (∀ s : Channel α n, s.Reachable → Queued s.log s.buf s.closed ∧ ¬ s.Stranded) ↔ n ≤ 1 := by
  constructor
  · intro h
    by_contra hn
    obtain ⟨s, hs, hstranded⟩ := exists_stranded (default : α) (Nat.lt_of_not_le hn)
    exact (h s hs).2 hstranded
  · intro hn s hs
    have hqueued := hs.inv (I := fun s => Queued s.log s.buf s.closed) .start fun _ e h _ => queued_apply h e
    refine ⟨hqueued, fun hstranded => ?_⟩
    have halone : s.Alone := hs.inv ⟨Nat.zero_le _, fun h => absurd rfl h⟩ fun _ _ h ha => h.apply hn ha
    have hidle := halone.idle hstranded.2.1
    exact hstranded.1.elim (fun h => h hidle.2.1) fun h => by simp [hidle.2.2] at h

/-- Two takers, and an item that no wake-up is pending for. -/
theorem taker_stranded : ∃ s : Channel Nat 2, s.Reachable ∧ s.buf = [7] ∧ s.parked = [1] ∧ s.woken = [] := by
  refine ⟨[.take 0, .take 1, .put 5, .goOn 0, .put 7].foldl apply {}, Runs.Reachable.start.foldl ?_, rfl, rfl, rfl⟩
  simp [Runs.AllowsAll, Allowed, apply, takeLoop, futexWait, futexWake]

end Channel

end Elle.Http2

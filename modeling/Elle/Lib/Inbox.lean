import Mathlib

/-!
# An inbox: one queue, read selectively

What a mailbox is for, apart from any scheduler: messages wait in the order they arrived, and a
receive takes the oldest one it wants and leaves the rest as they were. A receive may carry a
deadline; it expires only when the deadline has come and nothing waits.

A history of happenings is right when it can be replayed: an answer that is not the oldest wanted
message, an expiry too early or over a waiting message, a second receive beside a pending one, and
an owner that goes on with anything but the answer have no successor.
-/

namespace Inbox

variable {V : Type*}

/-- What a receive asks for: any message, one that satisfies a predicate, or any before a tick. -/
inductive Want (V : Type*) where
  | any
  | pick (p : V → Bool)
  | within (deadline : Int)

def Want.takes : Want V → V → Bool
  | any, _ | within _, _ => true
  | pick p, v => p v

def Want.pred : Want V → Option (V → Bool)
  | pick p => some p
  | _ => none

theorem Want.takes_eq (w : Want V) (v : V) : w.takes v = w.pred.all (· v) := by
  cases w <;> rfl

def Want.timed : Want V → Bool
  | within _ => true
  | _ => false

/-- The oldest message that satisfies `p`, and the queue without it. -/
def takeFirst (p : V → Bool) : List V → Option (V × List V)
  | [] => none
  | v :: vs => if p v then some (v, vs) else (takeFirst p vs).map fun r => (r.1, v :: r.2)

theorem takeFirst_eq_none {p : V → Bool} {vs : List V} : takeFirst p vs = none ↔ ∀ v ∈ vs, p v = false := by
  induction vs with
  | nil => simp [takeFirst]
  | cons v vs ih =>
    by_cases hv : p v
    · simp [takeFirst, hv]
    · simp [takeFirst, hv, ih]

theorem takeFirst_append {p : V → Bool} {vs : List V} (h : ∀ v ∈ vs, p v = false) (ws : List V) :
    takeFirst p (vs ++ ws) = (takeFirst p ws).map fun r => (r.1, vs ++ r.2) := by
  induction vs with
  | nil => simp
  | cons v vs ih =>
    rw [List.cons_append, takeFirst, h v (by simp), ih fun v hv => h v (List.mem_cons_of_mem _ hv)]
    cases takeFirst p ws <;> rfl

inductive Happening (V : Type*) where
  | arrives (v : V)
  | asks (w : Want V)
  | answers (v : V)
  /-- The owner goes on, and is handed `v`. -/
  | resumes (v : V)
  /-- The pending receive gives up at tick `now`. -/
  | expires (now : Int)
  /-- The owner drops the messages that do not satisfy `keep`. -/
  | drops (keep : V → Bool)

structure Box (V : Type*) where
  queue : List V := []
  asked : Option (Want V) := none
  /-- Whether the pending receive has expired and is still to be told so. -/
  expired : Bool := false
  /-- The answer that is still to be handed to the owner. -/
  answer : Option V := none

variable [DecidableEq V]

/-- Whether the owner neither waits for an answer nor has one coming. -/
def Box.free (b : Box V) : Bool := b.asked.isNone && b.answer.isNone

/-- One happening, with `late` as the answer of an expired receive. No message answers a receive
with a deadline by `late`. -/
def Box.step (late : V) (b : Box V) : Happening V → Option (Box V)
  | .arrives v => some { b with queue := b.queue ++ [v] }
  | .asks w => if b.free then some { b with asked := some w } else none
  | .answers v =>
    match b.asked with
    | none => none
    | some w =>
      if b.expired then
        if v = late then some { queue := b.queue, answer := some v } else none
      else
        match takeFirst w.takes b.queue with
        | none => none
        | some (oldest, rest) =>
          if v = oldest ∧ ¬(w.timed ∧ v = late) then some { queue := rest, answer := some v }
          else none
  | .resumes v =>
    if b.asked.isNone ∧ b.answer.all (· = v) then some { b with answer := none } else none
  | .expires now =>
    match b.asked with
    | some (.within deadline) =>
      if deadline ≤ now ∧ b.queue = [] ∧ b.expired = false then some { b with expired := true }
      else none
    | _ => none
  | .drops keep => if b.free then some { b with queue := b.queue.filter keep } else none

/-- The inbox a history leaves, if every happening in it was right. -/
def replay (late : V) (history : List (Happening V)) : Option (Box V) :=
  history.foldlM (Box.step late) {}

theorem replay_append (late : V) (history more : List (Happening V)) :
    replay late (history ++ more) = (replay late history).bind (more.foldlM (Box.step late)) :=
  List.foldlM_append

theorem replay_append_one {late : V} {history : List (Happening V)} {b : Box V}
    (h : replay late history = some b) (x : Happening V) :
    replay late (history ++ [x]) = b.step late x := by
  rw [replay_append, h]
  exact bind_pure _

end Inbox

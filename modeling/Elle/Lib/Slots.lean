import Mathlib

/-! # Growable slot tables

A vector of optional entries that grows on demand: a slot out of bounds reads as vacant, `put` fills the
vector up with vacant slots first, and `take` vacates a slot without shrinking the vector.
-/

/-- A vector of slots, each vacant or occupied. -/
structure Slots (α : Type*) where
  slots : List (Option α)

namespace Slots

open List

variable {α : Type*}

def empty : Slots α := ⟨[]⟩

/-- The entry at `i`, if the slot exists and is occupied. -/
def get? (t : Slots α) (i : Nat) : Option α := (t.slots[i]?).join

/-- Occupy slot `i`, growing the vector up to it. -/
def put (t : Slots α) (i : Nat) (a : α) : Slots α :=
  ⟨(t.slots ++ List.replicate (i + 1 - t.slots.length) none).set i (some a)⟩

def take (t : Slots α) (i : Nat) : Slots α := ⟨t.slots.set i none⟩

def occupied (t : Slots α) : Finset Nat := (Finset.range t.slots.length).filter fun i => (t.get? i).isSome

@[simp] theorem get?_put (t : Slots α) (i j : Nat) (a : α) :
    (t.put i a).get? j = if j = i then some a else t.get? j := by
  simp only [get?, put, getElem?_set, length_append, length_replicate]
  by_cases hj : j = i
  · have : i < t.slots.length + (i + 1 - t.slots.length) := by omega
    simp [hj, this]
  · rw [if_neg (Ne.symm hj), if_neg hj]
    by_cases hlt : j < t.slots.length
    · rw [getElem?_append_left hlt]
    · rw [getElem?_append_right (by omega), getElem?_eq_none (Nat.le_of_not_lt hlt),
        getElem?_replicate]
      split <;> rfl

@[simp] theorem get?_take (t : Slots α) (i j : Nat) :
    (t.take i).get? j = if j = i then none else t.get? j := by
  simp only [get?, take, getElem?_set]
  by_cases hj : j = i
  · subst hj; simp only [if_true]; split <;> rfl
  · simp [hj, Ne.symm hj]

theorem lt_length_of_get? {t : Slots α} {i : Nat} {a : α} (h : t.get? i = some a) : i < t.slots.length := by
  by_contra hlt
  simp [get?, getElem?_eq_none (Nat.le_of_not_lt hlt)] at h

theorem mem_occupied {t : Slots α} {i : Nat} : i ∈ t.occupied ↔ (t.get? i).isSome := by
  simp only [occupied, Finset.mem_filter, Finset.mem_range, and_iff_right_iff_imp]
  intro h
  obtain ⟨a, ha⟩ := Option.isSome_iff_exists.1 h
  exact lt_length_of_get? ha

/-! ### Counting entries -/

/-- The number of occupied slots whose entry satisfies `p`. -/
def countP (p : α → Bool) (t : Slots α) : Nat := (t.slots.filterMap id).countP p

theorem countP_set (p : α → Bool) {l : List (Option α)} {i : Nat} (hi : i < l.length) (o : Option α) :
    ((l.set i o).filterMap id).countP p + (l[i]?).join.toList.countP p =
      (l.filterMap id).countP p + o.toList.countP p := by
  induction l generalizing i with
  | nil => cases hi
  | cons a l ih =>
    cases i with
    | zero => cases a <;> cases o <;> simp [countP_cons]; omega
    | succ i =>
      have h := ih (Nat.lt_of_succ_lt_succ hi)
      cases a <;> simp [countP_cons] at h ⊢ <;> omega

theorem countP_put (p : α → Bool) (t : Slots α) (i : Nat) (a : α) :
    (t.put i a).countP p + (t.get? i).toList.countP p = t.countP p + if p a then 1 else 0 := by
  have hlen : i < (t.slots ++ List.replicate (i + 1 - t.slots.length) none).length := by
    rw [length_append, length_replicate]; omega
  have h := countP_set p hlen (some a)
  have hget : ((t.slots ++ List.replicate (i + 1 - t.slots.length) none)[i]?).join = t.get? i := by
    by_cases hlt : i < t.slots.length
    · rw [getElem?_append_left hlt]; rfl
    · rw [getElem?_append_right (Nat.le_of_not_lt hlt), get?,
        getElem?_eq_none (Nat.le_of_not_lt hlt), getElem?_replicate]
      split <;> rfl
  rw [hget] at h
  have hnone : (List.replicate (i + 1 - t.slots.length) (none : Option α)).filterMap id = [] := by simp
  rw [filterMap_append, hnone, append_nil] at h
  simpa [countP, put, countP_cons] using h

theorem countP_take (p : α → Bool) (t : Slots α) (i : Nat) :
    (t.take i).countP p + (t.get? i).toList.countP p = t.countP p := by
  by_cases hi : i < t.slots.length
  · simpa [countP, take, get?] using countP_set p hi none
  · have hnone : t.get? i = none := by simp [get?, getElem?_eq_none (Nat.le_of_not_lt hi)]
    rw [hnone, countP, take, set_eq_of_length_le (Nat.le_of_not_lt hi)]
    rfl

end Slots

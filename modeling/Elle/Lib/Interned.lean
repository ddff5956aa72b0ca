import Mathlib

/-!
# Tables that store each item once

A list of distinct items, and beside it an index from an item to its place, which holds what the list
says and nothing else.
-/

/-- A table of distinct items. An item at position `i` is indexed as `place i`. -/
structure Interned (α : Type*) {β : Type*} (place : Nat → β) where
  items : List α
  index : α → Option β
  nodup : items.Nodup
  indexed : ∀ a b, index a = some b ↔ ∃ i, items[i]? = some a ∧ place i = b

namespace Interned

open List

variable {α β : Type*} {place : Nat → β} (t : Interned α place)

def empty : Interned α place := ⟨[], fun _ => none, nodup_nil, by simp⟩

theorem index_eq_none {a : α} : t.index a = none ↔ a ∉ t.items := by
  rw [Option.eq_none_iff_forall_not_mem, mem_iff_getElem?]
  simp only [Option.mem_def, t.indexed]
  exact ⟨fun h ⟨i, hi⟩ => h _ ⟨i, hi, rfl⟩, fun h b ⟨i, hi, _⟩ => h ⟨i, hi⟩⟩

theorem ext {t t' : Interned α place} (h : t.items = t'.items) : t = t' := by
  have hindex : t.index = t'.index := by
    funext a
    ext b
    rw [t.indexed, t'.indexed, h]
  cases t
  cases t'
  cases h
  cases hindex
  rfl

variable [DecidableEq α]

/-- The table with a new item at its end. -/
def push (a : α) (h : t.index a = none) : Interned α place where
  items := t.items ++ [a]
  index := Function.update t.index a (some (place t.items.length))
  nodup := by
    have hmem : a ∉ t.items := t.index_eq_none.1 h
    exact List.nodup_append.2 ⟨t.nodup, nodup_singleton a, fun b hb c hc he =>
      hmem (List.mem_singleton.1 hc ▸ he ▸ hb)⟩
  indexed b p := by
    by_cases hb : b = a
    · subst hb
      simp only [Function.update_self, Option.some.injEq]
      constructor
      · rintro rfl
        exact ⟨t.items.length, by simp⟩
      · rintro ⟨i, hi, rfl⟩
        rcases Nat.lt_trichotomy i t.items.length with hlt | rfl | hlt
        · rw [getElem?_append_left hlt] at hi
          exact absurd (mem_of_getElem? hi) (t.index_eq_none.1 h)
        · rfl
        · rw [getElem?_eq_none (by simp; omega)] at hi
          cases hi
    · rw [Function.update_of_ne hb, t.indexed]
      refine exists_congr fun i => and_congr_left fun _ => ?_
      rcases Nat.lt_trichotomy i t.items.length with hlt | rfl | hlt
      · rw [getElem?_append_left hlt]
      · simp [Ne.symm hb]
      · rw [getElem?_eq_none (by omega), getElem?_eq_none (by simp; omega)]

/-- The place of an item, which is filed if it is not there yet. -/
def file (a : α) : β × Interned α place :=
  match h : t.index a with
  | some p => (p, t)
  | none => (place t.items.length, t.push a h)

theorem items_file (a : α) : t.items <+: (t.file a).2.items := by
  unfold file
  split
  · exact prefix_rfl
  · exact prefix_append _ _

def unfile (index : α → Option β) (gone : List α) : α → Option β :=
  gone.foldl (fun index a => Function.update index a none) index

theorem unfile_apply (index : α → Option β) (gone : List α) (a : α) :
    unfile index gone a = if a ∈ gone then none else index a := by
  induction gone generalizing index with
  | nil => rfl
  | cons b rest ih =>
    rw [unfile, foldl_cons, ← unfile, ih]
    by_cases ha : a ∈ rest
    · simp [ha]
    · by_cases hb : a = b
      · simp [hb]
      · simp [ha, hb]

def truncate (n : Nat) : Interned α place where
  items := t.items.take n
  index := unfile t.index (t.items.drop n)
  nodup := t.nodup.sublist (take_sublist _ _)
  indexed a b := by
    rw [unfile_apply]
    split
    · rename_i hgone
      have hkept : a ∉ t.items.take n := fun hk =>
        disjoint_of_nodup_append ((take_append_drop n t.items).symm ▸ t.nodup) hk hgone
      simp only [reduceCtorEq, false_iff, not_exists, not_and]
      exact fun i hi _ => hkept (mem_of_getElem? hi)
    · rename_i hkept
      rw [t.indexed]
      refine exists_congr fun i => and_congr_left fun _ => ?_
      rcases Nat.lt_or_ge i n with hlt | hge
      · rw [getElem?_take_of_lt hlt]
      · rw [getElem?_take_eq_none hge]
        refine ⟨fun hi => absurd ?_ hkept, nofun⟩
        obtain ⟨k, rfl⟩ := Nat.exists_eq_add_of_le hge
        exact mem_of_getElem? (List.getElem?_drop.trans hi)

theorem truncate_of_prefix {t t' : Interned α place} (h : t.items <+: t'.items) :
    t'.truncate t.items.length = t := by
  obtain ⟨new, hnew⟩ := h
  exact ext (by simp [truncate, ← hnew])

end Interned

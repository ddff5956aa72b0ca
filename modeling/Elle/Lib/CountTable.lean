import Mathlib

/-! # Tables of positive counts

A hash map `key → count` whose counts are never zero: an increment inserts an absent key at one, a removal
that would take a count to zero drops the key.  A table is determined, up to its iteration order, by its counts.
-/

/-- A finite map from keys to positive counts, listed in some order. -/
structure CountTable (α : Type*) where
  entries : List (α × Nat)
  nodup : (entries.map Prod.fst).Nodup
  pos : ∀ e ∈ entries, 0 < e.2

namespace CountTable

open List

variable {α : Type*}

def empty : CountTable α := ⟨[], nodup_nil, by simp⟩

def sumWhere (t : CountTable α) (p : α → Prop) [DecidablePred p] : Nat :=
  ((t.entries.filter fun e => p e.1).map Prod.snd).sum

variable [DecidableEq α]
variable {a : α} {es : List (α × Nat)} {t : CountTable α}

/-- The count at `a`, zero when the key is absent. -/
def count (t : CountTable α) (a : α) : Nat := t.sumWhere (· = a)

def keys (t : CountTable α) : Finset α := (t.entries.map Prod.fst).toFinset

/-! ### Increment and removal on the listed entries -/

/-- One more at `a`, inserted at one when absent. -/
def incrEntries (a : α) : List (α × Nat) → List (α × Nat)
  | [] => [(a, 1)]
  | (b, m) :: es => if b = a then (b, m + 1) :: es else (b, m) :: incrEntries a es

/-- Count `n` fewer at `a`; the key is dropped unless more than `n` are counted there. -/
def removeEntries (a : α) (n : Nat) : List (α × Nat) → List (α × Nat)
  | [] => []
  | (b, m) :: es => if b = a then (if n < m then (b, m - n) :: es else es) else (b, m) :: removeEntries a n es

theorem mem_keys_incrEntries {b : α} : b ∈ (incrEntries a es).map Prod.fst ↔ b = a ∨ b ∈ es.map Prod.fst := by
  induction es with
  | nil => simp [incrEntries]
  | cons e es ih =>
    obtain ⟨c, m⟩ := e
    by_cases hc : c = a
    · subst hc; simp [incrEntries]
    · simp only [incrEntries, hc, if_false, map_cons, mem_cons, ih]; tauto

theorem nodup_incrEntries (h : (es.map Prod.fst).Nodup) : ((incrEntries a es).map Prod.fst).Nodup := by
  induction es with
  | nil => simp [incrEntries]
  | cons e es ih =>
    obtain ⟨c, m⟩ := e
    rw [map_cons, nodup_cons] at h
    by_cases hc : c = a
    · simpa [incrEntries, hc] using h
    · simp only [incrEntries, hc, if_false, map_cons, nodup_cons]
      refine ⟨fun hm => ?_, ih h.2⟩
      rcases mem_keys_incrEntries.1 hm with h' | h'
      exacts [hc h', h.1 h']

theorem pos_incrEntries (h : ∀ e ∈ es, 0 < e.2) : ∀ e ∈ incrEntries a es, 0 < e.2 := by
  induction es with
  | nil => simp [incrEntries]
  | cons e es ih =>
    obtain ⟨c, m⟩ := e
    rw [forall_mem_cons] at h
    by_cases hc : c = a
    · simp only [incrEntries, hc, if_true, forall_mem_cons]; exact ⟨by omega, h.2⟩
    · simp only [incrEntries, hc, if_false, forall_mem_cons]; exact ⟨h.1, ih h.2⟩

theorem removeEntries_keys_sublist (a : α) (n : Nat) (es : List (α × Nat)) :
    ((removeEntries a n es).map Prod.fst).Sublist (es.map Prod.fst) := by
  induction es with
  | nil => simp [removeEntries]
  | cons e es ih =>
    obtain ⟨c, m⟩ := e
    by_cases hc : c = a
    · by_cases hn : n < m <;> simp [removeEntries, hc, hn]
    · simpa [removeEntries, hc] using ih

theorem pos_removeEntries {n : Nat} (h : ∀ e ∈ es, 0 < e.2) : ∀ e ∈ removeEntries a n es, 0 < e.2 := by
  induction es with
  | nil => simp [removeEntries]
  | cons e es ih =>
    obtain ⟨c, m⟩ := e
    rw [forall_mem_cons] at h
    by_cases hc : c = a
    · by_cases hn : n < m
      · simp only [removeEntries, hc, hn, if_true, forall_mem_cons]; exact ⟨by omega, h.2⟩
      · simpa only [removeEntries, hc, hn, if_true, if_false] using h.2
    · simp only [removeEntries, hc, if_false, forall_mem_cons]; exact ⟨h.1, ih h.2⟩

def incr (t : CountTable α) (a : α) : CountTable α :=
  ⟨incrEntries a t.entries, nodup_incrEntries t.nodup, pos_incrEntries t.pos⟩

/-- Count `n` fewer at `a`, the key dropped when nothing is left. -/
def remove (t : CountTable α) (a : α) (n : Nat) : CountTable α :=
  ⟨removeEntries a n t.entries, t.nodup.sublist (removeEntries_keys_sublist a n _), pos_removeEntries t.pos⟩

/-! ### Counts and sums -/

theorem mem_entries_iff {n : Nat} : (a, n) ∈ t.entries ↔ n = t.count a ∧ 0 < n := by
  obtain ⟨es, hnd, hpos⟩ := t
  simp only [count, sumWhere]
  induction es with
  | nil => simp
  | cons e es ih =>
    obtain ⟨b, m⟩ := e
    rw [map_cons, nodup_cons] at hnd
    rw [forall_mem_cons] at hpos
    have ih := ih hnd.2 hpos.2
    by_cases hb : b = a
    · have hnone : es.filter (fun e => decide (e.1 = a)) = [] := by
        rw [filter_eq_nil_iff]
        intro e he
        have : e.1 ∈ es.map Prod.fst := mem_map_of_mem he
        rw [decide_eq_true_eq]
        rintro rfl
        exact hnd.1 (hb ▸ this)
      have hout : (a, n) ∉ es := fun h => hnd.1 (hb ▸ List.mem_map.2 ⟨_, h, rfl⟩)
      have hm : 0 < m := hpos.1
      simp only [mem_cons, Prod.mk.injEq, hout, or_false, hb, decide_true, filter_cons_of_pos, hnone,
        map_cons, map_nil, sum_cons, sum_nil]
      constructor
      · rintro ⟨-, rfl⟩; exact ⟨rfl, hm⟩
      · rintro ⟨rfl, -⟩; exact ⟨trivial, rfl⟩
    · have hb' : ¬ (a = b) := fun h => hb h.symm
      simp [hb, hb', ih]

theorem mem_keys : a ∈ t.keys ↔ 0 < t.count a := by
  simp only [keys, mem_toFinset, mem_map, Prod.exists, exists_and_right, exists_eq_right, mem_entries_iff]
  exact ⟨fun ⟨n, hn, h⟩ => hn ▸ h, fun h => ⟨_, rfl, h⟩⟩

theorem sumWhere_eq_sum (t : CountTable α) (p : α → Prop) [DecidablePred p] :
    t.sumWhere p = ∑ a ∈ t.keys with p a, t.count a := by
  have hmap : (t.entries.filter fun e => p e.1).map Prod.snd =
      ((t.entries.map Prod.fst).filter fun a => p a).map t.count := by
    rw [filter_map, List.map_map]
    refine map_congr_left fun e he => ?_
    exact (mem_entries_iff.1 (show (e.1, e.2) ∈ t.entries from (List.mem_filter.1 he).1)).1
  have hkeys : t.keys.filter p = ((t.entries.map Prod.fst).filter fun a => p a).toFinset := by
    rw [keys, toFinset_filter]; simp
  rw [sumWhere, hmap, hkeys, sum_toFinset _ (t.nodup.filter _)]

theorem sumWhere_eq_sum_of_subset {U : Finset α} (hU : t.keys ⊆ U) (p : α → Prop) [DecidablePred p] :
    t.sumWhere p = ∑ a ∈ U with p a, t.count a := by
  rw [sumWhere_eq_sum]
  refine Finset.sum_subset (Finset.filter_subset_filter p hU) fun a ha hna => ?_
  have : a ∉ t.keys := fun h => hna (Finset.mem_filter.2 ⟨h, (Finset.mem_filter.1 ha).2⟩)
  rw [mem_keys] at this
  omega

@[simp] theorem count_empty (a : α) : (empty : CountTable α).count a = 0 := rfl

section

variable (t : CountTable α)

theorem sumWhere_incr (a : α) (p : α → Prop) [DecidablePred p] :
    (t.incr a).sumWhere p = t.sumWhere p + if p a then 1 else 0 := by
  simp only [sumWhere, incr]
  induction t.entries with
  | nil => by_cases hp : p a <;> simp [incrEntries, hp]
  | cons e es ih =>
    obtain ⟨c, m⟩ := e
    by_cases hc : c = a
    · subst hc; by_cases hp : p c <;> simp [incrEntries, hp]; omega
    · by_cases hp : p c
      · simp only [incrEntries, hc, if_false, hp, decide_true, filter_cons_of_pos, map_cons, sum_cons, ih]
        omega
      · simpa [incrEntries, hc, hp] using ih

@[simp] theorem count_incr_self (a : α) : (t.incr a).count a = t.count a + 1 := by
  simp [count, sumWhere_incr]

theorem count_incr_of_ne {b : α} (h : b ≠ a) : (t.incr a).count b = t.count b := by
  simp [count, sumWhere_incr, h.symm]

theorem count_incr (a b : α) : (t.incr a).count b = t.count b + if b = a then 1 else 0 := by
  by_cases h : b = a
  · simp [h]
  · simp [h, count_incr_of_ne]

theorem sumWhere_remove (a : α) (n : Nat) (p : α → Prop) [DecidablePred p] :
    (t.remove a n).sumWhere p + (if p a then min n (t.count a) else 0) = t.sumWhere p := by
  obtain ⟨es, hnd, hpos⟩ := t
  simp only [sumWhere, remove, count]
  induction es with
  | nil => simp [removeEntries]
  | cons e es ih =>
    obtain ⟨c, m⟩ := e
    rw [map_cons, nodup_cons] at hnd
    rw [forall_mem_cons] at hpos
    have ih := ih hnd.2 hpos.2
    by_cases hc : c = a
    · subst hc
      have hnone : es.filter (fun e => decide (e.1 = c)) = [] := by
        rw [filter_eq_nil_iff]
        intro e he
        have : e.1 ∈ es.map Prod.fst := mem_map_of_mem he
        rw [decide_eq_true_eq]
        rintro rfl
        exact hnd.1 this
      by_cases hp : p c <;> by_cases hn : n < m <;> simp [removeEntries, hp, hn, hnone] <;> omega
    · by_cases hp : p c
      · simp only [removeEntries, hc, if_false, hp, decide_true, decide_false, filter_cons_of_pos, map_cons,
          sum_cons, Bool.false_eq_true, not_false_eq_true, filter_cons_of_neg]
        omega
      · simpa [removeEntries, hc, hp] using ih

@[simp] theorem count_remove_self (a : α) (n : Nat) : (t.remove a n).count a = t.count a - n := by
  have := t.sumWhere_remove a n (· = a)
  simp only [if_true] at this
  simp only [count] at this ⊢
  omega

theorem count_remove_of_ne {b : α} (n : Nat) (h : b ≠ a) :
    (t.remove a n).count b = t.count b := by
  have := t.sumWhere_remove a n (· = b)
  simp only [h.symm, if_false, Nat.add_zero] at this
  exact this

theorem count_remove (a b : α) (n : Nat) :
    (t.remove a n).count b = t.count b - if b = a then n else 0 := by
  by_cases h : b = a
  · simp [h]
  · simp [h, count_remove_of_ne]

end

theorem count_foldl_remove (l : List (α × Nat)) (t : CountTable α) (a : α) :
    (l.foldl (fun t e => t.remove e.1 e.2) t).count a = t.count a - ((l.filter (·.1 = a)).map Prod.snd).sum := by
  induction l generalizing t with
  | nil => simp
  | cons e l ih =>
    rw [foldl_cons, ih, count_remove]
    by_cases he : e.1 = a
    · simp [he, Nat.sub_sub]
    · simp [he, Ne.symm he]

end CountTable

import Elle.Lib.Cmp
import Elle.Lib.BinarySearch

/-!
# Ordered sets as ascending lists

The operations of a set kept in the order of a comparison: insertion, removal, and the set of a
sequence. The comparison need be a total order only on a domain `D` the elements are in.
-/

namespace Sorted

open Cmp BinarySearch List

variable {α : Type}

/-- On the domain, the comparison is a total order. -/
structure OrderedOn (D : α → Prop) (cmp : α → α → Ordering) : Prop where
  swap : ∀ {a b}, D a → D b → cmp b a = (cmp a b).swap
  consistent : ∀ {a b c}, D a → D b → D c → Consistent (cmp a b) (cmp b c) (cmp a c)

section

variable (cmp : α → α → Ordering)

/-- Every element is less than all after it. -/
abbrev Ascending (xs : List α) : Prop := xs.Pairwise fun a b => cmp a b = .lt

/-- Insertion unless an equal element is there. -/
def insert (x : α) : List α → List α
  | [] => [x]
  | y :: ys =>
    match cmp x y with
    | .lt => x :: y :: ys
    | .eq => y :: ys
    | .gt => y :: insert x ys

def remove (x : α) : List α → List α
  | [] => []
  | y :: ys =>
    match cmp x y with
    | .lt => y :: ys
    | .eq => ys
    | .gt => y :: remove x ys

def lookup (x : α) : List α → Option α
  | [] => none
  | y :: ys =>
    match cmp x y with
    | .lt => none
    | .eq => some y
    | .gt => lookup x ys

/-- Of neighbours that are the same, the last. -/
def dedup (same : α → α → Bool) : List α → List α
  | x :: y :: rest => if same x y then dedup same (y :: rest) else x :: dedup same (y :: rest)
  | xs => xs

/-- The set of a sequence: sorted, and then without neighbours that are the same. -/
def collect (same : α → α → Bool) (xs : List α) : List α :=
  dedup same (xs.mergeSort fun a b => (cmp a b).isLE)

end

variable {cmp : α → α → Ordering} {D : α → Prop} {x : α} {xs : List α}

theorem of_mem_insert {y : α} (h : y ∈ insert cmp x xs) : y = x ∨ y ∈ xs := by
  induction xs with
  | nil => exact .inl (List.mem_singleton.1 h)
  | cons z zs ih =>
    rw [insert] at h
    split at h
    · exact List.mem_cons.1 h
    · exact .inr h
    · rcases List.mem_cons.1 h with rfl | h
      · exact .inr mem_cons_self
      · exact (ih h).imp_right (mem_cons_of_mem _)

theorem OrderedOn.trans_lt (hD : OrderedOn D cmp) {a b c : α} (ha : D a) (hb : D b) (hc : D c)
    (hab : cmp a b = .lt) (hbc : cmp b c = .lt) : cmp a c = .lt :=
  ((hD.consistent ha hb hc).2.2 (hab.trans hbc.symm)).trans hab

theorem OrderedOn.ascending_insert (hD : OrderedOn D cmp) (hx : D x) (hxs : ∀ y ∈ xs, D y)
    (h : Ascending cmp xs) : Ascending cmp (insert cmp x xs) := by
  induction xs with
  | nil => exact pairwise_singleton _ _
  | cons y ys ih =>
    have hy := hxs y mem_cons_self
    have hys := fun z hz => hxs z (mem_cons_of_mem _ hz)
    obtain ⟨hlt, hsorted⟩ := List.pairwise_cons.1 h
    rw [insert]
    split
    · next hxy =>
      refine List.pairwise_cons.2 ⟨fun z hz => ?_, h⟩
      rcases List.mem_cons.1 hz with rfl | hz
      · exact hxy
      · exact hD.trans_lt hx hy (hys z hz) hxy (hlt z hz)
    · exact h
    · next hxy =>
      refine List.pairwise_cons.2 ⟨fun z hz => ?_, ih hys hsorted⟩
      rcases of_mem_insert hz with rfl | hz
      · rw [hD.swap hx hy, hxy]
        rfl
      · exact hlt z hz

theorem remove_sublist (cmp : α → α → Ordering) (x : α) (xs : List α) : (remove cmp x xs).Sublist xs := by
  induction xs with
  | nil => exact .slnil
  | cons y ys ih =>
    rw [remove]
    split
    · exact .refl _
    · exact sublist_cons_self _ _
    · exact ih.cons_cons y

theorem dedup_sublist (same : α → α → Bool) (xs : List α) : (dedup same xs).Sublist xs := by
  induction xs with
  | nil => exact .refl _
  | cons x xs ih =>
    cases xs with
    | nil => exact .refl _
    | cons y rest =>
      rw [dedup]
      split
      · exact ih.trans (sublist_cons_self _ _)
      · exact ih.cons_cons x

section

variable (hD : OrderedOn D cmp)
include hD

/-- Where equal elements are the same, a sorted list without neighbours that are the same is
ascending. -/
theorem OrderedOn.ascending_dedup {same : α → α → Bool}
    (hsame : ∀ {a b}, D a → D b → cmp a b = .eq → same a b) (hxs : ∀ y ∈ xs, D y)
    (h : xs.Pairwise fun a b => (cmp a b).isLE) : Ascending cmp (dedup same xs) := by
  induction xs with
  | nil => exact .nil
  | cons x xs ih =>
    cases xs with
    | nil => exact pairwise_singleton _ _
    | cons y rest =>
      have hx := hxs x mem_cons_self
      have hrest := fun z hz => hxs z (mem_cons_of_mem _ hz)
      obtain ⟨hle, hsorted⟩ := List.pairwise_cons.1 h
      rw [dedup]
      split
      · exact ih hrest hsorted
      · next hne =>
        refine List.pairwise_cons.2 ⟨fun z hz => ?_, ih hrest hsorted⟩
        have hy := hrest y mem_cons_self
        have hxy : cmp x y = .lt := by
          have h1 := hle y mem_cons_self
          have h2 := fun h => hne (hsame hx hy h)
          revert h1 h2
          cases cmp x y <;> simp
        have hz := (dedup_sublist same _).subset hz
        rcases List.mem_cons.1 hz with rfl | hz
        · exact hxy
        · have hyz := (List.pairwise_cons.1 hsorted).1 z hz
          have hcons := hD.consistent hx hy (hrest z (mem_cons_of_mem _ hz))
          rcases hcase : cmp y z with _ | _ | _
          · exact hD.trans_lt hx hy (hrest z (mem_cons_of_mem _ hz)) hxy hcase
          · rw [hcons.2.1 hcase, hxy]
          · rw [hcase] at hyz
            cases hyz

theorem OrderedOn.isLE_total {a b : α} (ha : D a) (hb : D b) :
    ((cmp a b).isLE || (cmp b a).isLE) := by
  rw [hD.swap ha hb]
  cases cmp a b <;> rfl

theorem OrderedOn.pairwise_mergeSort (hxs : ∀ y ∈ xs, D y) :
    (xs.mergeSort fun a b => (cmp a b).isLE).Pairwise fun a b => (cmp a b).isLE := by
  have hmap := map_mergeSort (f := Subtype.val) (l := xs.attachWith D hxs)
    (r := fun a b => (cmp a.1 b.1).isLE) (s := fun a b => (cmp a b).isLE) fun _ _ _ _ => rfl
  rw [attachWith_map_subtype_val] at hmap
  rw [← hmap, pairwise_map]
  refine List.pairwise_mergeSort (fun a b c => ?_) (fun a b => hD.isLE_total a.2 b.2) _
  exact (hD.consistent a.2 b.2 c.2).isLE

theorem OrderedOn.ascending_collect {same : α → α → Bool}
    (hsame : ∀ {a b}, D a → D b → cmp a b = .eq → same a b) (hxs : ∀ y ∈ xs, D y) :
    Ascending cmp (collect cmp same xs) :=
  hD.ascending_dedup hsame (fun y hy => hxs y (List.mem_mergeSort.1 hy)) (hD.pairwise_mergeSort hxs)

theorem OrderedOn.binarySearchBy_eq {pre post : List α} {y : α}
    (hx : D x) (hxs : ∀ z ∈ pre ++ y :: post, D z) (h : Ascending cmp (pre ++ y :: post))
    (hyx : cmp y x = .eq) :
    binarySearchBy (fun z => cmp z x) (pre ++ y :: post) = .ok pre.length := by
  have hy := hxs y (by simp)
  rw [Ascending, pairwise_append, pairwise_cons] at h
  refine BinarySearch.binarySearchBy_eq (fun z hz => ?_) hyx fun z hz => ?_
  · rw [(hD.consistent (hxs z (mem_append_left _ hz)) hy hx).2.1 hyx]
    exact h.2.2 z hz y mem_cons_self
  · have hDz := hxs z (mem_append_right _ (mem_cons_of_mem _ hz))
    rw [(hD.consistent hDz hy hx).2.1 hyx, hD.swap hy hDz, h.2.1.1 z hz]
    rfl

theorem OrderedOn.lookup_eq (hrefl : ∀ {a}, D a → cmp a a = .eq)
    (hxs : ∀ z ∈ xs, D z) (h : Ascending cmp xs) (hx : x ∈ xs) : lookup cmp x xs = some x := by
  induction xs with
  | nil => cases hx
  | cons y ys ih =>
    obtain ⟨hlt, hsorted⟩ := List.pairwise_cons.1 h
    rw [lookup]
    rcases List.mem_cons.1 hx with rfl | hx
    · rw [hrefl (hxs _ mem_cons_self)]
    · rw [hD.swap (hxs y mem_cons_self) (hxs x (mem_cons_of_mem _ hx)), hlt x hx]
      exact ih (fun z hz => hxs z (mem_cons_of_mem _ hz)) hsorted hx

end

theorem of_mem_collect {same : α → α → Bool} {y : α} (h : y ∈ collect cmp same xs) : y ∈ xs :=
  List.mem_mergeSort.1 ((dedup_sublist same _).subset h)

end Sorted

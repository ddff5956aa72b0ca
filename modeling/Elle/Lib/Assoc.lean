import Mathlib

/-!
# Association lists with distinct keys

What `List.lookup` answers when every key stands once.
-/

namespace Assoc

variable {α β : Type*} [BEq α] [LawfulBEq α]

theorem lookup_eq_some {entries : List (α × β)} (h : (entries.map Prod.fst).Nodup) {key : α} {x : β} :
    entries.lookup key = some x ↔ (key, x) ∈ entries := by
  induction entries with
  | nil => simp
  | cons e rest ih =>
    obtain ⟨k, y⟩ := e
    obtain ⟨hnot, hrest⟩ := List.nodup_cons.1 h
    rw [List.lookup_cons]
    by_cases hkey : key = k
    · subst hkey
      have hnone : (key, x) ∉ rest := fun hmem => hnot (List.mem_map.2 ⟨_, hmem, rfl⟩)
      simp [hnone, eq_comm]
    · simp [beq_eq_false_iff_ne.2 hkey, ih hrest, hkey]

theorem lookup_filter {entries : List (α × β)} (h : (entries.map Prod.fst).Nodup)
    (p : α × β → Bool) (key : α) :
    (entries.filter p).lookup key = (entries.lookup key).filter fun x => p (key, x) := by
  have hfilter : ((entries.filter p).map Prod.fst).Nodup :=
    h.sublist ((List.filter_sublist (p := p)).map _)
  ext x
  rw [lookup_eq_some hfilter, List.mem_filter, Option.filter_eq_some_iff, lookup_eq_some h]

theorem foldl_update {entries : List (α × β)} (h : (entries.map Prod.fst).Nodup) (m : α → Option β)
    (key : α) :
    entries.foldl (fun m e => fun k => if k == e.1 then some e.2 else m k) m key =
      (entries.lookup key).or (m key) := by
  induction entries generalizing m with
  | nil => rfl
  | cons e rest ih =>
    obtain ⟨k, y⟩ := e
    obtain ⟨hnot, hrest⟩ := List.nodup_cons.1 h
    rw [List.foldl_cons, ih hrest, List.lookup_cons]
    by_cases hkey : key = k
    · subst hkey
      have hnone : rest.lookup key = none := by
        rw [Option.eq_none_iff_forall_ne_some]
        intro x hx
        exact hnot (List.mem_map.2 ⟨_, (lookup_eq_some hrest).1 hx, rfl⟩)
      simp [hnone]
    · simp [beq_eq_false_iff_ne.2 hkey]

end Assoc

import Elle.Lib.Assoc

/-!
# Sets and maps as lists

A set is a list without repetition, and a map a list of entries with distinct keys. Both are types
that carry the fact, so a loop over one meets each member once.
-/

variable {α β : Type*}

/-- A set, listed without repetition. -/
structure KeySet (α : Type*) where
  items : List α := []
  nodup : items.Nodup := by simp

namespace KeySet

variable (s : KeySet α) {a b : α}

instance : Membership α (KeySet α) := ⟨fun s a => a ∈ s.items⟩

instance [DecidableEq α] : Decidable (a ∈ s) := inferInstanceAs (Decidable (a ∈ s.items))

@[simp] theorem not_mem_default : ¬a ∈ ({} : KeySet α) := List.not_mem_nil

variable [DecidableEq α]

def put (a : α) : KeySet α := ⟨s.items.insert a, s.nodup.insert⟩

def del (a : α) : KeySet α := ⟨s.items.filter (· != a), s.nodup.filter _⟩

@[simp] theorem mem_put : b ∈ s.put a ↔ b = a ∨ b ∈ s := List.mem_insert_iff

@[simp] theorem mem_del : b ∈ s.del a ↔ b ∈ s ∧ b ≠ a := by
  change b ∈ s.items.filter _ ↔ b ∈ s.items ∧ _
  simp [List.mem_filter]

end KeySet

/-- A map, listed with each key once. -/
@[ext]
structure KeyMap (α β : Type*) where
  entries : List (α × β) := []
  nodup : (entries.map Prod.fst).Nodup := by simp

namespace KeyMap

variable (m : KeyMap α β) {a b : α} {x y : β}

def filter (keep : α × β → Bool) : KeyMap α β :=
  ⟨m.entries.filter keep, m.nodup.sublist (List.filter_sublist.map _)⟩

theorem filter_filter (keep keep' : α × β → Bool) :
    (m.filter keep).filter keep' = m.filter fun e => keep e && keep' e := by
  ext1
  simp [filter, List.filter_filter, Bool.and_comm]

theorem filter_congr {keep keep' : α × β → Bool} (h : ∀ e ∈ m.entries, keep e = keep' e) :
    m.filter keep = m.filter keep' := by
  ext1
  exact List.filter_congr h

variable [DecidableEq α]

def get? (a : α) : Option β := m.entries.lookup a

def del (a : α) : KeyMap α β := m.filter (·.1 != a)

def put (a : α) (x : β) : KeyMap α β :=
  ⟨(a, x) :: (m.del a).entries, List.nodup_cons.2 ⟨by simp [del, filter], (m.del a).nodup⟩⟩

theorem get?_eq_some : m.get? a = some x ↔ (a, x) ∈ m.entries := Assoc.lookup_eq_some m.nodup

theorem mem_del : (b, y) ∈ (m.del a).entries ↔ (b, y) ∈ m.entries ∧ b ≠ a := by
  simp [del, filter, List.mem_filter]

theorem mem_put : (b, y) ∈ (m.put a x).entries ↔ (b = a ∧ y = x) ∨ (b, y) ∈ m.entries ∧ b ≠ a := by
  change (b, y) ∈ (a, x) :: (m.del a).entries ↔ _
  rw [List.mem_cons, mem_del, Prod.mk.injEq]

@[simp] theorem get?_del : (m.del a).get? b = if b = a then none else m.get? b := by
  ext y
  rw [get?_eq_some, mem_del, ← get?_eq_some]
  split <;> simp [*]

@[simp] theorem get?_put : (m.put a x).get? b = if b = a then some x else m.get? b := by
  ext y
  rw [get?_eq_some, mem_put, ← get?_eq_some]
  by_cases h : b = a
  · simp [h, eq_comm]
  · simp [h]

end KeyMap

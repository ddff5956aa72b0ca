import Elle.Repr.Key

/-!
# Objects that change

The heap as a program mutates it: an object holds immediates and the slots of other objects, and a
mutable one is overwritten in place. The view of a value is the tree it stands for at one moment
(`Repr.Value`), which is what comparisons read; a value that reaches a cycle has none.
-/

namespace Elle.Repr

/-- Boxes are mutable. -/
def HeapObject.isMutable {F : Type} : HeapObject F → Bool
  | .string m _ | .bytes m _ | .array m _ | .struct m _ | .set m _ => m
  | .box _ _ => true
  | .pair _ _ | .handle _ _ | .ffi _ _ | .identity _ => false

end Elle.Repr

namespace Elle.Repr.Sets

variable {F : Type}

def Immediate (F : Type) := {v : Value F // ∀ x o, v ≠ .heap x o}

/-- A value as an object holds it. -/
inductive Ref (F : Type) where
  | imm (v : Immediate F)
  | obj (slot : Nat)

inductive Cell (F : Type) where
  | string (isMut : Bool) (data : List UInt8)
  | bytes (isMut : Bool) (data : List UInt8)
  | pair (first rest : Ref F)
  | array (isMut : Bool) (elements : List (Ref F))
  | struct (isMut : Bool) (entries : List (Ref F × Ref F))
  | set (isMut : Bool) (elements : List (Ref F))
  | box (isCapture : Bool) (content : Ref F)
  | handle (kind : HandleKind) (id : Nat)
  | ffi (kind : FfiKind) (descriptor : Nat)
  | identity (kind : IdentityKind)

abbrev Heap (F : Type) := List (Cell F)

def Cell.isMutable : Cell F → Bool
  | .string m _ | .bytes m _ | .array m _ | .struct m _ | .set m _ => m
  | .box _ _ => true
  | .pair _ _ | .handle _ _ | .ffi _ _ | .identity _ => false

/-! ### Views -/

def resolveEntry (view : Ref F → Option (Value F)) (e : Ref F × Ref F) : Option (Value F × Value F) :=
  (view e.1).bind fun k => (view e.2).map fun v => (k, v)

def Cell.resolve (view : Ref F → Option (Value F)) : Cell F → Option (HeapObject F)
  | .string m s => some (.string m s)
  | .bytes m s => some (.bytes m s)
  | .pair a d => (view a).bind fun a => (view d).map fun d => .pair a d
  | .array m es => (es.mapM view).map (.array m)
  | .struct m es => (es.mapM (resolveEntry view)).map (.struct m)
  | .set m es => (es.mapM view).map (.set m)
  | .box c v => (view v).map (.box c)
  | .handle k i => some (.handle k i)
  | .ffi k d => some (.ffi k d)
  | .identity k => some (.identity k)

def viewWith (h : Heap F) : Nat → Ref F → Option (Value F)
  | _, .imm v => some v.1
  | 0, .obj _ => none
  | n + 1, .obj x => do
    let c ← h[x]?
    let o ← c.resolve (viewWith h n)
    return .heap x o

/-- The tree a value stands for. No path through different slots is longer than the heap. -/
def view (h : Heap F) (r : Ref F) : Option (Value F) := viewWith h h.length r

/-- An object made of a cell, its contents related by `R`. -/
def Cell.Rel (R : Ref F → Value F → Prop) : Cell F → HeapObject F → Prop
  | .string m s, .string m' s' => m = m' ∧ s = s'
  | .bytes m s, .bytes m' s' => m = m' ∧ s = s'
  | .pair a d, .pair a' d' => R a a' ∧ R d d'
  | .array m es, .array m' es' => m = m' ∧ List.Forall₂ R es es'
  | .struct m es, .struct m' es' =>
    m = m' ∧ List.Forall₂ (fun e e' => R e.1 e'.1 ∧ R e.2 e'.2) es es'
  | .set m es, .set m' es' => m = m' ∧ List.Forall₂ R es es'
  | .box c v, .box c' v' => c = c' ∧ R v v'
  | .handle k i, .handle k' i' => k = k' ∧ i = i'
  | .ffi k d, .ffi k' d' => k = k' ∧ d = d'
  | .identity k, .identity k' => k = k'
  | _, _ => False

theorem resolveEntry_eq_some_iff {view : Ref F → Option (Value F)} {e : Ref F × Ref F}
    {e' : Value F × Value F} :
    resolveEntry view e = some e' ↔ view e.1 = some e'.1 ∧ view e.2 = some e'.2 := by
  obtain ⟨k, v⟩ := e
  obtain ⟨k', v'⟩ := e'
  cases hk : view k <;> cases hv : view v <;> simp [resolveEntry, hk, hv]

variable {c : Cell F} {o : HeapObject F} {R : Ref F → Value F → Prop} {v : Value F} {n : Nat} {r : Ref F}

theorem resolve_eq_some_iff {view : Ref F → Option (Value F)} :
    c.resolve view = some o ↔ c.Rel (fun r v => view r = some v) o := by
  cases c <;> cases o <;>
    simp [Cell.resolve, Cell.Rel, Pointwise.mapM_eq_some_iff, resolveEntry_eq_some_iff, Option.bind_eq_some_iff]
  case array.array m es m' es' => exact and_comm
  case struct.struct m es m' es' => exact and_comm
  case set.set m es m' es' => exact and_comm
  case box.box => exact and_comm

theorem Cell.Rel.imp {S : Ref F → Value F → Prop} (h : ∀ r, ∀ v ∈ o.children, R r v → S r v)
    (hc : c.Rel R o) : c.Rel S o := by
  have hall : ∀ es fs, fs = o.children → List.Forall₂ R es fs → List.Forall₂ S es fs := by
    rintro es fs rfl hes
    exact Pointwise.imp_mem (fun r _ v hv => h r v hv) hes
  cases c <;> cases o <;> first | exact hc | skip
  case pair.pair =>
    exact ⟨h _ _ (by simp [HeapObject.children]) hc.1, h _ _ (by simp [HeapObject.children]) hc.2⟩
  case array.array => exact ⟨hc.1, hall _ _ rfl hc.2⟩
  case struct.struct =>
    refine ⟨hc.1, Pointwise.imp_mem (fun e _ e' he' hR => ?_) hc.2⟩
    exact ⟨h _ _ (List.mem_flatMap.2 ⟨e', he', by simp⟩) hR.1,
      h _ _ (List.mem_flatMap.2 ⟨e', he', by simp⟩) hR.2⟩
  case set.set => exact ⟨hc.1, hall _ _ rfl hc.2⟩
  case box.box => exact ⟨hc.1, h _ _ (by simp [HeapObject.children]) hc.2⟩

theorem Cell.Rel.isMutable_eq (hc : c.Rel R o) : c.isMutable = o.isMutable := by
  cases c <;> cases o <;> first | rfl | exact hc.1 | cases hc

theorem Cell.Rel.child (hc : c.Rel R o) (hv : v ∈ o.children) : ∃ r, R r v := by
  have hall : ∀ {es : List (Ref F)} {fs}, List.Forall₂ R es fs → v ∈ fs → ∃ r, R r v := by
    intro es fs hes hv
    obtain ⟨r, -, hr⟩ := Pointwise.exists_left hes hv
    exact ⟨r, hr⟩
  cases c <;> cases o <;> first | exact absurd hv List.not_mem_nil | exact absurd hc id | skip
  case pair.pair =>
    rcases List.mem_pair.1 hv with rfl | rfl
    · exact ⟨_, hc.1⟩
    · exact ⟨_, hc.2⟩
  case array.array => exact hall hc.2 hv
  case struct.struct =>
    obtain ⟨e, he, hv⟩ := List.mem_flatMap.1 hv
    obtain ⟨e', -, hR⟩ := Pointwise.exists_left hc.2 he
    rcases List.mem_pair.1 hv with rfl | rfl
    · exact ⟨_, hR.1⟩
    · exact ⟨_, hR.2⟩
  case set.set => exact hall hc.2 hv
  case box.box =>
    cases List.mem_singleton.1 hv
    exact ⟨_, hc.2⟩

variable {h h' : Heap F}

theorem viewWith_obj {x : Nat} (hv : viewWith h n (.obj x) = some v) :
    ∃ m c o, n = m + 1 ∧ h[x]? = some c ∧ v = .heap x o ∧ c.Rel (fun r u => viewWith h m r = some u) o := by
  cases n with
  | zero => cases hv
  | succ m =>
    obtain ⟨c, hc, hv⟩ := Option.bind_eq_some_iff.1 hv
    obtain ⟨o, ho, hv⟩ := Option.bind_eq_some_iff.1 hv
    exact ⟨m, c, o, rfl, hc, (Option.some.inj hv).symm, resolve_eq_some_iff.1 ho⟩

theorem viewWith_obj_eq {m x : Nat} (hc : h[x]? = some c)
    (ho : c.Rel (fun r u => viewWith h m r = some u) o) : viewWith h (m + 1) (.obj x) = some (.heap x o) := by
  rw [viewWith, hc]
  simp [resolve_eq_some_iff.2 ho]

theorem viewWith_mono {m : Nat} (hv : viewWith h n r = some v) (hle : n ≤ m) : viewWith h m r = some v := by
  induction n generalizing m r v with
  | zero =>
    cases r with
    | imm i => cases m <;> exact hv
    | obj x => cases hv
  | succ n ih =>
    cases r with
    | imm i => cases m <;> exact hv
    | obj x =>
      obtain ⟨k, c, o, hk, hc, rfl, ho⟩ := viewWith_obj hv
      cases hk
      obtain ⟨m, rfl⟩ : ∃ m', m = m' + 1 := ⟨m - 1, by omega⟩
      exact viewWith_obj_eq hc (ho.imp fun r u _ hu => ih hu (by omega))

theorem viewWith_agree (hv : viewWith h n r = some v)
    (hagree : v.All fun u => ∀ x o c, u = .heap x o → h[x]? = some c → c.isMutable = o.isMutable → h'[x]? = some c) :
    viewWith h' n r = some v := by
  induction n generalizing r v with
  | zero =>
    cases r with
    | imm i => exact hv
    | obj x => cases hv
  | succ n ih =>
    cases r with
    | imm i => exact hv
    | obj x =>
      obtain ⟨k, c, o, hk, hc, rfl, ho⟩ := viewWith_obj hv
      cases hk
      refine viewWith_obj_eq (hagree.self x o c rfl hc ho.isMutable_eq) (ho.imp fun r u hu hr => ?_)
      exact ih hr (hagree.child hu)

/-! ### What does not change -/

/-- Neither mutable nor a float. -/
structure Inert (u : Value F) : Prop where
  immutable : ∀ x o, u = .heap x o → o.isMutable = false
  noFloat : ∀ x, u ≠ .float x

/-- Nothing mutable and no floats, all the way down. -/
abbrev Settled (v : Value F) : Prop := v.All Inert

/-- The slots are kept, and what is immutable stays as it is. -/
structure Keeps (h h' : Heap F) : Prop where
  length : h.length ≤ h'.length
  immutable : ∀ (x : Nat) (c : Cell F), h[x]? = some c → c.isMutable = false → h'[x]? = some c

theorem keeps_append (h new : Heap F) : Keeps h (h ++ new) := by
  refine ⟨by simp, fun x c hc _ => ?_⟩
  rw [List.getElem?_append_left (List.getElem?_eq_some_iff.1 hc).1, hc]

theorem keeps_set {x : Nat} {c' : Cell F} (hc : h[x]? = some c) (hm : c.isMutable) :
    Keeps h (h.set x c') := by
  refine ⟨by simp, fun y d hd hdm => ?_⟩
  rw [List.getElem?_set_ne, hd]
  rintro rfl
  rw [hc] at hd
  cases hd
  rw [hm] at hdm
  cases hdm

theorem view_keeps (hv : view h r = some v) (hs : Settled v) (hk : Keeps h h') : view h' r = some v := by
  refine viewWith_mono (viewWith_agree hv fun u hu x o c huo hc hm => ?_) hk.length
  exact hk.immutable x c hc (hm.trans ((hs u hu).immutable x o huo))

theorem view_append (hv : view h r = some v) (new : Heap F) : view (h ++ new) r = some v := by
  refine viewWith_mono (viewWith_agree hv fun u hu x o c huo hc hm => ?_) (by simp)
  rw [List.getElem?_append_left (List.getElem?_eq_some_iff.1 hc).1, hc]

/-! ### The memory of a heap -/

def memory (h : Heap F) (x : Nat) : Option (HeapObject F) :=
  match view h (.obj x) with
  | some (.heap _ o) => some o
  | _ => none

def KeysOk (h : Heap F) : Prop :=
  ∀ (x : Nat) m es, h[x]? = some (.struct m es) → ∀ e ∈ es, ∃ k, view h e.1 = some k ∧ k.isKey

theorem viewWith_parts (hv : viewWith h n r = some v) :
    v.All fun u => ∀ x o, u = .heap x o → viewWith h n (.obj x) = some u := by
  induction n generalizing r v with
  | zero =>
    cases r with
    | imm i =>
      cases hv
      exact Value.all_immediate i.2 fun x o hi => absurd hi (i.2 x o)
    | obj x => cases hv
  | succ n ih =>
    cases r with
    | imm i =>
      cases hv
      exact Value.all_immediate i.2 fun x o hi => absurd hi (i.2 x o)
    | obj x =>
      have hself := hv
      obtain ⟨k, c, o, hk, hc, rfl, ho⟩ := viewWith_obj hv
      cases hk
      refine Value.all_heap.2 ⟨?_, fun u hu => ?_⟩
      · rintro _ _ ⟨⟩
        exact hself
      · obtain ⟨r, hr⟩ := ho.child hu
        intro w hw y p hwp
        exact viewWith_mono (ih hr w hw y p hwp) (Nat.le_succ n)

theorem all_inMemory (hkeys : KeysOk h) (hv : view h r = some v) :
    v.All (InMemory (memory h) (fun _ => True) (fun _ => True)) := by
  intro u hu
  have hpart := viewWith_parts hv u hu
  refine ⟨fun x o huo => ?_, fun _ _ => trivial, fun _ _ => trivial, fun _ _ => trivial, ?_⟩
  · subst huo
    simp [memory, view, hpart x o rfl]
  · rintro x m es rfl e he
    obtain ⟨n, c, o, hn, hc, ho, hrel⟩ := viewWith_obj (hpart x _ rfl)
    cases ho
    cases c with
    | struct m' es' =>
      obtain ⟨e', he', hR⟩ := Pointwise.exists_left hrel.2 he
      obtain ⟨k, hk, hkey⟩ := hkeys x m' es' hc e' he'
      have hk' := viewWith_mono hR.1 (by omega : n ≤ h.length)
      rw [view, hk'] at hk
      cases hk
      exact hkey
    | _ => cases hrel

theorem isMutable_of_isKey (hk : o.isKey) : o.isMutable = false := by
  cases o with
  | string m _ | bytes m _ => cases m <;> first | rfl | cases hk
  | array m _ | struct m _ | set m _ => cases m <;> simp [HeapObject.isKey] at hk ⊢; rfl
  | box _ _ => cases hk
  | _ => rfl

theorem settled_of_isKey {mem : Nat → Option (HeapObject F)} {P : Int ⊕ F → Prop} {Q : Bool → Prop}
    (hv : v.All (InMemory mem P Q)) (hk : v.isKey) : Settled v := by
  induction v using Value.induction with
  | h v ih =>
    rcases isHeap_cases v with ⟨x, o, rfl⟩ | himm
    · refine Value.all_heap.2 ⟨⟨?_, nofun⟩, fun c hc => ?_⟩
      · rintro _ _ ⟨⟩
        exact isMutable_of_isKey hk
      · exact ih x o rfl c hc (hv.child hc) (isKey_child hv.self hk hc)
    · refine Value.all_immediate himm ⟨fun x o hv => absurd hv (himm x o), ?_⟩
      rintro x rfl
      cases hk

theorem view_key_keeps {k : Value F} (hkeys : KeysOk h) (hv : view h r = some k) (hkey : k.isKey)
    (hk : Keeps h h') : view h' r = some k :=
  view_keeps hv (settled_of_isKey (all_inMemory hkeys hv) hkey) hk

theorem all_inKeyMemory_of_settled (hkeys : KeysOk h) (hv : view h r = some v) (hs : Settled v) :
    v.All (InKeyMemory (memory h)) := by
  intro u hu
  obtain ⟨hobject, -, -, -, hstruct⟩ := all_inMemory hkeys hv u hu
  refine ⟨hobject, fun _ _ => rfl, fun x hx => absurd hx ((hs u hu).noFloat x), ?_, hstruct⟩
  intro c hc
  rcases isHeap_cases u with ⟨x, o, rfl⟩ | himm
  · cases o <;> cases hc
    exact absurd ((hs _ hu).immutable x _ rfl) nofun
  · cases u <;> first | cases hc | exact himm _ _ rfl

end Elle.Repr.Sets

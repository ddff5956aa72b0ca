import Elle.Repr.Laws
import Elle.Lib.BinarySearch
import Elle.Lib.Pointwise

/-!
# Struct keys

`TableKey` (`value/types/key.rs`): what a key is, how keys compare, and their copies in a region. Keys
are immutable and have no floats, all the way down, so that their order is total and agrees with
their equality. Lookup in a struct is a binary search by that order (`value/types/sorted.rs`).
-/

namespace Elle.Repr

open Cmp TotalFloat

variable {F : Type}

attribute [local simp] HeapObject.children

/-! ### Parts of a key -/

/-- The parts of a key are in a memory of integers without boxes. -/
abbrev InKeyMemory (mem : Nat → Option (HeapObject F)) : Value F → Prop :=
  InMemory mem (fun n => n.isLeft) (fun _ => False)

theorem noClash_isLeft [TotalFloat F] : NoClash (fun n : Int ⊕ F => n.isLeft) := by
  rintro m n x - - h
  cases h

variable {mem : Nat → Option (HeapObject F)} {P : Int ⊕ F → Prop} {Q : Bool → Prop}

theorem mem_children_struct {m : Bool} {es : List (Value F × Value F)} {e : Value F × Value F} (he : e ∈ es) :
    e.1 ∈ (HeapObject.struct m es).children ∧ e.2 ∈ (HeapObject.struct m es).children :=
  ⟨List.mem_flatMap.2 ⟨e, he, by simp⟩, List.mem_flatMap.2 ⟨e, he, by simp⟩⟩

theorem isKey_child {x : Nat} {o : HeapObject F} {c : Value F}
    (h : InMemory mem P Q (.heap x o)) (hk : o.isKey) (hc : c ∈ o.children) :
    c.isKey := by
  cases o with
  | pair a d =>
    rw [HeapObject.isKey, Bool.and_eq_true] at hk
    rcases List.mem_pair.1 hc with rfl | rfl
    · exact hk.1
    · exact hk.2
  | array m es | set m es =>
    rw [HeapObject.isKey, Bool.and_eq_true, areKeys_iff] at hk
    exact hk.2 c hc
  | struct m es =>
    rw [HeapObject.isKey, Bool.and_eq_true, valuesAreKeys_iff] at hk
    obtain ⟨e, he, hc⟩ := List.mem_flatMap.1 hc
    rcases List.mem_pair.1 hc with rfl | rfl
    · exact h.keys x m es rfl e he
    · exact hk.2 e he
  | box c v => cases hk
  | _ => cases hc

theorem inKeyMemory_self {a : Value F} (h : InMemory mem P Q a) (hk : a.isKey) :
    InKeyMemory mem a := by
  refine ⟨h.object, fun n hn => rfl, ?_, ?_, h.keys⟩
  · rintro x rfl
    cases hk
  · intro c hc
    rcases a with _ | _ | _ | _ | _ | _ | _ | _ | _ | _ | ⟨x, o⟩ <;> try cases hc
    cases o <;> cases hc
    cases hk

theorem all_inKeyMemory {a : Value F} (h : a.All (InMemory mem P Q)) (hk : a.isKey) :
    a.All (InKeyMemory mem) := by
  induction a using Value.induction with
  | h a ih =>
    rcases a with _ | _ | _ | _ | _ | _ | _ | _ | _ | _ | ⟨x, o⟩
    case heap =>
      refine Value.all_heap.2 ⟨inKeyMemory_self h.self hk, fun c hc => ?_⟩
      exact ih x o rfl c hc (h.child hc) (isKey_child h.self hk hc)
    all_goals exact Value.all_immediate nofun (inKeyMemory_self h.self hk)

/-! ### Equality and order of keys -/

section

variable [TotalFloat F]

theorem compare_then_eq {m n : Nat} {o : Ordering} : (compare m n).then o = .eq ↔ m = n ∧ o = .eq := by
  rw [Ordering.then_eq_eq, compare_eq_iff_eq]

theorem cmpBytes_eq_iff {s t : List UInt8} : cmpBytes s t = .eq ↔ s = t := by
  rw [cmpBytes, compareLex_eq_iff]
  constructor
  · intro h
    induction h with
    | nil => rfl
    | cons hab _ ih => rw [UInt8.toNat_inj.1 (compare_eq_iff_eq.1 hab), ih]
  · rintro rfl
    exact List.forall₂_same.2 fun _ _ => Std.ReflOrd.compare_self

theorem immediateEq_identity {a b : Value F} (ha : a.IsImmediate) :
    a.immediateEq .identity b ↔ a = b := by
  cases a <;> cases b <;>
    first
    | exact absurd rfl (ha _ _)
    | simp [Value.immediateEq, Value.bitIdentical]

theorem eqWith_immediate {a b : Value F} {rel : Relation}
    (h : a.IsImmediate ∨ b.IsImmediate) :
    a.eqWith b rel = a.immediateEq rel b := by
  rw [Value.eqWith]
  exact not_heap_heap h

theorem restEq_immediate {a b : Value F} {rel : Relation}
    (h : a.IsImmediate ∨ b.IsImmediate) :
    a.restEq b rel = a.immediateEq rel b := by
  rw [Value.restEq]
  exact not_heap_heap h

theorem eqWith_self (a : Value F) : a.eqWith a .identity := by
  rcases isHeap_cases a with ⟨x, o, rfl⟩ | ha
  · simp [Value.eqWith]
  · rw [eqWith_immediate (.inl ha), immediateEq_identity ha]

theorem restEq_self (a : Value F) : a.restEq a .identity := by
  induction a using Value.induction with
  | h a ih =>
    rcases isHeap_cases a with ⟨x, o, rfl⟩ | ha
    · rw [Value.restEq]
      split
      · next hpair =>
        cases o with
        | pair a d =>
          rw [HeapObject.eqWith, eqWith_self, ih x _ rfl d (by simp)]
          rfl
        | _ => cases hpair
      · simp
    · rw [restEq_immediate (.inl ha), immediateEq_identity ha]

theorem restEq_eq_eqWith {a b : Value F} (hco : Coherent a b) :
    a.restEq b .identity = a.eqWith b .identity := by
  rcases heap_cases a b with ⟨x, o, y, o', rfl, rfl⟩ | himm
  · by_cases hxy : x = y
    · subst hxy
      obtain rfl := hco x o o' rfl rfl
      rw [restEq_self, eqWith_self]
    · rw [Value.restEq, Value.eqWith]
      simp [hxy]
  · rw [restEq_immediate himm, eqWith_immediate himm]

theorem eqAll_iff {es fs : List (Value F)} {rel : Relation} :
    Value.eqAll es fs rel ↔ List.Forall₂ (fun e f => e.eqWith f rel) es fs := by
  induction es generalizing fs with
  | nil => cases fs <;> simp [Value.eqAll]
  | cons e es ih =>
    cases fs with
    | nil => simp [Value.eqAll]
    | cons f fs => rw [Value.eqAll, Bool.and_eq_true, List.forall₂_cons, ih]

theorem eqEntries_iff {es fs : List (Value F × Value F)} {rel : Relation} :
    Value.eqEntries es fs rel ↔
      List.Forall₂ (fun e f => e.1.eqAsKey f.1 ∧ e.2.eqWith f.2 rel) es fs := by
  induction es generalizing fs with
  | nil => cases fs <;> simp [Value.eqEntries]
  | cons e es ih =>
    cases fs with
    | nil => simp [Value.eqEntries]
    | cons f fs => rw [Value.eqEntries, Bool.and_eq_true, Bool.and_eq_true, List.forall₂_cons, ih]

theorem ctorIdx_of_eqWith {o o' : HeapObject F} {rel : Relation} {x y : Nat}
    (h : o.eqWith o' rel x y) : o.ctorIdx = o'.ctorIdx := by
  cases o <;> cases o' <;> first | rfl | simp [HeapObject.eqWith] at h

section

variable {o o' : HeapObject F} {x y : Nat} (hxy : x ≠ y)
variable (hco : ∀ a b : Value F, a ∈ o.children → b ∈ o'.children → Coherent a b)
include hxy hco

theorem eqWith_object_of_cmp (hrank : o.rank = o'.rank) (hcmp : o.cmp o' x y = .eq) (hbox : ∀ c v, o ≠ .box c v)
    (hvalues : ∀ c ∈ o.children, ∀ c' ∈ o'.children, c.cmp c' = .eq → c.eqWith c' .identity)
    (hkeys : ∀ m es m' es', o = .struct m es → o' = .struct m' es' → ∀ e ∈ es, ∀ e' ∈ es',
      e.1.cmpAsKey e'.1 = .eq → e.1.eqAsKey e'.1) : o.eqWith o' .identity x y := by
  have hctor : o.ctorIdx = o'.ctorIdx := by rw [← ctorOfRank_rank, hrank, ctorOfRank_rank]
  have hne : compare x y ≠ .eq := fun h => hxy (compare_eq_iff_eq.1 h)
  have hall : ∀ es fs, es = o.children → fs = o'.children → Value.cmpAll es fs = .eq →
      Value.eqAll es fs .identity := by
    rintro es fs rfl rfl h
    rw [cmpAll_eq, compareLex_eq_iff] at h
    exact eqAll_iff.2 (Pointwise.imp_mem hvalues h)
  rcases o with ⟨m, s⟩ | ⟨m, s⟩ | ⟨a, d⟩ | ⟨m, es⟩ | ⟨m, es⟩ | ⟨m, es⟩ | ⟨m, v⟩ | ⟨k, i⟩ | ⟨k, i⟩ | k <;>
    rcases o' with ⟨m', t⟩ | ⟨m', t⟩ | ⟨a', d'⟩ | ⟨m', fs⟩ | ⟨m', fs⟩ | ⟨m', fs⟩ | ⟨m', v'⟩ | ⟨k', j⟩ |
      ⟨k', j⟩ | k' <;>
    first
    | (exfalso; cases hctor; done)
    | skip
  case string.string | bytes.bytes =>
    rw [HeapObject.cmp, cmpBytes_eq_iff] at hcmp
    rw [HeapObject.eqWith, beq_iff_eq, hcmp]
  case pair.pair =>
    rw [HeapObject.cmp, Ordering.then_eq_eq] at hcmp
    have ha := hvalues a (by simp) a' (by simp) hcmp.1
    have hd := hvalues d (by simp) d' (by simp) hcmp.2
    rw [HeapObject.eqWith, Bool.and_eq_true,
      restEq_eq_eqWith (hco d d' (by simp) (by simp))]
    exact ⟨ha, hd⟩
  case array.array | set.set =>
    rw [HeapObject.cmp] at hcmp
    rw [HeapObject.eqWith]
    exact hall _ _ rfl rfl hcmp
  case struct.struct =>
    obtain rfl : m = m' := by cases m <;> cases m' <;> first | rfl | cases hrank
    rw [HeapObject.cmp, cmpEntries_eq, compareLex_eq_iff] at hcmp
    have heq : Value.eqEntries es fs .identity := by
      refine eqEntries_iff.2 (Pointwise.imp_mem (fun e he f hf h => ?_) hcmp)
      rw [cmpEntry, Ordering.then_eq_eq] at h
      exact ⟨hkeys m es m fs rfl rfl e he f hf h.1,
        hvalues e.2 (mem_children_struct he).2 f.2 (mem_children_struct hf).2 h.2⟩
    cases m <;> rwa [HeapObject.eqWith] <;> simp
  case box.box => exact absurd rfl (hbox m v)
  case handle.handle =>
    rw [HeapObject.cmp, compare_eq_iff_eq] at hcmp
    obtain rfl : k = k' := by cases k <;> cases k' <;> first | rfl | cases hrank
    simp [HeapObject.eqWith, hcmp]
  case ffi.ffi | identity.identity => simp [HeapObject.cmp, hne] at hcmp

theorem cmp_object_of_eqWith (heq : o.eqWith o' .identity x y) (ho : o.isKey) (ho' : o'.isKey)
    (hvalues : ∀ c ∈ o.children, ∀ c' ∈ o'.children, c.eqWith c' .identity → c.cmp c' = .eq)
    (hkeys : ∀ m es m' es', o = .struct m es → o' = .struct m' es' → ∀ e ∈ es, ∀ e' ∈ es',
      e.1.eqAsKey e'.1 → e.1.cmpAsKey e'.1 = .eq) : o.rank = o'.rank ∧ o.cmp o' x y = .eq := by
  have hctor := ctorIdx_of_eqWith heq
  rcases o with ⟨m, s⟩ | ⟨m, s⟩ | ⟨a, d⟩ | ⟨m, es⟩ | ⟨m, es⟩ | ⟨m, es⟩ | _ | ⟨k, i⟩ | _ | k <;>
    rcases o' with ⟨m', t⟩ | ⟨m', t⟩ | ⟨a', d'⟩ | ⟨m', fs⟩ | ⟨m', fs⟩ | ⟨m', fs⟩ | _ | ⟨k', j⟩ | _ | k' <;>
    first
    | (exfalso; cases hctor; done)
    | (exfalso; cases ho)
    | skip
  case string.string | bytes.bytes =>
    cases m <;> cases m' <;> simp [HeapObject.isKey] at ho ho'
    simpa [HeapObject.eqWith, HeapObject.cmp, HeapObject.rank, cmpBytes_eq_iff] using heq
  case pair.pair =>
    rw [HeapObject.eqWith, Bool.and_eq_true, restEq_eq_eqWith (hco d d' (by simp) (by simp))] at heq
    rw [HeapObject.cmp, Ordering.then_eq_eq]
    exact ⟨rfl, hvalues a (by simp) a' (by simp) heq.1, hvalues d (by simp) d' (by simp) heq.2⟩
  case array.array | set.set =>
    cases m <;> cases m' <;> simp [HeapObject.isKey] at ho ho'
    rw [HeapObject.eqWith, eqAll_iff] at heq
    rw [HeapObject.cmp, cmpAll_eq, compareLex_eq_iff]
    exact ⟨rfl, Pointwise.imp_mem hvalues heq⟩
  case struct.struct =>
    cases m <;> cases m' <;> simp [HeapObject.isKey] at ho ho'
    simp only [HeapObject.eqWith, eqEntries_iff] at heq
    rw [HeapObject.cmp, cmpEntries_eq, compareLex_eq_iff]
    refine ⟨rfl, Pointwise.imp_mem (fun e he f hf h => ?_) heq⟩
    rw [cmpEntry, Ordering.then_eq_eq]
    exact ⟨hkeys _ es _ fs rfl rfl e he f hf h.1,
      hvalues e.2 (mem_children_struct he).2 f.2 (mem_children_struct hf).2 h.2⟩
  case handle.handle =>
    obtain ⟨rfl, rfl⟩ : k = k' ∧ i = j := by simpa [HeapObject.eqWith] using heq
    exact ⟨rfl, by simp [HeapObject.cmp]⟩
  case identity.identity => simp [HeapObject.eqWith, hxy] at heq

end

theorem eq_of_content_eq {a b : Value F} (hfa : ∀ x, a ≠ .float x) (hfb : ∀ x, b ≠ .float x)
    (ha : a.IsImmediate) (hb : b.IsImmediate) (hrank : a.typeRank = b.typeRank)
    (hcmp : a.content.cmp b.content = .eq) : a = b := by
  rcases a with _ | c | _ | _ | _ | _ | _ | _ | _ | _ | _ <;>
    rcases b with _ | c' | _ | _ | _ | _ | _ | _ | _ | _ | _ <;>
    first
    | rfl
    | exact absurd rfl (ha _ _)
    | exact absurd rfl (hb _ _)
    | exact absurd rfl (hfa _)
    | exact absurd rfl (hfb _)
    | (cases hrank; done)
    | (cases c <;> cases c' <;> first | rfl | cases hcmp)
    | exact congrArg _ (compare_eq_iff_eq.1 hcmp)

theorem eq_of_cmp_immediate {a b : Value F} (himm : a.IsImmediate ∨ b.IsImmediate)
    (hfa : ∀ x, a ≠ .float x) (hfb : ∀ x, b ≠ .float x) (hcmp : a.cmp b = .eq) : a = b := by
  have hboth := fun hrank => both_immediate hrank himm
  have hkind : ∀ v : Value F, v.IsImmediate → v.boxKind = none := by
    intro v hv
    cases v <;> first | rfl | exact absurd rfl (hv _ _)
  have hco : Coherent a b := fun x o o' h h' => (not_heap_heap himm x o x o' h h').elim
  rw [cmp_eq hco fun hrank => by rw [hkind a (hboth hrank).1, hkind b (hboth hrank).2],
    compare_then_eq] at hcmp
  exact eq_of_content_eq hfa hfb (hboth hcmp.1).1 (hboth hcmp.1).2 hcmp.1 hcmp.2

omit [TotalFloat F] in
theorem not_float_of_isKey {v : Value F} (hv : v.isKey) (x : F) : v ≠ .float x := by
  rintro rfl
  cases hv

theorem immediateEq_iff {a b : Value F} (himm : a.IsImmediate ∨ b.IsImmediate) :
    a.immediateEq .identity b ↔ a = b := by
  rcases isHeap_cases a with ⟨x, o, rfl⟩ | ha
  · refine iff_of_false (by cases b <;> simp [Value.immediateEq]) ?_
    rintro rfl
    rcases himm with h | h <;> exact h x o rfl
  · exact immediateEq_identity ha

theorem eqAsKey_heap_other {x y : Nat} {o o' : HeapObject F}
    (harray : ∀ es fs, o = .array false es → o' = .array false fs → False)
    (hstring : ∀ s t, o = .string false s → o' = .string false t → False) :
    (Value.heap x o).eqAsKey (.heap y o') =
      ((Value.heap x o).keyRank == (Value.heap y o').keyRank &&
        (Value.heap x o).eqWith (.heap y o') .identity) := by
  rw [Value.eqAsKey, Value.eqWith]
  · rfl
  · exact fun es fs h h' => harray es fs h h'
  · exact fun s t h h' => hstring s t h h'

theorem eqAsKey_immediate {a b : Value F} (himm : a.IsImmediate ∨ b.IsImmediate) :
    a.eqAsKey b = a.immediateEq .identity b := by
  rw [Value.eqAsKey]
  · exact fun x es y fs h h' => not_heap_heap himm _ _ _ _ h h'
  · exact fun x s y t h h' => not_heap_heap himm _ _ _ _ h h'
  · exact not_heap_heap himm

theorem eqAsKey_iff {a b : Value F} (hka : a.isKey) (hkb : b.isKey)
    (hvalue : a.eqWith b .identity ↔ a.cmp b = .eq) : a.eqAsKey b ↔ a.cmpAsKey b = .eq := by
  rcases heap_cases a b with ⟨x, o, y, o', rfl, rfl⟩ | himm
  · have hother : (∀ es fs, o = .array false es → o' = .array false fs → False) →
        (∀ s t, o = .string false s → o' = .string false t → False) →
        ((Value.heap x o).eqAsKey (.heap y o') ↔ (Value.heap x o).cmpAsKey (.heap y o') = .eq) := by
      intro harray hstring
      rw [eqAsKey_heap_other harray hstring, cmpAsKey_heap_other harray hstring, compare_then_eq,
        Bool.and_eq_true, beq_iff_eq, hvalue]
    rcases heap_key_cases x o with ⟨s, rfl⟩ | ⟨es, rfl⟩ | ⟨hs, hes, -, -⟩ <;>
      rcases heap_key_cases y o' with ⟨t, rfl⟩ | ⟨fs, rfl⟩ | ⟨ht, hfs, -, -⟩
    · rw [Value.eqAsKey, Value.cmpAsKey, beq_iff_eq, cmpBytes_eq_iff]
    · exact hother (by simp) (by simp)
    · exact hother (by simp) fun s t _ h => ht t h
    · exact hother (by simp) (by simp)
    · rw [Value.eqAsKey, Value.cmpAsKey, beq_iff_eq]
    · exact hother (fun es fs _ h => hfs fs h) (by simp)
    · exact hother (by simp) fun s t h _ => hs s h
    · exact hother (fun es fs h _ => hes es h) (by simp)
    · exact hother (fun es fs h _ => hes es h) fun s t h _ => hs s h
  · rw [eqAsKey_immediate himm, immediateEq_iff himm]
    refine ⟨fun h => h ▸ cmpAsKey_self a, fun h => ?_⟩
    rw [cmpAsKey_eq hka hkb, compare_then_eq] at h
    obtain ⟨hia, hib⟩ := both_immediate_of_keyRank hka hkb h.1 himm
    obtain ⟨htype, hc⟩ := keyContent_immediate hka hkb hia hib h.1
    exact eq_of_content_eq (not_float_of_isKey hka) (not_float_of_isKey hkb) hia hib htype (hc ▸ h.2)

/-- Values that compare equal are equal; on keys equality and order agree, as values and as keys. -/
theorem eqWith_agrees {a : Value F} (ha : a.All (InKeyMemory mem)) : ∀ b : Value F, b.All (InKeyMemory mem) →
    (a.cmp b = .eq → a.eqWith b .identity) ∧ (a.isKey → b.isKey →
      (a.eqWith b .identity ↔ a.cmp b = .eq) ∧ (a.eqAsKey b ↔ a.cmpAsKey b = .eq)) := by
  induction a using Value.induction with
  | h a ih =>
    intro b hb
    suffices h : (a.cmp b = .eq → a.eqWith b .identity) ∧
        (a.isKey → b.isKey → a.eqWith b .identity → a.cmp b = .eq) by
      refine ⟨h.1, fun hka hkb => ?_⟩
      have hvalue := Iff.intro (h.2 hka hkb) h.1
      exact ⟨hvalue, eqAsKey_iff hka hkb hvalue⟩
    rcases heap_cases a b with ⟨x, o, y, o', rfl, rfl⟩ | himm
    · by_cases hxy : x = y
      · simp [Value.eqWith, Value.cmp, hxy]
      have hchild := fun c hc c' hc' => ih x o rfl c hc (ha.child hc) c' (hb.child (c := c') hc')
      have hco : ∀ c c' : Value F, c ∈ o.children → c' ∈ o'.children → Coherent c c' :=
        fun c c' hc hc' => (ha.child hc).self.coherent (hb.child hc').self
      have hkeys : ∀ m es m' es', o = .struct m es → o' = .struct m' es' → ∀ e ∈ es, ∀ e' ∈ es',
          (e.1.eqAsKey e'.1 ↔ e.1.cmpAsKey e'.1 = .eq) := by
        rintro m es m' es' rfl rfl e he e' he'
        exact ((hchild e.1 (mem_children_struct he).1 e'.1 (mem_children_struct he').1).2
          (ha.self.keys x m es rfl e he) (hb.self.keys y m' es' rfl e' he')).2
      have heq : (Value.heap x o).eqWith (.heap y o') .identity = o.eqWith o' .identity x y := by
        simp [Value.eqWith, hxy]
      rw [heq, Value.cmp, if_neg hxy, compare_then_eq]
      refine ⟨fun hcmp => ?_, fun hka hkb heq => ?_⟩
      · refine eqWith_object_of_cmp hxy hco hcmp.1 hcmp.2 ?_ (fun c hc c' hc' => (hchild c hc c' hc').1)
          fun m es m' es' ho ho' e he e' he' => (hkeys m es m' es' ho ho' e he e' he').2
        rintro c v rfl
        exact ha.self.box c rfl
      · exact cmp_object_of_eqWith hxy hco heq hka hkb (fun c hc c' hc' => ((hchild c hc c' hc').2
          (isKey_child ha.self hka hc) (isKey_child hb.self hkb hc')).1.1)
          fun m es m' es' ho ho' e he e' he' => (hkeys m es m' es' ho ho' e he e' he').1
    · have hfloat : ∀ {v : Value F}, v.All (InKeyMemory mem) → ∀ x, v ≠ .float x := by
        rintro _ hv x rfl
        exact absurd (hv.self.float x rfl) (by simp)
      refine ⟨fun hcmp => ?_, fun hka hkb h => ?_⟩
      · rw [eq_of_cmp_immediate himm (hfloat ha) (hfloat hb) hcmp, eqWith_self]
      · rw [eqWith_immediate himm, immediateEq_iff himm] at h
        rw [h, cmp_self]

theorem key_agrees {a b : Value F} (ha : a.All (InKeyMemory mem)) (hka : a.isKey)
    (hb : b.All (InKeyMemory mem)) (hkb : b.isKey) :
    (a.eqWith b .identity ↔ a.cmp b = .eq) ∧ (a.eqAsKey b ↔ a.cmpAsKey b = .eq) :=
  (eqWith_agrees ha b hb).2 hka hkb

end

end Elle.Repr

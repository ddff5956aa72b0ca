import Elle.Repr.Value

/-!
# The order of values

Where `Value::cmp` is a total order. The values compared lie in one memory, so that one address holds
one object. Then the fast paths change nothing, and the comparison is by rank and, within a rank, by
content: numbers, bytes, element lists or entry lists.
-/

namespace Elle.Repr

open Cmp TotalFloat List

variable {F : Type}
variable {o : HeapObject F} {v : Value F} {p : Value F → Prop}

/-! ### Parts of a value -/

def HeapObject.children : HeapObject F → List (Value F)
  | .pair a d => [a, d]
  | .array _ es | .set _ es => es
  | .struct _ es => es.flatMap fun e => [e.1, e.2]
  | .box _ v => [v]
  | _ => []

theorem sizeOf_child (h : v ∈ o.children) : sizeOf v < sizeOf o := by
  cases o with
  | pair a d =>
    rcases List.mem_pair.1 h with rfl | rfl <;> simp only [HeapObject.pair.sizeOf_spec] <;> omega
  | array m es =>
    have := sizeOf_lt_of_mem (show v ∈ es from h)
    simp only [HeapObject.array.sizeOf_spec]
    omega
  | set m es =>
    have := sizeOf_lt_of_mem (show v ∈ es from h)
    simp only [HeapObject.set.sizeOf_spec]
    omega
  | struct m es =>
    obtain ⟨⟨k, w⟩, he, hv⟩ := List.mem_flatMap.1 h
    have := sizeOf_lt_of_mem he
    simp only [HeapObject.struct.sizeOf_spec, Prod.mk.sizeOf_spec] at this ⊢
    rcases List.mem_pair.1 hv with rfl | rfl <;> omega
  | box c w =>
    rcases List.mem_singleton.1 h with rfl
    simp only [HeapObject.box.sizeOf_spec]
    omega
  | _ => cases h

theorem Value.induction {P : Value F → Prop}
    (h : ∀ v, (∀ x o, v = .heap x o → ∀ c ∈ o.children, P c) → P v) (v : Value F) : P v := by
  refine h v fun x o hv c hc => ?_
  have : sizeOf c < sizeOf v := by
    have := sizeOf_child hc
    rw [hv, Value.heap.sizeOf_spec]
    omega
  exact Value.induction h c
termination_by sizeOf v

abbrev Value.IsImmediate (v : Value F) : Prop := ∀ x o, v ≠ .heap x o

/-- The parts of a value, itself and the keys of its structs included. -/
inductive Value.Part (u : Value F) : Value F → Prop where
  | self : Part u u
  | child {x : Nat} {o : HeapObject F} {c : Value F} : c ∈ o.children → Part u c → Part u (.heap x o)

def Value.All (p : Value F → Prop) (v : Value F) : Prop := ∀ u, Value.Part u v → p u

theorem Value.All.self (h : v.All p) : p v := h v .self

theorem Value.All.child {x : Nat} {c : Value F} (h : (Value.heap x o).All p) (hc : c ∈ o.children) : c.All p :=
  fun u hu => h u (.child hc hu)

theorem Value.all_heap {x : Nat} : (Value.heap x o).All p ↔ p (.heap x o) ∧ ∀ c ∈ o.children, c.All p := by
  refine ⟨fun h => ⟨h.self, fun c hc => h.child hc⟩, fun ⟨h, hc⟩ u hu => ?_⟩
  cases hu with
  | self => exact h
  | child hmem hu => exact hc _ hmem u hu

theorem Value.all_immediate (h : v.IsImmediate) (hp : p v) : v.All p := by
  intro u hu
  cases hu with
  | self => exact hp
  | child => exact absurd rfl (h _ _)

/-! ### Content -/

/-- What two values of one rank compare by: bytes, elements, entries, a machine word (a payload, a
handle or an address), or a number of the language. -/
inductive Content (F : Type) where
  | bytes (data : List UInt8)
  | values (es : List (Value F))
  | entries (es : List (Value F × Value F))
  | word (n : Nat)
  | number (n : Int ⊕ F)

def HeapObject.content : HeapObject F → Nat → Content F
  | .string _ s, _ | .bytes _ s, _ => .bytes s
  | .pair a d, _ => .values [a, d]
  | .array _ es, _ | .set _ es, _ => .values es
  | .struct _ es, _ => .entries es
  | .box _ v, _ => .values [v]
  | .handle _ i, _ => .word i
  | .ffi _ _, x | .identity _, x => .word x

def Value.content : Value F → Content F
  | .nil | .emptyList | .undefined => .word 0
  | .bool b => .word b.toNat
  | .int n => .number (.inl n)
  | .float x => .number (.inr x)
  | .symbol n | .keyword n | .pointer n | .nativeFn n => .word n
  | .heap x o => o.content x

/-- The number of the constructor whose objects have a rank. -/
def ctorOfRank : Nat → Nat
  | 7 | 12 => 0
  | 11 | 13 => 1
  | 8 => 2
  | 9 | 10 => 3
  | 14 | 15 => 4
  | 28 | 29 => 5
  | 17 => 6
  | 19 | 20 | 21 | 26 => 7
  | 23 | 24 => 8
  | 16 | 22 | 25 | 27 | 31 => 9
  | _ => 10

theorem ctorOfRank_rank (o : HeapObject F) : ctorOfRank o.rank = o.ctorIdx := by
  cases o with
  | string m s | bytes m s | array m es | struct m es | set m es => cases m <;> rfl
  | pair a d => rfl
  | box c v => rfl
  | handle k i | ffi k d | identity k => cases k <;> rfl

theorem ctorOfRank_heap (o : HeapObject F) : ctorOfRank o.rank ≠ 10 := by
  rw [ctorOfRank_rank]
  cases o <;> exact Nat.ne_of_lt (Nat.lt_of_sub_eq_succ rfl)

/-- The kind of box, if the value is one. -/
def Value.boxKind : Value F → Option Bool
  | .heap _ (.box c _) => some c
  | _ => none

section

variable [TotalFloat F]
variable {a : Value F}

def cmpEntry (e f : Value F × Value F) : Ordering := (e.1.cmpAsKey f.1).then (e.2.cmp f.2)

/-- Integers compare exactly, and with floats after a conversion that rounds. -/
def cmpNumber : Int ⊕ F → Int ⊕ F → Ordering
  | .inl m, .inl n => compare m n
  | .inl m, .inr y => compare (ofInt m) y
  | .inr x, .inl n => compare x (ofInt n)
  | .inr x, .inr y => compare x y

def Content.cmp : Content F → Content F → Ordering
  | .bytes s, .bytes t => cmpBytes s t
  | .values es, .values fs => es.compareLex Value.cmp fs
  | .entries es, .entries fs => es.compareLex cmpEntry fs
  | .word m, .word n => compare m n
  | .number m, .number n => cmpNumber m n
  | _, _ => .eq

theorem cmpAll_eq (es fs : List (Value F)) : Value.cmpAll es fs = es.compareLex Value.cmp fs := by
  induction es generalizing fs with
  | nil => cases fs <;> simp [Value.cmpAll, List.compareLex]
  | cons e es ih =>
    cases fs with
    | nil => simp [Value.cmpAll, List.compareLex]
    | cons f fs => rw [Value.cmpAll, compareLex_cons, ih]

theorem cmpEntries_eq (es fs : List (Value F × Value F)) :
    Value.cmpEntries es fs = es.compareLex cmpEntry fs := by
  induction es generalizing fs with
  | nil => cases fs <;> simp [Value.cmpEntries, List.compareLex]
  | cons e es ih =>
    cases fs with
    | nil => simp [Value.cmpEntries, List.compareLex]
    | cons f fs => rw [Value.cmpEntries, compareLex_cons, ih, cmpEntry]

theorem cmpAllAsKeys_eq (es fs : List (Value F)) :
    Value.cmpAllAsKeys es fs = es.compareLex Value.cmpAsKey fs := by
  induction es generalizing fs with
  | nil => cases fs <;> simp [Value.cmpAllAsKeys, List.compareLex]
  | cons e es ih =>
    cases fs with
    | nil => simp [Value.cmpAllAsKeys, List.compareLex]
    | cons f fs => rw [Value.cmpAllAsKeys, compareLex_cons, ih]

theorem heap_cmp_eq_content {o o' : HeapObject F} {x y : Nat} (hrank : o.rank = o'.rank)
    (hbox : (Value.heap x o).boxKind = (Value.heap y o').boxKind) :
    o.cmp o' x y = (o.content x).cmp (o'.content y) := by
  have hctor : o.ctorIdx = o'.ctorIdx := by rw [← ctorOfRank_rank, hrank, ctorOfRank_rank]
  rcases o with _ | _ | _ | _ | _ | _ | ⟨c, v⟩ | _ | _ | _ <;>
    rcases o' with _ | _ | _ | _ | _ | _ | ⟨c', v'⟩ | _ | _ | _ <;>
    first
    | (exfalso; cases hctor; done)
    | simp only [HeapObject.cmp, HeapObject.content, Content.cmp, cmpAll_eq, cmpEntries_eq,
        compareLex_cons]
  · simp [List.compareLex]
  · rw [if_pos (Option.some.inj hbox)]
    simp [List.compareLex]

theorem cmpImmediate_eq_content {b : Value F} (hrank : a.typeRank = b.typeRank) (ha : a.IsImmediate)
    (hb : b.IsImmediate) : a.cmpImmediate b = a.content.cmp b.content := by
  rcases a with _ | c | _ | _ | _ | _ | _ | _ | _ | _ | _ <;>
    rcases b with _ | c' | _ | _ | _ | _ | _ | _ | _ | _ | _ <;>
    first
    | rfl
    | exact absurd rfl (ha _ _)
    | exact absurd rfl (hb _ _)
    | (cases hrank; done)
    | (cases c <;> cases c' <;> rfl)

omit [TotalFloat F] in
theorem ctorOfRank_immediate (ha : a.IsImmediate) : ctorOfRank a.typeRank = 10 := by
  cases a <;> first | rfl | exact absurd rfl (ha _ _)

theorem cmp_self (v : Value F) : v.cmp v = .eq := by
  cases v <;> simp [Value.cmp, Value.bitIdentical]

theorem cmpImmediate_self (v : Value F) : v.cmpImmediate v = .eq := by
  cases v <;> first | rfl | exact Std.ReflOrd.compare_self

theorem cmpBytes_self (s : List UInt8) : cmpBytes s s = .eq :=
  compareLex_self fun _ _ => Std.ReflOrd.compare_self

theorem cmpAsKey_self (v : Value F) : v.cmpAsKey v = .eq := by
  induction v using Value.induction with
  | h v ih =>
    cases v with
    | heap x o =>
      rcases o with ⟨m, s⟩ | _ | _ | ⟨m, es⟩ | _ | _ | _ | _ | _ | _
      case string => cases m <;> simp [Value.cmpAsKey, cmpBytes_self]
      case array =>
        cases m with
        | false =>
          rw [Value.cmpAsKey, cmpAllAsKeys_eq]
          exact compareLex_self fun e he => ih x _ rfl e he
        | true => simp [Value.cmpAsKey]
      all_goals simp [Value.cmpAsKey]
    | _ => simp [Value.cmpAsKey, cmpImmediate_self]

theorem content_cmp_self (c : Content F) : c.cmp c = .eq := by
  cases c with
  | bytes s => exact cmpBytes_self s
  | values es => exact compareLex_self fun v _ => cmp_self v
  | entries es => exact compareLex_self fun e _ => by rw [cmpEntry, cmpAsKey_self, cmp_self]; rfl
  | word n => exact Std.ReflOrd.compare_self
  | number n => cases n <;> exact Std.ReflOrd.compare_self

/-- Two values of one memory: where they share an address they share the object. -/
def Coherent (a b : Value F) : Prop := ∀ x o o', a = .heap x o → b = .heap x o' → o = o'

theorem eq_of_bitIdentical {b : Value F} (hco : Coherent a b) (h : a.bitIdentical b) : a = b := by
  cases a <;> cases b <;> simp_all [Value.bitIdentical]
  exact hco _ _ _ rfl rfl

section

omit [TotalFloat F]

theorem isHeap_cases (a : Value F) : (∃ x o, a = .heap x o) ∨ a.IsImmediate := by
  cases a with
  | heap x o => exact .inl ⟨x, o, rfl⟩
  | _ => exact .inr nofun

theorem heap_cases (a b : Value F) : (∃ x o y o', a = .heap x o ∧ b = .heap y o') ∨
    a.IsImmediate ∨ b.IsImmediate := by
  rcases isHeap_cases a with ⟨x, o, rfl⟩ | ha
  · rcases isHeap_cases b with ⟨y, o', rfl⟩ | hb
    · exact .inl ⟨x, o, y, o', rfl, rfl⟩
    · exact .inr (.inr hb)
  · exact .inr (.inl ha)

theorem not_heap_heap {b : Value F} (h : a.IsImmediate ∨ b.IsImmediate) :
    ∀ x o y o', a = .heap x o → b = .heap y o' → False := by
  intro x o y o' ha hb
  rcases h with h | h
  · exact h x o ha
  · exact h y o' hb

end

theorem content_cmp_eq_of_ne {r s : Nat} (h : r ≠ s) (o o' : Ordering) :
    (compare r s).then o = (compare r s).then o' := by
  have hne : compare r s ≠ .eq := fun he => h (compare_eq_iff_eq.1 he)
  cases hc : compare r s <;> first | rfl | exact absurd hc hne

omit [TotalFloat F] in
theorem immediate_of_typeRank {b : Value F} (hrank : a.typeRank = b.typeRank) (ha : a.IsImmediate) :
    b.IsImmediate := by
  rintro x o rfl
  exact ctorOfRank_heap o ((congrArg ctorOfRank hrank.symm).trans (ctorOfRank_immediate ha))

omit [TotalFloat F] in
theorem both_immediate {b : Value F} (hrank : a.typeRank = b.typeRank) (h : a.IsImmediate ∨ b.IsImmediate) :
    a.IsImmediate ∧ b.IsImmediate := by
  rcases h with h | h
  · exact ⟨h, immediate_of_typeRank hrank h⟩
  · exact ⟨immediate_of_typeRank hrank.symm h, h⟩

theorem cmp_eq {b : Value F} (hco : Coherent a b) (hbox : a.typeRank = b.typeRank → a.boxKind = b.boxKind) :
    a.cmp b = (compare a.typeRank b.typeRank).then (a.content.cmp b.content) := by
  have hsame : a.bitIdentical b →
      .eq = (compare a.typeRank b.typeRank).then (a.content.cmp b.content) := by
    intro h
    rw [eq_of_bitIdentical hco h, content_cmp_self, Std.ReflOrd.compare_self]
    rfl
  rcases heap_cases a b with ⟨x, o, y, o', rfl, rfl⟩ | himm
  · rw [Value.cmp]
    split
    · next hxy => exact hsame (beq_iff_eq.2 hxy)
    · by_cases hrank : o.rank = o'.rank
      · rw [heap_cmp_eq_content hrank (hbox hrank)]
        rfl
      · exact content_cmp_eq_of_ne hrank _ _
  · have hcmp : a.cmp b = if a.bitIdentical b then .eq
        else (compare a.typeRank b.typeRank).then (a.cmpImmediate b) := by
      rw [Value.cmp]
      exact not_heap_heap himm
    rw [hcmp]
    split
    · next hbit => exact hsame hbit
    · by_cases hrank : a.typeRank = b.typeRank
      · obtain ⟨ha, hb⟩ := both_immediate hrank himm
        rw [cmpImmediate_eq_content hrank ha hb]
      · exact content_cmp_eq_of_ne hrank _ _

/-! ### Numbers -/

/-- No float stands for two integers. -/
def NoClash (P : Int ⊕ F → Prop) : Prop :=
  ∀ m n x, P (.inl m) → P (.inl n) → P (.inr x) → ofInt m = x → ofInt n = x → m = n

theorem compare_ofInt {m n : Int} (h : (ofInt m : F) = ofInt n → m = n) :
    compare m n = compare (ofInt m : F) (ofInt n) := by
  rcases lt_trichotomy m n with hlt | rfl | hgt
  · have hle : (ofInt m : F) ≤ ofInt n := ofInt_mono hlt.le
    rw [compare_lt_iff_lt.2 hlt, compare_lt_iff_lt.2 (lt_of_le_of_ne hle fun he => hlt.ne (h he))]
  · rw [Std.ReflOrd.compare_self, Std.ReflOrd.compare_self]
  · have hle : (ofInt n : F) ≤ ofInt m := ofInt_mono hgt.le
    rw [compare_gt_iff_gt.2 hgt, compare_gt_iff_gt.2 (lt_of_le_of_ne hle fun he => hgt.ne' (h he.symm))]

theorem cmpNumber_swap (a b : Int ⊕ F) : cmpNumber b a = (cmpNumber a b).swap := by
  rcases a with m | x <;> rcases b with n | y <;> exact compare_swap _ _

/-- Numbers are consistent unless two integers meet a float they both round to. -/
theorem consistent_cmpNumber {P : Int ⊕ F → Prop} (hP : NoClash P) {a b c : Int ⊕ F} (ha : P a)
    (hb : P b) (hc : P c) : Consistent (cmpNumber a b) (cmpNumber b c) (cmpNumber a c) := by
  -- two integers a float tells apart compare as it does; otherwise it lies on one side of both
  have key : ∀ m n x, P (.inl m) → P (.inl n) → P (.inr x) →
      compare m n = compare (ofInt m : F) (ofInt n) ∨ (m ≠ n ∧ (ofInt m : F) = ofInt n ∧ ofInt m ≠ x) := by
    intro m n x hm hn hx
    by_cases h : (ofInt m : F) = ofInt n → m = n
    · exact .inl (compare_ofInt h)
    · push Not at h
      exact .inr ⟨h.2, h.1, fun he => h.2 (hP m n x hm hn hx he (h.1 ▸ he))⟩
  rcases a with m | x <;> rcases b with n | y <;> rcases c with k | z <;> simp only [cmpNumber]
  · exact consistent_compare m n k
  · rcases key m n z ha hb hc with h | ⟨hne, he, hz⟩
    · rw [h]
      exact consistent_compare _ _ _
    · rw [he] at hz ⊢
      refine ⟨fun h => absurd (compare_eq_iff_eq.1 h) hne, fun h => absurd (compare_eq_iff_eq.1 h) hz,
        fun h => h.symm⟩
  · rcases key m k y ha hc hb with h | ⟨hne, he, hz⟩
    · rw [h]
      exact consistent_compare _ _ _
    · have hab : compare (ofInt m) y ≠ .eq := fun h => hz (compare_eq_iff_eq.1 h)
      rw [← he, compare_swap (ofInt m) y]
      cases hcmp : compare (ofInt m) y <;> first | exact absurd hcmp hab | simp [Consistent]
  · exact consistent_compare _ _ _
  · rcases key n k x hb hc ha with h | ⟨hne, he, hz⟩
    · rw [h]
      exact consistent_compare _ _ _
    · rw [← he]
      exact ⟨fun h => absurd (compare_eq_iff_eq.1 h).symm hz,
        fun h => absurd (compare_eq_iff_eq.1 h) hne, fun _ => rfl⟩
  · exact consistent_compare _ _ _
  · exact consistent_compare _ _ _
  · exact consistent_compare _ _ _

/-! ### Keys -/

/-- What two keys of one rank compare by. -/
inductive KeyContent (F : Type) where
  | bytes (data : List UInt8)
  | keys (es : List (Value F))
  | word (n : Nat)
  | int (n : Int)
  | value (v : Value F)

def Value.keyContent : Value F → KeyContent F
  | .bool b => .word b.toNat
  | .int n => .int n
  | .symbol n | .keyword n => .word n
  | .heap _ (.string false s) => .bytes s
  | .heap _ (.array false es) => .keys es
  | .heap x o => .value (.heap x o)
  | _ => .word 0

def KeyContent.cmp : KeyContent F → KeyContent F → Ordering
  | .bytes s, .bytes t => cmpBytes s t
  | .keys es, .keys fs => es.compareLex Value.cmpAsKey fs
  | .word m, .word n => compare m n
  | .int m, .int n => compare m n
  | .value v, .value w => v.cmp w
  | _, _ => .eq

omit [TotalFloat F] in
theorem keyContent_ctorIdx {b : Value F} (ha : a.isKey) (hb : b.isKey)
    (h : a.keyRank = b.keyRank) : a.keyContent.ctorIdx = b.keyContent.ctorIdx := by
  have key : ∀ v : Value F, v.isKey → v.keyContent.ctorIdx =
      match v.keyRank with | 2 => 3 | 4 => 0 | 7 => 1 | 8 => 4 | _ => 2 := by
    intro v hv
    rcases v with _ | _ | _ | _ | _ | _ | _ | _ | _ | _ | ⟨x, o⟩ <;> try first | rfl | cases hv
    rcases o with ⟨m, _⟩ | _ | _ | ⟨m, _⟩ | _ | _ | _ | _ | _ | _ <;> first | rfl | (cases m <;> rfl)
  rw [key a ha, key b hb, h]

omit [TotalFloat F] in
theorem heap_key_cases (x : Nat) (o : HeapObject F) : (∃ s, o = .string false s) ∨
    (∃ es, o = .array false es) ∨ ((∀ s, o ≠ .string false s) ∧ (∀ es, o ≠ .array false es) ∧
      (Value.heap x o).keyRank = 8 ∧ (Value.heap x o).keyContent = .value (.heap x o)) := by
  rcases o with ⟨m, s⟩ | _ | _ | ⟨m, es⟩ | _ | _ | _ | _ | _ | _
  case string => cases m <;> simp [Value.keyRank, Value.keyContent]
  case array => cases m <;> simp [Value.keyRank, Value.keyContent]
  all_goals exact .inr (.inr ⟨nofun, nofun, rfl, rfl⟩)

theorem cmpAsKey_heap_other {x y : Nat} {o o' : HeapObject F}
    (harray : ∀ es fs, o = .array false es → o' = .array false fs → False)
    (hstring : ∀ s t, o = .string false s → o' = .string false t → False) :
    (Value.heap x o).cmpAsKey (.heap y o') =
      (compare (Value.heap x o).keyRank (Value.heap y o').keyRank).then
        ((Value.heap x o).cmp (.heap y o')) := by
  rw [Value.cmpAsKey, Value.cmp]
  · exact harray
  · exact hstring

theorem cmpAsKey_heap_eq {x y : Nat} (o o' : HeapObject F) :
    (Value.heap x o).cmpAsKey (.heap y o') =
      (compare (Value.heap x o).keyRank (Value.heap y o').keyRank).then
        ((Value.heap x o).keyContent.cmp (Value.heap y o').keyContent) := by
  have hother := @cmpAsKey_heap_other F _ x y o o'
  rcases heap_key_cases x o with ⟨s, rfl⟩ | ⟨es, rfl⟩ | ⟨hs, hes, hr, hc⟩ <;>
    rcases heap_key_cases y o' with ⟨t, rfl⟩ | ⟨fs, rfl⟩ | ⟨ht, hfs, hr', hc'⟩
  · rw [Value.cmpAsKey]
    rfl
  · rw [hother (by simp) (by simp)]
    rfl
  · rw [hother (by simp) fun s t _ h => ht t h, hr']
    rfl
  · rw [hother (by simp) (by simp)]
    rfl
  · rw [Value.cmpAsKey, cmpAllAsKeys_eq]
    rfl
  · rw [hother (fun es fs _ h => hfs fs h) (by simp), hr']
    rfl
  · rw [hother (by simp) fun s t h _ => hs s h, hr]
    rfl
  · rw [hother (fun es fs h _ => hes es h) (by simp), hr]
    rfl
  · rw [hother (fun es fs h _ => hes es h) fun s t h _ => hs s h, hc, hc']
    rfl

omit [TotalFloat F] in
theorem immediate_of_keyRank {b : Value F} (ha : a.isKey) (himm : a.IsImmediate)
    (h : a.keyRank = b.keyRank) : b.IsImmediate := by
  rintro x o rfl
  rcases heap_key_cases x o with ⟨s, rfl⟩ | ⟨es, rfl⟩ | ⟨-, -, hr, -⟩
  case inr.inr =>
    rw [hr] at h
    cases a <;> first | exact himm _ _ rfl | simp [Value.keyRank, Value.isKey] at h ha
  all_goals cases a <;> first | exact himm _ _ rfl | simp [Value.keyRank] at h

omit [TotalFloat F] in
theorem both_immediate_of_keyRank {b : Value F} (ha : a.isKey) (hb : b.isKey)
    (hrank : a.keyRank = b.keyRank) (h : a.IsImmediate ∨ b.IsImmediate) : a.IsImmediate ∧ b.IsImmediate := by
  rcases h with h | h
  · exact ⟨h, immediate_of_keyRank ha h hrank⟩
  · exact ⟨immediate_of_keyRank hb h hrank.symm, h⟩

theorem keyContent_immediate {b : Value F} (ha : a.isKey) (hb : b.isKey) (hia : a.IsImmediate)
    (hib : b.IsImmediate) (hrank : a.keyRank = b.keyRank) :
    a.typeRank = b.typeRank ∧ a.keyContent.cmp b.keyContent = a.content.cmp b.content := by
  cases a <;> cases b <;>
    first
    | exact ⟨rfl, rfl⟩
    | exact absurd rfl (hia _ _)
    | exact absurd rfl (hib _ _)
    | (cases ha; done)
    | (cases hb; done)
    | cases hrank

theorem cmpAsKey_eq {b : Value F} (ha : a.isKey) (hb : b.isKey) :
    a.cmpAsKey b = (compare a.keyRank b.keyRank).then (a.keyContent.cmp b.keyContent) := by
  rcases heap_cases a b with ⟨x, o, y, o', rfl, rfl⟩ | himm
  · exact cmpAsKey_heap_eq o o'
  · have hcmp : a.cmpAsKey b = (compare a.keyRank b.keyRank).then (a.cmpImmediate b) := by
      rw [Value.cmpAsKey]
      · exact fun x es y fs h h' => not_heap_heap himm _ _ _ _ h h'
      · exact fun x s y t h h' => not_heap_heap himm _ _ _ _ h h'
      · exact not_heap_heap himm
    rw [hcmp]
    by_cases hrank : a.keyRank = b.keyRank
    · obtain ⟨hia, hib⟩ := both_immediate_of_keyRank ha hb hrank himm
      obtain ⟨htype, hc⟩ := keyContent_immediate ha hb hia hib hrank
      rw [hc, cmpImmediate_eq_content htype hia hib]
    · exact content_cmp_eq_of_ne hrank _ _

end

end Elle.Repr

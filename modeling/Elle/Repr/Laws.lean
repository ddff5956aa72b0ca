import Elle.Repr.Order

/-!
# Where the order of values is total

The laws of `Value::cmp` and of `TableKey::cmp`, by induction over the values, on the values of one
memory. They need that no float stands for two integers, since mixed numbers compare after a
conversion that rounds, and that boxes do not meet capture cells, with which they share a rank.
-/

namespace Elle.Repr

open Cmp TotalFloat

variable {F : Type}

section

variable [TotalFloat F]

/-- A part of a value in a memory, with its numbers and its kinds of boxes from given ones. Struct
keys are what `from_value` makes. -/
structure InMemory (mem : Nat → Option (HeapObject F)) (P : Int ⊕ F → Prop) (Q : Bool → Prop)
    (u : Value F) : Prop where
  object : ∀ x o, u = .heap x o → mem x = some o
  int : ∀ n, u = .int n → P (.inl n)
  float : ∀ x, u = .float x → P (.inr x)
  box : ∀ c, u.boxKind = some c → Q c
  keys : ∀ x m es, u = .heap x (.struct m es) → ∀ e ∈ es, e.1.isKey

variable {mem : Nat → Option (HeapObject F)} {P : Int ⊕ F → Prop} {Q : Bool → Prop}
variable {a : Value F}

section

omit [TotalFloat F]

theorem InMemory.coherent {b : Value F} (ha : InMemory mem P Q a) (hb : InMemory mem P Q b) :
    Coherent a b := by
  intro x o o' h h'
  exact Option.some.inj ((ha.object x o h).symm.trans (hb.object x o' h'))

theorem typeRank_eq_box : a.typeRank = 17 ↔ a.boxKind ≠ none := by
  rcases a with _ | _ | _ | _ | _ | _ | _ | _ | _ | _ | ⟨x, o⟩
  case heap =>
    rcases o with ⟨m, _⟩ | ⟨m, _⟩ | _ | ⟨m, _⟩ | ⟨m, _⟩ | ⟨m, _⟩ | _ | ⟨m, _⟩ | ⟨m, _⟩ | m <;>
      first
      | (simp [Value.typeRank, HeapObject.rank, Value.boxKind]; done)
      | (cases m <;> simp [Value.typeRank, HeapObject.rank, Value.boxKind])
  all_goals simp [Value.typeRank, Value.boxKind]

theorem InMemory.boxKind_eq (hQ : ¬ (Q false ∧ Q true)) {b : Value F} (ha : InMemory mem P Q a)
    (hb : InMemory mem P Q b) (hrank : a.typeRank = b.typeRank) : a.boxKind = b.boxKind := by
  have hiff : a.boxKind ≠ none ↔ b.boxKind ≠ none := by
    rw [← typeRank_eq_box, ← typeRank_eq_box, hrank]
  cases hca : a.boxKind with
  | none =>
    cases hcb : b.boxKind with
    | none => rfl
    | some c' => exact absurd hca (hiff.2 (by simp [hcb]))
  | some c =>
    cases hcb : b.boxKind with
    | none => exact absurd hcb (hiff.1 (by simp [hca]))
    | some c' =>
      have hc := ha.box c hca
      have hc' := hb.box c' hcb
      cases c <;> cases c'
      · rfl
      · exact absurd ⟨hc, hc'⟩ hQ
      · exact absurd ⟨hc', hc⟩ hQ
      · rfl

end

theorem InMemory.cmp_eq (hQ : ¬ (Q false ∧ Q true)) {b : Value F} (ha : InMemory mem P Q a)
    (hb : InMemory mem P Q b) : a.cmp b = (compare a.typeRank b.typeRank).then (a.content.cmp b.content) :=
  Repr.cmp_eq (ha.coherent hb) (ha.boxKind_eq hQ hb)

def Content.kind : Content F → Nat
  | .bytes _ => 0
  | .values _ => 1
  | .entries _ => 2
  | .word _ => 3
  | .number _ => 4

def kindOfRank : Nat → Nat
  | 2 => 4
  | 7 | 11 | 12 | 13 => 0
  | 8 | 9 | 10 | 17 | 28 | 29 => 1
  | 14 | 15 => 2
  | _ => 3

omit [TotalFloat F] in
theorem kind_content (a : Value F) : a.content.kind = kindOfRank a.typeRank := by
  rcases a with _ | _ | _ | _ | _ | _ | _ | _ | _ | _ | ⟨x, o⟩
  case heap =>
    rcases o with ⟨m, _⟩ | ⟨m, _⟩ | _ | ⟨m, _⟩ | ⟨m, _⟩ | ⟨m, _⟩ | _ | ⟨m, _⟩ | ⟨m, _⟩ | m <;>
      first | rfl | (cases m <;> rfl)
  all_goals rfl

/-- The content of values from a memory, with the numbers given. -/
inductive Content.Within (D : Value F → Prop) (P : Int ⊕ F → Prop) : Content F → Prop where
  | bytes (s : List UInt8) : Within D P (.bytes s)
  | values {es : List (Value F)} : (∀ e ∈ es, e.All D) → Within D P (.values es)
  | entries {es : List (Value F × Value F)} :
    (∀ e ∈ es, e.1.All D ∧ e.2.All D ∧ e.1.isKey) → Within D P (.entries es)
  | word (n : Nat) : Within D P (.word n)
  | number {n : Int ⊕ F} : P n → Within D P (.number n)

omit [TotalFloat F] in
theorem content_within (h : a.All (InMemory mem P Q)) : a.content.Within (InMemory mem P Q) P := by
  rcases a with _ | _ | n | y | _ | _ | _ | _ | _ | _ | ⟨x, o⟩
  case int => exact .number (h.self.int n rfl)
  case float => exact .number (h.self.float y rfl)
  case heap =>
    cases o with
    | string m s => exact .bytes s
    | bytes m s => exact .bytes s
    | pair a d | array m es | set m es | box c v => exact .values fun e he => h.child he
    | struct m es =>
      refine .entries fun e he => ⟨h.child ?_, h.child ?_, h.self.keys x m es rfl e he⟩ <;>
        exact List.mem_flatMap.2 ⟨e, he, by simp⟩
    | handle k i => exact .word i
    | ffi k d => exact .word x
    | identity k => exact .word x
  all_goals exact .word _

/-- The laws of the two comparisons for one value, against all others of the memory. -/
def Lawful (D : Value F → Prop) (a : Value F) : Prop :=
  ∀ b c, b.All D → c.All D →
    Consistent (a.cmp b) (b.cmp c) (a.cmp c) ∧
    (a.isKey → b.isKey → c.isKey →
      Consistent (a.cmpAsKey b) (b.cmpAsKey c) (a.cmpAsKey c))

theorem consistent_cmpBytes (s t u : List UInt8) :
    Consistent (cmpBytes s t) (cmpBytes t u) (cmpBytes s u) :=
  consistent_compareLex fun a _ b _ c _ => consistent_compare a.toNat b.toNat c.toNat

theorem consistent_content {D : Value F → Prop} (hP : NoClash P) {a b c : Content F}
    (ha : a.Within D P) (hb : b.Within D P) (hc : c.Within D P) (hab : a.kind = b.kind)
    (hbc : b.kind = c.kind)
    (hvalues : ∀ es, a = .values es → ∀ e ∈ es, Lawful D e)
    (hentries : ∀ es, a = .entries es → ∀ e ∈ es, Lawful D e.1 ∧ Lawful D e.2) :
    Consistent (a.cmp b) (b.cmp c) (a.cmp c) := by
  cases ha with
  | bytes s =>
    cases hb <;> cases hab
    cases hc <;> cases hbc
    exact consistent_cmpBytes _ _ _
  | values hes =>
    cases hb <;> cases hab
    cases hc <;> cases hbc
    next es fs hfs gs hgs =>
    exact consistent_compareLex fun e he f hf g hg =>
      (hvalues _ rfl e he f g (hfs f hf) (hgs g hg)).1
  | entries hes =>
    cases hb <;> cases hab
    cases hc <;> cases hbc
    next fs hfs gs hgs =>
    refine consistent_compareLex fun e he f hf g hg => ?_
    obtain ⟨hk, hv⟩ := hentries _ rfl e he
    exact ((hk f.1 g.1 (hfs f hf).1 (hgs g hg).1).2 (hes e he).2.2 (hfs f hf).2.2
      (hgs g hg).2.2).then fun _ _ => (hv f.2 g.2 (hfs f hf).2.1 (hgs g hg).2.1).1
  | word m =>
    cases hb <;> cases hab
    cases hc <;> cases hbc
    exact consistent_compare m _ _
  | number hm =>
    cases hb <;> cases hab
    cases hc <;> cases hbc
    exact consistent_cmpNumber hP hm (by assumption) (by assumption)

omit [TotalFloat F] in
theorem forall_content {D R : Value F → Prop} (ha : a.All D)
    (ih : ∀ x o, a = .heap x o → ∀ c ∈ o.children, c.All D → R c) :
    (∀ es, a.content = .values es → ∀ e ∈ es, R e) ∧
    ∀ es, a.content = .entries es → ∀ e ∈ es, R e.1 ∧ R e.2 := by
  rcases a with _ | _ | _ | _ | _ | _ | _ | _ | _ | _ | ⟨x, o⟩
  case heap =>
    have hchild : ∀ c ∈ o.children, R c := fun c hc => ih x o rfl c hc (ha.child hc)
    refine ⟨fun es h e he => hchild e ?_, fun es h e he => ⟨hchild _ ?_, hchild _ ?_⟩⟩
    · cases o <;> cases h <;> exact he
    all_goals
      cases o <;> cases h
      exact List.mem_flatMap.2 ⟨e, he, by simp⟩
  all_goals exact ⟨nofun, nofun⟩

omit [TotalFloat F] in
theorem keyContent_cases (ha : a.isKey) :
    (∃ s, a.keyContent = .bytes s) ∨
    (∃ x es, a = .heap x (.array false es) ∧ a.keyContent = .keys es ∧ ∀ e ∈ es, e.isKey) ∨
    (∃ n, a.keyContent = .word n) ∨ (∃ n, a.keyContent = .int n) ∨ a.keyContent = .value a := by
  rcases a with _ | _ | n | _ | _ | _ | _ | _ | _ | _ | ⟨x, o⟩
  case int => exact .inr (.inr (.inr (.inl ⟨n, rfl⟩)))
  case heap =>
    rcases heap_key_cases x o with ⟨s, rfl⟩ | ⟨es, rfl⟩ | ⟨-, -, -, h⟩
    · exact .inl ⟨s, rfl⟩
    · exact .inr (.inl ⟨x, es, rfl, rfl, areKeys_iff.1 ha⟩)
    · exact .inr (.inr (.inr (.inr h)))
  all_goals exact .inr (.inr (.inl ⟨_, rfl⟩))

theorem lawful (hP : NoClash P) (hQ : ¬ (Q false ∧ Q true)) (ha : a.All (InMemory mem P Q)) :
    Lawful (InMemory mem P Q) a := by
  induction a using Value.induction with
  | h a ih =>
    intro b c hb hc
    have hvalue : Consistent (a.cmp b) (b.cmp c) (a.cmp c) := by
      rw [ha.self.cmp_eq hQ hb.self, hb.self.cmp_eq hQ hc.self, ha.self.cmp_eq hQ hc.self]
      refine (consistent_compare _ _ _).then fun hab hbc => ?_
      refine consistent_content hP (content_within ha) (content_within hb) (content_within hc) ?_ ?_
        (forall_content ha ih).1 (forall_content ha ih).2
      · rw [kind_content, kind_content, compare_eq_iff_eq.1 hab]
      · rw [kind_content, kind_content, compare_eq_iff_eq.1 hbc]
    refine ⟨hvalue, fun hka hkb hkc => ?_⟩
    rw [cmpAsKey_eq hka hkb, cmpAsKey_eq hkb hkc, cmpAsKey_eq hka hkc]
    refine (consistent_compare _ _ _).then fun hab hbc => ?_
    have hab := keyContent_ctorIdx hka hkb (compare_eq_iff_eq.1 hab)
    have hbc := keyContent_ctorIdx hkb hkc (compare_eq_iff_eq.1 hbc)
    rcases keyContent_cases hka with ⟨s, h⟩ | ⟨x, es, rfl, h, hes⟩ | ⟨n, h⟩ | ⟨n, h⟩ | h <;>
      rcases keyContent_cases hkb with ⟨s', h'⟩ | ⟨y, fs, rfl, h', hfs⟩ | ⟨n', h'⟩ | ⟨n', h'⟩ | h' <;>
      rw [h, h'] at hab <;> first | (exfalso; cases hab; done) | skip
    all_goals
      rcases keyContent_cases hkc with ⟨s'', h''⟩ | ⟨z, gs, rfl, h'', hgs⟩ | ⟨n'', h''⟩ | ⟨n'', h''⟩ |
        h'' <;> rw [h', h''] at hbc <;> first | (exfalso; cases hbc; done) | rw [h, h', h'']
    · exact consistent_cmpBytes s s' s''
    · exact consistent_compareLex fun e he f hf g hg =>
        (ih x _ rfl e he (ha.child he) f g (hb.child hf) (hc.child hg)).2 (hes e he) (hfs f hf) (hgs g hg)
    · exact consistent_compare n n' n''
    · exact consistent_compare n n' n''
    · exact hvalue

/-- The two comparisons turn around with their arguments. -/
def Oriented (D : Value F → Prop) (a : Value F) : Prop :=
  ∀ b, b.All D → b.cmp a = (a.cmp b).swap ∧
    (a.isKey → b.isKey → b.cmpAsKey a = (a.cmpAsKey b).swap)

theorem cmpBytes_swap (s t : List UInt8) : cmpBytes t s = (cmpBytes s t).swap :=
  compareLex_swap fun a _ b _ => compare_swap a.toNat b.toNat

theorem content_swap {D : Value F → Prop} {a b : Content F} (ha : a.Within D P) (hb : b.Within D P)
    (hvalues : ∀ es, a = .values es → ∀ e ∈ es, Oriented D e)
    (hentries : ∀ es, a = .entries es → ∀ e ∈ es, Oriented D e.1 ∧ Oriented D e.2) :
    b.cmp a = (a.cmp b).swap := by
  cases ha <;> cases hb <;> first | rfl | skip
  case bytes.bytes s t => exact cmpBytes_swap s t
  case values.values hfs => exact compareLex_swap fun e he f hf => (hvalues _ rfl e he f (hfs f hf)).1
  case entries.entries hes _ hfs =>
    refine compareLex_swap fun e he f hf => ?_
    obtain ⟨hk, hv⟩ := hentries _ rfl e he
    exact swap_then ((hk f.1 (hfs f hf).1).2 (hes e he).2.2 (hfs f hf).2.2) (hv f.2 (hfs f hf).2.1).1
  case word.word m n => exact compare_swap m n
  case number.number => exact cmpNumber_swap _ _

theorem oriented (hQ : ¬ (Q false ∧ Q true)) (ha : a.All (InMemory mem P Q)) :
    Oriented (InMemory mem P Q) a := by
  induction a using Value.induction with
  | h a ih =>
    intro b hb
    have hvalue : b.cmp a = (a.cmp b).swap := by
      rw [ha.self.cmp_eq hQ hb.self, hb.self.cmp_eq hQ ha.self]
      obtain ⟨hvalues, hentries⟩ := forall_content ha ih
      exact swap_then (compare_swap _ _)
        (content_swap (content_within ha) (content_within hb) hvalues hentries)
    refine ⟨hvalue, fun hka hkb => ?_⟩
    rw [cmpAsKey_eq hka hkb, cmpAsKey_eq hkb hka]
    refine swap_then (compare_swap _ _) ?_
    rcases keyContent_cases hka with ⟨s, h⟩ | ⟨x, es, rfl, h, hes⟩ | ⟨n, h⟩ | ⟨n, h⟩ | h <;>
      rcases keyContent_cases hkb with ⟨s', h'⟩ | ⟨y, fs, rfl, h', hfs⟩ | ⟨n', h'⟩ | ⟨n', h'⟩ | h' <;>
      rw [h, h'] <;> first | rfl | skip
    · exact cmpBytes_swap s s'
    · exact compareLex_swap fun e he f hf =>
        (ih x _ rfl e he (ha.child he) f (hb.child hf)).2 (hes e he) (hfs f hf)
    · exact compare_swap n n'
    · exact compare_swap n n'
    · exact hvalue

/-- What a comparison owes to the sorted containers that use it. -/
def OrderLaws (cmp : Value F → Value F → Ordering) (a b c : Value F) : Prop :=
  cmp b a = (cmp a b).swap ∧
  ((cmp a b).isLE → (cmp b c).isLE → (cmp a c).isLE) ∧
  (cmp a b = .eq → cmp b c = .eq → cmp a c = .eq)

/-- A box, a capture cell and a box in the order of their addresses, but not of their contents. -/
def boxMemory : Nat → Option (HeapObject F)
  | 0 => some (.box false (.bool true))
  | 1 => some (.box true .nil)
  | 2 => some (.box false (.bool false))
  | _ => none

omit [TotalFloat F] in
theorem inMemory_immediate {v : Value F} (h : v.IsImmediate) (hint : ∀ n, v = .int n → P (.inl n))
    (hfloat : ∀ x, v = .float x → P (.inr x)) : v.All (InMemory mem P Q) := by
  refine Value.all_immediate h ⟨fun x o hv => absurd hv (h x o), hint, hfloat, fun c hc => ?_,
    fun x m es hv => absurd hv (h x _)⟩
  cases v with
  | heap x o => exact absurd rfl (h x o)
  | _ => cases hc

omit [TotalFloat F] in
theorem inMemory_box {x : Nat} {c : Bool} {v : Value F} (hx : mem x = some (.box c v)) (hc : Q c)
    (hv : v.All (InMemory mem P Q)) : (Value.heap x (.box c v)).All (InMemory mem P Q) := by
  refine Value.all_heap.2 ⟨⟨?_, nofun, nofun, ?_, nofun⟩, fun u hu => List.mem_singleton.1 hu ▸ hv⟩
  · rintro y o h
    cases h
    exact hx
  · rintro d h
    cases h
    exact hc

/-- The order of values is total exactly where no float stands for two integers and boxes do not
meet capture cells: on the values of any memory with numbers and boxes from given ones. -/
theorem cmp_total_iff (P : Int ⊕ F → Prop) (Q : Bool → Prop) :
    (∀ (mem : Nat → Option (HeapObject F)) (a b c : Value F), a.All (InMemory mem P Q) →
      b.All (InMemory mem P Q) → c.All (InMemory mem P Q) → OrderLaws Value.cmp a b c) ↔
    NoClash P ∧ ¬ (Q false ∧ Q true) := by
  constructor
  · intro h
    refine ⟨fun m n x hm hn hx hmx hnx => ?_, fun hboth => ?_⟩
    · have hlaw := (h (fun _ => none) (.int m) (.float x) (.int n)
        (inMemory_immediate (by rintro _ _ ⟨⟩) (by simp [hm]) (by simp))
        (inMemory_immediate (by rintro _ _ ⟨⟩) (by simp) (by simp [hx]))
        (inMemory_immediate (by rintro _ _ ⟨⟩) (by simp [hn]) (by simp))).2.2
      have hmn := hlaw (by simp [Value.cmp, Value.bitIdentical, Value.typeRank, Value.cmpImmediate, hmx])
        (by simp [Value.cmp, Value.bitIdentical, Value.typeRank, Value.cmpImmediate, hnx])
      simpa [Value.cmp, Value.bitIdentical, Value.typeRank, Value.cmpImmediate] using hmn
    · obtain ⟨hQ, hQ'⟩ := hboth
      -- the addresses order the cell between the boxes, the contents order the boxes the other way
      have hbool : ∀ b, (Value.bool b : Value F).All (InMemory boxMemory P Q) := fun b =>
        inMemory_immediate (by rintro _ _ ⟨⟩) (by simp) (by simp)
      have hlaw := (h boxMemory (.heap 0 (.box false (.bool true))) (.heap 1 (.box true .nil))
        (.heap 2 (.box false (.bool false))) (inMemory_box rfl hQ (hbool true))
        (inMemory_box rfl hQ' (inMemory_immediate (by rintro _ _ ⟨⟩) (by simp) (by simp)))
        (inMemory_box rfl hQ (hbool false))).2.1
      have hac := hlaw (by simp [Value.cmp, HeapObject.cmp, HeapObject.rank]; rfl)
        (by simp [Value.cmp, HeapObject.cmp, HeapObject.rank]; rfl)
      simp [Value.cmp, HeapObject.cmp, HeapObject.rank, Value.bitIdentical, Value.typeRank,
        Value.cmpImmediate] at hac
      exact absurd hac (by decide)
  · rintro ⟨hP, hQ⟩ mem a b c ha hb hc
    have hlaw := (lawful hP hQ ha b c hb hc).1
    exact ⟨(oriented hQ ha b hb).1, hlaw.isLE, fun hab hbc => (hlaw.1 hab).trans hbc⟩

end

/-- Whole numbers as floats, even ones only from 2^53 on. -/
instance : TotalFloat Int where
  toLinearOrder := Int.instLinearOrder
  ieeeEq := (· == ·)
  ofInt n := if n ≤ 2 ^ 53 then n else n / 2 * 2
  ofInt_mono := by
    intro m n h
    dsimp only
    split <;> split <;> omega
  ofInt_lossy := by decide

/-- Two integers and the float both round to: each integer equals the float, but not the other. -/
theorem cmp_not_transitive :
    (Value.int (2 ^ 53) : Value Int).cmp (.float (2 ^ 53)) = .eq ∧
      (Value.float (2 ^ 53) : Value Int).cmp (.int (2 ^ 53 + 1)) = .eq ∧
      (Value.int (2 ^ 53) : Value Int).cmp (.int (2 ^ 53 + 1)) = .lt := by
  decide +kernel

end Elle.Repr

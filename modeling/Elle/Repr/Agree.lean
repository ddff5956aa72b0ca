import Elle.Repr.Key

/-!
# Equality, hash and order

Equality looks through the difference between a mutable collection and an immutable one, the tag
written to the hasher and the rank do not; immutable sets are equal by content and hashed by address,
FFI descriptors are equal by content and ordered by address. `alike` says that two equal values
differ in none of these ways, at any depth.
-/

namespace Elle.Repr

open Cmp TotalFloat List

variable {F : Type}

attribute [local simp] HeapObject.children

mutual

/-- Walked in parallel, the values have objects of one variant at each place, and share their
immutable sets and FFI descriptors. -/
def Value.alike : Value F → Value F → Bool
  | .heap x o, .heap y o' => x == y || (o.tag == o'.tag && o.alike o')
  | _, _ => true

def HeapObject.alike : HeapObject F → HeapObject F → Bool
  | .pair a d, .pair a' d' => a.alike a' && d.alike d'
  | .array _ es, .array _ fs => Value.alikeAll es fs
  | .struct _ es, .struct _ fs => Value.alikeEntries es fs
  | .set m es, .set _ fs => m && Value.alikeAll es fs
  | .box _ v, .box _ v' => v.alike v'
  | .ffi _ _, .ffi _ _ => false
  | _, _ => true

def Value.alikeAll : List (Value F) → List (Value F) → Bool
  | [], [] => true
  | a :: as, b :: bs => a.alike b && Value.alikeAll as bs
  | _, _ => false

def Value.alikeEntries : List (Value F × Value F) → List (Value F × Value F) → Bool
  | [], [] => true
  | (k, v) :: es, (k', v') :: fs => k.alike k' && v.alike v' && Value.alikeEntries es fs
  | _, _ => false

end

theorem alikeAll_iff {es fs : List (Value F)} :
    Value.alikeAll es fs ↔ List.Forall₂ (fun e f => e.alike f) es fs := by
  induction es generalizing fs with
  | nil => cases fs <;> simp [Value.alikeAll]
  | cons e es ih =>
    cases fs with
    | nil => simp [Value.alikeAll]
    | cons f fs => rw [Value.alikeAll, Bool.and_eq_true, forall₂_cons, ih]

theorem alikeEntries_iff {es fs : List (Value F × Value F)} :
    Value.alikeEntries es fs ↔
      List.Forall₂ (fun e f => e.1.alike f.1 ∧ e.2.alike f.2) es fs := by
  induction es generalizing fs with
  | nil => cases fs <;> simp [Value.alikeEntries]
  | cons e es ih =>
    cases fs with
    | nil => simp [Value.alikeEntries]
    | cons f fs =>
      rw [Value.alikeEntries, Bool.and_eq_true, Bool.and_eq_true, forall₂_cons, ih]

theorem alike_immediate {a b : Value F} (h : a.IsImmediate ∨ b.IsImmediate) :
    a.alike b := by
  rw [Value.alike]
  exact not_heap_heap h

theorem alike_self (a : Value F) : a.alike a := by
  rcases isHeap_cases a with ⟨x, o, rfl⟩ | ha
  · simp [Value.alike]
  · exact alike_immediate (.inl ha)

/-! ### Sequences of writes -/

/-- Two sequences of one length that are the same exactly when `p` holds. -/
def SameWhen {α : Type} (p : Prop) (u v : List α) : Prop := u.length = v.length ∧ (u = v ↔ p)

namespace SameWhen

variable {α β : Type} {p q : Prop} {u v u' v' : List α}

theorem refl (hp : p) (u : List α) : SameWhen p u u := ⟨rfl, iff_of_true rfl hp⟩

theorem append (h : SameWhen p u v) (h' : SameWhen q u' v') : SameWhen (p ∧ q) (u ++ u') (v ++ v') := by
  refine ⟨by rw [length_append, length_append, h.1, h'.1], ?_⟩
  rw [← h.2, ← h'.2]
  exact ⟨fun e => append_inj e h.1, fun e => by rw [e.1, e.2]⟩

theorem cons (w : α) (h : SameWhen p u v) : SameWhen p (w :: u) (w :: v) := by
  refine ⟨congrArg (· + 1) h.1, ?_⟩
  rw [cons_inj_right, h.2]

theorem flatMap {f : β → List α} {R : β → β → Prop} {es fs : List β}
    (h : List.Forall₂ (fun e e' => SameWhen (R e e') (f e) (f e')) es fs) :
    SameWhen (List.Forall₂ R es fs) (es.flatMap f) (fs.flatMap f) := by
  induction h with
  | nil => exact refl .nil []
  | cons hd _ ih =>
    rw [forall₂_cons, flatMap_cons, flatMap_cons]
    exact hd.append ih

end SameWhen

section

variable [TotalFloat F]

theorem hashAll_eq (es : List (Value F)) : Value.hashAll es = es.flatMap Value.hash := by
  induction es with
  | nil => rfl
  | cons e es ih => rw [Value.hashAll, ih, flatMap_cons]

theorem hashAllAsKeys_eq (es : List (Value F)) : Value.hashAllAsKeys es = es.flatMap Value.hashAsKey := by
  induction es with
  | nil => rfl
  | cons e es ih => rw [Value.hashAllAsKeys, ih, flatMap_cons]

theorem hashEntries_eq (es : List (Value F × Value F)) :
    Value.hashEntries es = es.flatMap fun e => e.1.hashAsKey ++ e.2.hash := by
  induction es with
  | nil => rfl
  | cons e es ih => rw [Value.hashEntries, ih, flatMap_cons, append_assoc]

/-! ### Equal values -/

/-- What holds of two equal values: they compare equal if they are alike, and if they compare equal,
they are hashed the same exactly when they are alike. -/
structure Agrees (a b : Value F) : Prop where
  cmp : a.alike b → a.cmp b = .eq
  hash : a.cmp b = .eq → SameWhen (a.alike b) a.hash b.hash

theorem agrees_self (a : Value F) : Agrees a a :=
  ⟨fun _ => cmp_self a, fun _ => .refl (alike_self a) _⟩

/-- What holds of two equal keys. -/
structure KeysAgree (k l : Value F) : Prop where
  cmp : k.cmpAsKey l = .eq
  hash : SameWhen (k.alike l) k.hashAsKey l.hashAsKey

theorem cmpAll_of_alike {es fs : List (Value F)} (h : List.Forall₂ Agrees es fs)
    (halike : Value.alikeAll es fs) : Value.cmpAll es fs = .eq := by
  rw [alikeAll_iff] at halike
  rw [cmpAll_eq, compareLex_eq_iff]
  exact .mp (fun _ _ h ha => h.cmp ha) h halike

theorem hashAll_same {es fs : List (Value F)} (h : List.Forall₂ Agrees es fs)
    (hcmp : Value.cmpAll es fs = .eq) :
    SameWhen (Value.alikeAll es fs) (Value.hashAll es) (Value.hashAll fs) := by
  rw [cmpAll_eq, compareLex_eq_iff] at hcmp
  rw [alikeAll_iff, hashAll_eq, hashAll_eq]
  exact .flatMap (.mp (fun _ _ h hc => h.hash hc) h hcmp)

theorem cmpEntries_of_alike {es fs : List (Value F × Value F)}
    (h : List.Forall₂ (fun e f => KeysAgree e.1 f.1 ∧ Agrees e.2 f.2) es fs)
    (halike : Value.alikeEntries es fs) : Value.cmpEntries es fs = .eq := by
  rw [alikeEntries_iff] at halike
  rw [cmpEntries_eq, compareLex_eq_iff]
  refine .mp (fun e f h ha => ?_) h halike
  rw [cmpEntry, h.1.cmp, h.2.cmp ha.2]
  rfl

theorem hashEntries_same {es fs : List (Value F × Value F)}
    (h : List.Forall₂ (fun e f => KeysAgree e.1 f.1 ∧ Agrees e.2 f.2) es fs)
    (hcmp : Value.cmpEntries es fs = .eq) :
    SameWhen (Value.alikeEntries es fs) (Value.hashEntries es) (Value.hashEntries fs) := by
  rw [cmpEntries_eq, compareLex_eq_iff] at hcmp
  rw [alikeEntries_iff, hashEntries_eq, hashEntries_eq]
  refine .flatMap (.mp (fun e f h hc => ?_) h hcmp)
  exact h.1.hash.append (h.2.hash (Ordering.then_eq_eq.1 hc).2)

theorem rank_eq_iff {o o' : HeapObject F} {x y : Nat} (h : o.eqWith o' .identity x y) :
    o.rank = o'.rank ↔ o.tag = o'.tag := by
  rcases o with ⟨m, _⟩ | ⟨m, _⟩ | _ | ⟨m, _⟩ | ⟨m, _⟩ | ⟨m, _⟩ | ⟨m, _⟩ | ⟨m, _⟩ | ⟨m, _⟩ | m <;>
    rcases o' with ⟨n, _⟩ | ⟨n, _⟩ | _ | ⟨n, _⟩ | ⟨n, _⟩ | ⟨n, _⟩ | ⟨n, _⟩ | ⟨n, _⟩ | ⟨n, _⟩ | n <;>
    first
    | (exfalso; cases ctorIdx_of_eqWith h; done)
    | exact iff_of_true rfl rfl
    | (cases m <;> cases n <;> simp [HeapObject.rank, HeapObject.tag, HeapObject.eqWith] at h ⊢)

theorem object_agrees {o o' : HeapObject F} {x y : Nat} (hxy : x ≠ y)
    (heq : o.eqWith o' .identity x y) (htag : o.tag = o'.tag)
    (hvalues : ∀ c ∈ o.children, ∀ c' ∈ o'.children, c.eqWith c' .identity → Agrees c c')
    (hkeys : ∀ m es m' es', o = .struct m es → o' = .struct m' es' → ∀ e ∈ es, ∀ e' ∈ es',
      e.1.eqAsKey e'.1 → KeysAgree e.1 e'.1)
    (hco : ∀ a b : Value F, a ∈ o.children → b ∈ o'.children → Coherent a b) :
    (o.alike o' → o.cmp o' x y = .eq) ∧
      (o.cmp o' x y = .eq → SameWhen (o.alike o') (o.hash x) (o'.hash y)) := by
  have hall : ∀ es fs, es = o.children → fs = o'.children → Value.eqAll es fs .identity →
      List.Forall₂ Agrees es fs := by
    rintro es fs rfl rfl h
    exact Pointwise.imp_mem hvalues (eqAll_iff.1 h)
  rcases o with ⟨m, s⟩ | ⟨m, s⟩ | ⟨a, d⟩ | ⟨m, es⟩ | ⟨m, es⟩ | ⟨m, es⟩ | ⟨m, v⟩ | ⟨k, i⟩ | ⟨k, i⟩ | k <;>
    rcases o' with ⟨m', t⟩ | ⟨m', t⟩ | ⟨a', d'⟩ | ⟨m', fs⟩ | ⟨m', fs⟩ | ⟨m', fs⟩ | ⟨m', v'⟩ | ⟨k', j⟩ |
      ⟨k', j⟩ | k' <;>
    first
    | (exfalso; cases ctorIdx_of_eqWith heq; done)
    | skip
  case string.string | bytes.bytes =>
    obtain rfl : s = t := by simpa [HeapObject.eqWith] using heq
    rw [HeapObject.cmp, HeapObject.alike, HeapObject.hash, HeapObject.hash]
    · exact ⟨fun _ => cmpBytes_self s, fun _ => .refl rfl _⟩
    all_goals simp
  case pair.pair =>
    rw [HeapObject.eqWith, Bool.and_eq_true,
      restEq_eq_eqWith (hco d d' (by simp) (by simp))] at heq
    have ha := hvalues a (by simp) a' (by simp) heq.1
    have hd := hvalues d (by simp) d' (by simp) heq.2
    rw [HeapObject.alike, HeapObject.cmp, Bool.and_eq_true, Ordering.then_eq_eq, HeapObject.hash,
      HeapObject.hash]
    exact ⟨fun h => ⟨ha.cmp h.1, hd.cmp h.2⟩, fun h => (ha.hash h.1).append (hd.hash h.2)⟩
  case array.array =>
    rw [HeapObject.eqWith] at heq
    have h := hall es fs rfl rfl heq
    rw [HeapObject.cmp, HeapObject.alike, HeapObject.hash, HeapObject.hash, h.length_eq]
    exact ⟨cmpAll_of_alike h, fun hcmp => (hashAll_same h hcmp).cons _⟩
  case struct.struct =>
    obtain rfl : m = m' := by cases m <;> cases m' <;> first | rfl | cases htag
    have heq : Value.eqEntries es fs .identity := by
      cases m <;> simpa only [HeapObject.eqWith] using heq
    have h : List.Forall₂ (fun e f => KeysAgree e.1 f.1 ∧ Agrees e.2 f.2) es fs := by
      refine Pointwise.imp_mem (fun e he f hf h => ?_) (eqEntries_iff.1 heq)
      exact ⟨hkeys m es m fs rfl rfl e he f hf h.1,
        hvalues e.2 (mem_children_struct he).2 f.2 (mem_children_struct hf).2 h.2⟩
    rw [HeapObject.cmp, HeapObject.alike]
    refine ⟨cmpEntries_of_alike h, fun hcmp => ?_⟩
    have hhash := hashEntries_same h hcmp
    cases m <;> rw [HeapObject.hash, HeapObject.hash]
    · exact hhash
    · rw [h.length_eq]
      exact hhash.cons _
  case set.set =>
    obtain rfl : m = m' := by cases m <;> cases m' <;> first | rfl | cases htag
    rw [HeapObject.eqWith] at heq
    have h := hall es fs rfl rfl heq
    rw [HeapObject.cmp, HeapObject.alike]
    cases m <;> rw [HeapObject.hash, HeapObject.hash]
    · refine ⟨by simp, fun _ => ⟨rfl, iff_of_false (fun h => hxy ?_) (by simp)⟩⟩
      cases h
      rfl
    · rw [h.length_eq]
      exact ⟨cmpAll_of_alike h, fun hcmp => (hashAll_same h hcmp).cons _⟩
  case box.box =>
    rw [HeapObject.eqWith, Bool.and_eq_true, beq_iff_eq] at heq
    obtain ⟨rfl, heq⟩ := heq
    have h := hvalues v (by simp) v' (by simp) heq
    rw [HeapObject.cmp, if_pos rfl, HeapObject.alike, HeapObject.hash, HeapObject.hash]
    exact ⟨h.cmp, h.hash⟩
  case handle.handle =>
    obtain ⟨rfl, rfl⟩ : k = k' ∧ i = j := by simpa [HeapObject.eqWith] using heq
    rw [HeapObject.cmp, HeapObject.alike, HeapObject.hash, HeapObject.hash]
    · exact ⟨fun _ => Std.ReflOrd.compare_self, fun _ => .refl rfl _⟩
    all_goals simp
  case ffi.ffi =>
    rw [HeapObject.cmp, HeapObject.alike]
    · exact ⟨by simp, fun h => absurd (compare_eq_iff_eq.1 h) hxy⟩
    all_goals simp
  case identity.identity =>
    simp [HeapObject.eqWith, hxy] at heq

theorem heap_agrees {o o' : HeapObject F} {x y : Nat} (hxy : x ≠ y)
    (heq : o.eqWith o' .identity x y)
    (hobject : o.tag = o'.tag → (o.alike o' → o.cmp o' x y = .eq) ∧
      (o.cmp o' x y = .eq → SameWhen (o.alike o') (o.hash x) (o'.hash y))) :
    Agrees (.heap x o) (.heap y o') := by
  have halike : (Value.heap x o).alike (.heap y o') ↔ o.tag = o'.tag ∧ o.alike o' := by
    simp [Value.alike, hxy]
  have hcmp : (Value.heap x o).cmp (.heap y o') = .eq ↔ o.tag = o'.tag ∧ o.cmp o' x y = .eq := by
    rw [Value.cmp, if_neg hxy, compare_then_eq, rank_eq_iff heq]
  refine ⟨fun h => ?_, fun h => ?_⟩
  · obtain ⟨htag, h⟩ := halike.1 h
    exact hcmp.2 ⟨htag, (hobject htag).1 h⟩
  · obtain ⟨htag, h⟩ := hcmp.1 h
    have hhash := ((hobject htag).2 h).cons (HashWrite.word o.tag)
    rw [halike, Value.hash, Value.hash, ← htag]
    exact ⟨hhash.1, hhash.2.trans (and_iff_right rfl).symm⟩

theorem eq_of_immediateEq {a b : Value F} (h : a.immediateEq .identity b) : a = b := by
  rcases isHeap_cases a with ⟨x, o, rfl⟩ | ha
  · cases b <;> simp [Value.immediateEq] at h
  · exact (immediateEq_identity ha).1 h

variable {mem : Nat → Option (HeapObject F)} {P : Int ⊕ F → Prop} {Q : Bool → Prop}

/-- Heap keys of one rank: two strings, two arrays, or two objects taken as values. -/
theorem hashAsKey_same {x y : Nat} {o o' : HeapObject F} (hxy : x ≠ y)
    (hrank : (Value.heap x o).keyRank = (Value.heap y o').keyRank)
    (hstring : ∀ s t, o = .string false s → o' = .string false t → s = t)
    (harray : ∀ es fs, o = .array false es → o' = .array false fs → List.Forall₂ KeysAgree es fs)
    (hother : (∀ es fs, o = .array false es → o' = .array false fs → False) →
      (∀ s t, o = .string false s → o' = .string false t → False) →
      SameWhen ((Value.heap x o).alike (.heap y o')) (Value.heap x o).hash (Value.heap y o').hash) :
    SameWhen ((Value.heap x o).alike (.heap y o')) (Value.heap x o).hashAsKey
      (Value.heap y o').hashAsKey := by
  rcases heap_key_cases x o with ⟨s, rfl⟩ | ⟨es, rfl⟩ | ⟨hs, hes, hr, -⟩ <;>
    rcases heap_key_cases y o' with ⟨t, rfl⟩ | ⟨fs, rfl⟩ | ⟨ht, hfs, hr', -⟩
  case inl.inl =>
    obtain rfl := hstring s t rfl rfl
    exact .refl (by simp [Value.alike, HeapObject.tag, HeapObject.alike]) _
  case inr.inl.inr.inl =>
    have h := harray es fs rfl rfl
    have halike : (Value.heap x (.array false es)).alike (.heap y (.array false fs)) =
        Value.alikeAll es fs := by
      simp [Value.alike, HeapObject.tag, HeapObject.alike, hxy]
    rw [halike, alikeAll_iff, Value.hashAsKey, Value.hashAsKey, h.length_eq, hashAllAsKeys_eq,
      hashAllAsKeys_eq]
    exact ((SameWhen.flatMap (h.imp fun _ _ h => h.hash)).cons _).cons _
  case inr.inr.inr.inr =>
    have h := hother (fun es fs h _ => hes es h) fun s t h _ => hs s h
    rw [Value.hashAsKey, Value.hashAsKey]
    · exact h.cons _
    · exact ht
    · exact hfs
    · exact hs
    · exact hes
  all_goals simp_all [Value.keyRank]

theorem agrees_of_eq {a : Value F} (ha : a.All (InMemory mem P Q)) : ∀ b : Value F,
    b.All (InMemory mem P Q) → (a.eqWith b .identity → Agrees a b) ∧
      (a.isKey → b.isKey → a.eqAsKey b → KeysAgree a b) := by
  induction a using Value.induction with
  | h a ih =>
    intro b hb
    rcases heap_cases a b with ⟨x, o, y, o', rfl, rfl⟩ | himm
    case inr =>
      rw [eqWith_immediate himm, eqAsKey_immediate himm]
      refine ⟨fun h => ?_, fun _ _ h => ?_⟩
      · rw [eq_of_immediateEq h]
        exact agrees_self b
      · rw [eq_of_immediateEq h]
        exact ⟨cmpAsKey_self b, .refl (alike_self b) _⟩
    by_cases hxy : x = y
    · subst hxy
      obtain rfl := ha.self.coherent hb.self x o o' rfl rfl
      exact ⟨fun _ => agrees_self _, fun _ _ _ => ⟨cmpAsKey_self _, .refl (alike_self _) _⟩⟩
    have hchild := fun c hc c' hc' => ih x o rfl c hc (ha.child hc) c' (hb.child (c := c') hc')
    have hkeyChild : ∀ {z : Nat} {p : HeapObject F} {m es}, InMemory mem P Q (.heap z p) →
        p = .struct m es → ∀ e ∈ es, e.1.isKey ∧ e.1 ∈ p.children := by
      rintro z p m es hp rfl e he
      exact ⟨hp.keys z m es rfl e he, (mem_children_struct he).1⟩
    have hvalue : (Value.heap x o).eqWith (.heap y o') .identity →
        Agrees (.heap x o) (.heap y o') := by
      intro h
      have heq : o.eqWith o' .identity x y := by simpa [Value.eqWith, hxy] using h
      refine heap_agrees hxy heq fun htag => object_agrees hxy heq htag (fun c hc c' hc' =>
        (hchild c hc c' hc').1) ?_ fun c c' hc hc' => (ha.child hc).self.coherent (hb.child hc').self
      intro m es m' es' ho ho' e he e' he'
      have hk := hkeyChild ha.self ho e he
      have hk' := hkeyChild hb.self ho' e' he'
      exact (hchild e.1 hk.2 e'.1 hk'.2).2 hk.1 hk'.1
    refine ⟨hvalue, fun hka hkb h => ?_⟩
    have hagree := key_agrees (all_inKeyMemory ha hka) hka (all_inKeyMemory hb hkb) hkb
    have hcmp := hagree.2.1 h
    refine ⟨hcmp, hashAsKey_same hxy ?_ ?_ ?_ ?_⟩
    · rw [cmpAsKey_eq hka hkb, compare_then_eq] at hcmp
      exact hcmp.1
    · rintro s t rfl rfl
      simpa [Value.eqAsKey] using h
    · rintro es fs rfl rfl
      rw [Value.cmpAsKey, cmpAllAsKeys_eq, compareLex_eq_iff] at hcmp
      refine Pointwise.imp_mem (fun e he f hf hef => ?_) hcmp
      have hke := isKey_child ha.self hka he
      have hkf := isKey_child hb.self hkb hf
      refine (hchild e he f hf).2 hke hkf ?_
      exact (key_agrees (all_inKeyMemory (ha.child he) hke) hke
        (all_inKeyMemory (hb.child hf) hkf) hkf).2.2 hef
    · intro harray hstring
      rw [eqAsKey_heap_other harray hstring, Bool.and_eq_true] at h
      exact (hvalue h.2).hash (hagree.1.1 h.2)

/-- Equal values are hashed the same and compare equal exactly when they are alike. -/
theorem hash_cmp_agree_iff {a b : Value F}
    (ha : a.All (InMemory mem (fun _ => True) (fun _ => True)))
    (hb : b.All (InMemory mem (fun _ => True) (fun _ => True))) (heq : a.eqWith b .identity = true) :
    (a.hash = b.hash ∧ a.cmp b = .eq) ↔ a.alike b = true := by
  have h := (agrees_of_eq ha b hb).1 heq
  refine ⟨fun ⟨hhash, hcmp⟩ => (h.hash hcmp).2.1 hhash, fun halike => ?_⟩
  have hcmp := h.cmp halike
  exact ⟨(h.hash hcmp).2.2 halike, hcmp⟩

end

/-- Two mutable arrays `@[1]`. -/
theorem hash_cmp_agree_iff_arrays :
    let v : Nat → Value Int := fun x => .heap x (.array true [.int 1])
    (v 0).eqWith (v 1) .identity = true ∧ (v 0).hash = (v 1).hash ∧ (v 0).cmp (v 1) = .eq := by
  intro v
  let mem : Nat → Option (HeapObject Int) := fun _ => some (.array true [.int 1])
  have hone : Value.All (InMemory mem (fun _ => True) (fun _ => True)) (.int 1) :=
    Value.all_immediate nofun ⟨nofun, fun _ _ => trivial, nofun, nofun, nofun⟩
  have hv : ∀ x, (v x).All (InMemory mem (fun _ => True) (fun _ => True)) := by
    intro x
    refine Value.all_heap.2 ⟨⟨?_, nofun, nofun, nofun, nofun⟩, ?_⟩
    · rintro _ _ ⟨⟩
      rfl
    · intro c hc
      obtain rfl : c = .int 1 := List.mem_singleton.1 hc
      exact hone
  have heq : (v 0).eqWith (v 1) .identity = true := by decide +kernel
  exact ⟨heq, (hash_cmp_agree_iff (hv 0) (hv 1) heq).2 (by decide +kernel)⟩

/-- `[1]` and `@[1]` are equal, but neither hashed the same nor equal in the order; two sets `|1|` are
equal and not hashed the same. -/
theorem equal_values_disagree :
    let immutable : Value Int := .heap 0 (.array false [.int 1])
    let mutable : Value Int := .heap 1 (.array true [.int 1])
    let set : Nat → Value Int := fun x => .heap x (.set false [.int 1])
    immutable.eqWith mutable .identity = true ∧ immutable.hash ≠ mutable.hash ∧
      immutable.cmp mutable = .lt ∧ (set 2).eqWith (set 3) .identity = true ∧
      (set 2).hash ≠ (set 3).hash := by
  refine ⟨by decide +kernel, ?_, by decide +kernel, by decide +kernel, ?_⟩
  · simp [Value.hash, HeapObject.tag]
  · simp [Value.hash, HeapObject.tag, HeapObject.hash]

end Elle.Repr

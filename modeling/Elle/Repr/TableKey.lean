import Elle.Repr.Key

/-!
# `TableKey`

The keys of structs as the enum the code has, made from values by `fromValue`. Their traits are those
of the values they hold, taken as keys, so their laws follow.
-/

namespace Elle.Repr

open Cmp BinarySearch List

variable {F : Type}

/-- A struct key. The string, array and heap arms hold the value they were made from. -/
inductive TableKey (F : Type) where
  | nil
  | bool (b : Bool)
  | int (n : Int)
  | symbol (id : Nat)
  | string (v : Value F)
  | keyword (hash : Nat)
  | emptyList
  | array (v : Value F)
  | heap (v : Value F)

namespace TableKey

def fromValue : Value F → Option (TableKey F)
  | .nil => some .nil
  | .bool b => some (.bool b)
  | .int n => some (.int n)
  | .symbol id => some (.symbol id)
  | .keyword hash => some (.keyword hash)
  | .emptyList => some .emptyList
  | .heap x (.string false s) => some (.string (.heap x (.string false s)))
  | .heap x (.array false es) =>
    if Value.areKeys es then some (.array (.heap x (.array false es))) else none
  | .heap x o => if o.isKey then some (.heap (.heap x o)) else none
  | .float _ | .pointer _ | .nativeFn _ | .undefined => none

def toValue : TableKey F → Value F
  | .nil => .nil
  | .bool b => .bool b
  | .int n => .int n
  | .symbol id => .symbol id
  | .keyword hash => .keyword hash
  | .emptyList => .emptyList
  | .string v | .array v | .heap v => v

def discriminantIndex : TableKey F → Nat
  | .nil => 0
  | .bool _ => 1
  | .int _ => 2
  | .symbol _ => 3
  | .string _ => 4
  | .keyword _ => 5
  | .emptyList => 6
  | .array _ => 7
  | .heap _ => 8

def asStr : Value F → List UInt8
  | .heap _ (.string false s) => s
  | _ => []

def asArray : Value F → List (Value F)
  | .heap _ (.array false es) => es
  | _ => []

section

variable [TotalFloat F]

/-- The elements of two array keys, compared as keys. -/
def cmpElements (v w : Value F) : Ordering :=
  Value.cmpAllAsKeys (asArray v) (asArray w)

def cmp (k l : TableKey F) : Ordering :=
  (compare k.discriminantIndex l.discriminantIndex).then <|
    match k, l with
    | .bool a, .bool b => compare a b
    | .int a, .int b => compare a b
    | .symbol a, .symbol b => compare a b
    | .string v, .string w => cmpBytes (asStr v) (asStr w)
    | .keyword a, .keyword b => compare a b
    | .array v, .array w => cmpElements v w
    | .heap v, .heap w => v.cmp w
    | _, _ => .eq

def eq : TableKey F → TableKey F → Bool
  | .nil, .nil | .emptyList, .emptyList => true
  | .bool a, .bool b => a == b
  | .int a, .int b => a == b
  | .symbol a, .symbol b => a == b
  | .string v, .string w => asStr v == asStr w
  | .keyword a, .keyword b => a == b
  | .array v, .array w => cmpElements v w == .eq
  | .heap v, .heap w => v.eqWith w .identity
  | _, _ => false

def content : TableKey F → KeyContent F
  | .nil | .emptyList => .word 0
  | .bool b => .word b.toNat
  | .int n => .int n
  | .symbol n | .keyword n => .word n
  | .string v => .bytes (asStr v)
  | .array v => .keys (asArray v)
  | .heap v => .value v

omit [TotalFloat F] in
theorem fromValue_spec {v : Value F} {k : TableKey F} (h : fromValue v = some k) :
    v.isKey ∧ k.toValue = v ∧ k.discriminantIndex = v.keyRank ∧ k.content = v.keyContent := by
  rcases v with _ | _ | _ | _ | _ | _ | _ | _ | _ | _ | ⟨x, o⟩
  case heap =>
    rcases heap_key_cases x o with ⟨s, rfl⟩ | ⟨es, rfl⟩ | ⟨hs, hes, hr, hc⟩
    · cases h
      exact ⟨rfl, rfl, rfl, rfl⟩
    · rw [fromValue] at h
      split at h
      · next hk =>
        cases h
        exact ⟨hk, rfl, rfl, rfl⟩
      · cases h
    · rw [fromValue] at h
      · split at h
        · next hk =>
          cases h
          exact ⟨hk, rfl, hr.symm, hc.symm⟩
        · cases h
      · exact hs
      · exact hes
  all_goals cases h
  all_goals exact ⟨rfl, rfl, rfl, rfl⟩

theorem cmp_eq_content (k l : TableKey F) :
    k.cmp l = (compare k.discriminantIndex l.discriminantIndex).then (k.content.cmp l.content) := by
  by_cases hdisc : k.discriminantIndex = l.discriminantIndex
  · congr 1
    rcases k with _ | b | _ | _ | _ | _ | _ | _ | _ <;> rcases l with _ | c | _ | _ | _ | _ | _ | _ | _ <;>
      first
      | rfl
      | (cases hdisc; done)
      | (cases b <;> cases c <;> rfl)
      | exact cmpAllAsKeys_eq _ _
  · exact content_cmp_eq_of_ne hdisc _ _

theorem cmp_fromValue {a b : Value F} {k l : TableKey F} (ha : fromValue a = some k)
    (hb : fromValue b = some l) : k.cmp l = a.cmpAsKey b := by
  obtain ⟨hka, -, hra, hca⟩ := fromValue_spec ha
  obtain ⟨hkb, -, hrb, hcb⟩ := fromValue_spec hb
  rw [cmp_eq_content, cmpAsKey_eq hka hkb, hra, hrb, hca, hcb]

theorem eq_iff_cmp {k l : TableKey F}
    (hheap : ∀ v w, k = .heap v → l = .heap w → (v.eqWith w .identity ↔ v.cmp w = .eq)) :
    k.eq l ↔ k.cmp l = .eq := by
  unfold cmp
  rcases k with _ | _ | _ | _ | _ | _ | _ | _ | v <;> rcases l with _ | _ | _ | _ | _ | _ | _ | _ | w
  case heap.heap => simpa [eq, discriminantIndex] using hheap v w rfl rfl
  case string.string => simp [eq, discriminantIndex, cmpBytes_eq_iff]
  all_goals simp [eq, discriminantIndex]

/-! ### Stored keys -/

/-- The slots of a heap: the region of each, and the next free one. -/
structure Slots where
  regionOf : Nat → Option Nat
  next : Nat

def Slots.alloc (slots : Slots) (region : Nat) : Nat × Slots :=
  (slots.next, ⟨fun x => if x = slots.next then some region else slots.regionOf x, slots.next + 1⟩)

mutual

/-- The value of a key copied into a region: strings and arrays that are not there yet are, with the
elements of arrays, and anything else is kept. -/
def internValue (region : Nat) : Value F → Slots → Value F × Slots
  | .heap x (.string false s), slots =>
    if slots.regionOf x = some region then (.heap x (.string false s), slots)
    else (.heap (slots.alloc region).1 (.string false s), (slots.alloc region).2)
  | .heap x (.array false es), slots =>
    if slots.regionOf x = some region then (.heap x (.array false es), slots)
    else
      let r := internAll region es slots
      (.heap (r.2.alloc region).1 (.array false r.1), (r.2.alloc region).2)
  | v, slots => (v, slots)

def internAll (region : Nat) : List (Value F) → Slots → List (Value F) × Slots
  | [], slots => ([], slots)
  | e :: es, slots =>
    let r := internValue region e slots
    let rs := internAll region es r.2
    (r.1 :: rs.1, rs.2)

end

/-- The stored form of a key, owned by a region. -/
def internInto (region : Nat) (k : TableKey F) (slots : Slots) : TableKey F × Slots :=
  match k with
  | .string v => (.string (internValue region v slots).1, (internValue region v slots).2)
  | .array v => (.array (internValue region v slots).1, (internValue region v slots).2)
  | k => (k, slots)

theorem cmpAsKey_internValue (region : Nat) (v : Value F) (slots : Slots) :
    (internValue region v slots).1.cmpAsKey v = .eq := by
  induction v using Value.induction generalizing slots with
  | h v ih =>
    rcases isHeap_cases v with ⟨x, o, rfl⟩ | hv
    · rcases heap_key_cases x o with ⟨s, rfl⟩ | ⟨es, rfl⟩ | ⟨hs, hes, -, -⟩
      · rw [internValue]
        split
        · exact cmpAsKey_self _
        · rw [Value.cmpAsKey]
          exact cmpBytes_self s
      · have hall : ∀ fs, (∀ e ∈ fs, e ∈ es) → ∀ slots,
            Value.cmpAllAsKeys (internAll region fs slots).1 fs = .eq := by
          intro fs hfs
          induction fs with
          | nil => intro slots; rw [internAll, Value.cmpAllAsKeys]
          | cons e fs ihf =>
            intro slots
            rw [internAll, Value.cmpAllAsKeys, ih x _ rfl e (hfs e mem_cons_self),
              ihf fun f hf => hfs f (mem_cons_of_mem _ hf)]
            rfl
        rw [internValue]
        split
        · exact cmpAsKey_self _
        · rw [Value.cmpAsKey]
          exact hall es (fun _ h => h) slots
      · rw [internValue]
        · exact cmpAsKey_self _
        · rintro _ s ⟨⟩
          exact hs s rfl
        · rintro _ es ⟨⟩
          exact hes es rfl
    · rw [internValue]
      · exact cmpAsKey_self _
      · exact fun x s h => hv _ _ h
      · exact fun x es h => hv _ _ h

/-! ### The laws of keys -/

def FromMemory (mem : Nat → Option (HeapObject F)) (k : TableKey F) : Prop :=
  ∃ v : Value F, v.All (InMemory mem (fun _ => True) (fun _ => True)) ∧ fromValue v = some k

variable {mem : Nat → Option (HeapObject F)} {k l : TableKey F}

theorem FromMemory.consistent {j : TableKey F} (hj : FromMemory mem j) (hk : FromMemory mem k)
    (hl : FromMemory mem l) : Consistent (j.cmp k) (k.cmp l) (j.cmp l) := by
  obtain ⟨a, ha, hja⟩ := hj
  obtain ⟨b, hb, hkb⟩ := hk
  obtain ⟨c, hc, hlc⟩ := hl
  rw [cmp_fromValue hja hkb, cmp_fromValue hkb hlc, cmp_fromValue hja hlc]
  have hka := (fromValue_spec hja).1
  have hkb := (fromValue_spec hkb).1
  have hkc := (fromValue_spec hlc).1
  exact (lawful noClash_isLeft (fun h => h.1) (all_inKeyMemory ha hka) b c (all_inKeyMemory hb hkb)
    (all_inKeyMemory hc hkc)).2 hka hkb hkc

theorem FromMemory.swap (hk : FromMemory mem k) (hl : FromMemory mem l) : l.cmp k = (k.cmp l).swap := by
  obtain ⟨a, ha, hka⟩ := hk
  obtain ⟨b, hb, hlb⟩ := hl
  rw [cmp_fromValue hka hlb, cmp_fromValue hlb hka]
  have hk := (fromValue_spec hka).1
  have hl := (fromValue_spec hlb).1
  exact (oriented (fun h => h.1) (all_inKeyMemory ha hk) b (all_inKeyMemory hb hl)).2 hk hl

theorem FromMemory.eq_iff (hk : FromMemory mem k) (hl : FromMemory mem l) :
    k.eq l ↔ k.cmp l = .eq := by
  obtain ⟨a, ha, hka⟩ := hk
  obtain ⟨b, hb, hlb⟩ := hl
  obtain ⟨hk, hva, -, -⟩ := fromValue_spec hka
  obtain ⟨hl, hvb, -, -⟩ := fromValue_spec hlb
  refine eq_iff_cmp fun v w hv hw => ?_
  subst hv hw
  obtain rfl : v = a := hva
  obtain rfl : w = b := hvb
  exact (key_agrees (all_inKeyMemory ha hk) hk (all_inKeyMemory hb hl) hl).1

theorem FromMemory.eq_self (hk : FromMemory mem k) : k.eq k := by
  refine (hk.eq_iff hk).2 ?_
  obtain ⟨a, -, ha⟩ := hk
  rw [cmp_fromValue ha ha, cmpAsKey_self]

omit [TotalFloat F] in
theorem asStr_internValue (region x : Nat) (s : List UInt8) (slots : Slots) :
    asStr (internValue region (.heap x (.string false s) : Value F) slots).1 = s := by
  rw [internValue]
  split <;> rfl

theorem cmpElements_internValue (region x : Nat) (es : List (Value F)) (slots : Slots) :
    cmpElements (internValue region (.heap x (.array false es)) slots).1 (.heap x (.array false es)) =
      .eq := by
  have hcmp := cmpAsKey_internValue region (.heap x (.array false es)) slots
  rw [internValue] at hcmp ⊢
  split at hcmp
  · next hin =>
    rw [if_pos hin]
    rwa [Value.cmpAsKey] at hcmp
  · next hin =>
    rw [if_neg hin]
    rwa [Value.cmpAsKey] at hcmp

theorem FromMemory.eq_internInto (hk : FromMemory mem k) (region : Nat) (slots : Slots) :
    (k.internInto region slots).1.eq k := by
  obtain ⟨a, ha, hka⟩ := hk
  have hself := FromMemory.eq_self ⟨a, ha, hka⟩
  rcases a with _ | _ | _ | _ | _ | _ | _ | _ | _ | _ | ⟨x, o⟩
  case heap =>
    rcases heap_key_cases x o with ⟨s, rfl⟩ | ⟨es, rfl⟩ | ⟨hs, hes, -, -⟩
    · cases hka
      simp only [internInto, eq, asStr_internValue]
      exact beq_self_eq_true s
    · rw [fromValue] at hka
      split at hka
      · cases hka
        simp only [internInto, eq, cmpElements_internValue, beq_self_eq_true]
      · cases hka
    · rw [fromValue] at hka
      · split at hka
        · cases hka
          exact hself
        · cases hka
      · exact hs
      · exact hes
  all_goals cases hka
  all_goals exact hself

/-- Lookup in the entries of a struct (`sorted_struct_get`). -/
def sortedStructGet (entries : List (TableKey F × Value F)) (key : TableKey F) : Option (Value F) :=
  match binarySearchBy (fun e => e.1.cmp key) entries with
  | .ok i => (entries[i]?).map (·.2)
  | .error _ => none

/-- Keys in a memory are totally ordered, their order decides equality, a copy of a key equals it, and
lookup by binary search finds an entry whenever its key is stored. -/
theorem key_order_total {j k l : TableKey F} (hj : FromMemory mem j) (hk : FromMemory mem k)
    (hl : FromMemory mem l) :
    k.cmp j = (j.cmp k).swap ∧
    ((j.cmp k).isLE = true → (k.cmp l).isLE = true → (j.cmp l).isLE = true) ∧
    (j.cmp k = .eq ↔ j.eq k = true) ∧
    (∀ region slots, (j.internInto region slots).1.eq j = true) ∧
    ∀ entries : List (TableKey F × Value F), (∀ e ∈ entries, FromMemory mem e.1) →
      entries.Pairwise (fun e f => e.1.cmp f.1 = .lt) → ∀ e ∈ entries, e.1.eq j = true →
      sortedStructGet entries j = some e.2 := by
  refine ⟨hj.swap hk, (hj.consistent hk hl).isLE, (hj.eq_iff hk).symm, hj.eq_internInto, ?_⟩
  intro entries hentries hsorted e he heq
  have hcmp := ((hentries e he).eq_iff hj).1 heq
  obtain ⟨pre, post, rfl⟩ := append_of_mem he
  rw [pairwise_append, pairwise_cons] at hsorted
  have hfound : binarySearchBy (fun f => f.1.cmp j) (pre ++ e :: post) = .ok pre.length := by
    refine binarySearchBy_eq (fun f hf => ?_) hcmp fun f hf => ?_
    · have hlt := hsorted.2.2 f hf e mem_cons_self
      have hcons := (hentries f (mem_append_left _ hf)).consistent (hentries e he) hj
      rw [hcons.2.1 hcmp, hlt]
    · have hlt := hsorted.2.1.1 f hf
      have hf' := hentries f (mem_append_right _ (mem_cons_of_mem _ hf))
      have hcons := hf'.consistent (hentries e he) hj
      rw [hcons.2.1 hcmp, (hentries e he).swap hf', hlt]
      rfl
  rw [sortedStructGet, hfound]
  simp

end

/-- A struct keyed by `1` and by the array `[1]`, looked up by the array. -/
theorem key_order_total_array :
    let v : Value Int := .heap 0 (.array false [.int 1])
    FromMemory (fun x => if x = 0 then some (.array false [.int 1]) else none) (.array v) ∧
      sortedStructGet [(.int 1, .nil), (.array v, .bool true)] (.array v) = some (.bool true) := by
  intro v
  let mem : Nat → Option (HeapObject Int) := fun x => if x = 0 then some (.array false [.int 1]) else none
  have hone : Value.All (InMemory mem (fun _ => True) (fun _ => True)) (.int 1) :=
    Value.all_immediate nofun ⟨nofun, fun _ _ => trivial, nofun, nofun, nofun⟩
  have harray : v.All (InMemory mem (fun _ => True) (fun _ => True)) := by
    refine Value.all_heap.2 ⟨⟨?_, nofun, nofun, nofun, nofun⟩, ?_⟩
    · rintro x o ⟨⟩
      rfl
    · intro c hc
      obtain rfl : c = .int 1 := List.mem_singleton.1 hc
      exact hone
  have hk : FromMemory mem (.array v) := ⟨v, harray, rfl⟩
  refine ⟨hk, (key_order_total hk hk hk).2.2.2.2 _ ?_ (by decide +kernel) (.array v, .bool true) (by simp)
    (by decide +kernel)⟩
  intro e he
  rcases List.mem_pair.1 he with rfl | rfl
  · exact ⟨_, hone, rfl⟩
  · exact hk

end TableKey

end Elle.Repr

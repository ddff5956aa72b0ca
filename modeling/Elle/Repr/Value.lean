import Elle.Lib.Cmp

/-!
# Values and how they compare

A value with all it reaches, as it is at one moment, and the three traversals that have to agree on
it: equality (`value/repr/eq.rs`), hashing (`value/repr/traits.rs`) and order
(`value/repr/traits/ord.rs`). A heap value is its object at an address. The values are finite trees,
on which the guards against cycles never fire.

Struct keys are held as the values they stand for. `cmpAsKey`, `eqAsKey` and `hashAsKey` are the
traits of `TableKey` on them (`value/types/key.rs`).
-/

namespace Elle.Repr

/-- The floats under `f64::total_cmp`, for which equal floats are equal bit patterns, with IEEE
equality and the conversion from integers. -/
class TotalFloat (F : Type) extends LinearOrder F where
  ieeeEq : F → F → Bool
  ofInt : Int → F
  ofInt_mono : Monotone ofInt
  ofInt_lossy : ofInt (2 ^ 53) = ofInt (2 ^ 53 + 1)

/-- Heap types whose objects hold a handle, by which they compare. -/
inductive HandleKind where
  | lib | thread | fiber | external
  deriving DecidableEq, Repr

inductive FfiKind where
  | signature | typeDesc
  deriving DecidableEq, Repr

/-- Heap types whose objects compare by their address only. -/
inductive IdentityKind where
  | closure | syntaxObject | managedPointer | parameter | closureTemplate
  deriving DecidableEq, Repr

mutual

inductive Value (F : Type) where
  | nil
  | bool (b : Bool)
  | int (n : Int)
  | float (x : F)
  | symbol (id : Nat)
  | keyword (hash : Nat)
  | pointer (address : Nat)
  | emptyList
  | nativeFn (id : Nat)
  | undefined
  | heap (slot : Nat) (obj : HeapObject F)

/-- A mutable collection has its own variant; a capture cell is a box of the compiler. Traits take
no part in any comparison. -/
inductive HeapObject (F : Type) where
  | string (isMut : Bool) (data : List UInt8)
  | bytes (isMut : Bool) (data : List UInt8)
  | pair (first rest : Value F)
  | array (isMut : Bool) (elements : List (Value F))
  | struct (isMut : Bool) (entries : List (Value F × Value F))
  | set (isMut : Bool) (elements : List (Value F))
  | box (isCapture : Bool) (content : Value F)
  | handle (kind : HandleKind) (id : Nat)
  | ffi (kind : FfiKind) (descriptor : Nat)
  | identity (kind : IdentityKind)

end

variable {F : Type}

def HeapObject.tag : HeapObject F → Nat
  | .string false _ => 0
  | .pair _ _ => 1
  | .array true _ => 2
  | .struct true _ => 3
  | .struct false _ => 4
  | .identity .closure => 5
  | .identity .syntaxObject => 6
  | .array false _ => 7
  | .box false _ => 8
  | .handle .lib _ => 12
  | .handle .thread _ => 14
  | .handle .fiber _ => 16
  | .ffi .signature _ => 18
  | .ffi .typeDesc _ => 19
  | .identity .managedPointer => 20
  | .string true _ => 21
  | .bytes false _ => 22
  | .bytes true _ => 23
  | .handle .external _ => 24
  | .identity .parameter => 25
  | .set false _ => 26
  | .set true _ => 27
  | .box true _ => 28
  | .identity .closureTemplate => 29

/-- The rank of a heap type. A box and a capture cell share theirs. -/
def HeapObject.rank : HeapObject F → Nat
  | .string false _ => 7
  | .pair _ _ => 8
  | .array false _ => 9
  | .array true _ => 10
  | .bytes false _ => 11
  | .string true _ => 12
  | .bytes true _ => 13
  | .struct false _ => 14
  | .struct true _ => 15
  | .identity .closure => 16
  | .box _ _ => 17
  | .handle .lib _ => 19
  | .handle .thread _ => 20
  | .handle .fiber _ => 21
  | .identity .syntaxObject => 22
  | .ffi .signature _ => 23
  | .ffi .typeDesc _ => 24
  | .identity .managedPointer => 25
  | .handle .external _ => 26
  | .identity .parameter => 27
  | .set false _ => 28
  | .set true _ => 29
  | .identity .closureTemplate => 31

def Value.typeRank : Value F → Nat
  | .nil => 0
  | .bool _ => 1
  | .int _ | .float _ => 2
  | .symbol _ => 3
  | .keyword _ => 4
  | .pointer _ => 5
  | .emptyList => 6
  | .nativeFn _ => 18
  | .heap _ obj => obj.rank
  | .undefined => 30

/-- The rank of the key a value makes (`discriminant_index`). -/
def Value.keyRank : Value F → Nat
  | .nil => 0
  | .bool _ => 1
  | .int _ => 2
  | .symbol _ => 3
  | .heap _ (.string false _) => 4
  | .keyword _ => 5
  | .emptyList => 6
  | .heap _ (.array false _) => 7
  | _ => 8

/-- Strings and bytes compare byte by byte. -/
def cmpBytes (s t : List UInt8) : Ordering :=
  s.compareLex (fun a b => compare a.toNat b.toNat) t

section

variable [TotalFloat F]

open TotalFloat (ofInt ieeeEq)

def Value.bitIdentical : Value F → Value F → Bool
  | .nil, .nil | .emptyList, .emptyList | .undefined, .undefined => true
  | .bool a, .bool b => a == b
  | .int a, .int b => a == b
  | .float a, .float b => a == b
  | .symbol a, .symbol b | .keyword a, .keyword b | .pointer a, .pointer b
  | .nativeFn a, .nativeFn b => a == b
  | .heap x _, .heap y _ => x == y
  | _, _ => false

/-! ### Order -/

/-- The comparison of two immediates of one rank. -/
def Value.cmpImmediate : Value F → Value F → Ordering
  | .bool a, .bool b => compare a b
  | .int a, .int b => compare a b
  | .int a, .float y => compare (ofInt a) y
  | .float x, .int b => compare x (ofInt b)
  | .float x, .float y => compare x y
  | .symbol a, .symbol b | .keyword a, .keyword b | .pointer a, .pointer b
  | .nativeFn a, .nativeFn b => compare a b
  | _, _ => .eq

mutual

/-- `Ord::cmp` of values: identical values first, then the rank, then the content. -/
def Value.cmp : Value F → Value F → Ordering
  | .heap x o, .heap y o' =>
    if x = y then .eq else (compare o.rank o'.rank).then (o.cmp o' x y)
  | a, b =>
    if a.bitIdentical b then .eq else (compare a.typeRank b.typeRank).then (a.cmpImmediate b)

/-- The comparison of two heap objects of one rank, at their addresses. -/
def HeapObject.cmp : HeapObject F → HeapObject F → Nat → Nat → Ordering
  | .string _ s, .string _ t, _, _ => cmpBytes s t
  | .bytes _ s, .bytes _ t, _, _ => cmpBytes s t
  | .pair a d, .pair a' d', _, _ => (a.cmp a').then (d.cmp d')
  | .array _ es, .array _ fs, _, _ => Value.cmpAll es fs
  | .struct _ es, .struct _ fs, _, _ => Value.cmpEntries es fs
  | .set _ es, .set _ fs, _, _ => Value.cmpAll es fs
  | .box c v, .box c' v', x, y => if c = c' then v.cmp v' else compare x y
  | .handle _ i, .handle _ j, _, _ => compare i j
  | _, _, x, y => compare x y

/-- Elements one by one, a proper prefix first. -/
def Value.cmpAll : List (Value F) → List (Value F) → Ordering
  | [], [] => .eq
  | [], _ :: _ => .lt
  | _ :: _, [] => .gt
  | a :: as, b :: bs => (a.cmp b).then (Value.cmpAll as bs)

def Value.cmpEntries : List (Value F × Value F) → List (Value F × Value F) → Ordering
  | [], [] => .eq
  | [], _ :: _ => .lt
  | _ :: _, [] => .gt
  | (k, v) :: es, (k', v') :: fs => ((k.cmpAsKey k').then (v.cmp v')).then (Value.cmpEntries es fs)

/-- `Ord::cmp` of the keys two values make. The elements of an array key compare as keys, any other
heap key as a value. -/
def Value.cmpAsKey : Value F → Value F → Ordering
  | .heap _ (.array false es), .heap _ (.array false fs) => Value.cmpAllAsKeys es fs
  | .heap _ (.string false s), .heap _ (.string false t) => cmpBytes s t
  | .heap x o, .heap y o' =>
    (compare (Value.heap x o).keyRank (Value.heap y o').keyRank).then
      (if x = y then .eq else (compare o.rank o'.rank).then (o.cmp o' x y))
  | a, b => (compare a.keyRank b.keyRank).then (a.cmpImmediate b)

def Value.cmpAllAsKeys : List (Value F) → List (Value F) → Ordering
  | [], [] => .eq
  | [], _ :: _ => .lt
  | _ :: _, [] => .gt
  | a :: as, b :: bs => (a.cmpAsKey b).then (Value.cmpAllAsKeys as bs)

end

/-! ### Equality -/

/-- The two relations one traversal serves: `identity` is `PartialEq`, `numeric` the `=` of the
language. -/
inductive Relation where
  | identity | numeric
  deriving DecidableEq, Repr

/-- Tag and payload, except that `numeric` compares numbers by value. -/
def Value.immediateEq (rel : Relation) : Value F → Value F → Bool
  | .int a, .int b => a == b
  | .int a, .float y => rel == .numeric && ieeeEq (ofInt a) y
  | .float x, .int b => rel == .numeric && ieeeEq x (ofInt b)
  | .float x, .float y => if rel = .numeric then ieeeEq x y else x == y
  | .heap _ _, _ | _, .heap _ _ => false
  | a, b => a.bitIdentical b

def HeapObject.isPair : HeapObject F → Bool
  | .pair _ _ => true
  | _ => false

mutual

/-- `eq_with`. The address is a shortcut of `identity` only: under `numeric`, a NaN inside makes a
value unequal to itself. -/
def Value.eqWith : Value F → Value F → Relation → Bool
  | .heap x o, .heap y o', rel => (rel == .identity && x == y) || o.eqWith o' rel x y
  | a, b, rel => a.immediateEq rel b

/-- A mutable collection equals an immutable one with the same contents. -/
def HeapObject.eqWith : HeapObject F → HeapObject F → Relation → Nat → Nat → Bool
  | .string _ s, .string _ t, _, _, _ => s == t
  | .bytes _ s, .bytes _ t, _, _, _ => s == t
  | .pair a d, .pair a' d', rel, _, _ => a.eqWith a' rel && d.restEq d' rel
  | .array _ es, .array _ fs, rel, _, _ => Value.eqAll es fs rel
  | .set _ es, .set _ fs, rel, _, _ => Value.eqAll es fs rel
  | .struct false es, .struct true fs, rel, _, _ =>
    es.length == fs.length && Value.eqLookup es fs rel
  -- here the code reads the second struct's entries; the relation is symmetric
  | .struct true es, .struct false fs, rel, _, _ =>
    es.length == fs.length && fs.all fun e => Value.eqGet es e.1 e.2 rel
  | .struct _ es, .struct _ fs, rel, _, _ => Value.eqEntries es fs rel
  | .box c v, .box c' v', rel, _, _ => c == c' && v.eqWith v' rel
  | .handle k i, .handle k' j, _, _, _ => k == k' && i == j
  | .ffi k d, .ffi k' d', _, _, _ => k == k' && d == d'
  | .identity k, .identity k', _, x, y => k == k' && x == y
  | _, _, _, _, _ => false

/-- The rests of two pairs: pairs go on with their contents, anything else as a value. -/
def Value.restEq : Value F → Value F → Relation → Bool
  | .heap x o, .heap y o', rel =>
    if o.isPair && o'.isPair then o.eqWith o' rel x y
    else (rel == .identity && x == y) || o.eqWith o' rel x y
  | a, b, rel => a.immediateEq rel b

def Value.eqAll : List (Value F) → List (Value F) → Relation → Bool
  | [], [], _ => true
  | a :: as, b :: bs, rel => a.eqWith b rel && Value.eqAll as bs rel
  | _, _, _ => false

def Value.eqEntries : List (Value F × Value F) → List (Value F × Value F) → Relation → Bool
  | [], [], _ => true
  | (k, v) :: es, (k', v') :: fs, rel =>
    k.eqAsKey k' && v.eqWith v' rel && Value.eqEntries es fs rel
  | _, _, _ => false

/-- Every entry of the first struct has its like in the second. -/
def Value.eqLookup : List (Value F × Value F) → List (Value F × Value F) → Relation → Bool
  | [], _, _ => true
  | (k, v) :: es, fs, rel =>
    (match fs.find? fun e => k.cmpAsKey e.1 == .eq with
      | some e => v.eqWith e.2 rel
      | none => false) && Value.eqLookup es fs rel

def Value.eqGet : List (Value F × Value F) → Value F → Value F → Relation → Bool
  | [], _, _, _ => false
  | (k, v) :: es, key, w, rel =>
    if key.cmpAsKey k = .eq then v.eqWith w rel else Value.eqGet es key w rel

/-- `PartialEq` of the keys two values make. -/
def Value.eqAsKey : Value F → Value F → Bool
  | .heap _ (.array false es), .heap _ (.array false fs) => Value.cmpAllAsKeys es fs == .eq
  | .heap _ (.string false s), .heap _ (.string false t) => s == t
  | .heap x o, .heap y o' =>
    (Value.heap x o).keyRank == (Value.heap y o').keyRank && (x == y || o.eqWith o' .identity x y)
  | a, b => a.immediateEq .identity b

end

/-! ### Hashing -/

inductive HashWrite (F : Type) where
  | byte (n : Nat)
  | flag (b : Bool)
  | word (n : Nat)
  | int (n : Int)
  | float (x : F)
  | bytes (data : List UInt8)

mutual

/-- `Hash::hash` of values. Numbers are hashed as floats. -/
def Value.hash : Value F → List (HashWrite F)
  | .int n => [.byte 255, .float (ofInt n)]
  | .float x => [.byte 255, .float x]
  | .nil => [.word 2, .word 0]
  | .bool true => [.word 3, .word 0]
  | .bool false => [.word 4, .word 0]
  | .emptyList => [.word 5, .word 0]
  | .symbol id => [.word 6, .word id]
  | .keyword h => [.word 7, .word h]
  | .undefined => [.word 8, .word 0]
  | .pointer address => [.word 9, .word address]
  | .nativeFn id => [.word 10, .word id]
  | .heap x o => .word o.tag :: o.hash x

/-- The contents of an object. An immutable set has no arm of its own and is hashed by its address. -/
def HeapObject.hash : HeapObject F → Nat → List (HashWrite F)
  | .string _ s, _ | .bytes _ s, _ => [.word s.length, .bytes s]
  | .pair a d, _ => a.hash ++ d.hash
  | .array _ es, _ => .word es.length :: Value.hashAll es
  | .struct false es, _ => Value.hashEntries es
  | .struct true es, _ => .word es.length :: Value.hashEntries es
  | .set true es, _ => .word es.length :: Value.hashAll es
  | .box _ v, _ => v.hash
  | .handle _ i, _ => [.word i]
  | .ffi _ d, _ => [.word d]
  | .set false _, x | .identity _, x => [.word x]

def Value.hashAll : List (Value F) → List (HashWrite F)
  | [] => []
  | a :: as => a.hash ++ Value.hashAll as

def Value.hashEntries : List (Value F × Value F) → List (HashWrite F)
  | [] => []
  | (k, v) :: es => k.hashAsKey ++ (v.hash ++ Value.hashEntries es)

def Value.hashAsKey : Value F → List (HashWrite F)
  | .bool b => [.word 1, .flag b]
  | .int n => [.word 2, .int n]
  | .symbol id => [.word 3, .word id]
  | .heap _ (.string false s) => [.word 4, .bytes s, .byte 255]
  | .keyword h => [.word 5, .word h]
  | .heap _ (.array false es) => .word 7 :: .word es.length :: Value.hashAllAsKeys es
  | .heap x o => .word 8 :: .word o.tag :: o.hash x
  | .nil => [.word 0]
  | .emptyList => [.word 6]
  | _ => [.word 8]

def Value.hashAllAsKeys : List (Value F) → List (HashWrite F)
  | [] => []
  | a :: as => a.hashAsKey ++ Value.hashAllAsKeys as

end

end

/-! ### Keys -/

mutual

/-- The values `TableKey::from_value` accepts: immutable all the way down, and no floats. The keys of
a struct are keys already, only its values are looked at. -/
def Value.isKey : Value F → Bool
  | .nil | .bool _ | .int _ | .symbol _ | .keyword _ | .emptyList => true
  | .heap _ o => o.isKey
  | .float _ | .pointer _ | .nativeFn _ | .undefined => false

def HeapObject.isKey : HeapObject F → Bool
  | .string m _ | .bytes m _ => !m
  | .pair a d => a.isKey && d.isKey
  | .array m es | .set m es => !m && Value.areKeys es
  | .struct m es => !m && Value.valuesAreKeys es
  | .handle .fiber _ | .handle .external _ | .identity .closure => true
  | .box _ _ | .handle _ _ | .ffi _ _ | .identity _ => false

def Value.areKeys : List (Value F) → Bool
  | [] => true
  | e :: es => e.isKey && Value.areKeys es

def Value.valuesAreKeys : List (Value F × Value F) → Bool
  | [] => true
  | (_, v) :: es => v.isKey && Value.valuesAreKeys es

end

theorem areKeys_iff {es : List (Value F)} : Value.areKeys es ↔ ∀ e ∈ es, e.isKey := by
  induction es with
  | nil => simp [Value.areKeys]
  | cons e es ih => simp [Value.areKeys, ih]

theorem valuesAreKeys_iff {es : List (Value F × Value F)} :
    Value.valuesAreKeys es ↔ ∀ e ∈ es, e.2.isKey := by
  induction es with
  | nil => simp [Value.valuesAreKeys]
  | cons e es ih =>
    obtain ⟨k, v⟩ := e
    simp [Value.valuesAreKeys, ih]

end Elle.Repr

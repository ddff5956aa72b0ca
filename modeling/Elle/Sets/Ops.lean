import Elle.Sets.Heap
import Elle.Repr.Agree
import Elle.Lib.Sorted

/-!
# The set primitives

`set`, `@set`, `add` and `del` (`primitives/sets.rs`) freeze an element before they compare it:
mutable collections become immutable copies, and so do the mutable collections in those
(`freeze_value`). The copying stops at anything immutable, a pair or a box, whatever that holds.

A set is the list of its elements in order. Comparisons read the views of the elements; an operation
is `none` where the code does not return.
-/

namespace Elle.Repr.Sets

open BinarySearch

variable {F : Type}

def alloc (h : Heap F) (c : Cell F) : Ref F × Heap F := (.obj h.length, h ++ [c])

def cellOf (h : Heap F) : Ref F → Option (Cell F)
  | .imm _ => none
  | .obj x => h[x]?

def members (h : Heap F) (es : List (Ref F)) : Option (List (Ref F × Value F)) :=
  es.mapM fun r => (view h r).map fun v => (r, v)

/-- One value after another, each in the heap the last one leaves. -/
def freezeAll (freeze : Heap F → Ref F → Option (Ref F × Heap F)) :
    Heap F → List (Ref F) → Option (List (Ref F) × Heap F)
  | h, [] => some ([], h)
  | h, r :: rs =>
    (freeze h r).bind fun p => (freezeAll freeze p.2 rs).map fun q => (p.1 :: q.1, q.2)

structure TypeError where
  prim : String
  want : String

abbrev Reply (F : Type) := Except TypeError (Ref F)

section

variable [TotalFloat F]

/-! ### Ordered elements -/

def cmpMember (a b : Ref F × Value F) : Ordering := a.2.cmp b.2

def sameMember (a b : Ref F × Value F) : Bool := a.2.eqWith b.2 .identity

/-- The elements as a set, `collect` into a `BTreeSet`. -/
def collectRefs (h : Heap F) (es : List (Ref F)) : Option (List (Ref F)) :=
  (members h es).map fun ms => (Sorted.collect cmpMember sameMember ms).map (·.1)

def insertRef (h : Heap F) (r : Ref F) (es : List (Ref F)) : Option (List (Ref F)) :=
  (members h es).bind fun ms => (view h r).map fun v => (Sorted.insert cmpMember (r, v) ms).map (·.1)

def removeRef (h : Heap F) (r : Ref F) (es : List (Ref F)) : Option (List (Ref F)) :=
  (members h es).bind fun ms => (view h r).map fun v => (Sorted.remove cmpMember (r, v) ms).map (·.1)

/-! ### Freezing -/

-- `String::from_utf8_lossy`
variable (lossy : List UInt8 → List UInt8)

def freezeWith : Nat → Heap F → Ref F → Option (Ref F × Heap F)
  | _, h, .imm v => some (.imm v, h)
  | 0, _, .obj _ => none
  | n + 1, h, .obj x =>
    match h[x]? with
    | some (.array true es) =>
      (freezeAll (freezeWith n) h es).map fun p => alloc p.2 (.array false p.1)
    | some (.struct true es) =>
      (freezeAll (freezeWith n) h (es.map (·.2))).map fun p =>
        alloc p.2 (.struct false ((es.map (·.1)).zip p.1))
    | some (.set true es) =>
      (freezeAll (freezeWith n) h es).bind fun p =>
        (collectRefs p.2 p.1).map fun set => alloc p.2 (.set false set)
    | some (.string true s) => some (alloc h (.string false (lossy s)))
    | some (.bytes true s) => some (alloc h (.bytes false s))
    | _ => some (.obj x, h)

/-- Mutable collections nest no deeper than the heap has slots. -/
def freezeValue (h : Heap F) (r : Ref F) : Option (Ref F × Heap F) := freezeWith lossy h.length h r

/-! ### The primitives -/

/-- The loop of `set` and `@set` over their arguments. -/
def insertAll : Heap F → List (Ref F) → List (Ref F) → Option (List (Ref F) × Heap F)
  | h, es, [] => some (es, h)
  | h, es, r :: rs =>
    (freezeValue lossy h r).bind fun p => (insertRef p.2 p.1 es).bind fun es => insertAll p.2 es rs

def primSet (h : Heap F) (args : List (Ref F)) : Option (Reply F × Heap F) :=
  (insertAll lossy h [] args).map fun p => Prod.map .ok id (alloc p.2 (.set false p.1))

def primAtSet (h : Heap F) (args : List (Ref F)) : Option (Reply F × Heap F) :=
  (insertAll lossy h [] args).map fun p => Prod.map .ok id (alloc p.2 (.set true p.1))

def changeSet (prim : String) (change : Heap F → List (Ref F) → Option (List (Ref F))) (h : Heap F)
    (coll : Ref F) : Option (Reply F × Heap F) :=
  match coll, cellOf h coll with
  | _, some (.set false es) =>
    (collectRefs h es).bind fun es => (change h es).map fun es =>
      Prod.map .ok id (alloc h (.set false es))
  | .obj x, some (.set true es) => (change h es).map fun es => (.ok (.obj x), h.set x (.set true es))
  | _, _ => some (.error ⟨prim, "set or mutable set"⟩, h)

def primAdd (h : Heap F) (coll r : Ref F) : Option (Reply F × Heap F) :=
  (freezeValue lossy h r).bind fun p => changeSet "add" (fun h => insertRef h p.1) p.2 coll

def primDel (h : Heap F) (coll r : Ref F) : Option (Reply F × Heap F) :=
  (freezeValue lossy h r).bind fun p => changeSet "del" (fun h => removeRef h p.1) p.2 coll

/-- Membership in a set (`coll_has`): a binary search in an immutable one, a lookup in the tree of a mutable
one. -/
def collHas (h : Heap F) (coll r : Ref F) : Option Bool :=
  (freezeValue lossy h r).bind fun p => (view p.2 p.1).bind fun v =>
    match cellOf p.2 coll with
    | some (.set false es) => (members p.2 es).map fun ms =>
      match binarySearchBy (fun m => cmpMember m (p.1, v)) ms with
      | .ok _ => true
      | .error _ => false
    | some (.set true es) => (members p.2 es).map fun ms => (Sorted.lookup cmpMember (p.1, v) ms).isSome
    | _ => none

end

end Elle.Repr.Sets

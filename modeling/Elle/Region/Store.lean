import Elle.Lib.BoundedLoop
import Elle.Lib.CountTable
import Elle.Lib.FinGraph
import Elle.Lib.Slots

/-! # The region store

The table of regions of one fiber heap (`value/fiberheap/regionstore.rs`).  A region holds heap objects and
ends in exactly one of two ways: its reference count reaches zero, or its owner's subtree is dropped.

Counts are natural numbers here: the `u32` counts of the source differ from them only once 2³² references
into one region are recorded.  Generations wrap as they do in the source.  A heap pointer is the incarnation
of the region it points into, and a fiber is what the free path reads of it; fibers live outside the store,
and `fibers` is the table their handles index.
-/

namespace Elle

/-- A physical region id.  Ids 0 and 1 are reserved and not representable. -/
structure RuntimeRegion where
  get : Nat
  two_le : 2 ≤ get
  deriving DecidableEq

namespace RuntimeRegion

/-- Wrap a raw physical id; the reserved ids give nothing. -/
def new (id : Nat) : Option RuntimeRegion := if h : 2 ≤ id then some ⟨id, h⟩ else none

def succ (r : RuntimeRegion) : RuntimeRegion := ⟨r.get + 1, Nat.le_succ_of_le r.two_le⟩

theorem ext_get {r r' : RuntimeRegion} (h : r.get = r'.get) : r = r' := by
  cases r; cases r'; simpa using h

@[simp] theorem get_inj {r r' : RuntimeRegion} : r.get = r'.get ↔ r = r' := ⟨ext_get, fun h => h ▸ rfl⟩

@[simp] theorem new_get (r : RuntimeRegion) : new r.get = some r := by simp [new, r.two_le]

theorem new_eq_some {id : Nat} {r : RuntimeRegion} : new id = some r ↔ id = r.get := by
  refine ⟨fun h => ?_, fun h => h ▸ new_get r⟩
  simp only [new] at h
  split at h <;> simp at h
  exact h ▸ rfl

end RuntimeRegion

/-- A pointer into a region page: the region, and the generation its page is stamped with. -/
structure HeapPtr where
  region : RuntimeRegion
  gen : Nat
  deriving DecidableEq

/-- An activation-map entry: a region and its generation when the slot was established. -/
structure MappedRegion where
  region : RuntimeRegion
  gen : Nat
  deriving DecidableEq

/-- What the parked frames of a fiber owe. -/
structure ParkedDues where
  nodes : List RuntimeRegion
  deferred : List RuntimeRegion
  owed : List HeapPtr
  owedRegions : List MappedRegion

/-- The parked region state of a fiber: its dues, the signal whose payload the discharge releases and the
value whose region it must leave standing. -/
structure ParkedState where
  dues : ParkedDues
  signal : Option HeapPtr
  protect : Option HeapPtr

def ParkedState.nothing : ParkedState := ⟨⟨[], [], [], []⟩, none, none⟩

/-- A fiber behind its handle.  An executing fiber is borrowed and cannot be discharged. -/
structure Fiber where
  executing : Bool
  parked : ParkedState
  fiberOwnerNode : Option RuntimeRegion

/-- A heap object: the heap values it holds, the fiber handle it carries if it is a fiber, and the pages its
allocation claims. -/
structure HeapObject where
  values : List HeapPtr
  fiber : Option Nat
  pages : Nat

/-- The storage of a region: its objects in allocation order. -/
structure RegionPool where
  objects : List HeapObject

namespace RegionPool

def objCount (p : RegionPool) : Nat := p.objects.length

def pageCount (p : RegionPool) : Nat := (p.objects.map HeapObject.pages).sum

end RegionPool

/-- How a live region is reclaimed: by its own reference count, or by its owner's subtree drop. -/
inductive Reclaim where
  | counted (rc : Nat)
  | owned (owner : RuntimeRegion)
  deriving DecidableEq

/-- Per-region entry: storage, reclamation mode, the regions it owns, and its content edges both ways. -/
structure RegionEntry where
  pool : RegionPool
  reclaim : Reclaim
  ownedChildren : List RuntimeRegion
  outgoing : CountTable RuntimeRegion
  incoming : CountTable RuntimeRegion

/-- The independent reference count: zero for an owned region. -/
def RegionEntry.count (e : RegionEntry) : Nat :=
  match e.reclaim with
  | .counted rc => rc
  | .owned _ => 0

/-- A mint receipt: the id a mint handed out and the generation it carried then. -/
structure RegionMint where
  region : RuntimeRegion
  gen : Nat
  deriving DecidableEq

structure ReclaimCounters where
  regionFrees : Nat := 0
  pageFrees : Nat := 0
  objectFrees : Nat := 0
  onePageFrees : Nat := 0
  emptyFrees : Nat := 0
  oneObjectFrees : Nat := 0
  fewObjectFrees : Nat := 0
  manyObjectFrees : Nat := 0
  adopts : Nat := 0
  adoptsIntoEmpty : Nat := 0
  ownedFrees : Nat := 0
  ownedFreePages : Nat := 0
  ownedFreeObjects : Nat := 0
  ownedOnePageFrees : Nat := 0
  rescues : Nat := 0
  rescueSurvivors : Nat := 0
  extracts : Nat := 0
  reparents : Nat := 0

namespace ReclaimCounters

variable (c : ReclaimCounters)

/-- Count one region the free path tears down. -/
def countFree (pages objects : Nat) (owned : Bool) : ReclaimCounters :=
  let c := { c with
    regionFrees := c.regionFrees + 1
    pageFrees := c.pageFrees + pages
    objectFrees := c.objectFrees + objects
    onePageFrees := c.onePageFrees + if pages ≤ 1 then 1 else 0 }
  let c := match objects with
    | 0 => { c with emptyFrees := c.emptyFrees + 1 }
    | 1 => { c with oneObjectFrees := c.oneObjectFrees + 1 }
    | 2 | 3 | 4 => { c with fewObjectFrees := c.fewObjectFrees + 1 }
    | _ => { c with manyObjectFrees := c.manyObjectFrees + 1 }
  if owned then
    { c with
      ownedFrees := c.ownedFrees + 1
      ownedFreePages := c.ownedFreePages + pages
      ownedFreeObjects := c.ownedFreeObjects + objects
      ownedOnePageFrees := c.ownedOnePageFrees + if pages ≤ 1 then 1 else 0 }
  else c

def countAdopt (intoEmpty : Bool) : ReclaimCounters :=
  { c with adopts := c.adopts + 1, adoptsIntoEmpty := c.adoptsIntoEmpty + if intoEmpty then 1 else 0 }

def countExtract : ReclaimCounters := { c with extracts := c.extracts + 1 }

def countReparents (n : Nat) : ReclaimCounters := { c with reparents := c.reparents + n }

def countRescue (rescued survivors : Nat) : ReclaimCounters :=
  { c with rescues := c.rescues + rescued, rescueSurvivors := c.rescueSurvivors + survivors }

end ReclaimCounters

/-- The region table of a fiber heap.  `freePhysical` is a stack with its top at the head. -/
structure RegionStore where
  regions : Slots RegionEntry
  nextPhysical : RuntimeRegion
  freePhysical : List RuntimeRegion
  generations : List Nat
  mintLog : Option (List (RuntimeRegion × Nat))
  overFrees : Nat
  counters : ReclaimCounters
  fibers : List Fiber

namespace RegionStore

/-- The empty store: minting starts at id 2. -/
def new : RegionStore where
  regions := .empty
  nextPhysical := ⟨2, Nat.le_refl 2⟩
  freePhysical := []
  generations := []
  mintLog := none
  overFrees := 0
  counters := {}
  fibers := []

/-! ### Entries -/

variable (s : RegionStore) (r x : RuntimeRegion)

def find? : Option RegionEntry := s.regions.get? r.get

def isLive : Bool := (s.find? r).isSome

/-- The current generation of an id, 0 if it was never created. -/
def generationRaw : Nat := s.generations.getD r.get 0

def setEntry (e : RegionEntry) : RegionStore := { s with regions := s.regions.put r.get e }

def takeEntry : RegionStore := { s with regions := s.regions.take r.get }

def withCounters (c : ReclaimCounters) : RegionStore := { s with counters := c }

def modifyEntry (f : RegionEntry → RegionEntry) : RegionStore :=
  match s.find? r with
  | some e => s.setEntry r (f e)
  | none => s

variable {s r x}

@[simp] theorem find?_new : new.find? r = none := rfl

@[simp] theorem find?_withCounters {c : ReclaimCounters} : (s.withCounters c).find? x = s.find? x := rfl

variable {e : RegionEntry}

@[simp] theorem find?_setEntry : (s.setEntry r e).find? x = if x = r then some e else s.find? x := by
  simp [find?, setEntry]

@[simp] theorem find?_takeEntry : (s.takeEntry r).find? x = if x = r then none else s.find? x := by
  simp [find?, takeEntry]

@[simp] theorem find?_modifyEntry {f : RegionEntry → RegionEntry} :
    (s.modifyEntry r f).find? x = if x = r then (s.find? r).map f else s.find? x := by
  rw [modifyEntry]
  cases h : s.find? r with
  | some e => simp
  | none => by_cases hx : x = r <;> simp [hx, h]

/-- What is read of an entry after an update of `r`. -/
theorem elim_modifyEntry {α : Type*} {d : α} {f : RegionEntry → RegionEntry} {g : RegionEntry → α} :
    ((s.modifyEntry r f).find? x).elim d g = (s.find? x).elim d fun e => g (if x = r then f e else e) := by
  rw [find?_modifyEntry]
  by_cases hx : x = r
  · subst hx; cases s.find? x <;> simp
  · simp [hx]

theorem isLive_iff : s.isLive r ↔ ∃ e, s.find? r = some e := Option.isSome_iff_exists

theorem isLive_of_find? (h : s.find? r = some e) : s.isLive r := isLive_iff.2 ⟨e, h⟩

theorem not_isLive_iff : s.isLive r = false ↔ s.find? r = none := by simp [isLive]

/-! ### What an entry says: owned regions, content edges, reclamation mode -/

variable (s r x)

def children : List RuntimeRegion := (s.find? r).elim [] RegionEntry.ownedChildren

/-- The recorded content edges from `r` to `x`. -/
def out : Nat := (s.find? r).elim 0 fun e => e.outgoing.count x

/-- The mirror of the content edges from `x` to `r`, kept at `r`. -/
def inc : Nat := (s.find? r).elim 0 fun e => e.incoming.count x

def reclaim? : Option Reclaim := (s.find? r).map RegionEntry.reclaim

def live : Finset RuntimeRegion :=
  s.regions.occupied.filterMap RuntimeRegion.new fun a b r ha hb => by
    rw [Option.mem_def, RuntimeRegion.new_eq_some] at ha hb
    rw [ha, hb]

variable {s r x}

theorem mem_live : r ∈ s.live ↔ s.isLive r := by
  simp only [live, Finset.mem_filterMap, RuntimeRegion.new_eq_some, Slots.mem_occupied]
  exact ⟨fun ⟨i, hi, h⟩ => by subst h; exact hi, fun h => ⟨r.get, h, rfl⟩⟩

section

variable (h : s.find? r = some e)
include h

theorem children_of_find? : s.children r = e.ownedChildren := by
  simp [children, h]

theorem out_of_find? : s.out r x = e.outgoing.count x := by
  simp [out, h]

theorem inc_of_find? : s.inc r x = e.incoming.count x := by
  simp [inc, h]

theorem reclaim?_of_find? : s.reclaim? r = some e.reclaim := by
  simp [reclaim?, h]

end

theorem isLive_of_reclaim? {m : Reclaim} (h : s.reclaim? r = some m) : s.isLive r := by
  simp only [reclaim?, Option.map_eq_some_iff] at h
  exact isLive_iff.2 (h.imp fun _ h => h.1)

theorem isLive_of_mem_children (h : x ∈ s.children r) : s.isLive r := by
  cases he : s.find? r with
  | some e => exact isLive_of_find? he
  | none => simp [children, he] at h

theorem isLive_of_out (h : 0 < s.out r x) : s.isLive r := by
  cases he : s.find? r with
  | some e => exact isLive_of_find? he
  | none => simp [out, he] at h

/-! ### The ownership forest as a graph -/

variable (s r)

def ownership : FinGraph RuntimeRegion where
  succ := s.children
  support := s.live
  succ_eq_nil {a} ha := by
    rw [mem_live, Bool.not_eq_true, not_isLive_iff] at ha
    simp [children, ha]

theorem ownership_succ : s.ownership.succ r = s.children r := rfl

/-- A region with everything it owns, directly or through others. -/
@[irreducible] def subtree : Finset RuntimeRegion := s.ownership.closure [r]

variable {s r}

theorem mem_subtree : x ∈ s.subtree r ↔ s.ownership.Reach r x := by simp [subtree, FinGraph.mem_closure]

end RegionStore

end Elle

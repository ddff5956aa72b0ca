import Elle.Region.Store

/-! # Operations on the region store

Minting, lazy creation, reference counting, content edges and the ownership forest
(`regionstore/{alloc,refcount,ownership}.rs`), without the frees.  Every function is followed by what it does
to the entries of the store; proofs elsewhere use only those statements.
-/

namespace Elle

/-- The entry of a region at its creation: no objects, no edges, and the reference its creator holds. -/
def RegionEntry.fresh : RegionEntry := ⟨⟨[]⟩, .counted 1, [], .empty, .empty⟩

/-- One more reference; inert on an owned region, which has no count. -/
def RegionEntry.incref (e : RegionEntry) : RegionEntry :=
  match e.reclaim with
  | .counted rc => { e with reclaim := .counted (rc + 1) }
  | .owned _ => e

namespace RegionStore

variable (s : RegionStore) (r x : RuntimeRegion)

/-! ### Minting -/

/-- The state of the mint loop: the id it holds, the ids still to pop, and the next one never used. -/
structure MintState where
  id : RuntimeRegion
  free : List RuntimeRegion
  next : RuntimeRegion

/-- Pop a recycled id, or take the next one never used. -/
def popPhysical (free : List RuntimeRegion) (next : RuntimeRegion) : MintState :=
  match free with
  | id :: free => ⟨id, free, next⟩
  | [] => ⟨next, [], next.succ⟩

/-- A minted id must not name a live region: skip one that does. -/
def mintLoop : BoundedLoop MintState where
  step m := if s.isLive m.id then some (popPhysical m.free m.next) else none
  measure m := m.free.length + (s.regions.slots.length - m.next.get) + if s.isLive m.id then 1 else 0
  decreases {m m'} h := by
    split at h <;> rename_i hm
    · rw [Option.some.injEq] at h
      subst h
      obtain ⟨id, _ | ⟨f, free⟩, next⟩ := m
      · simp only [popPhysical, RuntimeRegion.succ, List.length_nil, hm, if_true]
        by_cases hn : s.isLive next
        · obtain ⟨e, he⟩ := isLive_iff.1 hn
          have := Slots.lt_length_of_get? he
          simp only [hn, if_true]; omega
        · simp only [hn, if_false, Bool.false_eq_true]; omega
      · simp only [popPhysical, List.length_cons, hm, if_true]
        by_cases hf : s.isLive f <;> simp only [hf, if_true, if_false, Bool.false_eq_true] <;> omega
    · simp at h

/-- Mint a physical region id: a recycled one when available, never one that names a live region.  The mint
is recorded in the log of the closed scope, if one is open. -/
def newRuntimeRegion : RuntimeRegion × RegionStore :=
  let m := s.mintLoop.run (popPhysical s.freePhysical s.nextPhysical)
  (m.id, { s with
    freePhysical := m.free
    nextPhysical := m.next
    mintLog := s.mintLog.map (· ++ [(m.id, s.generationRaw m.id)]) })

/-- Mint a physical region id together with the receipt that can return it. -/
def newRuntimeRegionTracked : RegionMint × RegionStore :=
  let (region, s) := s.newRuntimeRegion
  (⟨region, s.generationRaw region⟩, s)

/-- Return a minted id to the free list when the mint never materialized it. -/
def recycleUnmaterialized (mint : RegionMint) : RegionStore :=
  if s.isLive mint.region then s
  else if s.generationRaw mint.region ≠ mint.gen then s
  else { s with freePhysical := mint.region :: s.freePhysical }

/-! ### Lazy creation and counts -/

/-- Give every id up to `r` a generation, 0 for an id that had none. -/
def growGenerations : RegionStore :=
  { s with generations := s.generations ++ List.replicate (r.get + 1 - s.generations.length) 0 }

/-- Ensure an entry exists for `r`. -/
def ensure : RegionStore :=
  let s := s.growGenerations r
  if s.isLive r then s else s.setEntry r .fresh

def incref : RegionStore := (s.ensure r).modifyEntry r .incref

/-- A direct release that found nothing to release. -/
def overFree (direct : Bool) : RegionStore := if direct then { s with overFrees := s.overFrees + 1 } else s

/-- Decrement the count; the answer says that it reached zero and the region must be freed now. -/
def decrefReachesZero (fromCascade : Option RuntimeRegion) : RegionStore × Bool :=
  match s.find? r with
  | none => (s.overFree fromCascade.isNone, false)
  | some e =>
    match e.reclaim with
    | .owned _ => (s, false)
    | .counted rc =>
      if rc = 0 then (s.overFree fromCascade.isNone, true)
      else (s.setEntry r { e with reclaim := .counted (rc - 1) }, rc - 1 = 0)

/-! ### Content edges -/

/-- Add one edge `src → dst` to the table of its source and to the mirror at its target. -/
def addEdge (src dst : RuntimeRegion) : RegionStore :=
  (s.modifyEntry src fun e => { e with outgoing := e.outgoing.incr dst }).modifyEntry dst
    fun e => { e with incoming := e.incoming.incr src }

/-- Record one content edge `src → dst` and its mirror.  A reserved target and a self-edge record nothing. -/
def recordOutgoing (src dst : Nat) : RegionStore :=
  if dst = 0 ∨ dst = 1 ∨ dst = src then s
  else match RuntimeRegion.new src, RuntimeRegion.new dst with
    | some src, some dst =>
      if s.isLive src then s.addEdge src dst else s
    | _, _ => s

/-- Remove `n` from the mirror of the edge `src → dst`; a target that is gone took its mirror with it. -/
def unmirrorIncoming (src dst : RuntimeRegion) (n : Nat) : RegionStore :=
  s.modifyEntry dst fun e => { e with incoming := e.incoming.remove src n }

/-- Take one edge `src → dst` out of the table of its source and out of the mirror at its target. -/
def dropEdge (src dst : RuntimeRegion) : RegionStore :=
  (s.modifyEntry src fun e => { e with outgoing := e.outgoing.remove dst 1 }).unmirrorIncoming src dst 1

/-- Remove one content edge `src → dst` and its mirror. -/
def unrecordOutgoing (src dst : Nat) : RegionStore :=
  if dst = 0 ∨ dst = 1 ∨ dst = src then s
  else match RuntimeRegion.new src, RuntimeRegion.new dst with
    | some src, some dst =>
      if 0 < s.out src dst then s.dropEdge src dst else s
    | _, _ => s

/-! ### Allocation -/

/-- The live region of this store that owns the pointed-to page, if there is one. -/
def owningRegion (p : HeapPtr) : Option RuntimeRegion :=
  if s.isLive p.region ∧ s.generationRaw p.region = p.gen then some p.region else none

/-- The regions other than `own` that the values of an object lie in. -/
def findObjectCrossRefs (own : RuntimeRegion) (obj : HeapObject) : List RuntimeRegion :=
  (obj.values.filterMap s.owningRegion).filter (· ≠ own)

/-- Count and record every cross-region reference of an object of region `own`. -/
def increfCrossRegionRefs (own : RuntimeRegion) (obj : HeapObject) : RegionStore :=
  (s.findObjectCrossRefs own obj).foldl (fun s d => (s.incref d).recordOutgoing own.get d.get) s

def allocObj (obj : HeapObject) : RegionStore :=
  ((s.ensure r).increfCrossRegionRefs r obj).modifyEntry r
    fun e => { e with pool := ⟨e.pool.objects ++ [obj]⟩ }

/-! ### Ownership -/

/-- Link `child` as an owned member of `parent`'s subtree, consuming its reference count. -/
def adoptRegion (parent child : RuntimeRegion) : RegionStore :=
  let s := (s.ensure parent).ensure child
  let s := s.modifyEntry child fun e => { e with reclaim := .owned parent }
  let intoEmpty := (s.find? parent).elim false fun e => e.pool.objCount == 0
  let s := s.withCounters (s.counters.countAdopt intoEmpty)
  s.modifyEntry parent fun e => { e with ownedChildren := e.ownedChildren ++ [child] }

/-- The recorded edges into a region from outside a set of regions. -/
def externalIncoming (inside : Finset RuntimeRegion) : Nat :=
  (s.find? r).elim 0 fun e => e.incoming.sumWhere (· ∉ inside)

/-- Move `child` out of its owner's subtree: counted again, by the reference of the caller and the recorded
edges from outside its own subtree.  A counted child is left untouched. -/
def extractOwnedRegion (child : RuntimeRegion) : RegionStore :=
  match s.reclaim? child with
  | some (.owned owner) =>
    let external := s.externalIncoming child (s.subtree child)
    let s := s.modifyEntry child fun e => { e with reclaim := .counted (1 + external) }
    let s := s.withCounters (s.counters.countExtract)
    s.modifyEntry owner fun e => { e with ownedChildren := e.ownedChildren.filter (· ≠ child) }
  | _ => s

/-- Hand the whole direct `ownedChildren` set of `source` to `target`. -/
def reparentOwnedChildren (source target : RuntimeRegion) : RegionStore :=
  if source = target then s
  else match s.children source with
    | [] => s
    | children =>
      let s := s.modifyEntry source fun e => { e with ownedChildren := [] }
      let s := s.withCounters (s.counters.countReparents children.length)
      let s := s.ensure target
      let s := children.foldl (fun s c => s.modifyEntry c fun e => { e with reclaim := .owned target }) s
      s.modifyEntry target fun e => { e with ownedChildren := e.ownedChildren ++ children }

end RegionStore

end Elle

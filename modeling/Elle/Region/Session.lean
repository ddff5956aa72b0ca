import Elle.Region.Survivors

/-! # A client of the store

The run of a client that counts what it stores: every container store takes a reference and records an edge, every
removal gives both back, a direct release uses up a reference the client holds.  A session is the store in the
middle of a cascade, together with the client's account.  One event is one operation of the client, which the
store takes when no cascade is running, or one iteration of the cascade.
-/

namespace Elle

open RegionStore

/-- Whether a region is its owner's to reclaim. -/
def RegionStore.regionIsOwned (s : RegionStore) (r : RuntimeRegion) : Bool := (s.find? r).elim false RegionEntry.isOwned

theorem RegionStore.regionIsOwned_iff {s : RegionStore} {r : RuntimeRegion} :
    s.regionIsOwned r ↔ ∃ o, s.reclaim? r = some (.owned o) := by
  rw [regionIsOwned, reclaim?]
  cases s.find? r with
  | none => simp
  | some e => obtain ⟨_, _ | o, _, _, _⟩ := e <;> simp [RegionEntry.isOwned]

/-- The store with its running cascade, and the account of the client. -/
structure Session where
  cascade : Cascade
  held : RuntimeRegion → Nat
  stamps : RuntimeRegion → RuntimeRegion → List Nat

/-- What the client does, and the iteration of the cascade. -/
inductive SessionOp where
  | mint
  | alloc (r : RuntimeRegion) (obj : HeapObject)
  | store (src dst : RuntimeRegion)
  | remove (src dst : RuntimeRegion)
  | incref (r : RuntimeRegion)
  | decref (r : RuntimeRegion)
  | adopt (parent child : RuntimeRegion)
  | extract (src child : RuntimeRegion)
  | reparent (source target : RuntimeRegion)
  | tick

namespace Session

variable (S : Session)

abbrev regions : RegionStore := S.cascade.store

/-- Nothing is left to release and nothing to tear down. -/
def Idle : Prop := S.cascade.worklist = [] ∧ S.cascade.frontier = []

instance : Decidable S.Idle := inferInstanceAs (Decidable (_ ∧ _))

def new : Session := ⟨⟨.new, [], [], none, 0⟩, fun _ => 0, fun _ _ => []⟩

/-- The cascade a release starts: the region that was released last is torn down. -/
def release (s : RegionStore) (r : RuntimeRegion) : Cascade :=
  let d := s.decrefReachesZero r none
  ⟨d.1, if d.2 then [[r]] else [], [], none, 0⟩

/-- The references of the client when `r` is ensured: a region that is created is created with one. -/
def heldOnEnsure (s : RegionStore) (held : RuntimeRegion → Nat) (r : RuntimeRegion) : RuntimeRegion → Nat :=
  if s.isLive r then held else Function.update held r 1

def stamp (s : RegionStore) (stamps : RuntimeRegion → RuntimeRegion → List Nat) (src dst : RuntimeRegion) :
    RuntimeRegion → RuntimeRegion → List Nat :=
  Function.update stamps src (Function.update (stamps src) dst (s.generationRaw dst :: stamps src dst))

def unstamp (stamps : RuntimeRegion → RuntimeRegion → List Nat) (src dst : RuntimeRegion) :
    RuntimeRegion → RuntimeRegion → List Nat :=
  Function.update stamps src (Function.update (stamps src) dst (stamps src dst).tail)

def settled (s : RegionStore) : Cascade := ⟨s, [], [], none, 0⟩

def alloc (r : RuntimeRegion) (obj : HeapObject) : Session :=
  let s := S.regions.ensure r
  { cascade := settled (S.regions.allocObj r obj)
    held := heldOnEnsure S.regions S.held r
    stamps := (s.findObjectCrossRefs r obj).foldl (fun st d => stamp s st r d) S.stamps }

def store (src dst : RuntimeRegion) : Session :=
  let s := S.regions.incref dst
  { cascade := settled (s.recordOutgoing src.get dst.get)
    held := heldOnEnsure S.regions S.held dst
    stamps := if s.isLive src then stamp s S.stamps src dst else S.stamps }

def remove (src dst : RuntimeRegion) : Session :=
  { cascade := release (S.regions.unrecordOutgoing src.get dst.get) dst
    held := S.held
    stamps := unstamp S.stamps src dst }

def incref (r : RuntimeRegion) : Session :=
  let held := heldOnEnsure S.regions S.held r
  { S with
    cascade := settled (S.regions.incref r)
    held := if S.regions.regionIsOwned r then held else Function.update held r (held r + 1) }

def decref (r : RuntimeRegion) : Session :=
  { S with
    cascade := release S.regions r
    held := Function.update S.held r (S.held r - 1) }

def adopt (parent child : RuntimeRegion) : Session :=
  { S with
    cascade := settled (S.regions.adoptRegion parent child)
    held := Function.update (heldOnEnsure S.regions S.held parent) child 0 }

def extract (src child : RuntimeRegion) : Session :=
  { cascade := settled ((S.regions.unrecordOutgoing src.get child.get).extractOwnedRegion child)
    held := if S.regions.regionIsOwned child then Function.update S.held child 1 else S.held
    stamps := unstamp S.stamps src child }

def reparent (source target : RuntimeRegion) : Session :=
  { S with
    cascade := settled (S.regions.reparentOwnedChildren source target)
    held := if source = target ∨ S.regions.children source = [] then S.held
      else heldOnEnsure S.regions S.held target }

/-- One iteration of the cascade; the stamps of a region that is gone are dropped with its edges. -/
def tick (ord : IterOrder) : Session :=
  match cascadeStep ord S.cascade with
  | none => S
  | some c => { S with cascade := c, stamps := fun x y => if c.store.isLive x then S.stamps x y else [] }

def apply (e : IterOrder × SessionOp) : Session :=
  match e.2 with
  | .mint => { S with cascade := settled S.regions.newRuntimeRegion.2 }
  | .alloc r obj => S.alloc r obj
  | .store src dst => S.store src dst
  | .remove src dst => S.remove src dst
  | .incref r => S.incref r
  | .decref r => S.decref r
  | .adopt parent child => S.adopt parent child
  | .extract src child => S.extract src child
  | .reparent source target => S.reparent source target
  | .tick => S.tick e.1

/-- An owner node: a region without pages that owns others.  It is not owned itself and nothing points at it. -/
def OwnerNode (s : RegionStore) (n : RuntimeRegion) : Prop :=
  (∀ o, s.reclaim? n ≠ some (.owned o)) ∧ ∀ k, s.out k n = 0

instance (s : RegionStore) (n : RuntimeRegion) : Decidable (OwnerNode s n) :=
  decidable_of_iff (s.regionIsOwned n = false ∧ ∀ k ∈ s.live, s.out k n = 0) <| by
    rw [OwnerNode, ← Bool.not_eq_true, regionIsOwned_iff, not_exists]
    refine and_congr_right fun _ => ⟨fun h k => ?_, fun h k _ => h k⟩
    by_contra hne
    exact hne (h k (mem_live.2 (isLive_of_out (Nat.pos_of_ne_zero hne))))

def Discipline : SessionOp → Prop
  | .tick => True
  | .mint | .alloc _ _ | .incref _ | .extract _ _ => S.Idle
  | .store src dst => S.Idle ∧ src ≠ dst
  | .remove src dst => S.Idle ∧ 0 < S.regions.out src dst
  | .decref r => S.Idle ∧ 0 < S.held r
  | .adopt parent child => S.Idle ∧ parent ≠ child ∧ (∃ rc, S.regions.reclaim? child = some (.counted rc)) ∧
    parent ∉ S.regions.subtree child
  | .reparent source target => S.Idle ∧ OwnerNode S.regions source ∧ OwnerNode S.regions target

instance (s : RegionStore) (r : RuntimeRegion) : Decidable (∃ rc, s.reclaim? r = some (.counted rc)) :=
  match s.reclaim? r with
  | some (.counted rc) => .isTrue ⟨rc, rfl⟩
  | some (.owned _) => .isFalse (by simp)
  | none => .isFalse (by simp)

instance : DecidablePred S.Discipline := fun op => by
  cases op <;> simp only [Discipline] <;> infer_instance

/-- The count of `r` covers the references of the client and every recorded edge, those from its own subtree too. -/
def Covered (r : RuntimeRegion) : Prop :=
  ∀ rc, S.regions.reclaim? r = some (.counted rc) → S.held r + S.regions.edgesOutside r ∅ ≤ rc

/-- No edge from inside the subtree of its target is given back, or leaves that subtree, while the target's count
does not cover it, and none is left behind by a region that outlives the teardown of its target. -/
def BackEdgesCounted : SessionOp → Prop
  | .remove src dst => src ∉ S.regions.subtree dst ∨ S.Covered dst
  | .extract _ child => S.regions.regionIsOwned child →
    ∀ a rc, S.regions.reclaim? a = some (.counted rc) → child ∈ S.regions.subtree a →
      S.Covered a ∨ ∀ k ∈ S.regions.subtree child, S.regions.out k a = 0
  | .tick => S.cascade.frontier = [] → ∀ set ∈ S.cascade.worklist.head?, ∀ r ∈ set, ∀ m,
    S.regions.Spared r m → S.regions.out m r = 0
  | _ => True

end Session

end Elle

import Elle.Region.Ops

/-! # The wholesale free

A region whose count reached zero, or a co-owned group, is torn down with the whole subtree it owns
(`regionstore/free.rs`), except the members that a surviving region still references: those are rescued, they
become counted again and keep their own subtrees (`regionstore/free/rescue.rs`).  The recorded edges that
leave the torn-down set are its frontier; each is released, and a release that reaches zero is the next set of
an iterative cascade.

The source iterates over hash maps in an order it does not choose, so the frontier is built along an
arbitrary `IterOrder`.
-/

namespace Elle

structure IterOrder where
  iter : CountTable RuntimeRegion → List (RuntimeRegion × Nat)
  perm : ∀ t, (iter t).Perm t.entries

def IterOrder.listed : IterOrder := ⟨CountTable.entries, fun _ => .refl _⟩

def RegionEntry.isOwned (e : RegionEntry) : Bool :=
  match e.reclaim with
  | .owned _ => true
  | .counted _ => false

/-- A region of a candidate dying set with the owner that listed it; a root has none. -/
abbrev Candidate := RuntimeRegion × Option RuntimeRegion

namespace RegionStore

variable (s : RegionStore)

/-! ### Collecting the roots and everything they own -/

structure CollectState where
  stack : List Candidate
  dying : Finset RuntimeRegion
  candidates : List Candidate

/-- Pop a region; one that exists and was not collected yet is a candidate, and its children are pushed. -/
def collectStep (c : CollectState) : Option CollectState :=
  match c.stack with
  | [] => none
  | (r, owner) :: rest =>
    if r ∈ c.dying then some { c with stack := rest }
    else match s.find? r with
      | some e => some
        { stack := (e.ownedChildren.map fun c => (c, some r)).reverse ++ rest
          dying := insert r c.dying
          candidates := c.candidates ++ [(r, owner)] }
      | none => some { c with stack := rest }

def collecting : BoundedLoop CollectState where
  step := s.collectStep
  measure c := c.stack.length + s.ownership.unseen c.dying
  decreases {c c'} h := by
    obtain ⟨_ | ⟨⟨r, owner⟩, rest⟩, dying, candidates⟩ := c
    · simp [collectStep] at h
    by_cases hr : r ∈ dying
    · simp only [collectStep, hr, if_true, Option.some.injEq] at h
      subst h; simp
    · cases he : s.find? r with
      | none =>
        simp only [collectStep, hr, if_false, he, Option.some.injEq] at h
        subst h; simp
      | some e =>
        simp only [collectStep, hr, if_false, he, Option.some.injEq] at h
        subst h
        have := s.ownership.unseen_insert hr
        have hc : s.ownership.succ r = e.ownedChildren := children_of_find? he
        simp only [List.length_append, List.length_reverse, List.length_map, List.length_cons, hc] at this ⊢
        omega

/-- The candidate dying set: the roots that exist and what they own. -/
def collect (roots : List RuntimeRegion) : CollectState :=
  s.collecting.run ⟨(roots.map fun r => (r, none)).reverse, ∅, []⟩

/-! ### Rescuing what a survivor still references -/

structure RescueState where
  dying : Finset RuntimeRegion
  rescued : List (RuntimeRegion × RuntimeRegion)
  changed : Bool

/-- Some live region outside the dying set holds an edge into `r`. -/
def externallyReferenced (r : RuntimeRegion) (dying : Finset RuntimeRegion) : Bool :=
  (s.find? r).elim false fun e => e.incoming.entries.any fun i => i.1 ∉ dying && s.isLive i.1

/-- Rescue one candidate with its whole subtree, if it is still dying and referenced from outside.  A root is
never rescued. -/
def rescueOne (rs : RescueState) : Candidate → RescueState
  | (_, none) => rs
  | (r, some owner) =>
    if r ∈ rs.dying ∧ s.externallyReferenced r rs.dying then
      ⟨s.ownership.prune r rs.dying, rs.rescued ++ [(r, owner)], true⟩
    else rs

def rescuePass (candidates : List Candidate) (rs : RescueState) : RescueState :=
  candidates.foldl s.rescueOne { rs with changed := false }

theorem rescueOne_dying (rs : RescueState) (c : Candidate) :
    (s.rescueOne rs c).dying.card ≤ rs.dying.card ∧
      ((s.rescueOne rs c).changed → rs.changed ∨ (s.rescueOne rs c).dying.card < rs.dying.card) := by
  obtain ⟨r, _ | owner⟩ := c
  · exact ⟨Nat.le_refl _, .inl⟩
  by_cases h : r ∈ rs.dying ∧ s.externallyReferenced r rs.dying
  · have hlt : (s.ownership.prune r rs.dying).card < rs.dying.card :=
      Finset.card_lt_card ⟨FinGraph.prune_subset, fun hs => FinGraph.not_mem_prune_self (hs h.1)⟩
    simp only [rescueOne, h, and_self, if_true]
    exact ⟨hlt.le, fun _ => .inr hlt⟩
  · simp only [rescueOne, h, if_false]
    exact ⟨Nat.le_refl _, .inl⟩

theorem rescueFold_dying (candidates : List Candidate) (rs : RescueState) :
    (candidates.foldl s.rescueOne rs).dying.card ≤ rs.dying.card ∧
      ((candidates.foldl s.rescueOne rs).changed →
        rs.changed ∨ (candidates.foldl s.rescueOne rs).dying.card < rs.dying.card) := by
  induction candidates generalizing rs with
  | nil => exact ⟨Nat.le_refl _, .inl⟩
  | cons c cs ih =>
    obtain ⟨hle, hch⟩ := s.rescueOne_dying rs c
    obtain ⟨hle', hch'⟩ := ih (s.rescueOne rs c)
    refine ⟨hle'.trans hle, fun h => ?_⟩
    rcases hch' h with h | h
    · exact (hch h).imp_right hle'.trans_lt
    · exact .inr (h.trans_le hle)

/-- The passes until one rescues nothing. -/
def rescuing (candidates : List Candidate) : BoundedLoop RescueState where
  step rs := if (s.rescuePass candidates rs).changed then some (s.rescuePass candidates rs) else none
  measure rs := rs.dying.card
  decreases {rs rs'} h := by
    split at h <;> rename_i hch
    · rw [Option.some.injEq] at h
      subst h
      exact ((s.rescueFold_dying candidates { rs with changed := false }).2 hch).resolve_left (by simp)
    · simp at h

/-- Detach a rescued member from the owner that listed it. -/
def unlinkRescued (rescued : List (RuntimeRegion × RuntimeRegion)) : RegionStore :=
  rescued.foldl (fun s ro => s.modifyEntry ro.2 fun e =>
    { e with ownedChildren := e.ownedChildren.filter (· ≠ ro.1) }) s

/-- Give a rescued member the count of its recorded edges from outside its own remaining subtree. -/
def recount (r : RuntimeRegion) : RegionStore :=
  s.modifyEntry r fun e => { e with reclaim := .counted (s.externalIncoming r (s.subtree r)) }

/-- Prune from the dying set every non-root member still referenced by a survivor.  All rescued members are
unlinked before the first recount, so that a rescued descendant counts as outside. -/
def rescueExternallyReferenced (candidates : List Candidate) (dying : Finset RuntimeRegion) :
    RegionStore × Finset RuntimeRegion :=
  let rs := (s.rescuing candidates).run ⟨dying, [], false⟩
  if rs.rescued.isEmpty then (s, rs.dying)
  else
    let s := s.withCounters (s.counters.countRescue rs.rescued.length (dying.card - rs.dying.card))
    let s := s.unlinkRescued rs.rescued
    (rs.rescued.foldl (fun s ro => s.recount ro.1) s, rs.dying)

/-! ### Tearing a set down -/

/-- A torn-down region with the entry taken out of the table. -/
abbrev Member := RuntimeRegion × RegionEntry

/-- Unindex one candidate, if it is dying. -/
def unindexOne (dying : Finset RuntimeRegion) (sm : RegionStore × List Member) (c : Candidate) :
    RegionStore × List Member :=
  if c.1 ∈ dying then
    match sm.1.find? c.1 with
    | some e => (sm.1.takeEntry c.1, sm.2 ++ [(c.1, { e with ownedChildren := [] })])
    | none => sm
  else sm

def unindex (candidates : List Candidate) (dying : Finset RuntimeRegion) : RegionStore × List Member :=
  candidates.foldl (unindexOne dying) (s, [])

/-- The recorded edges of a member to regions that still exist, in iteration order. -/
def frontierEdges (ord : IterOrder) (m : Member) : List (RuntimeRegion × Nat) :=
  (ord.iter m.2.outgoing).filter fun t => s.isLive t.1

/-- The references to release: every frontier edge, as often as it is recorded. -/
def frontier (ord : IterOrder) (members : List Member) : List RuntimeRegion :=
  members.flatMap fun m => (s.frontierEdges ord m).flatMap fun t => List.replicate t.2 t.1

/-- Retire the frontier edges from the mirrors of their targets. -/
def retireEdges (ord : IterOrder) (members : List Member) : RegionStore :=
  (members.flatMap fun m => (s.frontierEdges ord m).map fun t => (m.1, t)).foldl
    (fun s e => s.unmirrorIncoming e.1 e.2.1 e.2.2) s

/-- The regions a fiber that never runs again still holds a reference on. -/
def discharged (f : Fiber) : List RuntimeRegion :=
  let protect := f.parked.protect.bind s.owningRegion
  f.parked.dues.nodes ++ f.parked.dues.deferred ++ f.fiberOwnerNode.toList ++
    (f.parked.dues.owed.filterMap s.owningRegion).filter (protect ≠ some ·) ++
    ((f.parked.dues.owedRegions.filter fun m => s.generationRaw m.region = m.gen ∧ s.isLive m.region).map
      MappedRegion.region).filter (protect ≠ some ·) ++
    (f.parked.signal.bind s.owningRegion).toList

/-- Take the parked state out of the fiber of a dying object; an executing fiber is skipped. -/
def dischargeObject (sd : RegionStore × List RuntimeRegion) (obj : HeapObject) : RegionStore × List RuntimeRegion :=
  match obj.fiber with
  | none => sd
  | some h =>
    match sd.1.fibers[h]? with
    | none => sd
    | some f =>
      if f.executing then sd
      else ({ sd.1 with fibers := sd.1.fibers.set h { f with parked := .nothing, fiberOwnerNode := none } },
        sd.2 ++ sd.1.discharged f)

def dischargeFibers (members : List Member) : RegionStore × List RuntimeRegion :=
  (members.flatMap fun m => m.2.pool.objects).foldl dischargeObject (s, [])

/-- Bump the generation of an id whose pages were returned. -/
def bumpGeneration (r : RuntimeRegion) : RegionStore :=
  { s with generations := s.generations.modify r.get fun g => (g + 1) % 2 ^ 32 }

/-- Return the pages of a member, bump its generation and recycle its id. -/
def release (m : Member) : RegionStore :=
  let s := s.withCounters (s.counters.countFree m.2.pool.pageCount m.2.pool.objCount m.2.isOwned)
  let s := s.bumpGeneration m.1
  { s with freePhysical := m.1 :: s.freePhysical }

/-- Tear down one region set as a unit: the objects freed and the references the caller must release. -/
def teardownSet (ord : IterOrder) (roots : List RuntimeRegion) : RegionStore × Nat × List RuntimeRegion :=
  let c := s.collect roots
  let rescue := s.rescueExternallyReferenced c.candidates c.dying
  let unindexed := rescue.1.unindex c.candidates rescue.2
  let members := unindexed.2
  if members.isEmpty then (unindexed.1, 0, [])
  else
    let frontier := unindexed.1.frontier ord members
    let discharge := (unindexed.1.retireEdges ord members).dischargeFibers members
    (members.foldl release discharge.1, (members.map fun m => m.2.pool.objCount).sum, frontier ++ discharge.2)

end RegionStore

end Elle

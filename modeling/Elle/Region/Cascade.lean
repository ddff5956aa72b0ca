import Elle.Region.Teardown

/-! # The free cascade

`free_region_set` drives the frees from a worklist: pop a set, tear it down, release every reference of its
frontier, and push each region whose release was its last.  `cascadeStep` is one iteration of those two nested
loops.  It uses up a recorded edge, a parked due of a fiber or an item of the worklist.
-/

namespace Elle

def Fiber.dueCount (f : Fiber) : Nat :=
  f.parked.dues.nodes.length + f.parked.dues.deferred.length + f.parked.dues.owed.length +
    f.parked.dues.owedRegions.length + f.parked.signal.toList.length + f.fiberOwnerNode.toList.length

namespace RegionStore

variable (s : RegionStore)

def outTotal (r : RuntimeRegion) : Nat := (s.find? r).elim 0 fun e => e.outgoing.sumWhere fun _ => True

/-- The releases the store still has in it: recorded edges and parked dues. -/
def pendingReleases : Nat := (∑ r ∈ s.live, s.outTotal r) + (s.fibers.map Fiber.dueCount).sum

variable {s} {x : RuntimeRegion} {ord : IterOrder} {roots : List RuntimeRegion}

theorem outTotal_of_find? {e : RegionEntry} (h : s.find? x = some e) :
    s.outTotal x = e.outgoing.sumWhere fun _ => True := by simp [outTotal, h]

theorem length_discharged_le (s : RegionStore) (f : Fiber) : (s.discharged f).length ≤ f.dueCount := by
  have h1 := List.length_filterMap_le s.owningRegion f.parked.dues.owed
  have h2 := List.length_filter_le (fun r => decide (f.parked.protect.bind s.owningRegion ≠ some r))
    (f.parked.dues.owed.filterMap s.owningRegion)
  have h3 := List.length_filter_le (fun m => decide (s.generationRaw m.region = m.gen ∧ s.isLive m.region))
    f.parked.dues.owedRegions
  have h4 := List.length_filter_le (fun r => decide (f.parked.protect.bind s.owningRegion ≠ some r))
    ((f.parked.dues.owedRegions.filter fun m => s.generationRaw m.region = m.gen ∧ s.isLive m.region).map
      MappedRegion.region)
  have h5 : (f.parked.signal.bind s.owningRegion).toList.length ≤ f.parked.signal.toList.length := by
    cases f.parked.signal with
    | none => simp
    | some p => cases h : s.owningRegion p <;> simp [h]
  rw [List.length_map] at h4
  simp only [discharged, Fiber.dueCount, List.length_append]
  omega

theorem sum_map_set {α : Type*} (f : α → Nat) {l : List α} {i : Nat} {a b : α} (h : l[i]? = some a) :
    ((l.set i b).map f).sum + f a = (l.map f).sum + f b := by
  induction l generalizing i with
  | nil => simp at h
  | cons c l ih =>
    cases i with
    | zero =>
      rw [List.getElem?_cons_zero, Option.some.injEq] at h
      subst h
      simp only [List.set_cons_zero, List.map_cons, List.sum_cons]
      omega
    | succ i =>
      have := ih (by simpa using h)
      simp only [List.set_cons_succ, List.map_cons, List.sum_cons]
      omega

theorem dues_dischargeObject (sd : RegionStore × List RuntimeRegion) (obj : HeapObject) :
    (dischargeObject sd obj).2.length + ((dischargeObject sd obj).1.fibers.map Fiber.dueCount).sum ≤
      sd.2.length + (sd.1.fibers.map Fiber.dueCount).sum := by
  rw [dischargeObject]
  split
  · exact Nat.le_refl _
  split
  · exact Nat.le_refl _
  split
  · exact Nat.le_refl _
  rename_i h _ f hf _
  have hset := sum_map_set Fiber.dueCount (b := { f with parked := .nothing, fiberOwnerNode := none }) hf
  have hzero : Fiber.dueCount { f with parked := .nothing, fiberOwnerNode := none } = 0 := rfl
  have hle := length_discharged_le sd.1 f
  simp only [List.length_append]
  omega

theorem dues_dischargeFibers (s : RegionStore) (ms : List Member) :
    (s.dischargeFibers ms).2.length + ((s.dischargeFibers ms).1.fibers.map Fiber.dueCount).sum ≤
      (s.fibers.map Fiber.dueCount).sum := by
  suffices ∀ (l : List HeapObject) (sd : RegionStore × List RuntimeRegion),
      (l.foldl dischargeObject sd).2.length + ((l.foldl dischargeObject sd).1.fibers.map Fiber.dueCount).sum ≤
        sd.2.length + (sd.1.fibers.map Fiber.dueCount).sum by
    simpa [dischargeFibers] using this (ms.flatMap fun m => m.2.pool.objects) (s, [])
  intro l
  induction l with
  | nil => exact fun _ => Nat.le_refl _
  | cons o l ih => exact fun sd => (ih _).trans (dues_dischargeObject sd o)

theorem length_frontier_le (s : RegionStore) (ord : IterOrder) (ms : List Member) :
    (s.frontier ord ms).length ≤ (ms.map fun m => m.2.outgoing.sumWhere fun _ => True).sum := by
  induction ms with
  | nil => simp [frontier]
  | cons m ms ih =>
    have hcons : s.frontier ord (m :: ms) =
        (s.frontierEdges ord m).flatMap (fun t => List.replicate t.2 t.1) ++ s.frontier ord ms := rfl
    have hone : ((s.frontierEdges ord m).flatMap fun t => List.replicate t.2 t.1).length ≤
        m.2.outgoing.sumWhere fun _ => True := by
      have hlen : ∀ l : List (RuntimeRegion × Nat),
          (l.flatMap fun t => List.replicate t.2 t.1).length = (l.map Prod.snd).sum := by
        intro l; induction l <;> simp_all
      have hsub : ((s.frontierEdges ord m).map Prod.snd).Sublist ((ord.iter m.2.outgoing).map Prod.snd) :=
        List.filter_sublist.map _
      rw [hlen, CountTable.sumWhere]
      calc _ ≤ ((ord.iter m.2.outgoing).map Prod.snd).sum := hsub.sum_le_sum fun _ _ => Nat.zero_le _
        _ = _ := by rw [((ord.perm m.2.outgoing).map Prod.snd).sum_eq]; simp
    rw [hcons, List.length_append, List.map_cons, List.sum_cons]
    omega

theorem sum_unindexed_outgoing {f : RuntimeRegion → Nat} {g : CountTable RuntimeRegion → Nat}
    (h : ∀ r e, s.find? r = some e → f r = g e.outgoing) :
    ((s.unindexed roots).2.map fun m => g m.2.outgoing).sum = ∑ r ∈ s.doomed roots, f r := by
  have hids : s.doomed roots = ((s.unindexed roots).2.map Prod.fst).toFinset := by
    ext x; rw [List.mem_toFinset, mem_unindexed_ids]
  rw [hids, List.sum_toFinset _ (nodup_unindexed s roots), List.map_map]
  refine congrArg List.sum (List.map_congr_left fun m hm => ?_)
  obtain ⟨-, e, he, ho, -⟩ := mem_unindexed hm
  rw [ho, Function.comp_apply, h _ _ he]

theorem outTotal_teardownSet (hx : x ∉ s.doomed roots) : (s.teardownSet ord roots).1.outTotal x = s.outTotal x :=
  (elim_teardownSet fun _ _ hsv => by rw [hsv.outgoing]).trans (if_neg hx)

theorem live_teardownSet : (s.teardownSet ord roots).1.live = s.live \ s.doomed roots := by
  ext x
  rw [mem_live, isLive_teardownSet, Finset.mem_sdiff, mem_live]

theorem pendingReleases_teardownSet (s : RegionStore) (ord : IterOrder) (roots : List RuntimeRegion) :
    (s.teardownSet ord roots).2.2.length + (s.teardownSet ord roots).1.pendingReleases ≤ s.pendingReleases := by
  have hsub : s.doomed roots ⊆ s.live := fun x hx => mem_live.2 (isLive_of_mem_doomed hx)
  have hedges : ∑ r ∈ (s.teardownSet ord roots).1.live, (s.teardownSet ord roots).1.outTotal r +
      ∑ r ∈ s.doomed roots, s.outTotal r = ∑ r ∈ s.live, s.outTotal r := by
    rw [live_teardownSet, Finset.sum_congr rfl fun x hx => outTotal_teardownSet (Finset.mem_sdiff.1 hx).2,
      Finset.sum_sdiff hsub]
  have hdis := dues_dischargeFibers ((s.unindexed roots).1.retireEdges ord (s.unindexed roots).2) (s.unindexed roots).2
  have hfr := length_frontier_le (s.unindexed roots).1 ord (s.unindexed roots).2
  rw [sum_unindexed_outgoing (g := (CountTable.sumWhere · fun _ => True)) fun _ _ => outTotal_of_find?] at hfr
  rw [fibers_retired] at hdis
  obtain ⟨hfibers, -, hlist⟩ := teardownSet_parts s ord roots
  rw [pendingReleases, pendingReleases, ← hedges, hfibers, hlist, List.length_append]
  omega

theorem pendingReleases_decrefReachesZero (s : RegionStore) (r : RuntimeRegion) (fc : Option RuntimeRegion) :
    (s.decrefReachesZero r fc).1.pendingReleases = s.pendingReleases := by
  have hout : ∀ x, (s.decrefReachesZero r fc).1.outTotal x = s.outTotal x := by
    intro x
    simp only [outTotal, find?_decrefReachesZero]
    by_cases hx : x = r
    · subst hx; cases s.find? x <;> simp
    · simp [hx]
  have hlive : (s.decrefReachesZero r fc).1.live = s.live := by
    ext x
    simp only [mem_live, isLive, find?_decrefReachesZero]
    by_cases hx : x = r
    · subst hx; cases s.find? x <;> simp
    · simp [hx]
  simp only [pendingReleases, hout, hlive, SameIds.decrefReachesZero.fibers]

/-! ### The loop -/

/-- A state of the cascade: the sets still to tear down, and the references of the last frontier still to
release, for which `src` is the cascade source. -/
structure Cascade where
  store : RegionStore
  worklist : List (List RuntimeRegion)
  frontier : List RuntimeRegion
  src : Option RuntimeRegion
  freed : Nat

/-- Release the next reference of the frontier, or tear down the next set of the worklist. -/
def cascadeStep (ord : IterOrder) (c : Cascade) : Option Cascade :=
  match c.frontier with
  | t :: rest =>
    let d := c.store.decrefReachesZero t c.src
    some { c with store := d.1, frontier := rest, worklist := if d.2 then [t] :: c.worklist else c.worklist }
  | [] =>
    match c.worklist with
    | [] => none
    | set :: worklist =>
      let t := c.store.teardownSet ord set
      some { store := t.1, worklist := worklist, frontier := t.2.2, src := set.head?, freed := c.freed + t.2.1 }

/-- An iteration of the cascade in any order: some reference of the frontier is released, or, when none is left, some
set of the worklist is torn down, along any order of its edge tables. -/
inductive Next : Cascade → Cascade → Prop
  | release {s : RegionStore} {worklist : List (List RuntimeRegion)} {before after : List RuntimeRegion}
      {t : RuntimeRegion} {src : Option RuntimeRegion} {freed : Nat} :
      Next ⟨s, worklist, before ++ t :: after, src, freed⟩
        ⟨(s.decrefReachesZero t src).1, if (s.decrefReachesZero t src).2 then [t] :: worklist else worklist,
          before ++ after, src, freed⟩
  | teardown (ord : IterOrder) {s : RegionStore} {before after : List (List RuntimeRegion)} {set : List RuntimeRegion}
      {src : Option RuntimeRegion} {freed : Nat} :
      Next ⟨s, before ++ set :: after, [], src, freed⟩
        ⟨(s.teardownSet ord set).1, before ++ after, (s.teardownSet ord set).2.2, set.head?,
          freed + (s.teardownSet ord set).2.1⟩

theorem cascadeStep_next {c c' : Cascade} (h : cascadeStep ord c = some c') : Next c c' := by
  obtain ⟨s, worklist, _ | ⟨t, rest⟩, src, freed⟩ := c
  · obtain _ | ⟨set, worklist⟩ := worklist
    · simp [cascadeStep] at h
    · cases h
      exact @Next.teardown ord s [] worklist set src freed
  · cases h
    exact @Next.release s worklist [] rest t src freed

theorem cascadeStep_eq_none {c : Cascade} (h : cascadeStep ord c = none) : c.worklist = [] ∧ c.frontier = [] := by
  obtain ⟨s, _ | ⟨set, worklist⟩, _ | ⟨t, rest⟩, src, freed⟩ := c
  · exact ⟨rfl, rfl⟩
  all_goals simp [cascadeStep] at h

/-- An iteration tears down the next set of the worklist, or releases the next reference of the frontier. -/
theorem cascadeStep_cases {c c' : Cascade} (h : cascadeStep ord c = some c') :
    (∃ set worklist, c.frontier = [] ∧ c.worklist = set :: worklist ∧
      c'.store = (c.store.teardownSet ord set).1 ∧ c'.worklist = worklist ∧
      c'.frontier = (c.store.teardownSet ord set).2.2) ∨
    ∃ t rest, c.frontier = t :: rest ∧ c'.store = (c.store.decrefReachesZero t c.src).1 ∧ c'.frontier = rest ∧
      c'.worklist = if (c.store.decrefReachesZero t c.src).2 then [t] :: c.worklist else c.worklist := by
  obtain ⟨s, worklist, _ | ⟨t, rest⟩, src, freed⟩ := c
  · obtain _ | ⟨set, worklist⟩ := worklist
    · simp [cascadeStep] at h
    · cases h
      exact .inl ⟨set, worklist, rfl, rfl, rfl, rfl, rfl⟩
  · cases h
    exact .inr ⟨t, rest, rfl, rfl, rfl, rfl⟩

/-- The cascade as a loop. -/
def cascading (ord : IterOrder) : BoundedLoop Cascade where
  step := cascadeStep ord
  measure c := 2 * (c.frontier.length + c.store.pendingReleases) + c.worklist.length
  decreases {c c'} h := by
    obtain ⟨set, worklist, hf, hw, hs, hw', hf'⟩ | ⟨t, rest, hf, hs, hf', hw'⟩ := cascadeStep_cases h
    · have := pendingReleases_teardownSet c.store ord set
      rw [hf, hw, hs, hw', hf', List.length_nil, List.length_cons]
      omega
    · have := pendingReleases_decrefReachesZero c.store t c.src
      rw [hf, hs, hf', hw', List.length_cons, this]
      split
      · rw [List.length_cons]; omega
      · omega

variable (s) (ord) (r : RuntimeRegion)

def freeRegionSet (roots : List RuntimeRegion) : RegionStore × Nat :=
  let c := (cascading ord).run ⟨s, [roots], [], none, 0⟩
  (c.store, c.freed)

/-- Release one reference, and free the region if it was the last. -/
def decrefWithCascade (fromCascade : Option RuntimeRegion) : RegionStore × Nat :=
  let d := s.decrefReachesZero r fromCascade
  if d.2 then d.1.freeRegionSet ord [r] else (d.1, 0)

/-- Release one reference directly. -/
def decref : RegionStore × Nat := s.decrefWithCascade ord r none

/-- Release one reference of a region that may not exist. -/
def decrefIfPresent : RegionStore × Nat := if s.isLive r then s.decref ord r else (s, 0)

/-- Free a co-owned group as one unit. -/
def freeRegionGroup (members : List RuntimeRegion) : RegionStore × Nat := s.freeRegionSet ord members

/-- Take the entry of slot `i`, if there is one, and return its pages. -/
def teardownSlot (i : Nat) : RegionStore :=
  match RuntimeRegion.new i with
  | some r => if s.isLive r then (s.takeEntry r).bumpGeneration r else s
  | none => s

/-- Tear down every region, at fiber death: generations are bumped, ids are not recycled. -/
def teardownAll : RegionStore := (List.range s.regions.slots.length).foldl teardownSlot s

/-! ### The closed allocation scope of a macro expansion -/

def beginMintLog : RegionStore := { s with mintLog := some [] }

/-- The logged mints that still name the region they minted, each id once, without the protected ones. -/
def survivors (protectedIds : List RuntimeRegion) (log : List (RuntimeRegion × Nat)) : List (RuntimeRegion × Nat) :=
  log.foldl (fun acc m =>
    if s.isLive m.1 ∧ s.generationRaw m.1 = m.2 ∧ m.1 ∉ protectedIds ∧ m.1 ∉ acc.map Prod.fst then acc ++ [m] else acc) []

/-- The references into `r` from the contents of the other survivors. -/
def inDegree (survivors : List RuntimeRegion) (r : RuntimeRegion) : Nat :=
  (survivors.map fun own => ((s.find? own).elim [] fun e =>
    (e.pool.objects.flatMap fun o => o.values.filterMap s.owningRegion).filter
      fun t => t ∈ survivors ∧ t ≠ own).count r).sum

/-- The references of a survivor that the scope never released. -/
def escape (survivors : List RuntimeRegion) (r : RuntimeRegion) : Nat :=
  (s.find? r).elim 0 RegionEntry.count - s.inDegree survivors r

/-- Release `r` up to `n` times, stopping once it no longer is the minted region. -/
def balance (r : RuntimeRegion) (gen : Nat) : Nat → RegionStore × Nat → RegionStore × Nat
  | 0, sf => sf
  | n + 1, sf =>
    if sf.1.isLive r ∧ sf.1.generationRaw r = gen then
      let d := sf.1.decrefWithCascade ord r none
      balance r gen n (d.1, sf.2 + d.2)
    else sf

/-- Close the scope and release the unexplained references of every survivor. -/
def reclaimMintScope (protectedIds : List RuntimeRegion) : RegionStore × Nat :=
  match s.mintLog with
  | none => (s, 0)
  | some log =>
    let s := { s with mintLog := none }
    let survivors := s.survivors protectedIds log
    survivors.foldl (fun sf m => balance ord m.1 m.2 (s.escape (survivors.map Prod.fst) m.1) sf) (s, 0)

end RegionStore

end Elle

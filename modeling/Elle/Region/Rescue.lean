import Elle.Region.Forest

/-! # Rescue and teardown in a forest

In a forest, a teardown of regions that are not owned takes whole subtrees, except what the rescue spares.
`RescueInv` is what rescuing one candidate after the other keeps: a spared region has its subtree spared with
it, and it is either cut loose or its owner is spared too.
-/

namespace Elle.RegionStore

variable {s : RegionStore} {r x y p c : RuntimeRegion} {ord : IterOrder} {roots : List RuntimeRegion}

/-- No region of the set is owned. -/
def Unowned (s : RegionStore) (roots : List RuntimeRegion) : Prop := ∀ r ∈ roots, ∀ o, s.reclaim? r ≠ some (.owned o)

theorem Listed.owner_collected (hs : s.Listed) (hu : s.Unowned roots) (hc : c ∈ s.children p)
    (h : c ∈ (s.collect roots).dying) : p ∈ (s.collect roots).dying := by
  have hinv := collect_inv (s := s) roots
  obtain ⟨⟨x, o⟩, hx, rfl⟩ := List.mem_map.1 ((hinv.ids c).1 h)
  rcases hinv.listed x o (.inl hx) with ⟨-, hr⟩ | ⟨q, -, hq, hxq⟩
  · exact absurd (hs.owner_of_child hc) (hu x hr p)
  · exact hs.owner_unique hc hxq ▸ hq

theorem Forest.mem_collected (hs : s.Forest) (hu : s.Unowned roots) (hc : c ∈ s.children p) :
    c ∈ (s.collect roots).dying ↔ p ∈ (s.collect roots).dying := by
  refine ⟨hs.listed.owner_collected hu hc, fun h => ?_⟩
  have := (collect_inv (s := s) roots).closed p h c hc (hs.isLive_child hc)
  rwa [collect_stack, List.mem_nil_iff, or_false] at this

theorem Forest.root_mem_collected (hr : r ∈ roots) (hl : s.isLive r) : r ∈ (s.collect roots).dying := by
  have := (collect_inv (s := s) roots).roots r hr hl
  rwa [collect_stack, List.mem_nil_iff, or_false] at this

theorem candidate_child (h : (x, some p) ∈ (s.collect roots).candidates) : x ∈ s.children p := by
  rcases (collect_inv (s := s) roots).listed x (some p) (.inl h) with ⟨h, -⟩ | ⟨q, hq, -, hx⟩
  · simp at h
  · rw [Option.some.injEq] at hq
    exact hq ▸ hx

/-- The dying set holds the owner of whatever it holds, and no member is rescued twice. -/
structure Pruned (s : RegionStore) (dying : Finset RuntimeRegion) (rescued : List (RuntimeRegion × RuntimeRegion)) :
    Prop where
  outside : ∀ {p c}, c ∈ s.children p → p ∉ dying → c ∉ dying
  cut : ∀ {x p}, (x, p) ∈ rescued → x ∈ s.children p ∧ x ∉ dying
  nodup : (rescued.map Prod.fst).Nodup

structure RescueInv (s : RegionStore) (roots : List RuntimeRegion) (dying : Finset RuntimeRegion)
    (rescued : List (RuntimeRegion × RuntimeRegion)) : Prop extends Pruned s dying rescued where
  detached : ∀ x ∈ (s.collect roots).dying, x ∉ dying →
    x ∈ rescued.map Prod.fst ∨ ∀ p, s.reclaim? x = some (.owned p) → p ∉ dying
  roots : ∀ r ∈ roots, s.isLive r → r ∈ dying

section

variable {dying : Finset RuntimeRegion} {rescued : List (RuntimeRegion × RuntimeRegion)}

theorem Pruned.start (hs : s.Listed) (hu : s.Unowned roots) : Pruned s (s.collect roots).dying [] :=
  ⟨fun hc hp h => hp (hs.owner_collected hu hc h), fun h => by simp at h, List.nodup_nil⟩

theorem Pruned.mem_prune (h : Pruned s dying rescued) :
    x ∈ s.ownership.prune r dying ↔ x ∈ dying ∧ ¬ s.ownership.Reach r x :=
  FinGraph.mem_prune fun _ hy _ hz => h.outside hz hy

theorem Pruned.prune (h : Pruned s dying rescued) (hr : r ∈ s.children p) (hd : r ∈ dying) :
    Pruned s (s.ownership.prune r dying) (rescued ++ [(r, p)]) := by
  refine ⟨fun {q d} hd hq hd' => ?_, fun {x q} hx => ?_, ?_⟩
  · rw [h.mem_prune] at hd' hq
    by_cases hqd : q ∈ dying
    · exact hd'.2 ((not_not.1 fun hn => hq ⟨hqd, hn⟩).tail hd)
    · exact h.outside hd hqd hd'.1
  · rcases List.mem_append.1 hx with hx | hx
    · exact ⟨(h.cut hx).1, fun hd => (h.cut hx).2 (h.mem_prune.1 hd).1⟩
    · simp only [List.mem_singleton, Prod.mk.injEq] at hx
      obtain ⟨rfl, rfl⟩ := hx
      exact ⟨hr, fun hd => (h.mem_prune.1 hd).2 .refl⟩
  · rw [List.map_append, List.map_singleton, List.nodup_append]
    refine ⟨h.nodup, by simp, fun x hx y hy hxy => ?_⟩
    obtain ⟨⟨x', q⟩, hmem', rfl⟩ := List.mem_map.1 hx
    have hx' : x' = r := hxy.trans (List.mem_singleton.1 hy)
    exact (h.cut hmem').2 (hx' ▸ hd)

theorem RescueInv.start (hs : s.Forest) (hu : s.Unowned roots) : RescueInv s roots (s.collect roots).dying [] :=
  ⟨.start hs.listed hu, fun _ hx hn => absurd hx hn, fun _ hr hl => Forest.root_mem_collected hr hl⟩

theorem RescueInv.prune (h : RescueInv s roots dying rescued) (hs : s.Forest) (hu : s.Unowned roots)
    (hr : r ∈ s.children p) (hd : r ∈ dying) : RescueInv s roots (s.ownership.prune r dying) (rescued ++ [(r, p)]) := by
  refine ⟨h.toPruned.prune hr hd, fun x hx hn => ?_, fun x hx hl => ?_⟩
  · simp only [List.map_append, List.mem_append, List.map_cons, List.map_nil, List.mem_singleton]
    by_cases hxd : x ∈ dying
    · have hreach : s.ownership.Reach r x := by
        by_contra hnr
        exact hn (h.mem_prune.2 ⟨hxd, hnr⟩)
      -- a region below `r` other than `r` has its owner below `r`
      rcases Relation.ReflTransGen.cases_tail hreach with heq | ⟨y, hry, hy⟩
      · exact .inl (.inr heq)
      · refine .inr fun q hq hqd => ?_
        rw [hs.owner_unique (hs.child_of_owner hq) hy, h.mem_prune] at hqd
        exact hqd.2 hry
    · exact (h.detached x hx hxd).imp .inl fun hp q hq hqd => hp q hq (h.mem_prune.1 hqd).1
  · refine h.mem_prune.2 ⟨h.roots x hx hl, fun hreach => ?_⟩
    rcases Relation.ReflTransGen.cases_tail hreach with rfl | ⟨y, -, hy⟩
    · exact hu _ hx _ (hs.owner_of_child hr)
    · exact hu _ hx _ (hs.owner_of_child hy)

end

theorem rescueInv (hs : s.Forest) (hu : s.Unowned roots) : RescueInv s roots (s.doomed roots) (s.rescued roots) :=
  rescue_inv (.start hs hu) fun hc hr _ h => h.prune hs hu (candidate_child hc) hr

/-! ### A teardown keeps the forest -/

theorem children_teardownSet : (s.teardownSet ord roots).1.children x =
    if x ∈ s.doomed roots then [] else (s.children x).filter fun c => (c, x) ∉ s.rescued roots := by
  rw [children, elim_teardownSet fun _ _ hsv => hsv.children, children]
  cases s.find? x <;> rfl

theorem reclaim?_teardownSet : (s.teardownSet ord roots).1.reclaim? x =
    if x ∈ s.doomed roots then none
    else if x ∈ (s.rescued roots).map Prod.fst then (s.reclaim? x).map fun _ => .counted (s.rescueCount roots x)
    else s.reclaim? x := by
  by_cases hx : x ∈ s.doomed roots
  · rw [if_pos hx, reclaim?, find?_teardownSet_doomed hx, Option.map_none]
  · rw [if_neg hx]
    cases h : s.find? x with
    | none => simp [reclaim?, h, find?_teardownSet_none h]
    | some e =>
      obtain ⟨e', he', hsv⟩ := teardownSet_survives ord hx h
      rw [reclaim?_of_find? he', reclaim?_of_find? h, hsv.reclaim]
      split <;> rfl

theorem Forest.teardownSet (hs : s.Forest) (hu : s.Unowned roots) : (s.teardownSet ord roots).1.Forest := by
  have hinv := rescueInv hs hu
  -- a survivor that was not cut loose has an owner that survives
  have hkeep : ∀ {x p}, s.reclaim? x = some (.owned p) → x ∉ s.doomed roots → x ∉ (s.rescued roots).map Prod.fst →
      p ∉ s.doomed roots := by
    intro x p ho hx hr hp
    have hc := hs.child_of_owner ho
    have hcol := (hs.mem_collected hu hc).2 (doomed_subset s roots hp)
    rcases hinv.detached x hcol hx with h | h
    exacts [hr h, h p ho hp]
  have howned : ∀ {x p}, (s.teardownSet ord roots).1.reclaim? x = some (.owned p) ↔
      x ∉ s.doomed roots ∧ x ∉ (s.rescued roots).map Prod.fst ∧ s.reclaim? x = some (.owned p) := by
    intro x p
    rw [reclaim?_teardownSet]
    by_cases h1 : x ∈ s.doomed roots
    · simp [h1]
    · by_cases h2 : x ∈ (s.rescued roots).map Prod.fst
      · rw [if_neg h1, if_pos h2]; simp [h2]
      · rw [if_neg h1, if_neg h2]; simp [h1, h2]
  refine hs.cutLoose ⟨fun {x p} hx => ?_, fun {x p} => ?_, fun p => ?_, fun hx => (isLive_teardownSet.1 hx).1⟩
  · obtain ⟨hd, hr, ho⟩ := howned.1 hx
    exact ⟨ho, isLive_teardownSet.2 ⟨isLive_of_mem_children (hs.child_of_owner ho), hkeep ho hd hr⟩⟩
  · rw [children_teardownSet, howned, isLive_teardownSet]
    by_cases hp : p ∈ s.doomed roots
    · simp [hp]
    · simp only [hp, if_false, List.mem_filter, decide_eq_true_eq, not_false_eq_true, and_true]
      constructor
      · rintro ⟨hc, hr⟩
        refine ⟨hc, isLive_of_mem_children hc, hinv.outside hc hp, fun h => hr ?_, hs.owner_of_child hc⟩
        obtain ⟨⟨x', q⟩, hxq, rfl⟩ := List.mem_map.1 h
        exact hs.owner_unique hc (hinv.cut hxq).1 ▸ hxq
      · rintro ⟨hc, -, -, hr, -⟩
        exact ⟨hc, fun h => hr (List.mem_map.2 ⟨_, h, rfl⟩)⟩
  · rw [children_teardownSet]
    split
    · exact List.nil_sublist _
    · exact List.filter_sublist

theorem FreeInv.unowned {I : RegionStore → Prop} (hrelease : ∀ {s r fc}, I s → I (s.decrefReachesZero r fc).1)
    (hteardown : ∀ {s ord roots}, I s → s.Unowned roots → I (s.teardownSet ord roots).1)
    (hlog : ∀ {s : RegionStore} {log}, I s → I { s with mintLog := log }) :
    FreeInv I fun s r => ∀ o, s.reclaim? r ≠ some (.owned o) where
  release := hrelease
  release_root _ hx o ho := hx o ((SameForest.decrefReachesZero.owned _ _).1 ho)
  zero {s r fc} _ hz o ho := by
    obtain ⟨rc, hrc, -⟩ := decrefReachesZero_snd.1 hz
    rw [SameForest.decrefReachesZero.owned, hrc] at ho
    simp at ho
  teardown := hteardown
  teardown_root {s ord roots x} _ _ hx o ho := by
    rw [reclaim?_teardownSet] at ho
    split at ho
    · simp at ho
    · split at ho
      · simp at ho
      · exact hx o ho
  mintLog := hlog

theorem forest_freeInv : FreeInv Forest fun s r => ∀ o, s.reclaim? r ≠ some (.owned o) :=
  .unowned (fun hs => hs.congr .decrefReachesZero) (fun hs hu => hs.teardownSet hu) fun hs =>
    hs.congr (.of_find? fun _ => rfl)

end Elle.RegionStore

namespace Elle

open RegionStore

/-- What the callers of the ownership operations promise: an adopted child is not owned and the parent is
neither the child nor below it, children are not handed to a region below their owner, and a co-owned group
has no owned member. -/
def ForestDiscipline (s : RegionStore) : Op → Prop
  | .adoptRegion p c => p ≠ c ∧ (∀ o, s.reclaim? c ≠ some (.owned o)) ∧ p ∉ s.subtree c
  | .reparentOwnedChildren a b => a = b ∨ b ∉ s.subtree a
  | .freeRegionGroup members => s.Unowned members
  | _ => True

theorem forest_apply {s : RegionStore} {ord : IterOrder} {op : Op} (hs : s.Forest) (ha : ForestDiscipline s op) :
    (op.apply ord s).Forest := by
  cases op with
  | newRuntimeRegion | newRuntimeRegionTracked | beginMintLog | setFibers fs =>
    exact hs.congr (.of_find? fun _ => rfl)
  | recycleUnmaterialized mint =>
    simp only [Op.apply, recycleUnmaterialized]
    split
    · exact hs
    · split
      · exact hs
      · exact hs.congr (.of_find? fun _ => rfl)
  | ensure r => exact hs.congr .ensure
  | incref r => exact hs.congr SameForest.frame.incref
  | decref r => exact forest_freeInv.decref hs
  | decrefIfPresent r => exact forest_freeInv.decrefIfPresent hs
  | recordOutgoing src dst => exact hs.congr SameForest.frame.recordOutgoing
  | unrecordOutgoing src dst => exact hs.congr SameForest.frame.unrecordOutgoing
  | allocObj r obj => exact hs.congr SameForest.frame.allocObj
  | adoptRegion p c => exact hs.adoptRegion ha.1 ha.2.1 ha.2.2
  | extractOwnedRegion c => exact hs.extractOwnedRegion c
  | reparentOwnedChildren a b => exact hs.reparentOwnedChildren ha
  | freeRegionGroup members => exact forest_freeInv.freeRegionSet hs ha
  | teardownAll => exact .of_empty fun _ => find?_teardownAll
  | reclaimMintScope ps => exact forest_freeInv.reclaimMintScope hs

theorem forest_of_reachable {s : RegionStore} (h : Reachable ForestDiscipline s) : s.Forest :=
  h.inv (.of_empty fun _ => rfl) fun _ _ _ hs ha => forest_apply hs ha

theorem Rooted.chain {s : RegionStore} {x : RuntimeRegion} (h : s.Rooted x) :
    ∃ r rc, Relation.ReflTransGen (fun c p => s.reclaim? c = some (.owned p)) x r ∧ s.reclaim? r = some (.counted rc) := by
  induction h with
  | counted hc => exact ⟨_, _, .refl, hc⟩
  | owned ho _ ih =>
    obtain ⟨r, rc, hr, hc⟩ := ih
    exact ⟨r, rc, .head ho hr, hc⟩

/-- In every run in which the callers of the ownership operations keep their promises, a region is listed among
the children of `p`, and then exactly once, if and only if it exists, records `p` as its owner and `p` exists;
and following owners from any region that exists reaches a counted region. -/
theorem ownership_forest {s : RegionStore} (h : Reachable ForestDiscipline s) :
    (∀ c p, (s.children p).count c = if s.reclaim? c = some (.owned p) ∧ s.isLive p then 1 else 0) ∧
    ∀ x, s.isLive x → ∃ r rc,
      Relation.ReflTransGen (fun c p => s.reclaim? c = some (.owned p)) x r ∧ s.reclaim? r = some (.counted rc) := by
  have hf := forest_of_reachable h
  refine ⟨fun c p => ?_, fun x hx => Rooted.chain (hf.rooted x hx)⟩
  split
  · rename_i hc
    exact List.count_eq_one_of_mem (hf.nodup p) (hf.child_of_owner hc.1)
  · rename_i hc
    exact List.count_eq_zero.2 fun hm => hc ⟨hf.owner_of_child hm, isLive_of_mem_children hm⟩

theorem ownership_forest_adopted :
    ((RegionStore.new.adoptRegion (region 0) (region 1)).children (region 0)).count (region 1) = 1 := by
  have h : Reachable ForestDiscipline (RegionStore.new.adoptRegion (region 0) (region 1)) :=
    .step .listed (.adoptRegion (region 0) (region 1)) .new ⟨by decide, fun _ => by simp [reclaim?], by decide +kernel⟩
  rw [(ownership_forest h).1]
  decide

end Elle

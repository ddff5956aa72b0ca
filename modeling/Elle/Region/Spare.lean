import Elle.Region.Tally

/-! # The rescue spares exactly what it must

What a teardown may take of the subtrees of its roots is a set that no region outside references, the roots excepted,
and that leaves a member whole subtrees or nothing (`Droppable`).  The rescue leaves the greatest such set to die.
-/

namespace Elle.RegionStore

variable {s t : RegionStore} {r x y p c k : RuntimeRegion} {ord : IterOrder} {roots : List RuntimeRegion}
  {D : Finset RuntimeRegion} {src : Option RuntimeRegion}

/-- A part of what the roots own that can be dropped as a unit: it has the roots, no member but a root is referenced by
a region that stays, and what stays keeps everything it owns. -/
structure Droppable (s : RegionStore) (roots : List RuntimeRegion) (D : Finset RuntimeRegion) : Prop where
  owned : ∀ x ∈ D, ∃ r ∈ roots, s.isLive r ∧ s.ownership.Reach r x
  rooted : ∀ r ∈ roots, s.isLive r → r ∈ D
  unreferenced : ∀ x ∈ D, x ∉ roots → ∀ k, s.isLive k → k ∉ D → s.out k x = 0
  subtrees : ∀ p c, c ∈ s.children p → p ∉ D → c ∉ D

theorem droppable_doomed (hm : s.Mirror) (hs : s.Forest) (hu : s.Unowned roots) : s.Droppable roots (s.doomed roots) := by
  have hinv := rescueInv hs hu
  refine ⟨fun x hx => (hs.mem_collect hu).1 (doomed_subset s roots hx), hinv.roots, fun x hx hr k _ hk => ?_,
    fun p c hc hp => hinv.outside hc hp⟩
  by_contra hne
  exact hr (root_of_out_doomed hm hk hx (Nat.pos_of_ne_zero hne))

theorem Droppable.subset_doomed (hD : s.Droppable roots D) (hm : s.Mirror) (hs : s.Forest) (hu : s.Unowned roots) :
    D ⊆ s.doomed roots := by
  refine (rescue_inv (I := fun d rescued => Pruned s d rescued ∧ D ⊆ d)
    ⟨.start hs.listed hu, fun x hx => (hs.mem_collect hu).2 (hD.owned x hx)⟩ fun {_ _ z p} hc hr hex ⟨hinv, hsub⟩ => ?_).2
  have hz := candidate_child hc
  refine ⟨hinv.prune hz hr, fun x hx => hinv.mem_prune.2 ⟨hsub hx, fun hreach => ?_⟩⟩
  have hzroot : z ∉ roots := fun h => hu z h p (hs.owner_of_child hz)
  obtain ⟨k, hk, ho⟩ := out_of_externallyReferenced hm hex
  have hzD : z ∉ D := fun h =>
    absurd (hD.unreferenced z h hzroot k (isLive_of_out ho) fun hkD => hk (hsub hkD)) (Nat.pos_iff_ne_zero.1 ho)
  exact hreach.mem_of_closed (S := fun y => y ∉ D) (fun a ha b hb => hD.subtrees a b hb ha) hzD hx

/-! ### The counts once the frontier is released -/

/-- Release every reference of a frontier, without the frees that follow. -/
def releaseFrontier (t : RegionStore) (src : Option RuntimeRegion) (l : List RuntimeRegion) : RegionStore :=
  l.foldl (fun t a => (t.decrefReachesZero a src).1) t

theorem reclaim?_releaseFrontier {l : List RuntimeRegion} {n : Nat} (h : t.reclaim? x = some (.counted n)) :
    (t.releaseFrontier src l).reclaim? x = some (.counted (n - l.count x)) := by
  induction l generalizing t n with
  | nil => exact h
  | cons a l ih =>
    by_cases hxa : x = a
    · subst hxa
      rw [List.count_cons_self, ← Nat.sub_sub, Nat.sub_right_comm]
      exact ih (reclaim?_decref_self h)
    · rw [List.count_cons_of_ne (Ne.symm hxa)]
      exact ih (by rw [reclaim?_decref_of_ne hxa, h])

theorem releaseFrontier_same (src : Option RuntimeRegion) (l : List RuntimeRegion) (t : RegionStore) :
    SameEdges t (t.releaseFrontier src l) ∧ SameForest t (t.releaseFrontier src l) := by
  induction l generalizing t with
  | nil => exact ⟨.of_find? fun _ => rfl, .of_find? fun _ => rfl⟩
  | cons a l ih =>
    obtain ⟨h1, h2⟩ := ih (t.decrefReachesZero a src).1
    exact ⟨SameEdges.trans .decrefReachesZero h1, SameForest.trans .decrefReachesZero h2⟩

theorem reclaim?_of_cut_loose {o : RuntimeRegion} {n : Nat} (ho : s.reclaim? x = some (.owned o))
    (hn : (s.teardownSet ord roots).1.reclaim? x = some (.counted n)) :
    (s.teardownSet ord roots).1.isLive x ∧ n = s.rescueCount roots x := by
  refine ⟨isLive_of_reclaim? hn, ?_⟩
  rw [reclaim?_teardownSet] at hn
  split at hn
  · simp at hn
  split at hn
  · rw [ho, Option.map_some, Option.some.injEq, Reclaim.counted.injEq] at hn
    exact hn.symm
  · simp [ho] at hn

/-- A teardown of regions that nothing owns takes the greatest set that can be dropped: no survivor keeps an edge into
a member of it that is not a root.  When no fiber in it owes a release, the releases of the frontier leave to each
region the rescue cut loose the edges of the survivors outside its own subtree. -/
theorem rescue_spares_exactly (hm : s.Mirror) (hs : s.Forest) (hu : s.Unowned roots) (ord : IterOrder) :
    IsGreatest {D | s.Droppable roots D} (s.gone (s.teardownSet ord roots).1) ∧
    (∀ k x, (s.teardownSet ord roots).1.isLive k → x ∈ s.gone (s.teardownSet ord roots).1 → x ∉ roots →
      (s.teardownSet ord roots).1.out k x = 0) ∧
    (s.Quiet (s.gone (s.teardownSet ord roots).1) → ∀ src x o n, s.reclaim? x = some (.owned o) →
      (s.teardownSet ord roots).1.reclaim? x = some (.counted n) →
      let t := (s.teardownSet ord roots).1.releaseFrontier src (s.teardownSet ord roots).2.2
      t.reclaim? x = some (.counted (t.edgesOutside x (t.subtree x)))) := by
  rw [gone_teardownSet]
  have hdrop := droppable_doomed hm hs hu
  refine ⟨⟨hdrop, fun D hD => hD.subset_doomed hm hs hu⟩, fun k x hk hx hr => ?_, fun hq src x o n ho hn => ?_⟩
  · obtain ⟨hl, hd⟩ := isLive_teardownSet.1 hk
    rw [out_teardownSet, if_neg hd]
    exact hdrop.unreferenced x hx hr k hl hd
  · obtain ⟨hlive, rfl⟩ := reclaim?_of_cut_loose ho hn
    obtain ⟨he, hf⟩ := releaseFrontier_same src (s.teardownSet ord roots).2.2 (s.teardownSet ord roots).1
    have hfront := count_frontier_of_discharged hlive (hq.discharge Finset.Subset.rfl).1
    have hcount := rescueCount_eq hm (rescueInv hs hu) hlive
    have hedges : ∀ S, ((s.teardownSet ord roots).1.releaseFrontier src (s.teardownSet ord roots).2.2).edgesOutside x S =
        (s.teardownSet ord roots).1.edgesOutside x S := fun S => edgesOutside_congr fun k => he.out k x
    dsimp only
    rw [reclaim?_releaseFrontier hn, hedges, subtree_congr hf.children, hfront, hcount, Nat.add_sub_cancel_left]

/-- Region 2 owns region 3, which owns region 4; region 5 holds an edge into region 4. -/
def heldGrandchild : RegionStore :=
  (((RegionStore.new.adoptRegion (region 0) (region 1)).adoptRegion (region 1) (region 2)).ensure (region 3)).recordOutgoing 5 4

theorem mirror_heldGrandchild : heldGrandchild.Mirror := by
  have hnew : RegionStore.new.Mirror := .of_empty fun _ => rfl
  have hout : ∀ x y, (RegionStore.new.adoptRegion (region 0) (region 1)).out x y = 0 := fun x y => by
    rw [SameEdges.adoptRegion.out, out_ensure, out_ensure]; rfl
  refine (((hnew.adoptRegion (.inr fun _ => rfl) (.inr fun _ => rfl)).adoptRegion (.inr fun _ => hout _ _)
    (.inr fun _ => hout _ _)).ensure (.inr fun _ => ?_)).recordOutgoing 5 4
  rw [SameEdges.adoptRegion.out, out_ensure, out_ensure, hout]

theorem forest_heldGrandchild : heldGrandchild.Forest := by
  have hnew : RegionStore.new.Forest := .of_empty fun _ => rfl
  have h1 := hnew.adoptRegion (p := region 0) (c := region 1) (by decide) (fun o => by simp [reclaim?]) (by decide +kernel)
  have h2 := h1.adoptRegion (p := region 1) (c := region 2) (by decide) (fun o => by
      have hnone : (RegionStore.new.adoptRegion (region 0) (region 1)).reclaim? (region 2) = none := by decide +kernel
      simp [hnone]) (by decide +kernel)
  exact (h2.congr .ensure).congr SameForest.frame.recordOutgoing

/-- Dropping region 2 takes region 3 and spares region 4, whose one reference is the edge of region 5. -/
theorem rescue_spares_exactly_grandchild :
    let s := heldGrandchild
    s.Mirror ∧ s.Forest ∧ s.Unowned [region 0] ∧
    s.gone (s.teardownSet .listed [region 0]).1 = {region 0, region 1} ∧
    (s.teardownSet .listed [region 0]).1.reclaim? (region 2) = some (.counted 1) ∧
    IsGreatest {D | s.Droppable [region 0] D} (s.gone (s.teardownSet .listed [region 0]).1) := by
  have hu : heldGrandchild.Unowned [region 0] := fun r hr o ho => by
    have hrc : heldGrandchild.reclaim? (region 0) = some (.counted 1) := by decide +kernel
    rw [List.mem_singleton.1 hr, hrc] at ho
    simp at ho
  exact ⟨mirror_heldGrandchild, forest_heldGrandchild, hu, by decide +kernel, by decide +kernel,
    (rescue_spares_exactly mirror_heldGrandchild forest_heldGrandchild hu .listed).1⟩

/-- A fiber in region 2 that parked a reference on region 4 releases it when region 2 is dropped: region 4 is left
without a count, although region 5 still holds an edge into it. -/
theorem rescue_count_taken_by_due :
    let s := { heldGrandchild.allocObj (region 0) ⟨[], some 0, 1⟩ with
      fibers := [⟨false, ⟨⟨[region 2], [], [], []⟩, none, none⟩, none⟩] }
    s.Mirror ∧ s.Forest ∧ s.Unowned [region 0] ∧
    let t := (s.teardownSet .listed [region 0]).1.releaseFrontier none (s.teardownSet .listed [region 0]).2.2
    (s.teardownSet .listed [region 0]).1.reclaim? (region 2) = some (.counted 1) ∧
    t.reclaim? (region 2) = some (.counted 0) ∧ t.edgesOutside (region 2) (t.subtree (region 2)) = 1 := by
  intro s
  refine ⟨?_, ?_, fun r hr o ho => ?_, by decide +kernel, by decide +kernel, by decide +kernel⟩
  · exact (mirror_heldGrandchild.allocObj (.inl (by decide +kernel)) _).congr (.of_find? fun _ => rfl)
  · exact (forest_heldGrandchild.congr SameForest.frame.allocObj).congr (.of_find? fun _ => rfl)
  · have hrc : s.reclaim? (region 0) = some (.counted 1) := by decide +kernel
    rw [List.mem_singleton.1 hr, hrc] at ho
    simp at ho

end Elle.RegionStore

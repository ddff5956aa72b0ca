import Elle.Lib.RefGraph
import Elle.Region.Tally

/-! # The free cascade computes the fixpoint of reference counting

In a store without ownership, a release that reaches zero frees the least set of regions closed under reference
counting (`RefGraph.Closed`), whatever the order of the worklist and of the edge tables.
-/

namespace Elle.RegionStore

open List

variable {s t : RegionStore} {r x : RuntimeRegion} {ord : IterOrder} {S : Finset RuntimeRegion}

def Flat (s : RegionStore) : Prop :=
  ∀ x e, s.find? x = some e → (∃ n, e.reclaim = .counted n) ∧ e.ownedChildren = []

theorem Flat.counted (hs : s.Flat) (hx : s.isLive x) : ∃ n, s.reclaim? x = some (.counted n) := by
  obtain ⟨e, he⟩ := isLive_iff.1 hx
  obtain ⟨⟨n, hn⟩, -⟩ := hs x e he
  exact ⟨n, by rw [reclaim?_of_find? he, hn]⟩

theorem Flat.children (hs : s.Flat) (x : RuntimeRegion) : s.children x = [] := by
  cases he : s.find? x with
  | none => simp [RegionStore.children, he]
  | some e => rw [children_of_find? he, (hs x e he).2]

theorem Flat.forest (hs : s.Flat) : s.Forest := by
  refine ⟨fun {p c} hc => ?_, fun {p c} ho => ?_, fun p => ?_, fun x hx => ?_⟩
  · simp [hs.children] at hc
  · obtain ⟨n, hn⟩ := hs.counted (isLive_of_reclaim? ho)
    simp [ho] at hn
  · simp [hs.children]
  · obtain ⟨n, hn⟩ := hs.counted hx
    exact .counted hn

def refCount (s : RegionStore) (x : RuntimeRegion) : Nat := (s.find? x).elim 0 RegionEntry.count

theorem refCount_of_counted {n : Nat} (h : s.reclaim? x = some (.counted n)) : s.refCount x = n := by
  obtain ⟨e, he, her⟩ := Option.map_eq_some_iff.1 h
  rw [refCount, he, Option.elim_some, RegionEntry.count, her]

def refGraph (s : RegionStore) : RefGraph RuntimeRegion := ⟨s.live, s.out, s.refCount⟩

/-- From `s` to `s'` exactly the regions of `S` were freed, each once, `freed` objects in all, and every survivor lost
the edges recorded at them. -/
structure Fallen (s : RegionStore) (S : Finset RuntimeRegion) (s' : RegionStore) (freed : Nat) : Prop where
  live : s'.live = s.live \ S
  once : ∃ ids : List RuntimeRegion, ids.Nodup ∧ ids.toFinset = S ∧ s'.freePhysical = ids ++ s.freePhysical
  objects : freed = ∑ x ∈ S, s.objectCount x
  counts : ∀ x ∈ s'.live, s'.refCount x + s.edgesFrom S x = s.refCount x

/-! ### The cascade from one release -/

/-- The direct releases of one release of `r`. -/
def once (r x : RuntimeRegion) : Nat := 0 + if x = r then 1 else 0

def released (s : RegionStore) (r : RuntimeRegion) : Cascade := ⟨(s.decrefReachesZero r none).1, [[r]], [], none, 0⟩

theorem tally_released (hs : s.Flat) (hq : s.Quiet S) (hz : (s.decrefReachesZero r none).2) :
    Tally s (once r) S (s.released r) := by
  have h := (Tally.start hs.forest hq).direct r none (m := 0)
  rwa [if_pos hz] at h

theorem doomed_subset_closed {w₁ w₂ : List (List RuntimeRegion)} {a : List RuntimeRegion} {src : Option RuntimeRegion}
    {freed : Nat} (hs : s.Flat) (hc : s.refGraph.Covered r) (hS : s.refGraph.Closed r S)
    (h : Tally s (once r) S ⟨t, w₁ ++ a :: w₂, [], src, freed⟩) (hgone : s.gone t ⊆ S) : t.doomed a ⊆ S := by
  intro x hx
  obtain ⟨n, hfrees⟩ : ∃ n, Frees s t n := h.frees
  have hin : a ∈ w₁ ++ a :: w₂ := mem_append_right _ mem_cons_self
  have hlive := hfrees.isLive (isLive_of_mem_doomed hx)
  obtain ⟨z, rfl⟩ := h.single a hin
  have hxz : x = z := by
    obtain ⟨⟨y, o⟩, hy, rfl⟩ := List.mem_map.1 (((collect_inv [z]).ids x).1 (doomed_subset t [z] hx))
    rcases (collect_inv [z]).listed y o (.inl hy) with ⟨-, hr⟩ | ⟨p, -, -, hyp⟩
    · exact List.mem_singleton.1 hr
    · have := hfrees.children hyp
      simp [hs.children] at this
  subst hxz
  obtain ⟨n, hn⟩ := hs.counted hlive
  by_cases hxr : x = r
  · exact hxr ▸ hS.root
  · obtain ⟨hle, hpos⟩ := h.due hn (.inl hin)
    simp only [once, if_neg hxr, Nat.add_zero] at hle hpos
    refine hS.mem_of_subset hc hgone (mem_live.2 hlive) hxr hpos ?_
    exact (refCount_of_counted hn).le.trans hle

theorem tally_run {c : Cascade} (hs : s.Flat) (hc : s.refGraph.Covered r) (hS : s.refGraph.Closed r S) (hq : s.Quiet S)
    (hz : (s.decrefReachesZero r none).2) (hrun : Relation.ReflTransGen Next (s.released r) c) :
    Tally s (once r) S c ∧ s.gone c.store ⊆ S := by
  induction hrun with
  | refl =>
    refine ⟨tally_released hs hq hz, fun x hx => ?_⟩
    have := mem_gone.1 hx
    simp [released, isLive_decrefReachesZero] at this
  | tail _ hn ih =>
    obtain ⟨h, hgone⟩ := ih
    cases hn with
    | release => exact ⟨h.release, by rwa [gone_decrefReachesZero]⟩
    | teardown ord =>
      have hd := doomed_subset_closed hs hc hS h hgone
      obtain ⟨n, hfrees⟩ := h.frees
      refine ⟨h.teardown hd, ?_⟩
      rw [hfrees.gone_trans (frees_teardownSet _ ord _), gone_teardownSet]
      exact Finset.union_subset hgone hd

theorem closed_of_done {c : Cascade} (hs : s.Flat) (hz : (s.decrefReachesZero r none).2)
    (h : Tally s (once r) S c) (hw : c.worklist = []) (hf : c.frontier = []) : s.refGraph.Closed r (s.gone c.store) := by
  have hcount : ∀ {x n}, s.reclaim? x = some (.counted n) → x ∉ s.gone c.store →
      ∃ m, m + s.edgesFrom (s.gone c.store) x + once r x = n ∧ (m = 0 → n = 0) := fun {x n} hx hg => by
    have hlive : c.store.isLive x := by
      by_contra hl
      exact hg (mem_gone.2 ⟨isLive_of_reclaim? hx, hl⟩)
    obtain ⟨m, -, hsum, hzero⟩ := h.count hx hlive (by rw [hw]; exact not_mem_nil)
    exact ⟨m, by simpa [hf] using hsum, hzero⟩
  refine ⟨?_, Finset.sdiff_subset, fun x hx hpos heq => ?_⟩
  · obtain ⟨rc, hrc, hle⟩ := decrefReachesZero_snd.1 hz
    by_contra hg
    obtain ⟨m, hsum, hzero⟩ := hcount hrc hg
    simp only [once, if_true] at hsum
    omega
  · obtain ⟨n, hn⟩ := hs.counted (mem_live.1 hx)
    by_contra hg
    obtain ⟨m, hsum, hzero⟩ := hcount hn hg
    have heq' : n = s.edgesFrom (s.gone c.store) x := (refCount_of_counted hn).symm.trans heq
    have hpos' : 0 < s.edgesFrom (s.gone c.store) x := hpos
    omega

theorem fallen_of_done {c : Cascade} (hs : s.Flat) (hc : s.refGraph.Covered r) (hS : IsLeast {S | s.refGraph.Closed r S} S)
    (hq : s.Quiet S) (hz : (s.decrefReachesZero r none).2) (hrun : Relation.ReflTransGen Next (s.released r) c)
    (hw : c.worklist = []) (hf : c.frontier = []) : Fallen s S c.store c.freed := by
  obtain ⟨h, hsub⟩ := tally_run hs hc hS.1 hq hz hrun
  have hgone : s.gone c.store = S := Finset.Subset.antisymm hsub (hS.2 (closed_of_done hs hz h hw hf))
  obtain ⟨n, hfrees, hfreed⟩ := frees_of_run hrun
  have hall := (frees_decrefReachesZero s r none).trans hfrees
  obtain ⟨ids, hnd, hids, hfree⟩ := hall.ids
  have hr : r ∈ s.gone c.store := hgone ▸ hS.1.root
  refine ⟨?_, ⟨ids, hnd, hids.trans hgone, hfree⟩, ?_, fun x hx => ?_⟩
  · rw [← hgone, gone, Finset.sdiff_sdiff_eq_self hall.live_subset]
  · rw [hfreed, ← hgone, ← hall.objects]
    simp [released]
  · have hlive := mem_live.1 hx
    obtain ⟨k, hk⟩ := hs.counted (hall.isLive hlive)
    obtain ⟨m, hm, hsum, -⟩ := h.count hk hlive (by rw [hw]; exact not_mem_nil)
    have hxr : x ≠ r := fun hxr => (mem_gone.1 hr).2 (hxr ▸ hlive)
    rw [refCount_of_counted hm, refCount_of_counted hk, ← hgone]
    simpa [once, hxr, hf] using hsum

/-! ### What a release frees -/

/-- Every iteration uses up a recorded edge, a parked due or an item of the worklist, in any order. -/
theorem Next.measure_lt {c c' : Cascade} (h : Next c c') : (cascading ord).measure c' < (cascading ord).measure c := by
  cases h with
  | @release s w before after a src freed =>
    have := pendingReleases_decrefReachesZero s a src
    simp only [cascading, length_append, length_cons, this]
    split
    · rw [length_cons]; omega
    · omega
  | @teardown ord s before after set src freed =>
    have := pendingReleases_teardownSet s ord set
    simp only [cascading, length_append, length_cons, length_nil]
    omega

theorem acc_next (c : Cascade) : Acc (fun c' c => Next c c') c :=
  Subrelation.accessible (fun h => @Next.measure_lt .listed _ _ h) (InvImage.accessible _ (Nat.lt_wfRel.wf.apply _))

theorem done_of_stuck {c : Cascade} (h : ∀ c', ¬ Next c c') : c.worklist = [] ∧ c.frontier = [] :=
  @cascadeStep_eq_none .listed c <| Option.eq_none_iff_forall_ne_some.2 fun c' hc => h c' (cascadeStep_next hc)

/-- In a store without ownership whose counts cover the recorded edges, a release that reaches zero frees the least set
closed under reference counting, provided no fiber in it owes a release of its own.  Its cascade ends in every order,
and it frees that set in every order. -/
theorem decref_frees_least (hs : s.Flat) (hcover : ∀ x ∈ s.live, s.edgesFrom s.live x ≤ s.refCount x)
    (hz : (s.decrefReachesZero r none).2 = true) :
    ∃ S, IsLeast {S | s.refGraph.Closed r S} S ∧ (s.Quiet S →
      (∀ ord, Fallen s S (s.decref ord r).1 (s.decref ord r).2) ∧
      Acc (fun c' c => Next c c') (s.released r) ∧
      ∀ c, Relation.ReflTransGen Next (s.released r) c → (∀ c', ¬ Next c c') → Fallen s S c.store c.freed) := by
  have hc : s.refGraph.Covered r := fun x hx _ => hcover x hx
  obtain ⟨rc, hrc, -⟩ := decrefReachesZero_snd.1 hz
  obtain ⟨S, hS⟩ := RefGraph.exists_isLeast_closed hc (mem_live.2 (isLive_of_reclaim? hrc))
  refine ⟨S, hS, fun hq => ⟨fun ord => ?_, acc_next _, fun c hrun hstuck => ?_⟩⟩
  · obtain ⟨c, hrun, hw, hf, heq⟩ := freeRegionSet_run (s.decrefReachesZero r none).1 ord [r]
    rw [decref, decrefWithCascade]
    simp only [hz, if_true, heq]
    exact fallen_of_done hs hc hS hq hz hrun hw hf
  · obtain ⟨hw, hf⟩ := done_of_stuck hstuck
    exact fallen_of_done hs hc hS hq hz hrun hw hf

instance (s : RegionStore) : Decidable s.Flat :=
  decidable_of_iff (∀ x ∈ s.live, (s.find? x).all fun e => !e.isOwned && e.ownedChildren.isEmpty) <| by
    refine ⟨fun h x e he => ?_, fun h x hx => ?_⟩
    · have := h x (mem_live.2 (isLive_of_find? he))
      rw [he, Option.all_some, Bool.and_eq_true, List.isEmpty_iff] at this
      refine ⟨?_, this.2⟩
      cases hr : e.reclaim with
      | counted n => exact ⟨n, rfl⟩
      | owned o => simp [RegionEntry.isOwned, hr] at this
    · obtain ⟨e, he⟩ := isLive_iff.1 (mem_live.1 hx)
      obtain ⟨⟨n, hn⟩, hc⟩ := h x e he
      simp [he, RegionEntry.isOwned, hn, hc]

/-- Region 2 holds the only reference on region 3, and region 3 one of the two on region 4: releasing region 2 frees
regions 2 and 3 and leaves region 4 one reference. -/
theorem decref_frees_least_chain :
    let s := ((((RegionStore.new.ensure (region 0)).ensure (region 1)).incref (region 2)).recordOutgoing 2 3).recordOutgoing 3 4
    s.Flat ∧ (∀ x ∈ s.live, s.edgesFrom s.live x ≤ s.refCount x) ∧ (s.decrefReachesZero (region 0) none).2 = true ∧
    (s.decref .listed (region 0)).1.live = {region 2} ∧
    ∃ S, IsLeast {S | s.refGraph.Closed (region 0) S} S ∧
      ∀ ord, Fallen s S (s.decref ord (region 0)).1 (s.decref ord (region 0)).2 := by
  intro s
  have hs : s.Flat := by decide +kernel
  have hcover : ∀ x ∈ s.live, s.edgesFrom s.live x ≤ s.refCount x := by decide +kernel
  have hz : (s.decrefReachesZero (region 0) none).2 = true := by decide +kernel
  obtain ⟨S, hS, h⟩ := decref_frees_least hs hcover hz
  have hq : s.Quiet S := fun _ _ _ _ _ _ i f _ hf => by
    have hnone : s.fibers = [] := by decide +kernel
    simp [hnone] at hf
  exact ⟨hs, hcover, hz, by decide +kernel, S, hS, (h hq).1⟩

/-- Region 2 holds a fiber that parked a reference on region 3, which no edge records: releasing region 2 discharges
the fiber and frees region 3 too, although region 2 alone is closed. -/
theorem decref_frees_parked_due :
    let s := { ((RegionStore.new.ensure (region 0)).ensure (region 1)).allocObj (region 0) ⟨[], some 0, 1⟩ with
      fibers := [⟨false, ⟨⟨[region 1], [], [], []⟩, none, none⟩, none⟩] }
    s.Flat ∧ s.Mirror ∧ (∀ x ∈ s.live, s.edgesFrom s.live x ≤ s.refCount x) ∧
    (s.decrefReachesZero (region 0) none).2 = true ∧
    IsLeast {S | s.refGraph.Closed (region 0) S} {region 0} ∧
    (s.decref .listed (region 0)).1.live = ∅ := by
  intro s
  have hnew : RegionStore.new.Mirror := .of_empty fun _ => rfl
  have hm : s.Mirror :=
    (((hnew.ensure (.inr fun _ => rfl)).ensure (.inr fun _ => by rw [out_ensure]; rfl)).allocObj
      (.inl (by decide +kernel)) _).congr (.of_find? fun _ => rfl)
  refine ⟨by decide +kernel, hm, by decide +kernel, by decide +kernel, ⟨⟨by simp, ?_, ?_⟩, fun T hT => ?_⟩, by decide +kernel⟩
  · exact Finset.singleton_subset_iff.2 (mem_live.2 (by decide +kernel))
  · have hheld : ∀ x ∈ s.live, ¬ 0 < s.edgesFrom {region 0} x := by decide +kernel
    exact fun x hx hpos _ => absurd hpos (hheld x hx)
  · exact Finset.singleton_subset_iff.2 hT.root

end Elle.RegionStore

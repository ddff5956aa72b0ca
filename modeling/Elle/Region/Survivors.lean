import Elle.Region.Rescue
import Elle.Region.FreeList

/-! # Who survives a teardown, and what it still points at

A teardown of a region takes its subtree, except what a survivor still references: `Spared` says, of the store before
the teardown, which regions of the subtree those are.
-/

namespace Elle.RegionStore

open List

variable {s s' : RegionStore} {r x y p c k : RuntimeRegion} {ord : IterOrder} {roots : List RuntimeRegion}

theorem subtree_mono (h : ∀ a b, b ∈ s.children a → b ∈ s'.children a) (r : RuntimeRegion) :
    ∀ k ∈ s.subtree r, k ∈ s'.subtree r := fun _ hk =>
  mem_subtree.2 ((mem_subtree.1 hk).mono fun a b hb => h a b hb)

/-! ### Edges from outside a set -/

/-- The edges into `r` from live regions outside `S`. -/
def edgesOutside (s : RegionStore) (r : RuntimeRegion) (S : Finset RuntimeRegion) : Nat := ∑ k ∈ s.live \ S, s.out k r

theorem Mirror.externalIncoming (hs : s.Mirror) (hr : s.isLive r) (S : Finset RuntimeRegion) :
    s.externalIncoming r S = s.edgesOutside r S := by
  obtain ⟨e, he⟩ := isLive_iff.1 hr
  have hkeys : e.incoming.keys ⊆ s.live := fun k hk => by
    rw [CountTable.mem_keys, ← inc_of_find? he] at hk
    rw [hs.mirror _ _ hr] at hk
    exact mem_live.2 (isLive_of_out hk)
  rw [externalIncoming_of_find? he, CountTable.sumWhere_eq_sum_of_subset hkeys, edgesOutside, Finset.sdiff_eq_filter]
  refine Finset.sum_congr rfl fun k _ => ?_
  rw [← inc_of_find? he, hs.mirror _ _ hr]

theorem edgesOutside_mono {S S' : Finset RuntimeRegion} (h : ∀ k, k ∉ S' → 0 < s'.out k r → k ∉ S)
    (hle : ∀ k, s'.out k r ≤ s.out k r) : s'.edgesOutside r S' ≤ s.edgesOutside r S := by
  calc s'.edgesOutside r S' ≤ ∑ k ∈ s.live \ S, s'.out k r := by
        refine Finset.sum_le_sum_of_ne_zero fun k hk hne => ?_
        have hpos : 0 < s'.out k r := Nat.pos_of_ne_zero hne
        exact Finset.mem_sdiff.2 ⟨mem_live.2 (isLive_of_out (hpos.trans_le (hle k))), h k (Finset.mem_sdiff.1 hk).2 hpos⟩
    _ ≤ _ := Finset.sum_le_sum fun k _ => hle k

theorem edgesOutside_congr {S : Finset RuntimeRegion} (h : ∀ k, s'.out k r = s.out k r) :
    s'.edgesOutside r S = s.edgesOutside r S :=
  Nat.le_antisymm (edgesOutside_mono (fun _ hk _ => hk) fun k => (h k).le)
    (edgesOutside_mono (fun _ hk _ => hk) fun k => (h k).ge)

theorem SameEdges.edgesOutside_le {S S' : Finset RuntimeRegion} (he : SameEdges s s')
    (h : ∀ k ∈ S, 0 < s.out k r → k ∈ S') : s'.edgesOutside r S' ≤ s.edgesOutside r S :=
  edgesOutside_mono (fun k hk hpos hS => hk (h k hS (he.out k r ▸ hpos))) fun k => (he.out k r).le

/-! ### The collected set -/

theorem Forest.mem_collect (hs : s.Forest) (hu : s.Unowned roots) :
    x ∈ (s.collect roots).dying ↔ ∃ r ∈ roots, s.isLive r ∧ s.ownership.Reach r x := by
  have hinv := collect_inv (s := s) roots
  constructor
  · intro hx
    have hrooted := hs.rooted x (hinv.live x hx)
    induction hrooted with
    | @counted x rc hc =>
      obtain ⟨⟨y, o⟩, hy, rfl⟩ := List.mem_map.1 ((hinv.ids x).1 hx)
      rcases hinv.listed y o (.inl hy) with ⟨-, hr⟩ | ⟨p, -, -, hyp⟩
      · exact ⟨y, hr, isLive_of_reclaim? hc, .refl⟩
      · exact absurd hyp (hs.not_child_of_counted hc)
    | @owned x p ho _ ih =>
      have hc := hs.child_of_owner ho
      obtain ⟨r, hr, hl, hreach⟩ := ih ((hs.mem_collected hu hc).1 hx)
      exact ⟨r, hr, hl, hreach.tail hc⟩
  · rintro ⟨r, hr, hl, hreach⟩
    exact hreach.mem_of_closed (fun p hp c hc => (hs.mem_collected hu hc).2 hp) (Forest.root_mem_collected hr hl)

theorem Forest.mem_collect_of_reach (hs : s.Forest) (hu : s.Unowned roots) (h : s.ownership.Reach x y) :
    y ∈ (s.collect roots).dying ↔ x ∈ (s.collect roots).dying := by
  induction h with
  | refl => exact Iff.rfl
  | tail _ hc ih => exact (hs.mem_collected hu hc).trans ih

/-! ### When the rescue ends -/

theorem rescueOne_changed {rs : RescueState} {c : Candidate} (h : (s.rescueOne rs c).changed = false) :
    s.rescueOne rs c = rs ∧ ∀ x p, c = (x, some p) → x ∈ rs.dying → s.externallyReferenced x rs.dying = false := by
  obtain ⟨r, _ | p⟩ := c
  · exact ⟨rfl, fun x p hc => by simp at hc⟩
  · simp only [rescueOne] at h ⊢
    split at h
    · simp at h
    · rename_i hn
      refine ⟨if_neg hn, fun x q hc hx => ?_⟩
      simp only [Prod.mk.injEq] at hc
      obtain ⟨rfl, -⟩ := hc
      exact Bool.eq_false_iff.2 fun he => hn ⟨hx, he⟩

theorem rescueFold_changed {cs : List Candidate} {rs : RescueState} (h : (cs.foldl s.rescueOne rs).changed = false) :
    rs.changed = false ∧
      ∀ x p, (x, some p) ∈ cs → x ∈ rs.dying → s.externallyReferenced x rs.dying = false := by
  induction cs generalizing rs with
  | nil => exact ⟨h, by simp⟩
  | cons c cs ih =>
    obtain ⟨hch, hrest⟩ := ih h
    obtain ⟨heq, hone⟩ := rescueOne_changed hch
    rw [heq] at hch hrest
    refine ⟨hch, fun x p hx hd => ?_⟩
    rcases List.mem_cons.1 hx with hx | hx
    · exact hone x p hx.symm hd
    · exact hrest x p hx hd

/-- When the rescue ends, no member it leaves to die is referenced from outside, the roots excepted. -/
theorem not_externallyReferenced (h : (x, some p) ∈ (s.collect roots).candidates) (hx : x ∈ s.doomed roots) :
    s.externallyReferenced x (s.doomed roots) = false := by
  have hexit := BoundedLoop.step_run (L := s.rescuing (s.collect roots).candidates) ⟨(s.collect roots).dying, [], false⟩
  have hpass : (s.rescuePass (s.collect roots).candidates (s.rescue roots)).changed = false := by
    by_contra hch
    rw [Bool.not_eq_false] at hch
    have hstep : (s.rescuing (s.collect roots).candidates).step (s.rescue roots) = _ := if_pos hch
    rw [rescue, hexit] at hstep
    simp at hstep
  exact (rescueFold_changed hpass).2 x p h hx

theorem externallyReferenced_of_out (hs : s.Mirror) {dying : Finset RuntimeRegion} (hx : s.isLive x)
    (hk : 0 < s.out k x) (hd : k ∉ dying) : s.externallyReferenced x dying := by
  obtain ⟨e, he⟩ := isLive_iff.1 hx
  have hcount : 0 < e.incoming.count k := by rw [← inc_of_find? he, hs.mirror _ _ hx]; exact hk
  rw [externallyReferenced, he, Option.elim_some, any_eq_true]
  exact ⟨(k, e.incoming.count k), CountTable.mem_entries_iff.2 ⟨rfl, hcount⟩, by simp [hd, isLive_of_out hk]⟩

theorem out_of_externallyReferenced (hs : s.Mirror) {dying : Finset RuntimeRegion}
    (h : s.externallyReferenced x dying) : ∃ k, k ∉ dying ∧ 0 < s.out k x := by
  rw [externallyReferenced] at h
  cases he : s.find? x with
  | none => simp [he] at h
  | some e =>
    rw [he, Option.elim_some, any_eq_true] at h
    obtain ⟨⟨k, n⟩, hk, hd⟩ := h
    simp only [Bool.and_eq_true, decide_eq_true_eq] at hd
    obtain ⟨rfl, hpos⟩ := CountTable.mem_entries_iff.1 hk
    rw [← inc_of_find? he, hs.mirror _ _ (isLive_of_find? he)] at hpos
    exact ⟨k, hd.1, hpos⟩

theorem root_of_out_doomed (hm : s.Mirror) (hk : k ∉ s.doomed roots) (hx : x ∈ s.doomed roots) (ho : 0 < s.out k x) :
    x ∈ roots := by
  have hinv := collect_inv (s := s) roots
  obtain ⟨⟨y, o⟩, hy, rfl⟩ := List.mem_map.1 ((hinv.ids x).1 (doomed_subset s roots hx))
  rcases hinv.listed y o (.inl hy) with ⟨-, hr⟩ | ⟨p, rfl, -, -⟩
  · exact hr
  · have := not_externallyReferenced hy hx
    rw [externallyReferenced_of_out hm (isLive_of_mem_doomed hx) ho hk] at this
    simp at this

/-! ### The spared regions -/

/-- The regions of the subtree of `r` that a teardown of `r` spares: those referenced from outside the subtree, those
that a spared region references, and everything below them.  The root is not spared. -/
inductive Spared (s : RegionStore) (r : RuntimeRegion) : RuntimeRegion → Prop
  | external {src x : RuntimeRegion} : x ∈ s.subtree r → x ≠ r → src ∉ s.subtree r → 0 < s.out src x → Spared s r x
  | spread {y x : RuntimeRegion} : Spared s r y → x ∈ s.subtree r → x ≠ r → 0 < s.out y x → Spared s r x
  | child {x c : RuntimeRegion} : Spared s r x → c ∈ s.children x → Spared s r c

theorem spared_of_survives (hm : s.Mirror) (hs : s.Forest) (hu : s.Unowned [r]) (hr : s.isLive r) (hx : x ∈ s.subtree r)
    (hd : x ∉ s.doomed [r]) : s.Spared r x := by
  have hcol : ∀ y, y ∈ (s.collect [r]).dying ↔ y ∈ s.subtree r := fun y => by
    rw [hs.mem_collect hu, mem_subtree]; simp [hr]
  refine (rescue_inv (I := fun d rescued => Pruned s d rescued ∧ ∀ y ∈ (s.collect [r]).dying, y ∉ d → s.Spared r y)
    ⟨.start hs.listed hu, fun y hy hn => absurd hy hn⟩ fun {d _ z p} hc hd hex ⟨hinv, hsp⟩ => ?_).2 x ((hcol x).2 hx) hd
  have hz := candidate_child hc
  refine ⟨hinv.prune hz hd, fun y hy hyn => ?_⟩
  by_cases hyd : y ∈ d
  swap
  · exact hsp y hy hyd
  -- `z` is referenced from outside the dying set, and `y` is below it
  have hzr : z ≠ r := fun h => hu r (by simp) p (h ▸ hs.owner_of_child hz)
  have hzsub : z ∈ s.subtree r := (hcol z).1 (((collect_inv [r]).ids z).2 (List.mem_map.2 ⟨_, hc, rfl⟩))
  have hspz : s.Spared r z := by
    obtain ⟨k, hk, ho⟩ := out_of_externallyReferenced hm hex
    by_cases hks : k ∈ s.subtree r
    · exact .spread (hsp k ((hcol k).2 hks) hk) hzsub hzr ho
    · exact .external hzsub hzr hks ho
  have hreach : s.ownership.Reach z y := by
    by_contra hn
    exact hyn (hinv.mem_prune.2 ⟨hyd, hn⟩)
  exact hreach.mem_of_closed (fun a ha b hb => .child ha hb) hspz

/-! ### The frontier -/

theorem dischargeFibers_of_nil {ms : List Member} (h : s.fibers = []) : s.dischargeFibers ms = (s, []) := by
  have hone : ∀ obj, dischargeObject (s, []) obj = (s, []) := fun obj => by
    rw [dischargeObject]
    split
    · rfl
    · simp [h]
  rw [dischargeFibers]
  generalize ms.flatMap _ = l
  induction l with
  | nil => rfl
  | cons o l ih => rw [foldl_cons, hone, ih]

/-- When its fibers owe nothing, a teardown releases into a survivor as many references as the regions torn down held
edges. -/
theorem count_frontier_of_discharged (hx : (s.teardownSet ord roots).1.isLive x)
    (hd : (((s.unindexed roots).1.retireEdges ord (s.unindexed roots).2).dischargeFibers (s.unindexed roots).2).2 = []) :
    (s.teardownSet ord roots).2.2.count x = ∑ d ∈ s.doomed roots, s.out d x := by
  have hlive : (s.unindexed roots).1.isLive x := by
    obtain ⟨hl, hd⟩ := isLive_teardownSet.1 hx
    rw [isLive, find?_unindexed, if_neg hd, find?_rescue, Option.isSome_map]
    exact hl
  rw [(teardownSet_parts s ord roots).2.2, hd, append_nil, count_frontier, if_pos hlive]
  exact sum_unindexed_outgoing (g := (CountTable.count · x)) fun _ _ => out_of_find?

theorem discharge_of_nil (hf : s.fibers = []) :
    ((s.unindexed roots).1.retireEdges ord (s.unindexed roots).2).dischargeFibers (s.unindexed roots).2 =
      ((s.unindexed roots).1.retireEdges ord (s.unindexed roots).2, []) :=
  dischargeFibers_of_nil ((fibers_retired s ord roots).trans hf)

theorem count_frontier_teardownSet (hf : s.fibers = []) (hx : (s.teardownSet ord roots).1.isLive x) :
    (s.teardownSet ord roots).2.2.count x = ∑ d ∈ s.doomed roots, s.out d x :=
  count_frontier_of_discharged hx (by rw [discharge_of_nil hf])

theorem fibers_teardownSet (hf : s.fibers = []) : (s.teardownSet ord roots).1.fibers = [] := by
  rw [(teardownSet_parts s ord roots).1, discharge_of_nil hf]
  exact (fibers_retired s ord roots).trans hf

/-- The regions torn down and those outside `S` after the teardown are different regions. -/
theorem doomed_add_edgesOutside {S : Finset RuntimeRegion} :
    ∑ d ∈ s.doomed roots, s.out d x + (s.teardownSet ord roots).1.edgesOutside x S =
      ∑ k ∈ s.doomed roots ∪ (s.live \ s.doomed roots) \ S, s.out k x := by
  rw [Finset.sum_union (Finset.disjoint_left.2 fun k hk hk' => (Finset.mem_sdiff.1 (Finset.mem_sdiff.1 hk').1).2 hk),
    edgesOutside, live_teardownSet]
  refine congrArg _ (Finset.sum_congr rfl fun k hk => ?_)
  rw [out_teardownSet, if_neg (Finset.mem_sdiff.1 (Finset.mem_sdiff.1 hk).1).2]

/-- The edges from outside into a survivor after a teardown, with those of the regions torn down, are edges from
outside before it. -/
theorem edgesOutside_teardownSet {S S' : Finset RuntimeRegion} (hd : ∀ d ∈ s.doomed roots, d ∉ S) (hS : S ⊆ S') :
    ∑ d ∈ s.doomed roots, s.out d x + (s.teardownSet ord roots).1.edgesOutside x S' ≤ s.edgesOutside x S := by
  have hsub : s.doomed roots ⊆ s.live := fun d hd => mem_live.2 (isLive_of_mem_doomed hd)
  rw [doomed_add_edgesOutside]
  refine Finset.sum_le_sum_of_subset fun k hk => ?_
  rcases Finset.mem_union.1 hk with h | h
  · exact Finset.mem_sdiff.2 ⟨hsub h, hd k h⟩
  · have h' := Finset.mem_sdiff.1 h
    exact Finset.mem_sdiff.2 ⟨(Finset.mem_sdiff.1 h'.1).1, fun hS' => h'.2 (hS hS')⟩

/-! ### The subtree of a survivor -/

theorem rescued_collected (h : (x, p) ∈ s.rescued roots) : x ∈ (s.collect roots).dying := by
  suffices ∀ x p, (x, p) ∈ s.rescued roots → x ∈ (s.collect roots).dying from this x p h
  refine rescue_inv (I := fun _ rescued => ∀ x p, (x, p) ∈ rescued → x ∈ (s.collect roots).dying) (by simp)
    fun hc _ _ h x p hx => ?_
  rcases List.mem_append.1 hx with hx | hx
  · exact h x p hx
  · simp only [mem_singleton, Prod.mk.injEq] at hx
    exact hx.1 ▸ ((collect_inv roots).ids _).2 (List.mem_map.2 ⟨_, hc, rfl⟩)

/-- The links of `u` below a survivor `x` are links of the store a teardown leaves, when they are links of `s` that
the rescue did not cut. -/
theorem RescueInv.reach_teardownSet {u : RegionStore} (hinv : RescueInv s roots (s.doomed roots) (s.rescued roots))
    (hu : ∀ y z, u.ownership.Reach x y → z ∈ u.children y → z ∈ s.children y ∧ (z, y) ∉ s.rescued roots)
    (hx : x ∉ s.doomed roots) (hr : u.ownership.Reach x y) :
    y ∉ s.doomed roots ∧ (s.teardownSet ord roots).1.ownership.Reach x y := by
  induction hr with
  | refl => exact ⟨hx, .refl⟩
  | @tail y z hxy hyz ih =>
    obtain ⟨hc, hn⟩ := hu y z hxy hyz
    refine ⟨hinv.outside hc ih.1, ih.2.tail ?_⟩
    rw [ownership_succ, children_teardownSet, if_neg ih.1]
    exact List.mem_filter.2 ⟨hc, by simpa using hn⟩

theorem children_unlinkRescued {l : List (RuntimeRegion × RuntimeRegion)} :
    (s.unlinkRescued l).children x = (s.children x).filter fun c => (c, x) ∉ l := by
  simp only [children, find?_unlinkRescued]
  cases s.find? x <;> simp

theorem SameEdges.unlinkRescued {l : List (RuntimeRegion × RuntimeRegion)} : SameEdges s (s.unlinkRescued l) :=
  .of_map (f := fun x e => { e with ownedChildren := e.ownedChildren.filter fun c => (c, x) ∉ l })
    (find?_unlinkRescued l s) (fun _ _ => rfl) fun _ _ => rfl

/-- Below a region that was not torn down, a teardown cuts what the rescue cuts. -/
theorem RescueInv.mem_subtree_unlinkRescued (hinv : RescueInv s roots (s.doomed roots) (s.rescued roots))
    (hx : x ∉ s.doomed roots) : y ∈ (s.unlinkRescued (s.rescued roots)).subtree x ↔
      y ∉ s.doomed roots ∧ y ∈ (s.teardownSet ord roots).1.subtree x := by
  rw [mem_subtree, mem_subtree]
  refine ⟨hinv.reach_teardownSet (fun y z _ hz => ?_) hx, fun ⟨_, h⟩ => h.mono fun a b hb => ?_⟩
  · rw [children_unlinkRescued, mem_filter] at hz
    exact ⟨hz.1, by simpa using hz.2⟩
  · rw [ownership_succ, children_teardownSet] at hb
    rw [ownership_succ, children_unlinkRescued]
    split at hb
    · simp at hb
    · exact hb

/-- The count a rescued region is given is the edges of the regions torn down into it, and the edges from outside it
after the teardown. -/
theorem rescueCount_eq (hm : s.Mirror) (hinv : RescueInv s roots (s.doomed roots) (s.rescued roots))
    (hx : (s.teardownSet ord roots).1.isLive x) : s.rescueCount roots x = ∑ d ∈ s.doomed roots, s.out d x +
      (s.teardownSet ord roots).1.edgesOutside x ((s.teardownSet ord roots).1.subtree x) := by
  have he : SameEdges s (s.unlinkRescued (s.rescued roots)) := .unlinkRescued
  obtain ⟨hl, hd⟩ := isLive_teardownSet.1 hx
  have hsub : s.doomed roots ⊆ s.live := fun d hd => mem_live.2 (isLive_of_mem_doomed hd)
  have hiff : ∀ k, k ∈ (s.unlinkRescued (s.rescued roots)).subtree x ↔
      k ∉ s.doomed roots ∧ k ∈ (s.teardownSet ord roots).1.subtree x := fun k => hinv.mem_subtree_unlinkRescued hd
  rw [rescueCount, (hm.congr he).externalIncoming (by rw [he.live]; exact hl), edgesOutside_congr fun k => he.out k x,
    edgesOutside, doomed_add_edgesOutside]
  congr 1
  ext k
  simp only [Finset.mem_union, Finset.mem_sdiff, hiff k]
  by_cases hk : k ∈ s.doomed roots
  · simp [hk, hsub hk]
  · simp [hk]

/-- A counted region outside the set keeps its subtree, and a teardown moves edges from outside it to releases. -/
theorem edgesOutside_of_not_collected (hs : s.Forest) (hf : s.fibers = []) (hu : s.Unowned roots)
    (hx : (s.teardownSet ord roots).1.isLive x) (hc : x ∉ (s.collect roots).dying) :
    (s.teardownSet ord roots).2.2.count x +
      (s.teardownSet ord roots).1.edgesOutside x ((s.teardownSet ord roots).1.subtree x) ≤
        s.edgesOutside x (s.subtree x) := by
  have hreach : ∀ {y}, s.ownership.Reach x y → y ∉ s.doomed roots ∧ (s.teardownSet ord roots).1.ownership.Reach x y :=
    (rescueInv hs hu).reach_teardownSet (fun y z hxy hz => ⟨hz, fun hres => hc ((hs.mem_collect_of_reach hu hxy).1
      ((hs.mem_collected hu hz).1 (rescued_collected hres)))⟩) (isLive_teardownSet.1 hx).2
  rw [count_frontier_teardownSet hf hx]
  exact edgesOutside_teardownSet (fun d hd hmem => (hreach (mem_subtree.1 hmem)).1 hd)
    fun k hk => mem_subtree.2 (hreach (mem_subtree.1 hk)).2

end Elle.RegionStore

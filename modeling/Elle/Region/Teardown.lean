import Elle.Region.Effects
import Elle.Region.Free

/-! # What a teardown does to the table

`teardownSet` phase by phase, for any store.  `TornDown` sums it up: the regions of the final dying set are gone,
and a survivor keeps its objects and its outgoing edges, loses its rescued children and the mirrored edges of the
dead, and is counted again if it was rescued itself.
-/

namespace Elle.RegionStore

open List

variable {s : RegionStore} {r x : RuntimeRegion}

/-! ### The collected set -/

/-- What the collecting walk keeps: it collects regions that exist, once each, lists each with an owner that
was collected, and leaves no child of a collected region behind. -/
structure CollectInv (s : RegionStore) (roots : List RuntimeRegion) (c : CollectState) : Prop where
  ids : ∀ x, x ∈ c.dying ↔ x ∈ c.candidates.map Prod.fst
  nodup : (c.candidates.map Prod.fst).Nodup
  live : ∀ x ∈ c.dying, s.isLive x
  listed : ∀ x o, (x, o) ∈ c.candidates ∨ (x, o) ∈ c.stack →
    o = none ∧ x ∈ roots ∨ ∃ p, o = some p ∧ p ∈ c.dying ∧ x ∈ s.children p
  roots : ∀ x ∈ roots, s.isLive x → x ∈ c.dying ∨ (x, none) ∈ c.stack
  closed : ∀ p ∈ c.dying, ∀ x ∈ s.children p, s.isLive x → x ∈ c.dying ∨ (x, some p) ∈ c.stack

theorem CollectInv.step {roots : List RuntimeRegion} {c c' : CollectState} (h : s.collectStep c = some c')
    (hc : CollectInv s roots c) : CollectInv s roots c' := by
  obtain ⟨_ | ⟨⟨r, o⟩, rest⟩, dying, cands⟩ := c
  · simp [collectStep] at h
  obtain ⟨hids, hnd, hlive, hlisted, hroots, hclosed⟩ := hc
  simp only [mem_cons] at hids hnd hlive hlisted hroots hclosed
  -- the popped pair is of no further use when its region is collected or does not exist
  have skip : (r ∈ dying ∨ ¬ s.isLive r) → CollectInv s roots ⟨rest, dying, cands⟩ := by
    intro hr
    have drop : ∀ {x o'}, s.isLive x → x ∈ dying ∨ (x, o') = (r, o) ∨ (x, o') ∈ rest → x ∈ dying ∨ (x, o') ∈ rest := by
      rintro x o' hx (h | h | h)
      · exact .inl h
      · cases h; exact hr.elim .inl fun hn => absurd hx hn
      · exact .inr h
    exact ⟨hids, hnd, hlive, fun x o' hx => hlisted x o' (hx.imp_right .inr), fun x hx hl => drop hl (hroots x hx hl),
      fun p hp x hx hl => drop hl (hclosed p hp x hx hl)⟩
  by_cases hr : r ∈ dying
  · simp only [collectStep, hr, if_true, Option.some.injEq] at h
    subst h; exact skip (.inl hr)
  cases he : s.find? r with
  | none =>
    simp only [collectStep, hr, if_false, he, Option.some.injEq] at h
    subst h; exact skip (.inr (by simp [isLive, he]))
  | some e =>
    simp only [collectStep, hr, if_false, he, Option.some.injEq] at h
    subst h
    have hch : s.children r = e.ownedChildren := children_of_find? he
    have keep : ∀ {x o'}, x ∈ dying ∨ (x, o') = (r, o) ∨ (x, o') ∈ rest →
        x ∈ insert r dying ∨ (x, o') ∈ (e.ownedChildren.map fun c => (c, some r)).reverse ++ rest := by
      rintro x o' (h | h | h)
      · exact .inl (by simp [h])
      · cases h; exact .inl (by simp)
      · exact .inr (by simp [h])
    refine ⟨fun x => ?_, ?_, fun x hx => ?_, fun x o' hx => ?_, fun x hx hl => keep (hroots x hx hl), fun p hp x hx hl => ?_⟩
    · simp only [Finset.mem_insert, hids, map_append, map_cons, map_nil, mem_append,
        mem_singleton]
      tauto
    · rw [map_append, nodup_append]
      refine ⟨hnd, by simp, fun a ha b hb hab => hr ?_⟩
      simp only [map_cons, map_nil, mem_singleton] at hb
      exact (hids r).2 (by rw [← hb, ← hab]; exact ha)
    · rcases Finset.mem_insert.1 hx with rfl | hx
      exacts [isLive_of_find? he, hlive x hx]
    · have old : (x, o') ∈ cands ∨ (x, o') = (r, o) ∨ (x, o') ∈ rest →
          o' = none ∧ x ∈ roots ∨ ∃ p, o' = some p ∧ p ∈ insert r dying ∧ x ∈ s.children p := fun h =>
        (hlisted x o' h).imp_right (Exists.imp fun p hp => ⟨hp.1, Finset.mem_insert_of_mem hp.2.1, hp.2.2⟩)
      simp only [mem_append, mem_singleton, mem_reverse, mem_map, Prod.mk.injEq] at hx
      rcases hx with (hx | hx) | (⟨c, hc, rfl, rfl⟩ | hx)
      · exact old (.inl hx)
      · exact old (.inr (.inl (Prod.ext hx.1 hx.2)))
      · exact .inr ⟨r, rfl, Finset.mem_insert_self _ _, hch ▸ hc⟩
      · exact old (.inr (.inr hx))
    · rcases Finset.mem_insert.1 hp with rfl | hp
      · exact .inr (by simp [← hch, hx])
      · exact keep (hclosed p hp x hx hl)

theorem collectStep_eq_none {c : CollectState} (h : s.collectStep c = none) : c.stack = [] := by
  obtain ⟨_ | ⟨⟨r, o⟩, rest⟩, dying, cands⟩ := c
  · rfl
  · simp only [collectStep] at h
    split at h
    · simp at h
    · split at h <;> simp at h

theorem collect_stack (roots : List RuntimeRegion) : (s.collect roots).stack = [] :=
  collectStep_eq_none (BoundedLoop.step_run (L := s.collecting) _)

theorem collect_inv (roots : List RuntimeRegion) : CollectInv s roots (s.collect roots) := by
  refine BoundedLoop.run_inv (fun _ _ h hc => hc.step h) ⟨by simp, by simp, by simp, fun x o hx => ?_, fun x hx _ => ?_, by simp⟩
  · simp only [not_mem_nil, mem_reverse, mem_map, Prod.mk.injEq, false_or] at hx
    obtain ⟨r, hr, rfl, rfl⟩ := hx
    exact .inl ⟨rfl, hr⟩
  · exact .inr (by simp [hx])

/-! ### The store after a rescue -/

theorem subtree_congr {s' : RegionStore} (h : ∀ x, s'.children x = s.children x) (r : RuntimeRegion) :
    s'.subtree r = s.subtree r := by
  have hsucc : s'.ownership.succ = s.ownership.succ := funext h
  ext x
  rw [mem_subtree, mem_subtree, FinGraph.Reach, FinGraph.Reach, hsucc]

theorem find?_unlinkRescued (l : List (RuntimeRegion × RuntimeRegion)) (s : RegionStore) (x : RuntimeRegion) :
    (s.unlinkRescued l).find? x =
      (s.find? x).map fun e => { e with ownedChildren := e.ownedChildren.filter fun c => (c, x) ∉ l } := by
  induction l generalizing s with
  | nil => cases h : s.find? x <;> simp [unlinkRescued, h]
  | cons ro l ih =>
    have : s.unlinkRescued (ro :: l) = (s.modifyEntry ro.2 fun e =>
      { e with ownedChildren := e.ownedChildren.filter (· ≠ ro.1) }).unlinkRescued l := rfl
    have hfilter (cs : List RuntimeRegion) : (if x = ro.2 then cs.filter (· ≠ ro.1) else cs).filter (fun c => (c, x) ∉ l) =
        cs.filter fun c => (c, x) ∉ ro :: l := by
      split <;> rename_i hx <;> try rw [List.filter_filter]
      all_goals
        refine List.filter_congr fun c _ => ?_
        rw [Bool.eq_iff_iff]
        simp only [Bool.and_eq_true, decide_eq_true_eq, mem_cons, Prod.ext_iff, hx]
        tauto
    rw [this, ih, find?_modifyEntry]
    simp only [← hfilter]
    by_cases hx : x = ro.2 <;> simp only [hx, if_true, if_false, Option.map_map, Function.comp_def]

theorem externalIncoming_of_find? {e : RegionEntry} (h : s.find? r = some e) (S : Finset RuntimeRegion) :
    s.externalIncoming r S = e.incoming.sumWhere (· ∉ S) := by simp [externalIncoming, h]

/-- A recount changes no count but its own: what the others are recounted from stays. -/
theorem recount_external (y : RuntimeRegion) :
    (s.recount r).externalIncoming y ((s.recount r).subtree y) = s.externalIncoming y (s.subtree y) := by
  have hc : ∀ x, (s.recount r).children x = s.children x := fun x => by
    simp only [children, recount, elim_modifyEntry, apply_ite RegionEntry.ownedChildren, ite_self]
  rw [subtree_congr hc]
  simp only [externalIncoming, recount, elim_modifyEntry, apply_ite RegionEntry.incoming, ite_self]

theorem find?_recountAll (l : List (RuntimeRegion × RuntimeRegion)) (s : RegionStore) (x : RuntimeRegion) :
    (l.foldl (fun s ro => s.recount ro.1) s).find? x = (s.find? x).map fun e =>
      if x ∈ l.map Prod.fst then { e with reclaim := .counted (s.externalIncoming x (s.subtree x)) } else e := by
  induction l generalizing s with
  | nil => cases h : s.find? x <;> simp [h]
  | cons ro l ih =>
    rw [foldl_cons, ih, recount_external, recount, find?_modifyEntry]
    by_cases hx : x = ro.1
    · subst hx
      rw [if_pos rfl, Option.map_map]
      congr 1; funext e
      by_cases hl : ro.1 ∈ l.map Prod.fst <;> simp [hl]
    · rw [if_neg hx]
      simp only [map_cons, mem_cons, hx, false_or]

/-- The entry of a region after a rescue: rescued children are unlinked, and a rescued region is counted by
its edges from outside its remaining subtree. -/
theorem find?_rescueExternallyReferenced (cands : List Candidate) (dying : Finset RuntimeRegion) :
    let rs := (s.rescuing cands).run ⟨dying, [], false⟩
    let u := s.unlinkRescued rs.rescued
    (s.rescueExternallyReferenced cands dying).2 = rs.dying ∧
    (s.rescueExternallyReferenced cands dying).1.find? x = (s.find? x).map fun e =>
      { e with
        ownedChildren := e.ownedChildren.filter fun c => (c, x) ∉ rs.rescued
        reclaim := if x ∈ rs.rescued.map Prod.fst then .counted (u.externalIncoming x (u.subtree x)) else e.reclaim } := by
  intro rs u
  rw [rescueExternallyReferenced]
  by_cases hemp : rs.rescued.isEmpty
  · rw [if_pos hemp]
    rw [List.isEmpty_iff] at hemp
    refine ⟨rfl, ?_⟩
    cases h : s.find? x <;> simp [hemp]
  · rw [if_neg hemp]
    refine ⟨rfl, ?_⟩
    set s' : RegionStore :=
      s.withCounters (s.counters.countRescue rs.rescued.length (dying.card - rs.dying.card)) with hs'
    have hentry : ∀ y, (s'.unlinkRescued rs.rescued).find? y = u.find? y := fun y => by
      rw [find?_unlinkRescued, find?_unlinkRescued]; rfl
    have hchildren : ∀ y, (s'.unlinkRescued rs.rescued).children y = u.children y := fun y => by
      simp only [children, hentry]
    rw [find?_recountAll, hentry, subtree_congr hchildren]
    simp only [externalIncoming, u, find?_unlinkRescued, Option.map_map]
    congr 1; funext e
    split <;> rfl

/-! ### The members taken out -/

structure UnindexInv (s : RegionStore) (dying : Finset RuntimeRegion) (cands : List Candidate)
    (sm : RegionStore × List Member) : Prop where
  find? : ∀ x, sm.1.find? x = if x ∈ dying ∧ x ∈ cands.map Prod.fst then none else s.find? x
  mem : ∀ m, m ∈ sm.2 ↔ m.1 ∈ dying ∧ m.1 ∈ cands.map Prod.fst ∧
    ∃ e, s.find? m.1 = some e ∧ m.2 = { e with ownedChildren := [] }
  nodup : (sm.2.map Prod.fst).Nodup
  rest : SameIds s sm.1

theorem UnindexInv.step {dying : Finset RuntimeRegion} {cands : List Candidate} {sm : RegionStore × List Member}
    (h : UnindexInv s dying cands sm) (c : Candidate) : UnindexInv s dying (cands ++ [c]) (unindexOne dying sm c) := by
  obtain ⟨hentry, hmem, hnd, hrest⟩ := h
  have hadd : ∀ x, x ∈ (cands ++ [c]).map Prod.fst ↔ x ∈ cands.map Prod.fst ∨ x = c.1 := by simp
  -- a candidate that is not dying, or whose slot is vacant, leaves everything as it is
  have skip (hc : c.1 ∈ dying → sm.1.find? c.1 = none) : UnindexInv s dying (cands ++ [c]) sm := by
    have hold : ∀ x e, x ∈ dying → s.find? x = some e →
        (x ∈ cands.map Prod.fst ↔ x ∈ (cands ++ [c]).map Prod.fst) := fun x e hd he => by
      refine ⟨fun hx => (hadd x).2 (.inl hx), fun hx => ((hadd x).1 hx).elim id fun hx => ?_⟩
      by_contra hn
      subst hx
      have hnone := hc hd
      rw [hentry, if_neg fun h => hn h.2, he] at hnone
      cases hnone
    refine ⟨fun x => ?_, fun m => ?_, hnd, hrest⟩
    · rw [hentry]
      cases he : s.find? x with
      | none => rw [ite_self, ite_self]
      | some e => exact if_congr (and_congr_right fun hd => hold x e hd he) rfl rfl
    · rw [hmem]
      exact and_congr_right fun hd => and_congr_left fun ⟨e, he, _⟩ => hold m.1 e hd he
  by_cases hc : c.1 ∈ dying
  swap
  · rw [unindexOne, if_neg hc]
    exact skip fun h => absurd h hc
  rw [unindexOne, if_pos hc]
  cases he : sm.1.find? c.1 with
  | none => exact skip fun _ => he
  | some e =>
    have hin : c.1 ∉ cands.map Prod.fst := fun hin => by rw [hentry, if_pos ⟨hc, hin⟩] at he; cases he
    rw [hentry, if_neg fun h => hin h.2] at he
    refine ⟨fun x => ?_, fun m => ?_, ?_, hrest.trans ⟨rfl, rfl, fun _ => rfl, Nat.le_refl _, rfl⟩⟩
    · rw [find?_takeEntry, hentry]
      by_cases hx : x = c.1
      · simp [hx, hc]
      · simp only [hadd, hx, or_false, if_false]
    · simp only [mem_append, mem_singleton, hmem, hadd]
      constructor
      · rintro (⟨hd, hm, h⟩ | rfl)
        · exact ⟨hd, .inl hm, h⟩
        · exact ⟨hc, .inr rfl, e, he, rfl⟩
      · rintro ⟨hd, hm | hm, e', hme, h⟩
        · exact .inl ⟨hd, hm, e', hme, h⟩
        · rw [hm, he, Option.some.injEq] at hme
          exact .inr (Prod.ext hm (by rw [h, hme]))
    · rw [map_append, nodup_append]
      refine ⟨hnd, by simp, fun a ha b hb hab => hin ?_⟩
      obtain ⟨m, hm, rfl⟩ := List.mem_map.1 ha
      simp only [map_cons, map_nil, mem_singleton] at hb
      exact hb ▸ hab ▸ ((hmem m).1 hm).2.1

theorem unindex_inv (s : RegionStore) (cands : List Candidate) (dying : Finset RuntimeRegion) :
    UnindexInv s dying cands (s.unindex cands dying) := by
  suffices ∀ (rest done : List Candidate) (sm), UnindexInv s dying done sm →
      UnindexInv s dying (done ++ rest) (rest.foldl (unindexOne dying) sm) from
    this cands [] (s, []) ⟨by simp, by simp, by simp, .refl⟩
  intro rest
  induction rest with
  | nil => intro done sm h; simpa using h
  | cons c rest ih =>
    intro done sm h
    simpa using ih (done ++ [c]) _ (h.step c)

/-! ### The frontier, and the mirrors it is retired from -/

variable {ord : IterOrder}

theorem sum_frontierEdges (s : RegionStore) (m : Member) (x : RuntimeRegion) :
    (((s.frontierEdges ord m).filter (·.1 = x)).map Prod.snd).sum = if s.isLive x then m.2.outgoing.count x else 0 := by
  have hperm : ((s.frontierEdges ord m).filter (·.1 = x)).Perm
      ((m.2.outgoing.entries.filter fun t => s.isLive t.1).filter (·.1 = x)) :=
    ((ord.perm _).filter _).filter _
  rw [(hperm.map Prod.snd).sum_eq, List.filter_filter]
  by_cases hx : s.isLive x
  · rw [if_pos hx, CountTable.count, CountTable.sumWhere]
    congr 2
    refine List.filter_congr fun t _ => ?_
    by_cases ht : t.1 = x <;> simp [ht, hx]
  · rw [if_neg hx, List.filter_eq_nil_iff.2, map_nil, sum_nil]
    intro t _
    by_cases ht : t.1 = x <;> simp [ht, hx]

theorem count_frontier (s : RegionStore) (ms : List Member) (x : RuntimeRegion) :
    (s.frontier ord ms).count x = if s.isLive x then (ms.map fun m => m.2.outgoing.count x).sum else 0 := by
  have hcount : ∀ l : List (RuntimeRegion × Nat),
      (l.flatMap fun t => List.replicate t.2 t.1).count x = ((l.filter (·.1 = x)).map Prod.snd).sum := by
    intro l
    induction l with
    | nil => simp
    | cons t l ih => by_cases ht : t.1 = x <;> simp [count_append, count_replicate, ih, ht]
  induction ms with
  | nil => simp [frontier]
  | cons m ms ih =>
    have hcons : s.frontier ord (m :: ms) =
        (s.frontierEdges ord m).flatMap (fun t => List.replicate t.2 t.1) ++ s.frontier ord ms := rfl
    rw [hcons, count_append, ih, hcount, sum_frontierEdges, map_cons, sum_cons]
    split <;> omega

theorem find?_unmirrorAll (l : List (RuntimeRegion × RuntimeRegion × Nat)) (s : RegionStore) (x : RuntimeRegion) :
    (l.foldl (fun s e => s.unmirrorIncoming e.1 e.2.1 e.2.2) s).find? x = (s.find? x).map fun e =>
      { e with incoming :=
          ((l.filter (·.2.1 = x)).map fun e => (e.1, e.2.2)).foldl (fun t e => t.remove e.1 e.2) e.incoming } := by
  induction l generalizing s with
  | nil => cases h : s.find? x <;> simp [h]
  | cons e l ih =>
    rw [foldl_cons, ih, unmirrorIncoming, find?_modifyEntry]
    by_cases hx : x = e.2.1
    · subst hx; simp only [if_true, Option.map_map, decide_true, filter_cons_of_pos, map_cons, foldl_cons]
      rfl
    · simp [hx, Ne.symm hx]

theorem sum_retired (s : RegionStore) (ms : List Member) (k x : RuntimeRegion) (hx : s.isLive x) :
    ((((((ms.flatMap fun m => (s.frontierEdges ord m).map fun t => (m.1, t)).filter (·.2.1 = x)).map
      fun e => (e.1, e.2.2)).filter (·.1 = k)).map Prod.snd).sum =
      ((ms.filter (·.1 = k)).map fun m => m.2.outgoing.count x).sum) := by
  induction ms with
  | nil => simp
  | cons m ms ih =>
    have hone : (((((s.frontierEdges ord m).map fun t => (m.1, t)).filter (·.2.1 = x)).map fun e => (e.1, e.2.2)).filter
        (·.1 = k)).map Prod.snd = if m.1 = k then ((s.frontierEdges ord m).filter (·.1 = x)).map Prod.snd else [] := by
      by_cases hk : m.1 = k <;> simp [hk, filter_map, Function.comp_def]
    rw [flatMap_cons, filter_append, map_append, filter_append, map_append, sum_append, ih, hone]
    by_cases hk : m.1 = k
    · simp [hk, sum_frontierEdges, hx]
    · simp [hk]

theorem find?_retireEdges (ord : IterOrder) (ms : List Member) {e : RegionEntry} (h : s.find? x = some e) :
    ∃ e', (s.retireEdges ord ms).find? x = some e' ∧ e'.pool = e.pool ∧ e'.reclaim = e.reclaim ∧
      e'.ownedChildren = e.ownedChildren ∧ e'.outgoing = e.outgoing ∧
      ∀ k, e'.incoming.count k = e.incoming.count k - ((ms.filter (·.1 = k)).map fun m => m.2.outgoing.count x).sum := by
  have heq : (s.retireEdges ord ms).find? x = _ := find?_unmirrorAll _ s x
  rw [h, Option.map_some] at heq
  refine ⟨_, heq, rfl, rfl, rfl, rfl, fun k => ?_⟩
  rw [CountTable.count_foldl_remove, sum_retired s ms k x (isLive_of_find? h)]

theorem find?_retireEdges_none {ms : List Member} (h : s.find? x = none) :
    (s.retireEdges ord ms).find? x = none := by rw [retireEdges, find?_unmirrorAll, h, Option.map_none]

/-! ### The fibers, the generations and the free list -/

theorem dischargeObject_regions (sd : RegionStore × List RuntimeRegion) (obj : HeapObject) :
    (dischargeObject sd obj).1 = { sd.1 with fibers := (dischargeObject sd obj).1.fibers } := by
  rw [dischargeObject]
  split
  · rfl
  · split
    · rfl
    · split <;> rfl

theorem dischargeFibers_regions (s : RegionStore) (ms : List Member) :
    (s.dischargeFibers ms).1 = { s with fibers := (s.dischargeFibers ms).1.fibers } := by
  suffices ∀ (l : List HeapObject) (sd : RegionStore × List RuntimeRegion), sd.1 = { s with fibers := sd.1.fibers } →
      (l.foldl dischargeObject sd).1 = { s with fibers := (l.foldl dischargeObject sd).1.fibers } from
    this _ (s, []) rfl
  intro l
  induction l with
  | nil => exact fun _ h => h
  | cons o l ih =>
    intro sd h
    refine ih _ ?_
    rw [dischargeObject_regions, h]

theorem find?_dischargeFibers {ms : List Member} : (s.dischargeFibers ms).1.find? x = s.find? x := by
  rw [dischargeFibers_regions]; rfl

theorem find?_releaseAll (ms : List Member) (s : RegionStore) (x : RuntimeRegion) :
    (ms.foldl release s).find? x = s.find? x := by
  induction ms generalizing s with
  | nil => rfl
  | cons m ms ih => rw [foldl_cons, ih]; rfl

theorem releaseAll_ids (ms : List Member) (s : RegionStore) :
    (ms.foldl release s).freePhysical = (ms.map Prod.fst).reverse ++ s.freePhysical ∧
    (ms.foldl release s).nextPhysical = s.nextPhysical ∧
    (ms.foldl release s).generations.length = s.generations.length := by
  induction ms generalizing s with
  | nil => simp
  | cons m ms ih =>
    obtain ⟨hfree, hnext, hlen⟩ := ih (s.release m)
    refine ⟨?_, hnext, ?_⟩
    · rw [foldl_cons, hfree]; simp [release, bumpGeneration, withCounters]
    · rw [foldl_cons, hlen]; simp [release, bumpGeneration, withCounters]

theorem generationRaw_release (s : RegionStore) (m : Member) (x : RuntimeRegion) :
    (s.release m).generationRaw x =
      if x = m.1 ∧ x.get < s.generations.length then (s.generationRaw x + 1) % 2 ^ 32 else s.generationRaw x := by
  simp only [release, bumpGeneration, withCounters, generationRaw, getD_eq_getElem?_getD, getElem?_modify]
  by_cases hx : x = m.1
  · subst hx
    by_cases hlt : m.1.get < s.generations.length <;> simp [hlt]
  · have : ¬ m.1.get = x.get := fun h => hx (RuntimeRegion.ext_get h).symm
    simp [hx, this]

theorem generationRaw_releaseAll (ms : List Member) (s : RegionStore) (x : RuntimeRegion)
    (hnd : (ms.map Prod.fst).Nodup) : (ms.foldl release s).generationRaw x =
      if x ∈ ms.map Prod.fst ∧ x.get < s.generations.length then (s.generationRaw x + 1) % 2 ^ 32
      else s.generationRaw x := by
  induction ms generalizing s with
  | nil => simp
  | cons m ms ih =>
    rw [map_cons, nodup_cons] at hnd
    have hlen : (s.release m).generations.length = s.generations.length := by simp [release, bumpGeneration, withCounters]
    rw [foldl_cons, ih _ hnd.2, hlen, generationRaw_release]
    by_cases hx : x = m.1
    · subst hx; simp only [hnd.1, false_and, if_false, map_cons, mem_cons, true_or, true_and]
    · simp only [hx, false_and, if_false, map_cons, mem_cons, false_or]

/-! ### A whole teardown -/

/-- How the rescue of a teardown ends. -/
def rescue (s : RegionStore) (roots : List RuntimeRegion) : RescueState :=
  (s.rescuing (s.collect roots).candidates).run ⟨(s.collect roots).dying, [], false⟩

/-- The regions a teardown of `roots` takes down. -/
def doomed (s : RegionStore) (roots : List RuntimeRegion) : Finset RuntimeRegion := (s.rescue roots).dying

def rescued (s : RegionStore) (roots : List RuntimeRegion) : List (RuntimeRegion × RuntimeRegion) :=
  (s.rescue roots).rescued

def rescueCount (s : RegionStore) (roots : List RuntimeRegion) (x : RuntimeRegion) : Nat :=
  (s.unlinkRescued (s.rescued roots)).externalIncoming x ((s.unlinkRescued (s.rescued roots)).subtree x)

/-- What a region that outlives a teardown of `roots` keeps of its entry `e`. -/
structure Survives (s : RegionStore) (roots : List RuntimeRegion) (x : RuntimeRegion) (e e' : RegionEntry) : Prop where
  pool : e'.pool = e.pool
  outgoing : e'.outgoing = e.outgoing
  children : e'.ownedChildren = e.ownedChildren.filter fun c => (c, x) ∉ s.rescued roots
  reclaim : e'.reclaim = if x ∈ (s.rescued roots).map Prod.fst then .counted (s.rescueCount roots x) else e.reclaim
  incoming : ∀ k, e'.incoming.count k = e.incoming.count k - if k ∈ s.doomed roots then s.out k x else 0

theorem rescuing_step {cands : List Candidate} {rs rs' : RescueState} (h : (s.rescuing cands).step rs = some rs') :
    rs' = s.rescuePass cands rs := by
  simp only [rescuing] at h
  split at h <;> simp at h
  exact h.symm

/-- The loop rule of the rescue, for what rescuing one region with its subtree preserves. -/
theorem rescue_inv {roots : List RuntimeRegion} {I : Finset RuntimeRegion → List (RuntimeRegion × RuntimeRegion) → Prop}
    (h0 : I (s.collect roots).dying [])
    (hstep : ∀ {dying rescued r p}, (r, some p) ∈ (s.collect roots).candidates → r ∈ dying →
      s.externallyReferenced r dying → I dying rescued → I (s.ownership.prune r dying) (rescued ++ [(r, p)])) :
    I (s.doomed roots) (s.rescued roots) := by
  have hfold : ∀ cs ⊆ (s.collect roots).candidates, ∀ rs : RescueState, I rs.dying rs.rescued →
      I (cs.foldl s.rescueOne rs).dying (cs.foldl s.rescueOne rs).rescued := by
    intro cs
    induction cs with
    | nil => exact fun _ _ h => h
    | cons c cs ih =>
      intro hcs rs h
      rw [cons_subset] at hcs
      refine ih hcs.2 _ ?_
      obtain ⟨r, _ | p⟩ := c
      · exact h
      simp only [rescueOne]
      split
      · rename_i hr
        exact hstep hcs.1 hr.1 hr.2 h
      · exact h
  refine BoundedLoop.run_inv (I := fun rs : RescueState => I rs.dying rs.rescued) (fun rs rs' h hi => ?_) h0
  rw [rescuing_step h]
  exact hfold _ (List.Subset.refl _) _ hi

theorem doomed_subset (s : RegionStore) (roots : List RuntimeRegion) : s.doomed roots ⊆ (s.collect roots).dying :=
  rescue_inv (I := fun d _ => d ⊆ _) subset_rfl fun _ _ _ h => FinGraph.prune_subset.trans h

theorem isLive_of_mem_doomed {roots : List RuntimeRegion} (h : x ∈ s.doomed roots) : s.isLive x :=
  (collect_inv roots).live x (doomed_subset s roots h)

/-- The store of a teardown after the rescue and with the dying members taken out, and those members. -/
def unindexed (s : RegionStore) (roots : List RuntimeRegion) : RegionStore × List Member :=
  (s.rescueExternallyReferenced (s.collect roots).candidates (s.collect roots).dying).1.unindex
    (s.collect roots).candidates (s.doomed roots)

theorem teardownSet_eq (s : RegionStore) (ord : IterOrder) (roots : List RuntimeRegion) : s.teardownSet ord roots =
    let u := s.unindexed roots
    if u.2.isEmpty then (u.1, 0, [])
    else
      let d := (u.1.retireEdges ord u.2).dischargeFibers u.2
      (u.2.foldl release d.1, (u.2.map fun m => m.2.pool.objCount).sum, u.1.frontier ord u.2 ++ d.2) := by
  have hdy : (s.rescueExternallyReferenced (s.collect roots).candidates (s.collect roots).dying).2 = s.doomed roots :=
    (find?_rescueExternallyReferenced (x := ⟨2, Nat.le_refl 2⟩) _ _).1
  simp only [teardownSet, unindexed, ← hdy]

theorem SameIds.unindexed (s : RegionStore) (roots : List RuntimeRegion) : SameIds s (s.unindexed roots).1 := by
  refine trans ?_ (unindex_inv _ _ _).rest
  rw [rescueExternallyReferenced]
  split
  · exact refl
  · exact (withCounters.trans (frame.foldl (fun _ _ => modifyEntry) _ _)).trans (frame.foldl (fun _ _ => modifyEntry) _ _)

theorem Frame.retireEdges {R : RegionStore → RegionStore → Prop} (hR : Frame R) {ms : List Member} :
    R s (s.retireEdges ord ms) :=
  hR.foldl (fun _ _ => hR.unmirrorIncoming) _ s

theorem fibers_retired (s : RegionStore) (ord : IterOrder) (roots : List RuntimeRegion) :
    ((s.unindexed roots).1.retireEdges ord (s.unindexed roots).2).fibers = s.fibers :=
  SameIds.frame.retireEdges.fibers.trans (SameIds.unindexed s roots).fibers

theorem teardownSet_parts (s : RegionStore) (ord : IterOrder) (roots : List RuntimeRegion) :
    let u := s.unindexed roots
    let d := (u.1.retireEdges ord u.2).dischargeFibers u.2
    (s.teardownSet ord roots).1.fibers = d.1.fibers ∧
    (s.teardownSet ord roots).2.1 = (u.2.map fun m => m.2.pool.objCount).sum ∧
    (s.teardownSet ord roots).2.2 = u.1.frontier ord u.2 ++ d.2 := by
  have hrel : ∀ (ms : List Member) (t : RegionStore), (ms.foldl release t).fibers = t.fibers := by
    intro ms
    induction ms with
    | nil => exact fun _ => rfl
    | cons m ms ih => exact fun t => ih _
  rw [teardownSet_eq]
  by_cases hms : (s.unindexed roots).2.isEmpty
  · rw [List.isEmpty_iff] at hms
    simp only [hms]
    exact ⟨rfl, rfl, rfl⟩
  · simp only [hms, Bool.false_eq_true, if_false, hrel, and_self]

variable {roots : List RuntimeRegion}

section

variable (s : RegionStore) (roots : List RuntimeRegion) (x : RuntimeRegion)

theorem find?_rescue :
    (s.rescueExternallyReferenced (s.collect roots).candidates (s.collect roots).dying).1.find? x =
      (s.find? x).map fun e => { e with
        ownedChildren := e.ownedChildren.filter fun c => (c, x) ∉ s.rescued roots
        reclaim := if x ∈ (s.rescued roots).map Prod.fst then .counted (s.rescueCount roots x) else e.reclaim } :=
  (find?_rescueExternallyReferenced _ _).2

theorem find?_unindexed : (s.unindexed roots).1.find? x = if x ∈ s.doomed roots then none else
    (s.rescueExternallyReferenced (s.collect roots).candidates (s.collect roots).dying).1.find? x := by
  rw [unindexed, (unindex_inv _ _ _).find?]
  by_cases hx : x ∈ s.doomed roots
  · rw [if_pos hx, if_pos ⟨hx, ((collect_inv roots).ids x).1 (doomed_subset s roots hx)⟩]
  · rw [if_neg hx, if_neg fun h => hx h.1]

end

theorem mem_unindexed {m : Member} : m ∈ (s.unindexed roots).2 → m.1 ∈ s.doomed roots ∧
    ∃ e, s.find? m.1 = some e ∧ m.2.outgoing = e.outgoing ∧ m.2.pool = e.pool := by
  rw [unindexed, (unindex_inv _ _ _).mem, find?_rescue]
  rintro ⟨hd, -, e', he', hm⟩
  obtain ⟨e, he, rfl⟩ := Option.map_eq_some_iff.1 he'
  exact ⟨hd, e, he, by rw [hm], by rw [hm]⟩

theorem mem_unindexed_ids : x ∈ (s.unindexed roots).2.map Prod.fst ↔ x ∈ s.doomed roots := by
  refine ⟨fun h => ?_, fun h => ?_⟩
  · obtain ⟨m, hm, rfl⟩ := List.mem_map.1 h
    exact (mem_unindexed hm).1
  · obtain ⟨e, he⟩ := isLive_iff.1 (isLive_of_mem_doomed h)
    have hr := find?_rescue s roots x
    rw [he, Option.map_some] at hr
    have hc : x ∈ (s.collect roots).candidates.map Prod.fst := ((collect_inv roots).ids x).1 (doomed_subset s roots h)
    exact List.mem_map.2 ⟨_, ((unindex_inv _ _ _).mem (x, _)).2 ⟨h, hc, _, hr, rfl⟩, rfl⟩

theorem nodup_unindexed (s : RegionStore) (roots : List RuntimeRegion) : ((s.unindexed roots).2.map Prod.fst).Nodup :=
  (unindex_inv _ _ _).nodup

theorem sum_unindexed (s : RegionStore) (roots : List RuntimeRegion) (k x : RuntimeRegion) :
    (((s.unindexed roots).2.filter (·.1 = k)).map fun m => m.2.outgoing.count x).sum =
      if k ∈ s.doomed roots then s.out k x else 0 := by
  have hnd := nodup_unindexed s roots
  have hmem : ∀ m ∈ (s.unindexed roots).2, m.2.outgoing.count x = s.out m.1 x := fun m hm => by
    obtain ⟨-, e, he, ho, -⟩ := mem_unindexed hm
    rw [ho, out_of_find? he]
  have hk : k ∈ (s.unindexed roots).2.map Prod.fst ↔ k ∈ s.doomed roots := mem_unindexed_ids
  rw [← if_congr hk rfl rfl]
  generalize (s.unindexed roots).2 = ms at hnd hmem ⊢
  induction ms with
  | nil => simp
  | cons m ms ih =>
    rw [map_cons, nodup_cons] at hnd
    rw [forall_mem_cons] at hmem
    have ih := ih hnd.2 hmem.2
    by_cases hm : m.1 = k
    · subst hm
      rw [if_neg hnd.1] at ih
      simp [ih, hmem.1]
    · simp only [hm, decide_false, Bool.false_eq_true, not_false_eq_true, filter_cons_of_neg, ih, map_cons,
        mem_cons, Ne.symm hm, false_or]

theorem find?_teardownSet : (s.teardownSet ord roots).1.find? x =
    ((s.unindexed roots).1.retireEdges ord (s.unindexed roots).2).find? x := by
  rw [teardownSet_eq]
  by_cases hms : (s.unindexed roots).2.isEmpty
  · rw [List.isEmpty_iff] at hms
    simp [hms, retireEdges]
  · simp only [hms, if_false, Bool.false_eq_true, find?_releaseAll, find?_dischargeFibers]

theorem find?_teardownSet_doomed (h : x ∈ s.doomed roots) : (s.teardownSet ord roots).1.find? x = none := by
  rw [find?_teardownSet, find?_retireEdges_none]
  rw [find?_unindexed, if_pos h]

theorem find?_teardownSet_none (h : s.find? x = none) : (s.teardownSet ord roots).1.find? x = none := by
  rw [find?_teardownSet, find?_retireEdges_none]
  rw [find?_unindexed, find?_rescue, h, Option.map_none, ite_self]

theorem teardownSet_survives (ord : IterOrder) {e : RegionEntry} (hx : x ∉ s.doomed roots) (h : s.find? x = some e) :
    ∃ e', (s.teardownSet ord roots).1.find? x = some e' ∧ Survives s roots x e e' := by
  have hu := find?_unindexed s roots x
  rw [if_neg hx, find?_rescue, h, Option.map_some] at hu
  obtain ⟨e', he', hpool, hreclaim, hchildren, hout, hinc⟩ := find?_retireEdges ord (s.unindexed roots).2 hu
  refine ⟨e', by rw [find?_teardownSet, he'], hpool, hout, hchildren, hreclaim, fun k => ?_⟩
  rw [hinc, sum_unindexed]

/-- What is read of an entry after a teardown. -/
theorem elim_teardownSet {α : Type*} {d : α} {g g' : RegionEntry → α}
    (h : ∀ e e', Survives s roots x e e' → g e' = g' e) : ((s.teardownSet ord roots).1.find? x).elim d g =
      if x ∈ s.doomed roots then d else (s.find? x).elim d g' := by
  by_cases hx : x ∈ s.doomed roots
  · rw [if_pos hx, find?_teardownSet_doomed hx, Option.elim_none]
  · rw [if_neg hx]
    cases he : s.find? x with
    | none => rw [find?_teardownSet_none he]; rfl
    | some e =>
      obtain ⟨e', he', hsv⟩ := teardownSet_survives ord hx he
      rw [he', Option.elim_some, Option.elim_some, h e e' hsv]

theorem isLive_teardownSet : (s.teardownSet ord roots).1.isLive x ↔ s.isLive x ∧ x ∉ s.doomed roots := by
  refine ⟨fun h => ⟨?_, fun hd => ?_⟩, fun ⟨h, hd⟩ => ?_⟩
  · by_contra hn
    rw [Bool.not_eq_true, not_isLive_iff] at hn
    simp [isLive, find?_teardownSet_none hn] at h
  · simp [isLive, find?_teardownSet_doomed hd] at h
  · obtain ⟨e, he⟩ := isLive_iff.1 h
    obtain ⟨e', he', -⟩ := teardownSet_survives ord hd he
    exact isLive_of_find? he'

end Elle.RegionStore

import Elle.Region.Rescue

/-! # The reclamation ledger

The store counts every adoption, and every end of one: the region was torn down while owned, a rescue made it
counted again, or an extraction did (`regionstore/counters.rs`).  The gauge `owned` of the report is what the
counters leave open; `ownedCount` scans the table.

What a drop needs of the forest for this is little: whatever is listed among the children of a region records that
region as its owner.
-/

namespace Elle

open List

namespace ReclaimCounters

def ended (c : ReclaimCounters) : Nat := c.ownedFrees + c.rescues + c.extracts

/-- The gauge `owned` of the report: the adoptions that have not ended. -/
def owned (c : ReclaimCounters) : Int := c.adopts - c.ended

theorem countFree_books (c : ReclaimCounters) (pages objects : Nat) (owned : Bool) :
    (c.countFree pages objects owned).adopts = c.adopts ∧
      (c.countFree pages objects owned).ended = c.ended + if owned then 1 else 0 := by
  match objects with
  | 0 | 1 | 2 | 3 | 4 | _ + 5 =>
    cases owned
    · exact ⟨rfl, rfl⟩
    · refine ⟨rfl, ?_⟩
      show c.ownedFrees + 1 + c.rescues + c.extracts = c.ownedFrees + c.rescues + c.extracts + 1
      omega

end ReclaimCounters

namespace RegionStore

variable {s s' s'' : RegionStore} {r x p c : RuntimeRegion} {ord : IterOrder} {roots : List RuntimeRegion}

/-- The regions owned now, by a scan of the table. -/
def ownedCount (s : RegionStore) : Nat := s.regions.countP RegionEntry.isOwned

def ownedAt (s : RegionStore) (r : RuntimeRegion) : Nat := (s.find? r).toList.countP RegionEntry.isOwned

theorem ownedAt_of_owned (h : s.reclaim? r = some (.owned p)) : s.ownedAt r = 1 := by
  obtain ⟨e, he, ho⟩ := Option.map_eq_some_iff.1 h
  simp [ownedAt, he, RegionEntry.isOwned, ho]

theorem ownedAt_of_not_owned (h : ∀ o, s.reclaim? r ≠ some (.owned o)) : s.ownedAt r = 0 := by
  cases he : s.find? r with
  | none => simp [ownedAt, he]
  | some e =>
    rw [reclaim?_of_find? he] at h
    cases ho : e.reclaim with
    | counted rc => simp [ownedAt, he, RegionEntry.isOwned, ho]
    | owned o => exact absurd (congrArg some ho) (h o)

theorem ownedCount_setEntry (e : RegionEntry) :
    (s.setEntry r e).ownedCount + s.ownedAt r = s.ownedCount + if e.isOwned then 1 else 0 :=
  s.regions.countP_put _ r.get e

theorem ownedCount_takeEntry : (s.takeEntry r).ownedCount + s.ownedAt r = s.ownedCount :=
  s.regions.countP_take _ r.get

theorem counters_modifyEntry {f : RegionEntry → RegionEntry} : (s.modifyEntry r f).counters = s.counters := by
  rw [modifyEntry]; split <;> rfl

theorem ownedCount_modifyEntry (f : RegionEntry → RegionEntry) :
    (s.modifyEntry r f).ownedCount + s.ownedAt r = s.ownedCount + (s.modifyEntry r f).ownedAt r := by
  have hat : (s.modifyEntry r f).ownedAt r = ((s.find? r).map f).toList.countP RegionEntry.isOwned := by
    rw [ownedAt, find?_modifyEntry, if_pos rfl]
  rw [hat, modifyEntry]
  cases h : s.find? r with
  | none => simp [ownedAt, h]
  | some e => simpa [countP_cons] using ownedCount_setEntry (f e)

/-! ### Steps that leave the books alone -/

/-- Nothing is counted, and as many regions are owned. -/
structure SameBooks (s s' : RegionStore) : Prop where
  counters : s'.counters = s.counters
  owned : s'.ownedCount = s.ownedCount

namespace SameBooks

theorem refl : SameBooks s s := ⟨rfl, rfl⟩

theorem trans (h : SameBooks s s') (h' : SameBooks s' s'') : SameBooks s s'' :=
  ⟨h'.counters.trans h.counters, h'.owned.trans h.owned⟩

theorem modifyEntry {f : RegionEntry → RegionEntry} (h : ∀ e, (f e).isOwned = e.isOwned) :
    SameBooks s (s.modifyEntry r f) := by
  have hat : (s.modifyEntry r f).ownedAt r = s.ownedAt r := by
    rw [ownedAt, ownedAt, find?_modifyEntry, if_pos rfl]
    cases s.find? r <;> simp [countP_cons, h]
  have hcount : (s.modifyEntry r f).ownedCount + s.ownedAt r = s.ownedCount + (s.modifyEntry r f).ownedAt r :=
    ownedCount_modifyEntry f
  exact ⟨counters_modifyEntry, by omega⟩

theorem ensure : SameBooks s (s.ensure r) := by
  rw [RegionStore.ensure]
  split
  · exact ⟨rfl, rfl⟩
  · rename_i h
    refine ⟨rfl, ?_⟩
    have hnone : (s.growGenerations r).find? r = none := by simpa [isLive] using h
    have := ownedCount_setEntry (s := s.growGenerations r) (r := r) .fresh
    rw [ownedAt, hnone] at this
    exact this

theorem isOwned_of_plain {f : RegionEntry → RegionEntry} (h : Plain f) (e : RegionEntry) :
    (f e).isOwned = e.isOwned := by
  have hiff := (h e).2
  cases he : e.reclaim <;> cases hf : (f e).reclaim <;> simp_all [RegionEntry.isOwned]

theorem frame : Frame SameBooks := ⟨refl, trans, ensure, fun h => modifyEntry (isOwned_of_plain h)⟩

theorem decrefReachesZero {fc : Option RuntimeRegion} : SameBooks s (s.decrefReachesZero r fc).1 := by
  have hover : ∀ b, SameBooks s (s.overFree b) := fun b => by cases b <;> exact ⟨rfl, rfl⟩
  rw [RegionStore.decrefReachesZero]
  cases he : s.find? r with
  | none => exact hover _
  | some e =>
    cases hr : e.reclaim with
    | owned o => simpa [hr] using refl
    | counted rc =>
      by_cases h0 : rc = 0
      · simpa [hr, h0] using hover _
      · have := ownedCount_setEntry (s := s) (r := r) { e with reclaim := .counted (rc - 1) }
        simp only [hr, h0, if_false]
        exact ⟨rfl, by simpa [ownedAt, he, RegionEntry.isOwned, hr] using this⟩

theorem unlinkRescued {l : List (RuntimeRegion × RuntimeRegion)} : SameBooks s (s.unlinkRescued l) := by
  have hone : ∀ (s : RegionStore) (ro : RuntimeRegion × RuntimeRegion), SameBooks s (s.modifyEntry ro.2 fun e =>
      { e with ownedChildren := e.ownedChildren.filter (· ≠ ro.1) }) := fun _ _ => modifyEntry (by intro; rfl)
  exact frame.foldl hone l s

theorem dischargeFibers {ms : List Member} : SameBooks s (s.dischargeFibers ms).1 := by
  rw [dischargeFibers_regions]
  exact ⟨rfl, rfl⟩

end SameBooks

/-! ### The balance -/

/-- Every adoption has ended or has left an owned region. -/
def Balanced (s : RegionStore) : Prop := s.counters.adopts = s.counters.ended + s.ownedCount

theorem Balanced.congr (hs : s.Balanced) (h : SameBooks s s') : s'.Balanced := by
  rw [Balanced, h.counters, h.owned]
  exact hs

theorem recountAll_books (l : List (RuntimeRegion × RuntimeRegion)) (s : RegionStore) (hnd : (l.map Prod.fst).Nodup)
    (ho : ∀ ro ∈ l, ∃ o, s.reclaim? ro.1 = some (.owned o)) :
    (l.foldl (fun s ro => s.recount ro.1) s).counters = s.counters ∧
      (l.foldl (fun s ro => s.recount ro.1) s).ownedCount + l.length = s.ownedCount := by
  induction l generalizing s with
  | nil => exact ⟨rfl, rfl⟩
  | cons ro l ih =>
    rw [map_cons, nodup_cons] at hnd
    rw [forall_mem_cons] at ho
    have hothers : ∀ ro' ∈ l, ∃ o, (s.recount ro.1).reclaim? ro'.1 = some (.owned o) := by
      intro ro' hro'
      have hne : ro'.1 ≠ ro.1 := fun h => hnd.1 (h ▸ List.mem_map.2 ⟨ro', hro', rfl⟩)
      rw [recount, reclaim?_restamp, if_neg hne]
      exact ho.2 ro' hro'
    obtain ⟨hcounters, hcount⟩ := ih _ hnd.2 hothers
    obtain ⟨o, howned⟩ := ho.1
    have hzero : (s.recount ro.1).ownedAt ro.1 = 0 := ownedAt_of_not_owned fun o' => by simp [recount, reclaim?_restamp]
    have hstep : (s.recount ro.1).ownedCount + s.ownedAt ro.1 = s.ownedCount + (s.recount ro.1).ownedAt ro.1 :=
      ownedCount_modifyEntry _
    rw [hzero, ownedAt_of_owned howned] at hstep
    refine ⟨hcounters.trans counters_modifyEntry, ?_⟩
    rw [foldl_cons, length_cons]
    omega

theorem Balanced.rescue {cands : List Candidate} {dying : Finset RuntimeRegion} (hs : s.Balanced)
    (hnd : ((((s.rescuing cands).run ⟨dying, [], false⟩).rescued).map Prod.fst).Nodup)
    (ho : ∀ ro ∈ ((s.rescuing cands).run ⟨dying, [], false⟩).rescued, ∃ o, s.reclaim? ro.1 = some (.owned o)) :
    (s.rescueExternallyReferenced cands dying).1.Balanced := by
  rw [rescueExternallyReferenced]
  generalize (s.rescuing cands).run ⟨dying, [], false⟩ = rs at hnd ho ⊢
  split
  · exact hs
  · set t : RegionStore := s.withCounters (s.counters.countRescue rs.rescued.length (dying.card - rs.dying.card))
      with ht
    have hunlink : SameBooks t (t.unlinkRescued rs.rescued) := .unlinkRescued
    have howned : ∀ ro ∈ rs.rescued, ∃ o, (t.unlinkRescued rs.rescued).reclaim? ro.1 = some (.owned o) := by
      intro ro hro
      obtain ⟨o, h⟩ := ho ro hro
      refine ⟨o, ?_⟩
      rw [reclaim?, find?_unlinkRescued, Option.map_map]
      exact h
    obtain ⟨hcounters, hcount⟩ := recountAll_books rs.rescued _ hnd howned
    have hcounted : t.ownedCount = s.ownedCount := rfl
    have hbal : s.counters.adopts = s.counters.ended + s.ownedCount := hs
    rw [Balanced, hcounters, hunlink.counters]
    show s.counters.adopts =
      s.counters.ownedFrees + (s.counters.rescues + rs.rescued.length) + s.counters.extracts +
        (rs.rescued.foldl (fun s ro => s.recount ro.1) (t.unlinkRescued rs.rescued)).ownedCount
    rw [hunlink.owned, hcounted] at hcount
    rw [ReclaimCounters.ended] at hbal
    omega

theorem unindex_books (s : RegionStore) (cands : List Candidate) (dying : Finset RuntimeRegion) :
    (s.unindex cands dying).1.counters = s.counters ∧
      (s.unindex cands dying).1.ownedCount + (s.unindex cands dying).2.countP (·.2.isOwned) = s.ownedCount := by
  suffices ∀ (cands : List Candidate) (sm : RegionStore × List Member),
      (cands.foldl (unindexOne dying) sm).1.counters = sm.1.counters ∧
        (cands.foldl (unindexOne dying) sm).1.ownedCount + (cands.foldl (unindexOne dying) sm).2.countP (·.2.isOwned) =
          sm.1.ownedCount + sm.2.countP (·.2.isOwned) from this cands (s, [])
  intro cands
  induction cands with
  | nil => exact fun _ => ⟨rfl, rfl⟩
  | cons c cands ih =>
    intro sm
    obtain ⟨hcounters, hcount⟩ := ih (unindexOne dying sm c)
    rw [foldl_cons, hcounters, hcount, unindexOne]
    split
    · cases he : sm.1.find? c.1 with
      | none => exact ⟨rfl, rfl⟩
      | some e =>
        refine ⟨rfl, ?_⟩
        have := ownedCount_takeEntry (s := sm.1) (r := c.1)
        simp only [ownedAt, he, Option.toList_some, countP_cons, countP_nil, Nat.zero_add] at this
        simp only [countP_append, countP_cons, countP_nil, Nat.zero_add]
        have hsame : RegionEntry.isOwned { e with ownedChildren := [] } = e.isOwned := rfl
        rw [hsame]
        omega
    · exact ⟨rfl, rfl⟩

theorem releaseAll_books (ms : List Member) (s : RegionStore) :
    (ms.foldl release s).counters.adopts = s.counters.adopts ∧
      (ms.foldl release s).counters.ended = s.counters.ended + ms.countP (·.2.isOwned) ∧
      (ms.foldl release s).ownedCount = s.ownedCount := by
  induction ms generalizing s with
  | nil => exact ⟨rfl, rfl, rfl⟩
  | cons m ms ih =>
    obtain ⟨hadopts, hended, hcount⟩ := ih (s.release m)
    have hfree := s.counters.countFree_books m.2.pool.pageCount m.2.pool.objCount m.2.isOwned
    have hrelease : (s.release m).counters = s.counters.countFree m.2.pool.pageCount m.2.pool.objCount m.2.isOwned := rfl
    rw [hrelease] at hadopts hended
    refine ⟨hadopts.trans hfree.1, ?_, hcount⟩
    rw [foldl_cons, hended, hfree.2, countP_cons]
    omega

theorem Balanced.teardownSet (hs : s.Balanced) (hnd : ((s.rescued roots).map Prod.fst).Nodup)
    (ho : ∀ ro ∈ s.rescued roots, ∃ o, s.reclaim? ro.1 = some (.owned o)) :
    (s.teardownSet ord roots).1.Balanced := by
  have hrescue := hs.rescue hnd ho
  have hunindex := unindex_books
    (s.rescueExternallyReferenced (s.collect roots).candidates (s.collect roots).dying).1
    (s.collect roots).candidates (s.doomed roots)
  rw [← unindexed] at hunindex
  rw [teardownSet_eq]
  by_cases hms : (s.unindexed roots).2.isEmpty
  · simp only [hms, if_true]
    rw [List.isEmpty_iff] at hms
    rw [hms, countP_nil] at hunindex
    rw [Balanced, hunindex.1, hrescue]
    omega
  · simp only [hms, if_false, Bool.false_eq_true]
    have hsame : SameBooks (s.unindexed roots).1
        (((s.unindexed roots).1.retireEdges ord (s.unindexed roots).2).dischargeFibers (s.unindexed roots).2).1 :=
      SameBooks.frame.retireEdges.trans .dischargeFibers
    obtain ⟨hadopts, hended, hcount⟩ := releaseAll_books (s.unindexed roots).2
      (((s.unindexed roots).1.retireEdges ord (s.unindexed roots).2).dischargeFibers (s.unindexed roots).2).1
    rw [Balanced, hadopts, hended, hcount, hsame.counters, hsame.owned, hunindex.1, hrescue]
    omega

/-! ### What the rescue takes -/

theorem Listed.congr (hs : s.Listed) (h : SameForest s s') : s'.Listed :=
  ⟨fun hc => (h.owned _ _).2 (hs.owner_of_child (h.children _ ▸ hc))⟩

theorem Listed.pruned (hs : s.Listed) (hu : s.Unowned roots) : Pruned s (s.doomed roots) (s.rescued roots) :=
  rescue_inv (.start hs hu) fun hc hr _ h => h.prune (candidate_child hc) hr

theorem Listed.teardownSet (hs : s.Listed) (hu : s.Unowned roots) : (s.teardownSet ord roots).1.Listed := by
  have hinv := hs.pruned hu
  refine ⟨fun {p c} hc => ?_⟩
  rw [children_teardownSet] at hc
  split at hc
  · simp at hc
  rename_i hp
  rw [mem_filter, decide_eq_true_eq] at hc
  have hr : c ∉ (s.rescued roots).map Prod.fst := by
    intro h
    obtain ⟨⟨x, q⟩, hxq, rfl⟩ := List.mem_map.1 h
    exact hc.2 (hs.owner_unique hc.1 (hinv.cut hxq).1 ▸ hxq)
  rw [reclaim?_teardownSet, if_neg (hinv.outside hc.1 hp), if_neg hr]
  exact hs.owner_of_child hc.1

/-- The books are in order: children record their owners, and the counters balance. -/
structure Booked (s : RegionStore) : Prop where
  listed : s.Listed
  balanced : s.Balanced

theorem Booked.congr (hs : s.Booked) (hf : SameForest s s') (hb : SameBooks s s') : s'.Booked :=
  ⟨hs.listed.congr hf, hs.balanced.congr hb⟩

theorem booked_freeInv : FreeInv Booked fun s r => ∀ o, s.reclaim? r ≠ some (.owned o) := by
  refine .unowned (fun hs => hs.congr .decrefReachesZero .decrefReachesZero) (fun hs hu => ?_) fun hs =>
    hs.congr (.of_find? fun _ => rfl) ⟨rfl, rfl⟩
  have hinv := hs.listed.pruned hu
  refine ⟨hs.listed.teardownSet hu, hs.balanced.teardownSet hinv.nodup fun ro hro => ?_⟩
  exact ⟨_, hs.listed.owner_of_child (hinv.cut hro).1⟩

/-! ### Adoption, extraction, reparenting -/

theorem Booked.adoptRegion (hs : s.Booked) (hc : ∀ o, s.reclaim? c ≠ some (.owned o)) :
    (s.adoptRegion p c).Booked := by
  have hforest : SameForest s ((s.ensure p).ensure c) := SameForest.ensure.trans .ensure
  have hbooks : SameBooks s ((s.ensure p).ensure c) := SameBooks.ensure.trans .ensure
  refine ⟨⟨fun {q d} hd => ?_⟩, ?_⟩
  · rw [children_adoptRegion] at hd
    have hold : d ∈ s.children q → (s.adoptRegion p c).reclaim? d = some (.owned q) := fun hd => by
      have ho := hs.listed.owner_of_child hd
      rw [reclaim?_adoptRegion, if_neg fun h : d = c => hc q (h ▸ ho)]
      split
      · rename_i h; rw [← h, ho]; rfl
      · exact ho
    split at hd
    · rename_i hq
      subst hq
      refine (mem_append.1 hd).elim hold fun hd => ?_
      rw [reclaim?_adoptRegion, if_pos (List.mem_singleton.1 hd)]
    · exact hold hd
  · set t := (s.ensure p).ensure c with ht
    set u := t.modifyEntry c fun e => { e with reclaim := .owned p } with hu
    have hone : u.ownedAt c = 1 := ownedAt_of_owned (p := p) (by simp [hu, ht, reclaim?_restamp, reclaim?_ensure])
    have hzero : t.ownedAt c = 0 := ownedAt_of_not_owned fun o ho => hc o ((hforest.owned _ _).1 ho)
    have hcount : u.ownedCount + t.ownedAt c = t.ownedCount + u.ownedAt c := ownedCount_modifyEntry _
    have hcounters : u.counters = t.counters := counters_modifyEntry
    have hbal : s.counters.adopts = s.counters.ended + s.ownedCount := hs.balanced
    have hlast : SameBooks (u.withCounters (u.counters.countAdopt
        ((u.find? p).elim false fun e => e.pool.objCount == 0))) (s.adoptRegion p c) :=
      .modifyEntry (by intro; rfl)
    refine Balanced.congr ?_ hlast
    show u.counters.adopts + 1 = u.counters.ended + u.ownedCount
    rw [hcounters, hbooks.counters]
    rw [hone, hzero, hbooks.owned] at hcount
    omega

theorem Booked.extractOwnedRegion (hs : s.Booked) (r : RuntimeRegion) : (s.extractOwnedRegion r).Booked := by
  by_cases h : ∃ o, s.reclaim? r = some (.owned o)
  swap
  · rw [extractOwnedRegion_of_not_owned fun o ho => h ⟨o, ho⟩]; exact hs
  obtain ⟨o, ho⟩ := h
  refine ⟨⟨fun {q d} hd => ?_⟩, ?_⟩
  · have hmem : d ∈ s.children q ∧ d ≠ r := by
      rw [children_extractOwnedRegion ho] at hd
      split at hd
      · rename_i hq
        simpa [hq] using hd
      · rename_i hq
        refine ⟨hd, fun hdr => hq ?_⟩
        have := hs.listed.owner_of_child hd
        rw [hdr, ho] at this
        simpa using this.symm
    rw [reclaim?_extractOwnedRegion ho, if_neg hmem.2]
    exact hs.listed.owner_of_child hmem.1
  · set u := s.modifyEntry r fun e => { e with reclaim := .counted (1 + s.externalIncoming r (s.subtree r)) } with hu
    have hone : s.ownedAt r = 1 := ownedAt_of_owned ho
    have hzero : u.ownedAt r = 0 := ownedAt_of_not_owned fun o' => by simp [hu, reclaim?_restamp]
    have hcount : u.ownedCount + s.ownedAt r = s.ownedCount + u.ownedAt r := ownedCount_modifyEntry _
    have hcounters : u.counters = s.counters := counters_modifyEntry
    have hbal : s.counters.adopts = s.counters.ended + s.ownedCount := hs.balanced
    have hlast : SameBooks (u.withCounters u.counters.countExtract) (s.extractOwnedRegion r) := by
      rw [RegionStore.extractOwnedRegion, ho]
      exact .modifyEntry (by intro; rfl)
    refine Balanced.congr ?_ hlast
    show u.counters.adopts = u.counters.ownedFrees + u.counters.rescues + (u.counters.extracts + 1) + u.ownedCount
    rw [hcounters]
    rw [ReclaimCounters.ended] at hbal
    omega

theorem SameBooks.reown (target : RuntimeRegion) (l : List RuntimeRegion) (s : RegionStore)
    (h : ∀ c ∈ l, ∃ o, s.reclaim? c = some (.owned o)) :
    SameBooks s (l.foldl (fun s c => s.modifyEntry c fun e => { e with reclaim := .owned target }) s) := by
  induction l generalizing s with
  | nil => exact .refl
  | cons c l ih =>
    rw [forall_mem_cons] at h
    set u := s.modifyEntry c fun e => { e with reclaim := .owned target } with hu
    obtain ⟨o, ho⟩ := h.1
    have hself : u.reclaim? c = some (.owned target) := by rw [hu, reclaim?_restamp, if_pos rfl, ho]; rfl
    have hcount : u.ownedCount + s.ownedAt c = s.ownedCount + u.ownedAt c := ownedCount_modifyEntry _
    rw [ownedAt_of_owned ho, ownedAt_of_owned hself] at hcount
    have hone : SameBooks s u := ⟨counters_modifyEntry, by omega⟩
    refine hone.trans (ih u fun x hx => ?_)
    rw [hu, reclaim?_restamp]
    split
    · exact ⟨target, by rw [ho]; rfl⟩
    · exact h.2 x hx

theorem Booked.reparentOwnedChildren (hs : s.Booked) (a b : RuntimeRegion) : (s.reparentOwnedChildren a b).Booked := by
  by_cases hnil : a = b ∨ s.children a = []
  · rw [reparentOwnedChildren_of_nil hnil]; exact hs
  rw [not_or] at hnil
  obtain ⟨hab, hnil⟩ : a ≠ b ∧ s.children a ≠ [] := hnil
  refine ⟨hs.listed.regraft (hs.listed.reparent hab hnil), ?_⟩
  set u := s.modifyEntry a fun e => { e with ownedChildren := [] } with hu
  have hfirst : SameBooks s u := .modifyEntry (by intro; rfl)
  set t := (u.withCounters (u.counters.countReparents (s.children a).length)).ensure b with ht
  have htarget : SameBooks (u.withCounters (u.counters.countReparents (s.children a).length)) t := .ensure
  have howned : ∀ c ∈ s.children a, ∃ o, t.reclaim? c = some (.owned o) := by
    intro c hc
    refine ⟨a, (SameForest.ensure.owned c a).2 ?_⟩
    have hrec : u.reclaim? c = s.reclaim? c := reclaim?_kept fun _ => rfl
    exact hrec.trans (hs.listed.owner_of_child hc)
  have hbal : s.counters.adopts = s.counters.ended + s.ownedCount := hs.balanced
  have hstart : (u.withCounters (u.counters.countReparents (s.children a).length)).Balanced := by
    show u.counters.adopts = u.counters.ended + u.ownedCount
    rw [hfirst.counters, hfirst.owned]
    exact hbal
  have hlast : SameBooks t (s.reparentOwnedChildren a b) := by
    rw [RegionStore.reparentOwnedChildren, if_neg hab]
    split
    · rename_i h; exact absurd h hnil
    · exact (SameBooks.reown b _ t howned).trans (.modifyEntry (by intro; rfl))
  exact hstart.congr (htarget.trans hlast)

end RegionStore

open RegionStore

/-! ### Whole runs -/

/-- An adopted region is counted, and so is every member of a co-owned group; the store is not torn down at once. -/
def LedgerDiscipline (s : RegionStore) : Op → Prop
  | .adoptRegion _ c => ∀ o, s.reclaim? c ≠ some (.owned o)
  | .freeRegionGroup members => s.Unowned members
  | .teardownAll => False
  | _ => True

theorem booked_apply {s : RegionStore} {ord : IterOrder} {op : Op} (hs : s.Booked) (ha : LedgerDiscipline s op) :
    (op.apply ord s).Booked := by
  cases op with
  | newRuntimeRegion | newRuntimeRegionTracked | beginMintLog | setFibers fs =>
    exact hs.congr (.of_find? fun _ => rfl) ⟨rfl, rfl⟩
  | recycleUnmaterialized mint =>
    simp only [Op.apply, recycleUnmaterialized]
    split
    · exact hs
    · split
      · exact hs
      · exact hs.congr (.of_find? fun _ => rfl) ⟨rfl, rfl⟩
  | ensure r => exact hs.congr .ensure .ensure
  | incref r => exact hs.congr SameForest.frame.incref SameBooks.frame.incref
  | decref r => exact booked_freeInv.decref hs
  | decrefIfPresent r => exact booked_freeInv.decrefIfPresent hs
  | recordOutgoing src dst => exact hs.congr SameForest.frame.recordOutgoing SameBooks.frame.recordOutgoing
  | unrecordOutgoing src dst => exact hs.congr SameForest.frame.unrecordOutgoing SameBooks.frame.unrecordOutgoing
  | allocObj r obj => exact hs.congr SameForest.frame.allocObj SameBooks.frame.allocObj
  | adoptRegion p c => exact hs.adoptRegion ha
  | extractOwnedRegion c => exact hs.extractOwnedRegion c
  | reparentOwnedChildren a b => exact hs.reparentOwnedChildren a b
  | freeRegionGroup members => exact booked_freeInv.freeRegionSet hs ha
  | teardownAll => exact ha.elim
  | reclaimMintScope ps => exact booked_freeInv.reclaimMintScope hs

theorem booked_of_reachable {s : RegionStore} (h : Reachable LedgerDiscipline s) : s.Booked :=
  h.inv ⟨⟨fun h => by simp [children] at h⟩, rfl⟩ fun _ _ _ hs ha => booked_apply hs ha

/-- In every run the adoptions that have not ended, as the counters have it, are the owned regions of the table. -/
theorem ledger_agrees {s : RegionStore} (h : Reachable LedgerDiscipline s) : s.counters.owned = s.ownedCount := by
  have hbal : s.counters.adopts = s.counters.ended + s.ownedCount := (booked_of_reachable h).balanced
  rw [ReclaimCounters.owned]
  omega

/-- Region 2 adopts region 3 and region 3 adopts region 4; the drop of region 2 ends both. -/
theorem ledger_agrees_dropped :
    let s := ((RegionStore.new.adoptRegion (region 0) (region 1)).adoptRegion (region 1) (region 2))
    s.counters.owned = 2 ∧ (s.decref .listed (region 0)).1.counters.owned =
      (s.decref .listed (region 0)).1.ownedCount := by
  intro s
  have h : Reachable LedgerDiscipline s :=
    .step .listed (.adoptRegion (region 1) (region 2))
      (.step .listed (.adoptRegion (region 0) (region 1)) .new fun _ => by simp [reclaim?]) fun o ho => by
        have hnone : (RegionStore.new.adoptRegion (region 0) (region 1)).reclaim? (region 2) = none := by decide +kernel
        exact nomatch hnone.symm.trans ho
  exact ⟨by decide +kernel, ledger_agrees (h.step .listed (.decref (region 0)) trivial)⟩

end Elle

import Elle.Region.Survivors

/-! # What a cascade takes off the counts

A free only takes regions away (`Frees`): what survives keeps its objects and its edges, and the ids of the regions
that are gone are on the free list, once each.  `Tally` is the account of the counts while a cascade runs: what a
counted region has lost so far is the direct releases it was given and the edges of the regions that are gone, less
the references of the frontier that are still to be released.
-/

namespace Elle.RegionStore

open List

variable {s s' s'' t : RegionStore} {r x y p c k : RuntimeRegion} {ord : IterOrder} {roots : List RuntimeRegion}
  {n m : Nat}

/-! ### The regions that are gone -/

/-- The regions that exist in `s` and no longer exist in `s'`. -/
def gone (s s' : RegionStore) : Finset RuntimeRegion := s.live \ s'.live

def objectCount (s : RegionStore) (x : RuntimeRegion) : Nat := (s.find? x).elim 0 fun e => e.pool.objCount

/-- The edges into `x` recorded at the regions of `S`. -/
def edgesFrom (s : RegionStore) (S : Finset RuntimeRegion) (x : RuntimeRegion) : Nat := ∑ k ∈ S, s.out k x

theorem mem_gone : x ∈ s.gone s' ↔ s.isLive x ∧ ¬ s'.isLive x := by
  rw [gone, Finset.mem_sdiff, mem_live, mem_live]

/-- What survives a free keeps its objects and its edges, and owns no more than before. -/
structure Keeps (e e' : RegionEntry) : Prop where
  pool : e'.pool = e.pool
  outgoing : e'.outgoing = e.outgoing
  children : ∀ c ∈ e'.ownedChildren, c ∈ e.ownedChildren

/-- From `s` to `s'` regions were only freed, `n` objects in all, each region once. -/
structure Frees (s s' : RegionStore) (n : Nat) : Prop where
  kept : ∀ {x e'}, s'.find? x = some e' → ∃ e, s.find? x = some e ∧ Keeps e e'
  ids : ∃ torn : List RuntimeRegion, torn.Nodup ∧ torn.toFinset = s.gone s' ∧ s'.freePhysical = torn ++ s.freePhysical
  objects : n = ∑ x ∈ s.gone s', s.objectCount x
  gen : ∀ x, s'.isLive x → s'.generationRaw x = s.generationRaw x

namespace Frees

theorem of_kept (h : ∀ {x e'}, s'.find? x = some e' → ∃ e, s.find? x = some e ∧ Keeps e e')
    (hl : ∀ x, s'.isLive x = s.isLive x) (hf : s'.freePhysical = s.freePhysical)
    (hg : ∀ x, s'.generationRaw x = s.generationRaw x) : Frees s s' 0 := by
  have hgone : s.gone s' = ∅ := Finset.eq_empty_of_forall_notMem fun x hx => by
    obtain ⟨h1, h2⟩ := mem_gone.1 hx
    exact h2 (hl x ▸ h1)
  exact ⟨h, ⟨[], nodup_nil, by rw [hgone]; rfl, by rw [hf]; rfl⟩, by rw [hgone, Finset.sum_empty], fun x _ => hg x⟩

theorem refl : Frees s s 0 :=
  of_kept (fun {_ e'} h => ⟨e', h, rfl, rfl, fun _ hc => hc⟩) (fun _ => rfl) rfl fun _ => rfl

section

variable (h : Frees s s' n)
include h

theorem isLive (hx : s'.isLive x) : s.isLive x := by
  obtain ⟨e', he'⟩ := isLive_iff.1 hx
  obtain ⟨e, he, -⟩ := h.kept he'
  exact isLive_of_find? he

theorem live_subset : s'.live ⊆ s.live := fun _ hx => mem_live.2 (h.isLive (mem_live.1 hx))

theorem out (hx : s'.isLive x) (y : RuntimeRegion) : s'.out x y = s.out x y := by
  obtain ⟨e', he'⟩ := isLive_iff.1 hx
  obtain ⟨e, he, hk⟩ := h.kept he'
  rw [out_of_find? he', out_of_find? he, hk.outgoing]

theorem objectCount (hx : s'.isLive x) : s'.objectCount x = s.objectCount x := by
  obtain ⟨e', he'⟩ := isLive_iff.1 hx
  obtain ⟨e, he, hk⟩ := h.kept he'
  simp only [RegionStore.objectCount, he', he, Option.elim_some, hk.pool]

theorem children (hc : c ∈ s'.children p) : c ∈ s.children p := by
  obtain ⟨e', he'⟩ := isLive_iff.1 (isLive_of_mem_children hc)
  obtain ⟨e, he, hk⟩ := h.kept he'
  rw [children_of_find? he'] at hc
  rw [children_of_find? he]
  exact hk.children c hc

theorem gone_trans (h' : Frees s' s'' m) : s.gone s'' = s.gone s' ∪ s'.gone s'' := by
  ext x
  simp only [Finset.mem_union, mem_gone]
  exact ⟨fun ⟨h1, h2⟩ => (em (s'.isLive x = true)).elim (fun hx => .inr ⟨hx, h2⟩) fun hx => .inl ⟨h1, hx⟩,
    fun hx => hx.elim (fun ⟨h1, h2⟩ => ⟨h1, fun h3 => h2 (h'.isLive h3)⟩) fun ⟨h1, h2⟩ => ⟨h.isLive h1, h2⟩⟩

end

theorem disjoint_gone (s s' s'' : RegionStore) : Disjoint (s.gone s') (s'.gone s'') :=
  Finset.disjoint_left.2 fun _ hx hx' => (mem_gone.1 hx).2 (mem_gone.1 hx').1

theorem edgesFrom_gone_trans (h : Frees s s' n) (h' : Frees s' s'' m) (x : RuntimeRegion) :
    s.edgesFrom (s.gone s'') x = s.edgesFrom (s.gone s') x + s'.edgesFrom (s'.gone s'') x := by
  rw [edgesFrom, h.gone_trans h', Finset.sum_union (disjoint_gone s s' s'')]
  exact congrArg _ (Finset.sum_congr rfl fun k hk => (h.out (mem_gone.1 hk).1 x).symm)

theorem trans (h : Frees s s' n) (h' : Frees s' s'' m) : Frees s s'' (n + m) := by
  obtain ⟨torn, hnd, hids, hfree⟩ := h.ids
  obtain ⟨torn', hnd', hids', hfree'⟩ := h'.ids
  refine ⟨fun {x e''} he'' => ?_, ⟨torn' ++ torn, ?_, ?_, by rw [hfree', hfree, append_assoc]⟩, ?_,
    fun x hx => (h'.gen x hx).trans (h.gen x (h'.isLive hx))⟩
  · obtain ⟨e', he', hk'⟩ := h'.kept he''
    obtain ⟨e, he, hk⟩ := h.kept he'
    exact ⟨e, he, hk'.pool.trans hk.pool, hk'.outgoing.trans hk.outgoing, fun c hc => hk.children c (hk'.children c hc)⟩
  · refine List.nodup_append.2 ⟨hnd', hnd, fun x hx' z hz hxz => ?_⟩
    rw [← mem_toFinset, hids'] at hx'
    rw [← mem_toFinset, hids] at hz
    exact Finset.disjoint_left.1 (disjoint_gone s s' s'') hz (hxz ▸ hx')
  · rw [toFinset_append, hids, hids', h.gone_trans h', Finset.union_comm]
  · rw [h.gone_trans h', Finset.sum_union (disjoint_gone s s' s''), ← h.objects, h'.objects]
    exact congrArg _ (Finset.sum_congr rfl fun x hx => h.objectCount (mem_gone.1 hx).1)

end Frees

/-! ### The steps of a free -/

theorem frees_decrefReachesZero (s : RegionStore) (r : RuntimeRegion) (fc : Option RuntimeRegion) :
    Frees s (s.decrefReachesZero r fc).1 0 := by
  refine .of_kept (fun {x e'} he' => ?_) (fun x => isLive_decrefReachesZero) SameIds.decrefReachesZero.free
    SameIds.decrefReachesZero.gen
  rw [find?_decrefReachesZero] at he'
  by_cases hx : x = r
  · rw [if_pos hx] at he'
    obtain ⟨e, he, rfl⟩ := Option.map_eq_some_iff.1 he'
    exact ⟨e, hx ▸ he, by simp, by simp, by simp⟩
  · exact ⟨e', by rwa [if_neg hx] at he', rfl, rfl, fun _ hc => hc⟩

theorem gone_teardownSet : s.gone (s.teardownSet ord roots).1 = s.doomed roots := by
  ext x
  rw [mem_gone, isLive_teardownSet, not_and, not_not]
  exact ⟨fun h => h.2 h.1, fun h => ⟨isLive_of_mem_doomed h, fun _ => h⟩⟩

theorem frees_teardownSet (s : RegionStore) (ord : IterOrder) (roots : List RuntimeRegion) :
    Frees s (s.teardownSet ord roots).1 (s.teardownSet ord roots).2.1 := by
  have hids : ((s.unindexed roots).2.map Prod.fst).toFinset = s.doomed roots := by
    ext x; rw [mem_toFinset, mem_unindexed_ids]
  obtain ⟨hfree, -, -, hgen⟩ := teardownSet_ids s ord roots
  refine ⟨fun {x e'} he' => ?_, ⟨_, List.nodup_reverse.2 (nodup_unindexed s roots), ?_, hfree⟩, ?_, fun x hx => ?_⟩
  · obtain ⟨hl, hd⟩ := isLive_teardownSet.1 (isLive_of_find? he')
    obtain ⟨e, he⟩ := isLive_iff.1 hl
    obtain ⟨e₂, he₂, hsv⟩ := teardownSet_survives ord hd he
    rw [he'] at he₂
    cases he₂
    refine ⟨e, he, hsv.pool, hsv.outgoing, fun c hc => ?_⟩
    rw [hsv.children] at hc
    exact (List.mem_filter.1 hc).1
  · rw [toFinset_reverse, hids, gone_teardownSet]
  · rw [(teardownSet_parts s ord roots).2.1, gone_teardownSet, ← hids,
      sum_toFinset _ (nodup_unindexed s roots), List.map_map]
    refine congrArg List.sum (map_congr_left fun m hm => ?_)
    obtain ⟨-, e, he, -, hp⟩ := mem_unindexed hm
    simp only [Function.comp_apply, objectCount, he, Option.elim_some, hp]
  · have hd := (isLive_teardownSet.1 hx).2
    rw [hgen x (.inr hd), if_neg hd]

/-! ### Fibers that owe nothing -/

/-- The fiber of the object, if it carries one, is executing or owes no release. -/
def Settled (fibers : List Fiber) (obj : HeapObject) : Prop :=
  ∀ h f, obj.fiber = some h → fibers[h]? = some f → f.executing ∨ f.dueCount = 0

/-- No fiber among the objects of the regions of `D` owes a release that its discharge would make. -/
def Quiet (s : RegionStore) (D : Finset RuntimeRegion) : Prop :=
  ∀ x ∈ D, ∀ e, s.find? x = some e → ∀ obj ∈ e.pool.objects, Settled s.fibers obj

theorem Settled.discharge {sd : RegionStore × List RuntimeRegion} {obj : HeapObject} (h : Settled sd.1.fibers obj) :
    (dischargeObject sd obj).2 = sd.2 := by
  rw [dischargeObject]
  split
  · rfl
  split
  · rfl
  split
  · rfl
  rename_i i hi _ f hf hex
  have hdue := (h i f hi hf).resolve_left hex
  have hnil : sd.1.discharged f = [] := List.length_eq_zero_iff.1 (Nat.le_zero.1 (hdue ▸ length_discharged_le sd.1 f))
  simp only [hnil, append_nil]

theorem Settled.dischargeObject {sd : RegionStore × List RuntimeRegion} {obj : HeapObject} (h : Settled sd.1.fibers obj)
    (o : HeapObject) : Settled (RegionStore.dischargeObject sd o).1.fibers obj := by
  rw [RegionStore.dischargeObject]
  split
  · exact h
  split
  · exact h
  split
  · exact h
  intro j g hj hg
  rw [getElem?_set] at hg
  split at hg
  · split at hg
    · cases hg
      exact .inr rfl
    · simp at hg
  · exact h j g hj hg

theorem discharge_fold {l : List HeapObject} {sd : RegionStore × List RuntimeRegion} (h : ∀ o ∈ l, Settled sd.1.fibers o) :
    (l.foldl dischargeObject sd).2 = sd.2 ∧
      ∀ obj, Settled sd.1.fibers obj → Settled (l.foldl dischargeObject sd).1.fibers obj := by
  induction l generalizing sd with
  | nil => exact ⟨rfl, fun _ h => h⟩
  | cons o l ih =>
    rw [forall_mem_cons] at h
    obtain ⟨hnone, hkeep⟩ := ih fun o' ho' => (h.2 o' ho').dischargeObject o
    exact ⟨hnone.trans h.1.discharge, fun obj hobj => hkeep obj (hobj.dischargeObject o)⟩

variable {D : Finset RuntimeRegion}

theorem Quiet.discharge (h : s.Quiet D) (hD : s.doomed roots ⊆ D) :
    (((s.unindexed roots).1.retireEdges ord (s.unindexed roots).2).dischargeFibers (s.unindexed roots).2).2 = [] ∧
      ∀ obj, Settled s.fibers obj → Settled (s.teardownSet ord roots).1.fibers obj := by
  have hobj : ∀ o ∈ (s.unindexed roots).2.flatMap fun m => m.2.pool.objects,
      Settled ((s.unindexed roots).1.retireEdges ord (s.unindexed roots).2).fibers o := fun o ho => by
    obtain ⟨m, hm, ho⟩ := List.mem_flatMap.1 ho
    obtain ⟨hd, e, he, -, hp⟩ := mem_unindexed hm
    rw [fibers_retired]
    exact h m.1 (hD hd) e he o (hp ▸ ho)
  have hfold := @discharge_fold _ ((s.unindexed roots).1.retireEdges ord (s.unindexed roots).2, []) hobj
  rw [(teardownSet_parts s ord roots).1, dischargeFibers]
  refine ⟨hfold.1, fun obj ho => hfold.2 obj ?_⟩
  rw [fibers_retired]
  exact ho

theorem Quiet.of_frees (h : s.Quiet D) (hf : Frees s s' n)
    (hs : ∀ obj, Settled s.fibers obj → Settled s'.fibers obj) : s'.Quiet D := fun x hx e' he' obj ho => by
  obtain ⟨e, he, hk⟩ := hf.kept he'
  exact hs obj (h x hx e he obj (hk.pool ▸ ho))

/-! ### The account of the counts -/

/-- The account of a cascade that started in `s`: `E` counts the direct releases, and only regions of `D` may go. -/
structure Tally (s : RegionStore) (E : RuntimeRegion → Nat) (D : Finset RuntimeRegion) (c : Cascade) : Prop where
  frees : ∃ n, Frees s c.store n
  forest : c.store.Forest
  unowned : ∀ set ∈ c.worklist, ∀ x ∈ set, ∀ o, c.store.reclaim? x ≠ some (.owned o)
  single : ∀ set ∈ c.worklist, ∃ x, set = [x]
  quiet : c.store.Quiet D
  front : ∀ x, c.store.isLive x → c.frontier.count x ≤ s.edgesFrom (s.gone c.store) x
  count : ∀ {x n}, s.reclaim? x = some (.counted n) → c.store.isLive x → [x] ∉ c.worklist →
    ∃ m, c.store.reclaim? x = some (.counted m) ∧
      m + s.edgesFrom (s.gone c.store) x + E x = n + c.frontier.count x ∧ (m = 0 → n = 0)
  due : ∀ {x n}, s.reclaim? x = some (.counted n) → [x] ∈ c.worklist ∨ x ∈ s.gone c.store →
    n ≤ s.edgesFrom (s.gone c.store) x + E x ∧ 0 < s.edgesFrom (s.gone c.store) x + E x

variable {E : RuntimeRegion → Nat} {src fc : Option RuntimeRegion} {w : List (List RuntimeRegion)}
  {l l₁ l₂ : List RuntimeRegion} {freed : Nat}

theorem gone_decrefReachesZero : s.gone (t.decrefReachesZero r fc).1 = s.gone t := by
  ext x
  rw [mem_gone, mem_gone, isLive_decrefReachesZero]

namespace Tally

theorem start (hs : s.Forest) (hq : s.Quiet D) : Tally s (fun _ => 0) D ⟨s, [], [], none, 0⟩ := by
  have hgone : s.gone s = ∅ := Finset.sdiff_self _
  refine ⟨⟨0, .refl⟩, hs, by simp, by simp, hq, by simp, fun {x n} hx _ _ => ⟨n, hx, ?_, id⟩, fun {x n} _ h => ?_⟩
  · simp [hgone, edgesFrom]
  · simp [hgone] at h

theorem relabel {src' : Option RuntimeRegion} (h : Tally s E D ⟨t, w, l, src, freed⟩) : Tally s E D ⟨t, w, l, src', m⟩ :=
  ⟨h.frees, h.forest, h.unowned, h.single, h.quiet, h.front, h.count, h.due⟩

/-- Releasing one reference of `a`: one that the frontier held, or one that a direct release gives back. -/
theorem decref {a : RuntimeRegion} {E' : RuntimeRegion → Nat} {l' : List RuntimeRegion} {src' : Option RuntimeRegion}
    (h : Tally s E D ⟨t, w, l, src, freed⟩) (hne : ∀ x, x ≠ a → E' x = E x ∧ l'.count x = l.count x)
    (ha : E' a + l.count a = E a + l'.count a + 1) (hE : E a ≤ E' a) (hl : l'.count a ≤ l.count a)
    (hpos : t.isLive a → 0 < s.edgesFrom (s.gone t) a + E' a) :
    Tally s E' D ⟨(t.decrefReachesZero a fc).1, if (t.decrefReachesZero a fc).2 then [a] :: w else w, l', src', m⟩ := by
  obtain ⟨n, hfrees⟩ := h.frees
  have hmem : ∀ {set}, set ∈ (if (t.decrefReachesZero a fc).2 then [a] :: w else w) →
      set ∈ w ∨ (set = [a] ∧ (t.decrefReachesZero a fc).2) := fun {set} hset => by
    split at hset
    · rename_i hz
      exact (List.mem_cons.1 hset).elim (fun h => .inr ⟨h, hz⟩) .inl
    · exact .inl hset
  have hold : ∀ {set}, set ∈ w → set ∈ (if (t.decrefReachesZero a fc).2 then [a] :: w else w) := fun {set} hset => by
    split
    · exact mem_cons_of_mem _ hset
    · exact hset
  have hEle : ∀ x, E x ≤ E' x := fun x => by
    by_cases hx : x = a
    · exact hx ▸ hE
    · exact (hne x hx).1.ge
  refine ⟨⟨n, hfrees.trans (frees_decrefReachesZero t a fc)⟩, h.forest.congr .decrefReachesZero, fun set hset x hx o ho => ?_,
    fun set hset => ?_, h.quiet.of_frees (frees_decrefReachesZero t a fc) fun obj ho => ?_, fun x hx => ?_,
    fun {x n} hx hlive hw => ?_, fun {x n} hx hd => ?_⟩
  · rw [SameForest.decrefReachesZero.owned] at ho
    rcases hmem hset with hset | ⟨rfl, hz⟩
    · exact h.unowned set hset x hx o ho
    · obtain ⟨rc, hrc, -⟩ := decrefReachesZero_snd.1 hz
      rw [List.mem_singleton.1 hx, hrc] at ho
      simp at ho
  · exact (hmem hset).elim (h.single set) fun h => ⟨a, h.1⟩
  · rwa [SameIds.decrefReachesZero.fibers]
  · rw [isLive_decrefReachesZero] at hx
    rw [gone_decrefReachesZero]
    refine Nat.le_trans ?_ (h.front x hx)
    by_cases hxa : x = a
    · exact hxa ▸ hl
    · exact (hne x hxa).2.le
  · rw [isLive_decrefReachesZero] at hlive
    obtain ⟨m, hm, hsum, hzero⟩ := h.count hx hlive fun hin => hw (hold hin)
    rw [gone_decrefReachesZero]
    by_cases hxa : x = a
    · subst hxa
      -- a count that did not reach zero was at least two
      have hm2 : 2 ≤ m := by
        by_contra hlt
        have hz : (t.decrefReachesZero x fc).2 := decrefReachesZero_snd.2 ⟨m, hm, by omega⟩
        exact hw (by rw [if_pos hz]; exact mem_cons_self)
      dsimp only at hsum ⊢
      exact ⟨m - 1, reclaim?_decref_self hm, by omega, by omega⟩
    · refine ⟨m, by rw [reclaim?_decref_of_ne hxa, hm], ?_, hzero⟩
      rw [(hne x hxa).1, (hne x hxa).2]
      exact hsum
  · rw [gone_decrefReachesZero] at hd ⊢
    have hmono : ∀ {k}, k ≤ s.edgesFrom (s.gone t) x + E x → k ≤ s.edgesFrom (s.gone t) x + E' x :=
      fun hk => hk.trans (Nat.add_le_add_left (hEle x) _)
    by_cases hin : [x] ∈ w ∨ x ∈ s.gone t
    · exact ⟨hmono (h.due hx hin).1, hmono (h.due hx hin).2⟩
    · rw [not_or] at hin
      obtain ⟨hxa, hz⟩ := (hmem (hd.resolve_right hin.2)).resolve_left hin.1
      obtain ⟨rfl, -⟩ := hxa
      obtain ⟨rc, hrc, hle⟩ := decrefReachesZero_snd.1 hz
      have hlive := isLive_of_reclaim? hrc
      obtain ⟨m, hm, hsum, -⟩ := h.count hx hlive hin.1
      rw [hm, Option.some.injEq, Reclaim.counted.injEq] at hrc
      dsimp only at hsum
      exact ⟨by omega, hpos hlive⟩

theorem release {a : RuntimeRegion} (h : Tally s E D ⟨t, w, l₁ ++ a :: l₂, src, freed⟩) :
    Tally s E D ⟨(t.decrefReachesZero a src).1, if (t.decrefReachesZero a src).2 then [a] :: w else w, l₁ ++ l₂, src,
      freed⟩ := by
  refine h.decref (fun x hx => ⟨rfl, ?_⟩) ?_ (Nat.le_refl _) ?_ fun hlive => ?_
  · simp [count_cons_of_ne (Ne.symm hx)]
  · simp; omega
  · simp
  · have := h.front a hlive
    simp only [count_append, count_cons_self] at this
    omega

theorem teardown {w₁ w₂ : List (List RuntimeRegion)} {a : List RuntimeRegion}
    (h : Tally s E D ⟨t, w₁ ++ a :: w₂, [], src, freed⟩) (hD : t.doomed a ⊆ D) :
    Tally s E D ⟨(t.teardownSet ord a).1, w₁ ++ w₂, (t.teardownSet ord a).2.2, fc, m⟩ := by
  obtain ⟨n, hfrees⟩ : ∃ n, Frees s t n := h.frees
  have htear := frees_teardownSet t ord a
  have hforest : t.Forest := h.forest
  have hin : a ∈ w₁ ++ a :: w₂ := mem_append_right _ mem_cons_self
  have hold : ∀ {set}, set ∈ w₁ ++ w₂ → set ∈ w₁ ++ a :: w₂ := fun {set} hset =>
    ((sublist_cons_self a w₂).append_left w₁).subset hset
  have hu : t.Unowned a := h.unowned a hin
  have hquiet := @Quiet.discharge t ord a D h.quiet hD
  have hedges : ∀ x, s.edgesFrom (s.gone (t.teardownSet ord a).1) x =
      s.edgesFrom (s.gone t) x + ∑ d ∈ t.doomed a, t.out d x := fun x => by
    rw [hfrees.edgesFrom_gone_trans htear, gone_teardownSet, edgesFrom, edgesFrom]
  have hfront : ∀ x, (t.teardownSet ord a).1.isLive x → (t.teardownSet ord a).2.2.count x = ∑ d ∈ t.doomed a, t.out d x :=
    fun x hx => count_frontier_of_discharged hx hquiet.1
  -- a counted region that no set of the worklist names is only torn down as a root
  have hroot : ∀ {x n}, s.reclaim? x = some (.counted n) → x ∈ t.doomed a → [x] ∈ w₁ ++ a :: w₂ := fun {x n} hx hd => by
    by_contra hnot
    obtain ⟨m, hm, -⟩ := h.count hx (isLive_of_mem_doomed hd) hnot
    obtain ⟨⟨y, o⟩, hy, rfl⟩ := List.mem_map.1 (((collect_inv a).ids x).1 (doomed_subset t a hd))
    rcases (collect_inv a).listed y o (.inl hy) with ⟨-, hr⟩ | ⟨p, -, -, hyp⟩
    · obtain ⟨z, rfl⟩ := h.single a hin
      rw [List.mem_singleton.1 hr] at hnot
      exact hnot hin
    · exact hforest.not_child_of_counted hm hyp
  refine ⟨⟨_, hfrees.trans htear⟩, hforest.teardownSet hu, fun set hset x hx o ho => ?_, fun set hset => h.single set (hold hset),
    h.quiet.of_frees htear hquiet.2, fun x hx => ?_, fun {x n} hx hlive hw => ?_, fun {x n} hx hd => ?_⟩
  · exact forest_freeInv.teardown_root hforest hu (h.unowned set (hold hset) x hx) o ho
  · rw [hfront x hx, hedges]
    exact Nat.le_add_left _ _
  · obtain ⟨hl, hnd⟩ := isLive_teardownSet.1 hlive
    have hnot : [x] ∉ w₁ ++ a :: w₂ := fun hxin => by
      have hxa : [x] = a := (List.mem_append.1 hxin).elim (fun h => absurd (mem_append_left _ h) hw) fun h =>
        (List.mem_cons.1 h).resolve_right fun h => hw (mem_append_right _ h)
      exact hnd ((rescueInv hforest hu).roots x (hxa ▸ mem_singleton_self x) hl)
    obtain ⟨m, hm, hsum, hzero⟩ := h.count hx hl hnot
    have hres : x ∉ (t.rescued a).map Prod.fst := fun hxr => by
      obtain ⟨⟨y, p⟩, hy, rfl⟩ := List.mem_map.1 hxr
      exact hforest.not_child_of_counted hm ((rescueInv hforest hu).cut hy).1
    refine ⟨m, by rw [reclaim?_teardownSet, if_neg hnd, if_neg hres, hm], ?_, hzero⟩
    rw [hedges, hfront x hlive]
    simp only [count_nil] at hsum
    omega
  · rw [hedges]
    have hdue : [x] ∈ w₁ ++ a :: w₂ ∨ x ∈ s.gone t := by
      rcases hd with hd | hd
      · exact .inl (hold hd)
      · rw [hfrees.gone_trans htear, Finset.mem_union, gone_teardownSet] at hd
        exact hd.elim .inr fun hd => .inl (hroot hx hd)
    have := h.due hx hdue
    dsimp only at this
    omega

theorem direct (h : Tally s E D ⟨t, [], [], src, freed⟩) (r : RuntimeRegion) (fc : Option RuntimeRegion) :
    Tally s (fun x => E x + if x = r then 1 else 0) D
      ⟨(t.decrefReachesZero r fc).1, if (t.decrefReachesZero r fc).2 then [[r]] else [], [], none, m⟩ :=
  h.decref (fun x hx => ⟨by simp [hx], rfl⟩) (by simp) (by simp) (Nat.le_refl _) fun _ => by simp

end Tally

/-! ### Whole cascades -/

theorem Next.frees {c c' : Cascade} (h : Next c c') : ∃ n, Frees c.store c'.store n ∧ c'.freed = c.freed + n := by
  cases h with
  | release => exact ⟨0, frees_decrefReachesZero _ _ _, rfl⟩
  | teardown ord => exact ⟨_, frees_teardownSet _ ord _, rfl⟩

theorem frees_of_run {c c' : Cascade} (h : Relation.ReflTransGen Next c c') :
    ∃ n, Frees c.store c'.store n ∧ c'.freed = c.freed + n := by
  induction h with
  | refl => exact ⟨0, .refl, rfl⟩
  | tail _ hn ih =>
    obtain ⟨n, hf, hfreed⟩ := ih
    obtain ⟨m, hf', hfreed'⟩ := hn.frees
    exact ⟨n + m, hf.trans hf', by omega⟩

theorem Tally.run {c c' : Cascade} (hr : Relation.ReflTransGen Next c c') (hD : s.gone c'.store ⊆ D)
    (h : Tally s E D c) : Tally s E D c' := by
  induction hr using Relation.ReflTransGen.head_induction_on with
  | refl => exact h
  | @head a b hn hrest ih =>
    refine ih ?_
    cases hn with
    | release => exact h.release
    | teardown ord =>
      refine h.teardown fun x hx => hD (mem_gone.2 ⟨?_, fun hlive => ?_⟩)
      · obtain ⟨n, hf⟩ := h.frees
        exact hf.isLive (isLive_of_mem_doomed hx)
      · obtain ⟨n, hf, -⟩ := frees_of_run hrest
        exact (isLive_teardownSet.1 (hf.isLive hlive)).2 hx

theorem freeRegionSet_run (s : RegionStore) (ord : IterOrder) (roots : List RuntimeRegion) :
    ∃ c, Relation.ReflTransGen Next ⟨s, [roots], [], none, 0⟩ c ∧ c.worklist = [] ∧ c.frontier = [] ∧
      s.freeRegionSet ord roots = (c.store, c.freed) := by
  refine ⟨(cascading ord).run ⟨s, [roots], [], none, 0⟩, ?_, ?_, ?_, rfl⟩
  · exact Relation.ReflTransGen.mono (fun _ _ h => cascadeStep_next h) _ _ (BoundedLoop.run_reaches (L := cascading ord) _)
  · exact (cascadeStep_eq_none (BoundedLoop.step_run (L := cascading ord) _)).1
  · exact (cascadeStep_eq_none (BoundedLoop.step_run (L := cascading ord) _)).2

end Elle.RegionStore

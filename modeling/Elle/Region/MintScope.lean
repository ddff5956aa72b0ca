import Elle.Region.Fixpoint

/-! # Closing the allocation scope of a macro expansion

`reclaim_mint_scope` releases every reference of a survivor of the scope that the contents of the other survivors do
not explain, and leaves the rest to the cascade.  When the survivors form a scratch graph (`Scratch`) this frees all of
them: the account of `Tally` leaves to a survivor the edges of the survivors that still exist, and along an acyclic
graph there is none left.
-/

namespace Elle.RegionStore

open List

variable {s t : RegionStore} {r x : RuntimeRegion} {ord : IterOrder} {D : Finset RuntimeRegion}
  {E : RuntimeRegion → Nat} {src : Option RuntimeRegion} {freed gen n : Nat}

/-! ### Direct releases between cascades -/

theorem frees_freeRegionSet (s : RegionStore) (ord : IterOrder) (roots : List RuntimeRegion) :
    Frees s (s.freeRegionSet ord roots).1 (s.freeRegionSet ord roots).2 := by
  obtain ⟨c, hrun, -, -, heq⟩ := freeRegionSet_run s ord roots
  obtain ⟨n, hf, hfreed⟩ := frees_of_run hrun
  rw [heq, hfreed, Nat.zero_add]
  exact hf

theorem frees_decrefWithCascade (s : RegionStore) (ord : IterOrder) (r : RuntimeRegion) (fc : Option RuntimeRegion) :
    Frees s (s.decrefWithCascade ord r fc).1 (s.decrefWithCascade ord r fc).2 := by
  rw [decrefWithCascade]
  have h := frees_decrefReachesZero s r fc
  split
  · have := h.trans (frees_freeRegionSet (s.decrefReachesZero r fc).1 ord [r])
    rwa [Nat.zero_add] at this
  · exact h

theorem Tally.decrefWithCascade (h : Tally s E D ⟨t, [], [], src, freed⟩) (ord : IterOrder) (r : RuntimeRegion)
    (hD : s.gone (t.decrefWithCascade ord r none).1 ⊆ D) :
    Tally s (fun x => E x + if x = r then 1 else 0) D ⟨(t.decrefWithCascade ord r none).1, [], [], none, 0⟩ := by
  have hd := h.direct r none (m := 0)
  rw [RegionStore.decrefWithCascade] at hD ⊢
  by_cases hz : (t.decrefReachesZero r none).2
  · simp only [hz, if_true] at hd hD ⊢
    obtain ⟨⟨t', w, l, src', fr⟩, hrun, hw, hf, heq⟩ := freeRegionSet_run (t.decrefReachesZero r none).1 ord [r]
    rw [heq] at hD ⊢
    have hw' : w = [] := hw
    have hl' : l = [] := hf
    subst hw' hl'
    exact (Tally.run hrun hD hd).relabel
  · simpa only [hz, if_false, Bool.false_eq_true] using hd

/-! ### Balancing one survivor -/

theorem frees_balance (sf : RegionStore × Nat) (ord : IterOrder) (r : RuntimeRegion) (gen n : Nat) :
    ∃ m, Frees sf.1 (balance ord r gen n sf).1 m ∧ (balance ord r gen n sf).2 = sf.2 + m := by
  induction n generalizing sf with
  | zero => exact ⟨0, .refl, rfl⟩
  | succ n ih =>
    rw [balance]
    split
    · obtain ⟨m, hf, hm⟩ := ih ((sf.1.decrefWithCascade ord r none).1, sf.2 + (sf.1.decrefWithCascade ord r none).2)
      exact ⟨_, (frees_decrefWithCascade sf.1 ord r none).trans hf, by rw [hm]; omega⟩
    · exact ⟨0, .refl, rfl⟩

theorem Tally.balance (h : Tally s E D ⟨t, [], [], src, freed⟩) (hgen : t.isLive r → t.generationRaw r = gen)
    {f : Nat} (hD : s.gone (balance ord r gen n (t, f)).1 ⊆ D) :
    ∃ E', Tally s E' D ⟨(balance ord r gen n (t, f)).1, [], [], none, 0⟩ ∧ (∀ x, x ≠ r → E' x = E x) ∧
      ((balance ord r gen n (t, f)).1.isLive r → E' r = E r + n) := by
  induction n generalizing E t f src freed with
  | zero => exact ⟨E, h.relabel, fun _ _ => rfl, fun _ => rfl⟩
  | succ n ih =>
    rw [RegionStore.balance] at hD ⊢
    by_cases hlive : t.isLive r ∧ t.generationRaw r = gen
    · rw [if_pos hlive] at hD ⊢
      have hf := frees_decrefWithCascade t ord r none
      obtain ⟨k, hrest, -⟩ := frees_balance ((t.decrefWithCascade ord r none).1, f + (t.decrefWithCascade ord r none).2) ord r gen n
      have hD' : s.gone (t.decrefWithCascade ord r none).1 ⊆ D := fun x hx => hD (mem_gone.2
        ⟨(mem_gone.1 hx).1, fun hl => (mem_gone.1 hx).2 (hrest.isLive hl)⟩)
      obtain ⟨E', hE', hne, hself⟩ := ih (h.decrefWithCascade ord r hD')
        (fun hl => (hf.gen r hl).trans hlive.2) hD
      refine ⟨E', hE', fun x hx => ?_, fun hl => ?_⟩
      · rw [hne x hx, if_neg hx, Nat.add_zero]
      · rw [hself hl, if_pos rfl]
        omega
    · rw [if_neg hlive] at hD ⊢
      refine ⟨E, h.relabel, fun _ _ => rfl, fun hl => ?_⟩
      exact absurd ⟨hl, hgen hl⟩ hlive

/-! ### Balancing every survivor -/

def balanceAll (ord : IterOrder) (escape : RuntimeRegion → Nat) (ms : List (RuntimeRegion × Nat))
    (sf : RegionStore × Nat) : RegionStore × Nat :=
  ms.foldl (fun sf m => balance ord m.1 m.2 (escape m.1) sf) sf

variable {escape : RuntimeRegion → Nat} {ms : List (RuntimeRegion × Nat)}

theorem frees_balanceAll (ord : IterOrder) (escape : RuntimeRegion → Nat) (ms : List (RuntimeRegion × Nat))
    (sf : RegionStore × Nat) :
    ∃ m, Frees sf.1 (balanceAll ord escape ms sf).1 m ∧ (balanceAll ord escape ms sf).2 = sf.2 + m := by
  induction ms generalizing sf with
  | nil => exact ⟨0, .refl, rfl⟩
  | cons a ms ih =>
    obtain ⟨m, hf, hm⟩ := frees_balance sf ord a.1 a.2 (escape a.1)
    obtain ⟨k, hf', hk⟩ := ih (RegionStore.balance ord a.1 a.2 (escape a.1) sf)
    exact ⟨m + k, hf.trans hf', by rw [balanceAll, foldl_cons]; rw [balanceAll] at hk; omega⟩

/-- After the loop every survivor that still exists was given all its direct releases, and no other region any. -/
theorem Tally.balanceAll (h : Tally s E D ⟨t, [], [], src, freed⟩) (hnd : (ms.map Prod.fst).Nodup)
    (hgen : ∀ m ∈ ms, t.isLive m.1 → t.generationRaw m.1 = m.2) {f : Nat}
    (hD : s.gone (RegionStore.balanceAll ord escape ms (t, f)).1 ⊆ D) :
    ∃ E', Tally s E' D ⟨(RegionStore.balanceAll ord escape ms (t, f)).1, [], [], none, 0⟩ ∧
      (∀ x, x ∉ ms.map Prod.fst → E' x = E x) ∧
      ∀ x ∈ ms.map Prod.fst, (RegionStore.balanceAll ord escape ms (t, f)).1.isLive x → E' x = E x + escape x := by
  induction ms generalizing E t f src freed with
  | nil => exact ⟨E, h.relabel, fun _ _ => rfl, by simp⟩
  | cons a ms ih =>
    rw [map_cons, nodup_cons] at hnd
    rw [forall_mem_cons] at hgen
    obtain ⟨m, hfirst, -⟩ := frees_balance (t, f) ord a.1 a.2 (escape a.1)
    obtain ⟨k, hrest, -⟩ := frees_balanceAll ord escape ms (RegionStore.balance ord a.1 a.2 (escape a.1) (t, f))
    have hD' : s.gone (RegionStore.balance ord a.1 a.2 (escape a.1) (t, f)).1 ⊆ D := fun x hx => hD (mem_gone.2
      ⟨(mem_gone.1 hx).1, fun hl => (mem_gone.1 hx).2 (hrest.isLive hl)⟩)
    obtain ⟨E₁, h₁, hne₁, hself₁⟩ := h.balance hgen.1 hD'
    obtain ⟨E₂, h₂, hne₂, hself₂⟩ := ih h₁ hnd.2
      (fun m hm hl => (hfirst.gen m.1 hl).trans (hgen.2 m hm (hfirst.isLive hl))) hD
    refine ⟨E₂, h₂, fun x hx => ?_, fun x hx hl => ?_⟩
    · rw [map_cons, mem_cons, not_or] at hx
      rw [hne₂ x hx.2, hne₁ x hx.1]
    · by_cases hxa : x = a.1
      · subst hxa
        rw [hne₂ _ hnd.1, hself₁ (hrest.isLive hl)]
      · have hx' := (List.mem_cons.1 (map_cons ▸ hx)).resolve_left hxa
        rw [hself₂ x hx' hl, hne₁ x hxa]

/-! ### The survivors of a scope -/

theorem survivors_inv (s : RegionStore) (ps : List RuntimeRegion) (log : List (RuntimeRegion × Nat)) :
    ((s.survivors ps log).map Prod.fst).Nodup ∧
      ∀ m ∈ s.survivors ps log, s.isLive m.1 ∧ s.generationRaw m.1 = m.2 ∧ m.1 ∉ ps := by
  suffices ∀ acc : List (RuntimeRegion × Nat), (acc.map Prod.fst).Nodup →
      (∀ m ∈ acc, s.isLive m.1 ∧ s.generationRaw m.1 = m.2 ∧ m.1 ∉ ps) →
      ((log.foldl (fun acc m => if s.isLive m.1 ∧ s.generationRaw m.1 = m.2 ∧ m.1 ∉ ps ∧ m.1 ∉ acc.map Prod.fst
        then acc ++ [m] else acc) acc).map Prod.fst).Nodup ∧
      ∀ m ∈ log.foldl (fun acc m => if s.isLive m.1 ∧ s.generationRaw m.1 = m.2 ∧ m.1 ∉ ps ∧ m.1 ∉ acc.map Prod.fst
        then acc ++ [m] else acc) acc, s.isLive m.1 ∧ s.generationRaw m.1 = m.2 ∧ m.1 ∉ ps from
    this [] nodup_nil (by simp)
  induction log with
  | nil => exact fun acc hnd hm => ⟨hnd, hm⟩
  | cons a log ih =>
    intro acc hnd hm
    rw [foldl_cons]
    split
    · rename_i ha
      refine ih _ ?_ fun m hmem => ?_
      · rw [map_append, map_singleton]
        exact List.nodup_append.2 ⟨hnd, nodup_singleton _, fun x hx y hy hxy =>
          ha.2.2.2 (List.mem_singleton.1 hy ▸ hxy ▸ hx)⟩
      · rcases List.mem_append.1 hmem with hmem | hmem
        · exact hm m hmem
        · rw [List.mem_singleton.1 hmem]
          exact ⟨ha.1, ha.2.1, ha.2.2.1⟩
    · exact ih acc hnd hm

def contentRefs (s : RegionStore) (x : RuntimeRegion) : List RuntimeRegion :=
  (s.find? x).elim [] fun e => e.pool.objects.flatMap (s.findObjectCrossRefs x)

/-- The survivors of a scope are scratch: counted regions with a reference left, whose recorded edges are their content
references, without a cycle among themselves, and whose counts cover the references they hold on each other. -/
structure Scratch (s : RegionStore) (ids : List RuntimeRegion) : Prop where
  counted : ∀ x ∈ ids, ∃ n, s.reclaim? x = some (.counted n) ∧ 0 < n
  recorded : ∀ x ∈ ids, ∀ y, s.out x y = (s.contentRefs x).count y
  acyclic : ∀ x, ¬ Relation.TransGen (fun a b => a ∈ ids ∧ b ∈ ids ∧ 0 < s.out a b) x x
  covered : ∀ x ∈ ids, s.inDegree ids x ≤ s.refCount x

namespace Scratch

variable {ids : List RuntimeRegion}

theorem inDegree (h : s.Scratch ids) (hnd : ids.Nodup) (hx : x ∈ ids) :
    s.inDegree ids x = s.edgesFrom ids.toFinset x := by
  rw [RegionStore.inDegree, edgesFrom, sum_toFinset _ hnd]
  refine congrArg List.sum (map_congr_left fun own hown => ?_)
  rw [h.recorded own hown, contentRefs]
  cases s.find? own with
  | none => rfl
  | some e =>
    have hcross : e.pool.objects.flatMap (s.findObjectCrossRefs own) =
        (e.pool.objects.flatMap fun o => o.values.filterMap s.owningRegion).filter (· ≠ own) := by
      rw [filter_flatMap]; rfl
    rw [Option.elim_some, Option.elim_some, hcross]
    generalize e.pool.objects.flatMap _ = l
    by_cases hxo : x = own
    · rw [List.count_eq_zero.2, List.count_eq_zero.2] <;> simp [hxo]
    · rw [count_filter (by simp [hx, hxo]), count_filter (by simp [hxo])]

/-- What the direct releases leave of a survivor's count are the references the survivors hold on it. -/
theorem escape_add (h : s.Scratch ids) (hnd : ids.Nodup) (hx : x ∈ ids) (hn : s.reclaim? x = some (.counted n)) :
    s.escape ids x + s.edgesFrom ids.toFinset x = n := by
  have hcov := h.covered x hx
  have hesc : s.escape ids x = s.refCount x - s.inDegree ids x := rfl
  rw [h.inDegree hnd hx, refCount_of_counted hn] at hcov hesc
  omega

/-- Once every survivor that exists was given its direct releases and the cascades are done, no survivor exists: one
whose predecessors are gone has no reference left. -/
theorem gone (h : s.Scratch ids) (hnd : ids.Nodup) (ht : Tally s E D ⟨t, [], [], src, freed⟩)
    (hE : ∀ x ∈ ids, t.isLive x → E x = s.escape ids x) (hx : x ∈ ids) : x ∈ s.gone t := by
  have : IsStrictOrder RuntimeRegion (Relation.TransGen fun a b => a ∈ ids ∧ b ∈ ids ∧ 0 < s.out a b) :=
    { irrefl := h.acyclic, trans := fun _ _ _ => Relation.TransGen.trans }
  have hwf := ids.toFinset.finite_toSet.wellFoundedOn
    (r := Relation.TransGen fun a b => a ∈ ids ∧ b ∈ ids ∧ 0 < s.out a b)
  refine hwf.induction (by simpa using hx) fun y hy ih => ?_
  have hy' : y ∈ ids := by simpa using hy
  by_contra hgone
  obtain ⟨n, hn, hpos⟩ := h.counted y hy'
  have hlive : t.isLive y := by
    by_contra hl
    exact hgone (mem_gone.2 ⟨isLive_of_reclaim? hn, hl⟩)
  obtain ⟨m, -, hsum, hzero⟩ := ht.count hn hlive not_mem_nil
  have hle : s.edgesFrom ids.toFinset y ≤ s.edgesFrom (s.gone t) y :=
    Finset.sum_le_sum_of_ne_zero fun k hk hne =>
      ih k (by simpa using hk) (.single ⟨List.mem_toFinset.1 hk, hy', Nat.pos_of_ne_zero hne⟩)
  have hesc := h.escape_add hnd hy' hn
  rw [hE y hy' hlive] at hsum
  simp only [count_nil] at hsum
  omega

end Scratch

/-! ### What closing a scope frees -/

/-- From `s` to `s'` every region of `ids` was freed, each region freed once and `freed` objects in all; a counted
region outside `ids` went only when all its references were edges of regions that are gone, and what such a region
lost otherwise are exactly those edges. -/
structure Reclaimed (s : RegionStore) (ids : List RuntimeRegion) (s' : RegionStore) (freed : Nat) : Prop where
  survivors : ∀ x ∈ ids, x ∈ s.gone s'
  once : ∃ torn : List RuntimeRegion, torn.Nodup ∧ torn.toFinset = s.gone s' ∧ s'.freePhysical = torn ++ s.freePhysical
  objects : freed = ∑ x ∈ s.gone s', s.objectCount x
  outside : ∀ x n, x ∉ ids → s.reclaim? x = some (.counted n) → x ∈ s.gone s' →
    n ≤ s.edgesFrom (s.gone s') x ∧ 0 < s.edgesFrom (s.gone s') x
  counts : ∀ x n, x ∉ ids → s.reclaim? x = some (.counted n) → s'.isLive x →
    ∃ m, s'.reclaim? x = some (.counted m) ∧ m + s.edgesFrom (s.gone s') x = n

def scopeIds (s : RegionStore) (ps : List RuntimeRegion) : List RuntimeRegion :=
  (s.survivors ps (s.mintLog.getD [])).map Prod.fst

theorem reclaimed_balanceAll {ids : List RuntimeRegion} {ps : List RuntimeRegion} {log : List (RuntimeRegion × Nat)}
    (hs : s.Forest) (hids : ids = (s.survivors ps log).map Prod.fst) (h : s.Scratch ids)
    (hq : s.Quiet (s.gone (balanceAll ord (s.escape ids) (s.survivors ps log) (s, 0)).1)) :
    Reclaimed s ids (balanceAll ord (s.escape ids) (s.survivors ps log) (s, 0)).1
      (balanceAll ord (s.escape ids) (s.survivors ps log) (s, 0)).2 := by
  obtain ⟨hnd, hsurv⟩ := survivors_inv s ps log
  obtain ⟨E, hT, hne, hself⟩ := (Tally.start hs hq).balanceAll hnd (fun m hm _ => (hsurv m hm).2.1) Finset.Subset.rfl
  obtain ⟨m, hf, hm⟩ := frees_balanceAll ord (s.escape ids) (s.survivors ps log) (s, 0)
  rw [← hids] at hne hself hnd
  have hzero : ∀ x, x ∉ ids → E x = 0 := fun x hx => hne x hx
  refine ⟨fun x hx => h.gone hnd hT (fun y hy hl => ?_) hx, hf.ids, ?_, fun x n hx hn hg => ?_, fun x n hx hn hl => ?_⟩
  · rw [hself y hy hl, Nat.zero_add]
  · rw [hm, Nat.zero_add]
    exact hf.objects
  · have hd := hT.due hn (.inr hg)
    rwa [hzero x hx, Nat.add_zero] at hd
  · obtain ⟨k, hk, hsum, -⟩ := hT.count hn hl not_mem_nil
    rw [hzero x hx] at hsum
    exact ⟨k, hk, by simpa using hsum⟩

/-- Closing a scope whose survivors are scratch frees every survivor, and nothing else but what the cascade takes; the
protected regions are not among the survivors. -/
theorem reclaim_mint_scope_frees {ps : List RuntimeRegion} {log : List (RuntimeRegion × Nat)} (hs : s.Forest)
    (hlog : s.mintLog = some log) (h : s.Scratch (s.scopeIds ps))
    (hq : s.Quiet (s.gone (s.reclaimMintScope ord ps).1)) :
    Reclaimed s (s.scopeIds ps) (s.reclaimMintScope ord ps).1 (s.reclaimMintScope ord ps).2 ∧
      ∀ p ∈ ps, p ∉ s.scopeIds ps := by
  have hrun : s.reclaimMintScope ord ps = balanceAll ord ({ s with mintLog := none }.escape (s.scopeIds ps))
      ({ s with mintLog := none }.survivors ps log) ({ s with mintLog := none }, 0) := by
    rw [reclaimMintScope, scopeIds, hlog]
    rfl
  have hids : s.scopeIds ps = ({ s with mintLog := none }.survivors ps log).map Prod.fst := by
    rw [scopeIds, hlog]
    rfl
  rw [hrun] at hq ⊢
  have := reclaimed_balanceAll (s := { s with mintLog := none }) (hs.congr (.of_find? fun _ => rfl)) hids
    ⟨h.counted, h.recorded, h.acyclic, h.covered⟩ hq
  refine ⟨⟨this.survivors, this.once, this.objects, this.outside, this.counts⟩, fun p hp hin => ?_⟩
  obtain ⟨m, hm, rfl⟩ := List.mem_map.1 (hids ▸ hin)
  exact ((survivors_inv _ ps log).2 m hm).2.2 hp

/-- Regions 3 and 4 exist before the scope, region 3 holding one of the two references on region 4; region 2 is minted
in the scope and holds the only reference on region 3. -/
def scopeOverChain : RegionStore :=
  let s := ((RegionStore.new.ensure (region 1)).ensure (region 2)).allocObj (region 1) ⟨[⟨region 2, 0⟩], none, 1⟩
  let s := s.beginMintLog.newRuntimeRegion.2.allocObj (region 0) ⟨[⟨region 1, 0⟩], none, 1⟩
  (s.decref .listed (region 1)).1

theorem scopeIds_scopeOverChain : scopeOverChain.scopeIds [] = [region 0] := by decide +kernel

theorem scratch_scopeOverChain : scopeOverChain.Scratch (scopeOverChain.scopeIds []) := by
  rw [scopeIds_scopeOverChain]
  obtain ⟨e, he⟩ := isLive_iff.1 (show scopeOverChain.isLive (region 0) by decide +kernel)
  have hout : (scopeOverChain.find? (region 0)).map (fun e => e.outgoing.entries) = some [(region 1, 1)] := by decide +kernel
  have hself : scopeOverChain.out (region 0) (region 0) = 0 := by decide +kernel
  refine ⟨fun x hx => ⟨1, ?_, Nat.one_pos⟩, fun x hx y => ?_, fun x hx => ?_, by decide +kernel⟩
  · rw [List.mem_singleton.1 hx]
    decide +kernel
  · have hrefs : scopeOverChain.contentRefs (region 0) = [region 1] := by decide +kernel
    rw [List.mem_singleton.1 hx, hrefs, out_of_find? he, CountTable.count, CountTable.sumWhere]
    rw [he, Option.map_some, Option.some.injEq] at hout
    rw [hout]
    by_cases hy : region 1 = y <;> simp [hy]
  · obtain ⟨b, hb⟩ : ∃ b, b ∈ [region 0] ∧ x ∈ [region 0] ∧ 0 < scopeOverChain.out b x := by
      cases hx with
      | single h => exact ⟨x, h⟩
      | tail _ h => exact ⟨_, h⟩
    rw [mem_singleton, mem_singleton] at hb
    obtain ⟨rfl, rfl, hpos⟩ := hb
    omega

theorem reclaim_mint_scope_frees_chain :
    let s := scopeOverChain
    s.mintLog = some [(region 0, 0)] ∧ s.Scratch (s.scopeIds []) ∧
    (s.reclaimMintScope .listed []).1.live = {region 2} ∧
    Reclaimed s (s.scopeIds []) (s.reclaimMintScope .listed []).1 (s.reclaimMintScope .listed []).2 := by
  have hlog : scopeOverChain.mintLog = some [(region 0, 0)] := by decide +kernel
  have hflat : scopeOverChain.Flat := by decide +kernel
  have hq : scopeOverChain.Quiet (scopeOverChain.gone (scopeOverChain.reclaimMintScope .listed []).1) :=
    fun _ _ _ _ _ _ i f _ hf => by
      have hnone : scopeOverChain.fibers = [] := by decide +kernel
      simp [hnone] at hf
  exact ⟨hlog, scratch_scopeOverChain, by decide +kernel,
    (reclaim_mint_scope_frees hflat.forest hlog scratch_scopeOverChain hq).1⟩

/-- The count of region 4, which no survivor references, drops with the free of region 3. -/
theorem reclaim_mint_scope_lowers_beyond_survivors :
    let s := scopeOverChain
    s.Scratch (s.scopeIds []) ∧ s.Flat ∧ s.fibers = [] ∧
    (∀ k ∈ s.live, k ∉ s.scopeIds [] → ∀ x ∈ s.scopeIds [], s.out k x = 0) ∧
    s.edgesFrom (s.scopeIds []).toFinset (region 2) = 0 ∧
    s.reclaim? (region 2) = some (.counted 2) ∧
    (s.reclaimMintScope .listed []).1.reclaim? (region 2) = some (.counted 1) :=
  ⟨scratch_scopeOverChain, by decide +kernel, by decide +kernel, by decide +kernel, by decide +kernel, by decide +kernel,
    by decide +kernel⟩

end Elle.RegionStore

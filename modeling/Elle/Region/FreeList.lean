import Elle.Region.Mirror

/-! # The free list and the outstanding mints

An id goes on the free list when its region is torn down, and when the receipt of a mint that never materialized
returns it.  `MintLedger` adds to a store the mints that are still outstanding and the receipts not yet used.
-/

namespace Elle

open List

namespace RegionStore

variable {s s' s'' : RegionStore} {ord : IterOrder} {r x : RuntimeRegion} {roots : List RuntimeRegion}

/-! ### What a free does to the ids -/

/-- Whether `r` exists before a step and no longer exists after it. -/
def tornDown (s s' : RegionStore) (r : RuntimeRegion) : Bool := s.isLive r && !s'.isLive r

def HasGenerations (s : RegionStore) : Prop := ∀ r, s.isLive r → r.get < s.generations.length

/-- From `s` to `s'` regions were only torn down, each with its generation bumped, and the free list gained ids
of regions torn down, none of them twice. -/
structure FreedIds (s s' : RegionStore) : Prop where
  next : s'.nextPhysical = s.nextPhysical
  slots : s.generations.length ≤ s'.generations.length
  live : ∀ r, s'.isLive r → s.isLive r
  gen : ∀ r, s'.generationRaw r = if tornDown s s' r then (s.generationRaw r + 1) % 2 ^ 32 else s.generationRaw r
  free : ∃ torn : List RuntimeRegion, torn.Nodup ∧ (∀ r ∈ torn, tornDown s s' r) ∧
    s'.freePhysical = torn ++ s.freePhysical

theorem FreedIds.of_sameIds (h : SameIds s s') (hl : ∀ r, s'.isLive r = s.isLive r) : FreedIds s s' :=
  ⟨h.next, h.slots, fun r hr => hl r ▸ hr, fun r => by simp [tornDown, hl, h.gen], [], by simp, by simp, by simpa using h.free⟩

theorem FreedIds.hasGenerations (h : FreedIds s s') (hs : s.HasGenerations) : s'.HasGenerations := fun r hr =>
  (hs r (h.live r hr)).trans_le h.slots

theorem FreedIds.trans (h : FreedIds s s') (h' : FreedIds s' s'') : FreedIds s s'' := by
  obtain ⟨torn, hnd, htorn, hfree⟩ := h.free
  obtain ⟨torn', hnd', htorn', hfree'⟩ := h'.free
  have hcases : ∀ r, tornDown s s'' r = (tornDown s s' r || tornDown s' s'' r) := fun r => by
    have h1 := h.live r
    have h2 := h'.live r
    simp only [tornDown]
    revert h1 h2
    cases s.isLive r <;> cases s'.isLive r <;> cases s''.isLive r <;> simp
  refine ⟨h'.next.trans h.next, h.slots.trans h'.slots, fun r hr => h.live r (h'.live r hr), fun r => ?_,
    torn' ++ torn, ?_, fun r hr => ?_, by rw [hfree', hfree, append_assoc]⟩
  · rw [h'.gen, h.gen, hcases]
    by_cases h1 : tornDown s s' r
    · have h2 : tornDown s' s'' r = false := by simp only [tornDown, Bool.and_eq_true, Bool.not_eq_true'] at h1 ⊢; simp [h1.2]
      simp [h1, h2]
    · simp [h1]
  · refine List.nodup_append.2 ⟨hnd', hnd, fun r hr' x hr hrx => ?_⟩
    subst hrx
    have h1 := htorn r hr
    have h2 := htorn' r hr'
    simp only [tornDown, Bool.and_eq_true, Bool.not_eq_true'] at h1 h2
    exact absurd h2.1 (by simp [h1.2])
  · rw [hcases]
    rcases List.mem_append.1 hr with hr | hr
    · simp [htorn' r hr]
    · simp [htorn r hr]

theorem tornDown_teardownSet : tornDown s (s.teardownSet ord roots).1 r ↔ r ∈ s.doomed roots := by
  rw [tornDown, Bool.and_eq_true, Bool.not_eq_true', Bool.eq_false_iff, Ne, isLive_teardownSet]
  exact ⟨fun ⟨h, hn⟩ => by_contra fun hd => hn ⟨h, hd⟩, fun h => ⟨isLive_of_mem_doomed h, fun hn => hn.2 h⟩⟩

/-- The ids after a teardown: those of the doomed regions are on the free list, their generations bumped. -/
theorem teardownSet_ids (s : RegionStore) (ord : IterOrder) (roots : List RuntimeRegion) :
    (s.teardownSet ord roots).1.freePhysical = ((s.unindexed roots).2.map Prod.fst).reverse ++ s.freePhysical ∧
    (s.teardownSet ord roots).1.nextPhysical = s.nextPhysical ∧
    s.generations.length ≤ (s.teardownSet ord roots).1.generations.length ∧
    ∀ x, x.get < s.generations.length ∨ x ∉ s.doomed roots → (s.teardownSet ord roots).1.generationRaw x =
      if x ∈ s.doomed roots then (s.generationRaw x + 1) % 2 ^ 32 else s.generationRaw x := by
  have hu := SameIds.unindexed s roots
  have hids : ∀ x, x ∈ (s.unindexed roots).2.map Prod.fst ↔ x ∈ s.doomed roots := fun x => mem_unindexed_ids
  have hnd := nodup_unindexed s roots
  rw [teardownSet_eq]
  generalize s.unindexed roots = u at hu hids hnd
  by_cases hms : u.2.isEmpty
  · rw [List.isEmpty_iff] at hms
    simp only [hms, isEmpty_nil, if_true, map_nil, reverse_nil, nil_append]
    refine ⟨hu.free, hu.next, hu.slots, fun x _ => ?_⟩
    have hx : x ∉ s.doomed roots := fun hx => by simpa [hms] using (hids x).2 hx
    rw [if_neg hx, hu.gen]
  · simp only [hms, Bool.false_eq_true, if_false]
    have hd : ∃ d, ((u.1.retireEdges ord u.2).dischargeFibers u.2).1 = d ∧ d.freePhysical = s.freePhysical ∧
        d.nextPhysical = s.nextPhysical ∧ s.generations.length ≤ d.generations.length ∧
        ∀ x, d.generationRaw x = s.generationRaw x := by
      have h := hu.trans (SameIds.frame.retireEdges : SameIds u.1 (u.1.retireEdges ord u.2))
      exact ⟨_, dischargeFibers_regions _ _, h.free, h.next, h.slots, h.gen⟩
    obtain ⟨d, hd, hfree, hnext, hslots, hgen⟩ := hd
    obtain ⟨hfree', hnext', hlen⟩ := releaseAll_ids u.2 d
    rw [hd]
    refine ⟨by rw [hfree', hfree], by rw [hnext', hnext], by rw [hlen]; exact hslots, fun x hx => ?_⟩
    rw [generationRaw_releaseAll _ _ _ hnd, hgen, if_congr (and_congr_left' (hids x)) rfl rfl]
    by_cases hd : x ∈ s.doomed roots
    · rw [if_pos hd, if_pos ⟨hd, (hx.resolve_right (not_not.2 hd)).trans_le hslots⟩]
    · rw [if_neg hd, if_neg fun h => hd h.1]

theorem FreedIds.teardownSet (hs : s.HasGenerations) : FreedIds s (s.teardownSet ord roots).1 := by
  obtain ⟨hfree, hnext, hslots, hgen⟩ := teardownSet_ids s ord roots
  refine ⟨hnext, hslots, fun r hr => (isLive_teardownSet.1 hr).1, fun r => ?_, _,
    List.nodup_reverse.2 (nodup_unindexed s roots),    fun r hr => ?_, hfree⟩
  · rw [if_congr tornDown_teardownSet rfl rfl]
    by_cases hr : r ∈ s.doomed roots
    · exact hgen r (.inl (hs r (isLive_of_mem_doomed hr)))
    · exact hgen r (.inr hr)
  · exact tornDown_teardownSet.2 (mem_unindexed_ids.1 (List.mem_reverse.1 hr))

theorem isLive_decrefReachesZero {fc : Option RuntimeRegion} : (s.decrefReachesZero r fc).1.isLive x = s.isLive x :=
  SameEdges.decrefReachesZero.live x

theorem freedIds_freeInv (s₀ : RegionStore) : FreeInv (fun s => s.HasGenerations ∧ FreedIds s₀ s) fun _ _ => True where
  release := fun {s r fc} hs =>
    have h : FreedIds s (s.decrefReachesZero r fc).1 := .of_sameIds .decrefReachesZero fun _ => isLive_decrefReachesZero
    ⟨h.hasGenerations hs.1, hs.2.trans h⟩
  release_root _ _ := trivial
  zero _ _ := trivial
  teardown hs _ := ⟨(FreedIds.teardownSet hs.1).hasGenerations hs.1, hs.2.trans (.teardownSet hs.1)⟩
  teardown_root _ _ _ := trivial
  mintLog hs := ⟨hs.1, hs.2.trans (.of_sameIds ⟨rfl, rfl, fun _ => rfl, Nat.le_refl _, rfl⟩ fun _ => rfl)⟩

theorem FreedIds.refl : FreedIds s s := .of_sameIds .refl fun _ => rfl

theorem FreedIds.setFibers (h : FreedIds s s') (fs : List Fiber) : FreedIds s { s' with fibers := fs } :=
  ⟨h.next, h.slots, h.live, h.gen, h.free⟩

theorem FreedIds.teardownSlot {i : Nat} (hs : s.HasGenerations) : FreedIds s (s.teardownSlot i) := by
  rw [RegionStore.teardownSlot]
  split
  · rename_i r _
    split
    · rename_i hr
      have hlive : ∀ x, ((s.takeEntry r).bumpGeneration r).isLive x = (s.isLive x && decide (x ≠ r)) := fun x => by
        have he : ((s.takeEntry r).bumpGeneration r).find? x = if x = r then none else s.find? x := find?_takeEntry
        rw [isLive, he]
        by_cases hx : x = r <;> simp [hx, isLive]
      refine ⟨rfl, by simp [bumpGeneration, takeEntry], fun x hx => ?_, fun x => ?_, [], by simp, by simp, rfl⟩
      · rw [hlive, Bool.and_eq_true] at hx
        exact hx.1
      · rw [tornDown, hlive]
        simp only [bumpGeneration, takeEntry, generationRaw, getD_eq_getElem?_getD, getElem?_modify]
        by_cases hx : x = r
        · subst hx
          have := hs x hr
          simp [hr, this]
        · have hne : ¬ r.get = x.get := fun h => hx (RuntimeRegion.ext_get h).symm
          simp [hx, hne]
    · exact .refl
  · exact .refl

theorem FreedIds.teardownAll (hs : s.HasGenerations) : FreedIds s s.teardownAll := by
  suffices ∀ (l : List Nat) (t : RegionStore), t.HasGenerations → FreedIds t (l.foldl RegionStore.teardownSlot t) from
    this _ s hs
  intro l
  induction l with
  | nil => exact fun _ _ => .refl
  | cons i l ih =>
    intro t ht
    have h : FreedIds t (t.teardownSlot i) := .teardownSlot ht
    exact h.trans (ih _ (h.hasGenerations ht))

/-! ### What the other operations do to the ids -/

/-- What one operation other than a mint or a recycle does to the ids: as a free does, except that regions may be
created under minted ids. -/
structure IdStep (s s' : RegionStore) : Prop where
  next : s'.nextPhysical = s.nextPhysical
  live : ∀ r, s'.isLive r → s.isLive r ∨ r.get < s.nextPhysical.get
  generations : s'.HasGenerations
  gen : ∀ r, s'.generationRaw r = if tornDown s s' r then (s.generationRaw r + 1) % 2 ^ 32 else s.generationRaw r
  free : ∃ torn : List RuntimeRegion, torn.Nodup ∧ (∀ r ∈ torn, tornDown s s' r) ∧
    s'.freePhysical = torn ++ s.freePhysical

theorem FreedIds.idStep (h : FreedIds s s') (hs : s.HasGenerations) : IdStep s s' :=
  ⟨h.next, fun r hr => .inl (h.live r hr), h.hasGenerations hs, h.gen, h.free⟩

/-- An operation that creates the regions `rs` and touches no id otherwise. -/
theorem IdStep.creates (rs : List RuntimeRegion) (hs : s.HasGenerations) (h : SameIds s s')
    (hl : ∀ x, s'.isLive x ↔ x ∈ rs ∨ s.isLive x)
    (hrs : ∀ r ∈ rs, r.get < s.nextPhysical.get ∧ r.get < s'.generations.length) : IdStep s s' := by
  have htorn : ∀ r, tornDown s s' r = false := fun r => by
    rw [tornDown, Bool.and_eq_false_imp]
    intro hr
    rw [(hl r).2 (.inr hr)]
    rfl
  refine ⟨h.next, fun r hr => ?_, fun r hr => ?_, fun r => by simp [htorn, h.gen], [], by simp, by simp, by simpa using h.free⟩
  · exact ((hl r).1 hr).elim (fun h => .inr (hrs r h).1) .inl
  · exact ((hl r).1 hr).elim (fun h => (hrs r h).2) fun hr => (hs r hr).trans_le h.slots

theorem ensure_slot : r.get < (s.ensure r).generations.length := by
  have h : r.get < (s.growGenerations r).generations.length := by simp [growGenerations]; omega
  rw [ensure]
  split <;> exact h

section

variable (hs : s.HasGenerations)
include hs

theorem IdStep.ensure (hr : r.get < s.nextPhysical.get) : IdStep s (s.ensure r) :=
  .creates [r] hs .ensure (by simp [isLive_ensure]) (by simpa using ⟨hr, ensure_slot⟩)

theorem IdStep.incref (hr : r.get < s.nextPhysical.get) : IdStep s (s.incref r) := by
  refine .creates [r] hs SameIds.frame.incref (fun x => ?_) ?_
  · rw [RegionStore.incref, isLive_modifyEntry, isLive_ensure]
    simp
  · simpa using ⟨hr, ensure_slot.trans_le SameIds.modifyEntry.slots⟩

theorem IdStep.allocObj {obj : HeapObject} (hr : r.get < s.nextPhysical.get) :
    IdStep s (s.allocObj r obj) := by
  refine .creates [r] hs SameIds.frame.allocObj (fun x => ?_) ?_
  · rw [SameEdges.allocObj.live, isLive_increfCrossRegionRefs, isLive_ensure]
    simp
  · have h : SameIds (s.ensure r) (s.allocObj r obj) :=
      (SameIds.frame.foldl (fun _ _ => SameIds.frame.incref.trans SameIds.frame.recordOutgoing) _ _).trans .modifyEntry
    simpa using ⟨hr, ensure_slot.trans_le h.slots⟩

theorem IdStep.adoptRegion {p c : RuntimeRegion} (hp : p.get < s.nextPhysical.get)
    (hc : c.get < s.nextPhysical.get) : IdStep s (s.adoptRegion p c) := by
  have h : SameIds ((s.ensure p).ensure c) (s.adoptRegion p c) :=
    (SameIds.modifyEntry.trans .withCounters).trans .modifyEntry
  refine .creates [p, c] hs .adoptRegion (fun x => ?_) ?_
  · rw [SameEdges.adoptRegion.live, isLive_ensure, isLive_ensure]
    simp only [Bool.or_eq_true, decide_eq_true_eq, mem_cons, not_mem_nil, or_false]
    tauto
  · have hp' := ensure_slot.trans_le (SameIds.ensure (s := s.ensure p) (r := c)).slots
    simpa using ⟨⟨hp, hp'.trans_le h.slots⟩, hc, ensure_slot.trans_le h.slots⟩

theorem IdStep.reparentOwnedChildren {a b : RuntimeRegion} (hb : b.get < s.nextPhysical.get) :
    IdStep s (s.reparentOwnedChildren a b) := by
  by_cases h : a = b ∨ s.children a = []
  · rw [reparentOwnedChildren_of_nil h]
    exact FreedIds.refl.idStep hs
  · rw [not_or] at h
    refine .creates [b] hs .reparentOwnedChildren (fun x => ?_) ?_
    · rw [isLive, find?_reparentOwnedChildren h.1 h.2, Option.isSome_map]
      by_cases hx : x = b <;> simp [hx, isLive]
    · refine List.forall_mem_singleton.2 ⟨hb, ?_⟩
      rw [RegionStore.reparentOwnedChildren, if_neg h.1]
      split
      · rename_i hnil; exact absurd hnil h.2
      · exact ensure_slot.trans_le ((SameIds.frame.foldl (fun _ _ => .modifyEntry) _ _).trans .modifyEntry).slots

theorem IdStep.of_sameEdges (h : SameIds s s') (hl : ∀ x, s'.isLive x = s.isLive x) : IdStep s s' :=
  (FreedIds.of_sameIds h hl).idStep hs

end

/-! ### What a mint does to the ids -/

/-- The id is popped off the free list, or was never issued. -/
def Drawn (s : RegionStore) (m : MintState) : Prop :=
  (m.next = s.nextPhysical ∧ ∃ skipped, s.freePhysical = skipped ++ m.id :: m.free) ∨
    (s.nextPhysical.get ≤ m.id.get ∧ m.next.get = m.id.get + 1 ∧ m.free = [])

theorem mintLoop_step {m : MintState} :
    s.mintLoop.step m = if s.isLive m.id then some (popPhysical m.free m.next) else none := rfl

/-- A mint pops the free list down to an id that names no live region, or takes one that was never issued. -/
theorem minted_run (s : RegionStore) : let m := s.mintLoop.run (popPhysical s.freePhysical s.nextPhysical)
    s.isLive m.id = false ∧ s.Drawn m := by
  refine ⟨?_, ?_⟩
  · have h := BoundedLoop.step_run (L := s.mintLoop) (popPhysical s.freePhysical s.nextPhysical)
    rw [mintLoop_step] at h
    split at h
    · simp at h
    · rename_i hn; simpa using hn
  · refine BoundedLoop.run_inv (I := s.Drawn) (fun m m' h hi => ?_) ?_
    · rw [mintLoop_step] at h
      split at h
      · obtain rfl := Option.some.inj h
        obtain ⟨id, _ | ⟨f, free⟩, next⟩ := m
        · right
          rcases hi with ⟨rfl, -⟩ | ⟨h1, h2, -⟩
          · exact ⟨Nat.le_refl _, rfl, rfl⟩
          · refine ⟨?_, rfl, rfl⟩
            simp only [popPhysical] at h1 h2 ⊢
            omega
        · rcases hi with ⟨hn, skipped, hs⟩ | ⟨-, -, h3⟩
          · exact .inl ⟨hn, skipped ++ [id], by rw [hs]; simp [popPhysical]⟩
          · simp at h3
      · simp at h
    · cases hf : s.freePhysical with
      | nil => exact .inr ⟨Nat.le_refl _, rfl, rfl⟩
      | cons f free => exact .inl ⟨rfl, [], hf⟩

end RegionStore

open RegionStore

/-! ### The ledger of mints -/

/-- A store with the ids of its outstanding mints and the receipts that were not used yet. -/
structure MintLedger where
  store : RegionStore
  outstanding : List RuntimeRegion
  receipts : List RegionMint

namespace MintLedger

variable {l : MintLedger} {ord : IterOrder} {op : Op}

def new : MintLedger := ⟨.new, [], []⟩

/-- Whether the store takes the id of a receipt back. -/
def recycles (s : RegionStore) (mint : RegionMint) : Bool :=
  !s.isLive mint.region && decide (s.generationRaw mint.region = mint.gen)

/-- The outstanding mints after an operation: a mint adds one, the id of a recycled mint is taken out, and so are
the ids whose region was torn down. -/
def outstandingAfter (l : MintLedger) (ord : IterOrder) : Op → List RuntimeRegion
  | .newRuntimeRegion | .newRuntimeRegionTracked => l.store.newRuntimeRegion.1 :: l.outstanding
  | .recycleUnmaterialized mint =>
    if recycles l.store mint then l.outstanding.erase mint.region else l.outstanding
  | op => l.outstanding.filter fun r => !tornDown l.store (op.apply ord l.store) r

def receiptsAfter (l : MintLedger) : Op → List RegionMint
  | .newRuntimeRegionTracked => l.store.newRuntimeRegionTracked.1 :: l.receipts
  | .recycleUnmaterialized mint => l.receipts.erase mint
  | _ => l.receipts

def apply (l : MintLedger) (ord : IterOrder) (op : Op) : MintLedger :=
  ⟨op.apply ord l.store, l.outstandingAfter ord op, l.receiptsAfter op⟩

/-- What the callers promise: regions are only created under ids that were minted, and a receipt is used by its
holder, once. -/
def Discipline (l : MintLedger) : Op → Prop
  | .ensure r | .incref r | .allocObj r _ | .reparentOwnedChildren _ r => r.get < l.store.nextPhysical.get
  | .adoptRegion p c => p.get < l.store.nextPhysical.get ∧ c.get < l.store.nextPhysical.get
  | .recycleUnmaterialized mint => mint ∈ l.receipts
  | _ => True

/-- No region is torn down while its id is still on the free list, nor at the last generation. -/
def FreedOnce (l : MintLedger) (ord : IterOrder) (op : Op) : Prop :=
  ∀ r, tornDown l.store (op.apply ord l.store) r →
    r ∉ l.store.freePhysical ∧ l.store.generationRaw r + 1 < 2 ^ 32

instance (l : MintLedger) : DecidablePred l.Discipline := fun op => by
  cases op <;> simp only [Discipline] <;> infer_instance

instance (l : MintLedger) (ord : IterOrder) (op : Op) : Decidable (l.FreedOnce ord op) :=
  decidable_of_iff (∀ r ∈ l.store.live, tornDown l.store (op.apply ord l.store) r →
      r ∉ l.store.freePhysical ∧ l.store.generationRaw r + 1 < 2 ^ 32)
    ⟨fun h r hr => h r (mem_live.2 (Bool.and_eq_true _ _ ▸ hr).1) hr, fun h r _ => h r⟩

/-- The ledgers of the runs whose operations are all allowed, along any iteration orders. -/
def Reachable (Allowed : MintLedger → IterOrder → Op → Prop) : MintLedger → Prop :=
  Runs.Reachable (fun l (e : IterOrder × Op) => l.apply e.1 e.2) (fun l e => Allowed l e.1 e.2) new

/-- What keeps the ids of outstanding mints apart: an id is on the free list at most once, and not at all while a
mint of it is outstanding; a receipt that still matches the generation belongs to an outstanding mint. -/
structure Distinct (l : MintLedger) : Prop where
  free_nodup : l.store.freePhysical.Nodup
  free_minted : ∀ r ∈ l.store.freePhysical, r.get < l.store.nextPhysical.get
  nodup : l.outstanding.Nodup
  minted : ∀ r ∈ l.outstanding, r.get < l.store.nextPhysical.get
  not_free : ∀ r ∈ l.outstanding, r ∉ l.store.freePhysical
  live_minted : ∀ r, l.store.isLive r → r.get < l.store.nextPhysical.get
  generations : l.store.HasGenerations
  receipts_nodup : l.receipts.Nodup
  receipt_minted : ∀ m ∈ l.receipts, m.region.get < l.store.nextPhysical.get
  receipt : ∀ m ∈ l.receipts, (m.region ∈ l.outstanding ∧ l.store.generationRaw m.region = m.gen) ∨
    m.gen < l.store.generationRaw m.region

theorem distinct_new : Distinct new := by
  have hdead : ∀ r, new.store.isLive r → False := fun r hr => by simp [new, isLive] at hr
  refine ⟨.nil, by simp [new, RegionStore.new], .nil, by simp [new], by simp [new], fun r hr => (hdead r hr).elim,
    fun r hr => (hdead r hr).elim, .nil, by simp [new], by simp [new]⟩

theorem Distinct.idStep {s' : RegionStore} (hl : l.Distinct) (h : IdStep l.store s')
    (hfree : ∀ r, tornDown l.store s' r → r ∉ l.store.freePhysical ∧ l.store.generationRaw r + 1 < 2 ^ 32) :
    Distinct ⟨s', l.outstanding.filter fun r => !tornDown l.store s' r, l.receipts⟩ := by
  obtain ⟨torn, hnd, htorn, hf⟩ := h.free
  refine ⟨?_, fun r hr => ?_, hl.nodup.filter _, fun r hr => ?_, fun r hr hrf => ?_, fun r hr => ?_, h.generations,
    hl.receipts_nodup, fun m hm => ?_, fun m hm => ?_⟩
  · simp only [hf]
    exact List.nodup_append.2 ⟨hnd, hl.free_nodup, fun r hr x hx hrx => (hfree r (htorn r hr)).1 (hrx ▸ hx)⟩
  · simp only [hf, h.next, mem_append] at hr ⊢
    rcases hr with hr | hr
    · exact hl.live_minted r (by have := htorn r hr; simp only [tornDown, Bool.and_eq_true] at this; exact this.1)
    · exact hl.free_minted r hr
  · simp only [h.next]
    exact hl.minted r (mem_of_mem_filter hr)
  · simp only [mem_filter, Bool.not_eq_true'] at hr
    simp only [hf, mem_append] at hrf
    rcases hrf with hrf | hrf
    · exact absurd (htorn r hrf) (by simp [hr.2])
    · exact hl.not_free r hr.1 hrf
  · simp only [h.next] at hr ⊢
    exact (h.live r hr).elim (hl.live_minted r) id
  · simp only [h.next]
    exact hl.receipt_minted m hm
  · simp only [h.gen, mem_filter, Bool.not_eq_true']
    by_cases ht : tornDown l.store s' m.region
    · right
      have hlt := (hfree _ ht).2
      rw [if_pos ht, Nat.mod_eq_of_lt hlt]
      rcases hl.receipt m hm with ⟨-, hg⟩ | hg <;> omega
    · simp only [ht, Bool.false_eq_true, if_false]
      exact (hl.receipt m hm).imp_left fun ho => ⟨⟨ho.1, trivial⟩, ho.2⟩

/-- The id a mint hands out was not issued: it comes off the free list or was never used. -/
theorem Distinct.mint (hl : l.Distinct) : Distinct ⟨l.store.newRuntimeRegion.2,
    l.store.newRuntimeRegion.1 :: l.outstanding, l.receipts⟩ ∧
    l.store.newRuntimeRegion.1 ∉ l.outstanding := by
  obtain ⟨hdead, hsrc⟩ := minted_run l.store
  rw [newRuntimeRegion]
  generalize l.store.mintLoop.run (popPhysical l.store.freePhysical l.store.nextPhysical) = m at hdead hsrc
  have hnew : m.id ∉ l.outstanding := fun hm => by
    rcases hsrc with ⟨-, skipped, hs⟩ | ⟨hle, -, -⟩
    · exact hl.not_free _ hm (by simp [hs])
    · exact absurd (hl.minted _ hm) (by omega)
  have hmono : l.store.nextPhysical.get ≤ m.next.get ∧ m.id.get < m.next.get := by
    rcases hsrc with ⟨hn, skipped, hs⟩ | ⟨hle, hn, -⟩
    · exact ⟨by rw [hn], by rw [hn]; exact hl.free_minted _ (by simp [hs])⟩
    · exact ⟨by omega, by omega⟩
  have hsub : m.free.Sublist l.store.freePhysical ∧ m.id ∉ m.free := by
    rcases hsrc with ⟨-, skipped, hs⟩ | ⟨-, -, hf⟩
    · have hnd := hl.free_nodup
      rw [hs] at hnd ⊢
      exact ⟨(sublist_cons_self _ _).trans (sublist_append_right _ _),
        (List.nodup_cons.1 (List.nodup_append.1 hnd).2.1).1⟩
    · simp [hf]
  refine ⟨⟨hl.free_nodup.sublist hsub.1, fun r hr => (hl.free_minted r (hsub.1.mem hr)).trans_le hmono.1,
    List.nodup_cons.2 ⟨hnew, hl.nodup⟩, ?_, ?_, fun r hr => (hl.live_minted r hr).trans_le hmono.1, hl.generations,
    hl.receipts_nodup, fun c hc => (hl.receipt_minted c hc).trans_le hmono.1,
    fun c hc => (hl.receipt c hc).imp_left fun ⟨ho, hg⟩ => ⟨mem_cons_of_mem _ ho, hg⟩⟩, hnew⟩
  · exact List.forall_mem_cons.2 ⟨hmono.2, fun r hr => (hl.minted r hr).trans_le hmono.1⟩
  · exact List.forall_mem_cons.2 ⟨hsub.2, fun r hr hf => hl.not_free r hr (hsub.1.mem hf)⟩

theorem Distinct.mintTracked (hl : l.Distinct) : Distinct ⟨l.store.newRuntimeRegionTracked.2,
    l.store.newRuntimeRegion.1 :: l.outstanding, l.store.newRuntimeRegionTracked.1 :: l.receipts⟩ := by
  obtain ⟨h, hnew⟩ := hl.mint
  refine ⟨h.free_nodup, h.free_minted, h.nodup, h.minted, h.not_free, h.live_minted, h.generations,
    List.nodup_cons.2 ⟨fun hm => ?_, hl.receipts_nodup⟩,
    List.forall_mem_cons.2 ⟨h.minted _ (mem_cons_self ..), h.receipt_minted⟩,
    List.forall_mem_cons.2 ⟨.inl ⟨mem_cons_self .., rfl⟩, h.receipt⟩⟩
  -- an older receipt of this id carries an older generation
  rcases hl.receipt _ hm with ⟨ho, -⟩ | hg
  · exact hnew ho
  · exact absurd hg (Nat.lt_irrefl _)

theorem Distinct.recycle (hl : l.Distinct) {mint : RegionMint} (hm : mint ∈ l.receipts) :
    Distinct ⟨l.store.recycleUnmaterialized mint,
      if recycles l.store mint then l.outstanding.erase mint.region else l.outstanding, l.receipts.erase mint⟩ := by
  by_cases hr : recycles l.store mint
  · obtain ⟨hdead, hgen⟩ : l.store.isLive mint.region = false ∧ l.store.generationRaw mint.region = mint.gen := by
      simpa [recycles] using hr
    have heq : l.store.recycleUnmaterialized mint =
        { l.store with freePhysical := mint.region :: l.store.freePhysical } := by
      simp [recycleUnmaterialized, hdead, hgen]
    have hout : mint.region ∈ l.outstanding := by
      rcases hl.receipt mint hm with ⟨ho, -⟩ | hg
      · exact ho
      · omega
    rw [heq, if_pos hr]
    refine ⟨List.nodup_cons.2 ⟨hl.not_free _ hout, hl.free_nodup⟩,
      List.forall_mem_cons.2 ⟨hl.minted _ hout, hl.free_minted⟩, hl.nodup.erase _,
      fun r hr => hl.minted r (mem_of_mem_erase hr), fun r hr hf => ?_, hl.live_minted, hl.generations,
      hl.receipts_nodup.erase _, fun c hc => hl.receipt_minted c (mem_of_mem_erase hc), fun c hc => ?_⟩
    · rw [hl.nodup.mem_erase_iff] at hr
      exact hl.not_free r hr.2 ((List.mem_cons.1 hf).resolve_left hr.1)
    · rw [hl.receipts_nodup.mem_erase_iff] at hc
      refine (hl.receipt c hc.2).imp_left fun ho => ⟨hl.nodup.mem_erase_iff.2 ⟨fun hreg => hc.1 ?_, ho.1⟩, ho.2⟩
      -- two unused receipts of one id carry different generations
      obtain ⟨-, hg⟩ := ho
      obtain ⟨region, gen⟩ := c
      obtain ⟨region', gen'⟩ := mint
      simp only at hreg hg hgen
      subst hreg
      rw [← hg, ← hgen]
  · have heq : l.store.recycleUnmaterialized mint = l.store := by
      rw [recycleUnmaterialized]
      split
      · rfl
      · split
        · rfl
        · simp_all [recycles]
    rw [heq, if_neg hr]
    exact { hl with
      receipts_nodup := hl.receipts_nodup.erase _
      receipt_minted := fun c hc => hl.receipt_minted c (mem_of_mem_erase hc)
      receipt := fun c hc => hl.receipt c (mem_of_mem_erase hc) }

theorem Distinct.apply (hl : l.Distinct) (hd : l.Discipline op) (hf : l.FreedOnce ord op) : (l.apply ord op).Distinct := by
  have hg := hl.generations
  have hfreed : ∀ s', s'.HasGenerations ∧ FreedIds l.store s' → IdStep l.store s' := fun s' h => h.2.idStep hg
  cases op with
  | newRuntimeRegion => exact hl.mint.1
  | newRuntimeRegionTracked => exact hl.mintTracked
  | recycleUnmaterialized mint => exact hl.recycle hd
  | ensure r => exact hl.idStep (.ensure hg hd) hf
  | incref r => exact hl.idStep (.incref hg hd) hf
  | allocObj r obj => exact hl.idStep (.allocObj hg hd) hf
  | adoptRegion p c => exact hl.idStep (.adoptRegion hg hd.1 hd.2) hf
  | reparentOwnedChildren a b => exact hl.idStep (.reparentOwnedChildren hg hd) hf
  | decref r => exact hl.idStep (hfreed _ ((freedIds_freeInv _).decref ⟨hg, .refl⟩)) hf
  | decrefIfPresent r => exact hl.idStep (hfreed _ ((freedIds_freeInv _).decrefIfPresent ⟨hg, .refl⟩)) hf
  | freeRegionGroup rs =>
    exact hl.idStep (hfreed _ ((freedIds_freeInv _).freeRegionSet ⟨hg, .refl⟩ fun _ _ => trivial)) hf
  | reclaimMintScope ps => exact hl.idStep (hfreed _ ((freedIds_freeInv _).reclaimMintScope ⟨hg, .refl⟩)) hf
  | teardownAll => exact hl.idStep ((FreedIds.teardownAll hg).idStep hg) hf
  | recordOutgoing a b => exact hl.idStep (.of_sameEdges hg SameIds.frame.recordOutgoing fun _ => isLive_recordOutgoing) hf
  | unrecordOutgoing a b => exact hl.idStep (.of_sameEdges hg SameIds.frame.unrecordOutgoing fun _ => isLive_unrecordOutgoing) hf
  | extractOwnedRegion c =>
    exact hl.idStep (.of_sameEdges hg .extractOwnedRegion fun x => SameEdges.extractOwnedRegion.live x) hf
  | beginMintLog => exact hl.idStep (.of_sameEdges hg ⟨rfl, rfl, fun _ => rfl, Nat.le_refl _, rfl⟩ fun _ => rfl) hf
  | setFibers fs =>
    have h : FreedIds l.store { l.store with fibers := fs } := FreedIds.refl.setFibers fs
    exact hl.idStep (h.idStep hg) hf

/-- In every run that keeps the discipline of the mints and never tears a region down while its id is still on the
free list (nor at the last generation of a 32-bit counter), the free list holds no id twice and no two outstanding
mints hold the same id. -/
theorem region_ids_not_aliased (h : Reachable (fun l ord op => l.Discipline op ∧ l.FreedOnce ord op) l) :
    l.store.freePhysical.Nodup ∧ l.outstanding.Nodup := by
  have hd : l.Distinct := Runs.Reachable.inv distinct_new (fun _ _ hl ha => hl.apply ha.1 ha.2) h
  exact ⟨hd.free_nodup, hd.nodup⟩

/-- The ledger after a list of operations, along the listed iteration order. -/
def exec (ops : List Op) : MintLedger := (ops.map (IterOrder.listed, ·)).foldl (fun l e => l.apply e.1 e.2) new

/-- A mint, its region's life, and a second mint of the recycled id: one mint is outstanding, the second. -/
theorem region_ids_not_aliased_recycled :
    let l := exec [.newRuntimeRegion, .ensure (region 0), .decref (region 0), .newRuntimeRegion]
    l.outstanding = [region 0] ∧ l.store.freePhysical.Nodup ∧ l.outstanding.Nodup :=
  ⟨by decide +kernel, region_ids_not_aliased (Runs.Reachable.start.foldl (by decide +kernel))⟩

/-- A region that `incref` re-animates after its free is freed again while its id is still on the free list: the
id is on the list twice, and two mints get it. -/
theorem region_ids_aliased_by_second_free : ∃ l l',
    Reachable (fun l _ op => l.Discipline op) l ∧ ¬ l.store.freePhysical.Nodup ∧
    Reachable (fun l _ op => l.Discipline op) l' ∧ ¬ l'.outstanding.Nodup := by
  refine ⟨exec [.newRuntimeRegion, .ensure (region 0), .decref (region 0), .incref (region 0),
      .decref (region 0), .decref (region 0)], exec [.newRuntimeRegion, .ensure (region 0), .decref (region 0),
      .incref (region 0), .decref (region 0), .decref (region 0), .newRuntimeRegion, .newRuntimeRegion],
    Runs.Reachable.start.foldl ?_, ?_, Runs.Reachable.start.foldl ?_, ?_⟩ <;> decide +kernel

end MintLedger

end Elle

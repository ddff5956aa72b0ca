import Elle.Region.Run

/-! # The two edge ledgers

Every content edge is recorded twice, in the `outgoing` table of its source and in the `incoming` table of its
target.  Three sites keep the two in step: recording, un-recording and the retire walk of a teardown.
`Mirror` says that they agree for every region that exists, also about sources that are gone, and that no
region has an edge to itself.
-/

namespace Elle.RegionStore

open List

variable {s s' s'' : RegionStore} {r x y src dst : RuntimeRegion}

/-! ### Steps that leave the edges alone -/

/-- The same regions exist, with the same edges. -/
structure SameEdges (s s' : RegionStore) : Prop where
  live : ∀ x, s'.isLive x = s.isLive x
  out : ∀ x y, s'.out x y = s.out x y
  inc : ∀ x y, s'.inc x y = s.inc x y

namespace SameEdges

theorem refl : SameEdges s s := ⟨fun _ => rfl, fun _ _ => rfl, fun _ _ => rfl⟩

theorem trans (h : SameEdges s s') (h' : SameEdges s' s'') : SameEdges s s'' :=
  ⟨fun x => (h'.live x).trans (h.live x), fun x y => (h'.out x y).trans (h.out x y),
    fun x y => (h'.inc x y).trans (h.inc x y)⟩

theorem of_map {f : RuntimeRegion → RegionEntry → RegionEntry} (h : ∀ x, s'.find? x = (s.find? x).map (f x))
    (ho : ∀ x e, (f x e).outgoing = e.outgoing) (hi : ∀ x e, (f x e).incoming = e.incoming) : SameEdges s s' := by
  refine ⟨fun x => ?_, fun x y => ?_, fun x y => ?_⟩
  · simp [isLive, h]
  · simp only [RegionStore.out, h]; cases s.find? x <;> simp [ho]
  · simp only [RegionStore.inc, h]; cases s.find? x <;> simp [hi]

theorem of_find? (h : ∀ x, s'.find? x = s.find? x) : SameEdges s s' :=
  of_map (f := fun _ e => e) (fun x => by rw [h]; simp) (fun _ _ => rfl) (fun _ _ => rfl)

theorem of_update {f : RegionEntry → RegionEntry}
    (h : ∀ x, s'.find? x = if x = r then (s.find? r).map f else s.find? x)
    (ho : ∀ e, (f e).outgoing = e.outgoing) (hi : ∀ e, (f e).incoming = e.incoming) : SameEdges s s' := by
  refine of_map (f := fun x e => if x = r then f e else e) (fun x => ?_) (fun x e => ?_) (fun x e => ?_)
  · rw [h]
    by_cases hx : x = r <;> simp [hx]
  all_goals by_cases hx : x = r <;> simp [hx, ho, hi]

theorem modifyEntry {f : RegionEntry → RegionEntry} (ho : ∀ e, (f e).outgoing = e.outgoing)
    (hi : ∀ e, (f e).incoming = e.incoming) : SameEdges s (s.modifyEntry r f) :=
  of_update (fun _ => find?_modifyEntry) ho hi

theorem decrefReachesZero {fc : Option RuntimeRegion} : SameEdges s (s.decrefReachesZero r fc).1 :=
  of_update (fun _ => find?_decrefReachesZero) RegionEntry.decref_outgoing RegionEntry.decref_incoming

theorem ensure (h : s.isLive r) : SameEdges s (s.ensure r) := by
  obtain ⟨e, he⟩ := isLive_iff.1 h
  refine of_find? fun x => ?_
  rw [find?_ensure]
  by_cases hx : x = r <;> simp [hx, he]

theorem incref (h : s.isLive r) : SameEdges s (s.incref r) :=
  (ensure h).trans (modifyEntry RegionEntry.incref_outgoing RegionEntry.incref_incoming)

theorem withCounters {c : ReclaimCounters} : SameEdges s (s.withCounters c) := of_find? fun _ => rfl

theorem adoptRegion {p c : RuntimeRegion} : SameEdges ((s.ensure p).ensure c) (s.adoptRegion p c) :=
  ((modifyEntry (f := fun e => { e with reclaim := .owned p }) (fun _ => rfl) fun _ => rfl).trans withCounters).trans
    (modifyEntry (f := fun e => { e with ownedChildren := e.ownedChildren ++ [c] }) (fun _ => rfl) fun _ => rfl)

theorem extractOwnedRegion : SameEdges s (s.extractOwnedRegion r) := by
  rw [RegionStore.extractOwnedRegion]
  split
  · exact ((modifyEntry (by intro; rfl) (by intro; rfl)).trans withCounters).trans
      (modifyEntry (by intro; rfl) (by intro; rfl))
  · exact refl

end SameEdges

/-! ### The mirror -/

/-- The two ledgers agree at every region that exists, and no region has an edge to itself. -/
structure Mirror (s : RegionStore) : Prop where
  mirror : ∀ t src, s.isLive t → s.inc t src = s.out src t
  irrefl : ∀ r, s.out r r = 0

theorem Mirror.of_empty (h : ∀ x, s.find? x = none) : s.Mirror :=
  ⟨fun t src ht => by simp [isLive, h] at ht, fun r => by simp [out, h]⟩

theorem Mirror.congr (hs : s.Mirror) (h : SameEdges s s') : s'.Mirror :=
  ⟨fun t src ht => by rw [h.inc, h.out]; exact hs.mirror t src (by rw [← h.live]; exact ht),
    fun r => by rw [h.out]; exact hs.irrefl r⟩

theorem Mirror.inc_of_not_live (hs : s.Mirror) (hx : s.isLive x) (hsrc : ¬ s.isLive src) : s.inc x src = 0 := by
  rw [hs.mirror x src hx]
  by_contra h
  exact hsrc (isLive_of_out (Nat.pos_of_ne_zero h))

theorem out_ensure : (s.ensure r).out x y = s.out x y := elim_ensure rfl

theorem inc_ensure : (s.ensure r).inc x y = s.inc x y := elim_ensure rfl

theorem Mirror.ensure (hs : s.Mirror) (h : s.isLive r ∨ ∀ src, s.out src r = 0) : (s.ensure r).Mirror := by
  refine ⟨fun t src ht => ?_, fun x => by rw [out_ensure]; exact hs.irrefl x⟩
  rw [inc_ensure, out_ensure]
  by_cases hl : s.isLive t
  · exact hs.mirror t src hl
  · rw [isLive_ensure, Bool.or_eq_true, decide_eq_true_eq] at ht
    obtain rfl := ht.resolve_right hl
    rw [h.resolve_left hl]
    rw [Bool.not_eq_true, not_isLive_iff] at hl
    simp [inc, hl]

theorem Mirror.incref (hs : s.Mirror) (h : s.isLive r ∨ ∀ src, s.out src r = 0) : (s.incref r).Mirror :=
  (hs.ensure h).congr (.modifyEntry RegionEntry.incref_outgoing RegionEntry.incref_incoming)

theorem isLive_modifyEntry {f : RegionEntry → RegionEntry} : (s.modifyEntry r f).isLive x = s.isLive x := by
  by_cases hx : x = r <;> simp [hx, isLive]

theorem isLive_addEdge : (s.addEdge src dst).isLive x = s.isLive x := isLive_modifyEntry.trans isLive_modifyEntry

theorem out_addEdge (hl : s.isLive src) :
    (s.addEdge src dst).out x y = s.out x y + if x = src ∧ y = dst then 1 else 0 := by
  obtain ⟨e, he⟩ := isLive_iff.1 hl
  simp only [out, addEdge, elim_modifyEntry, apply_ite RegionEntry.outgoing, ite_self]
  by_cases h : x = src
  · subst h; simp [he, CountTable.count_incr]
  · simp [h]

theorem inc_addEdge (hl : s.isLive x) :
    (s.addEdge src dst).inc x y = s.inc x y + if y = src ∧ x = dst then 1 else 0 := by
  obtain ⟨e, he⟩ := isLive_iff.1 hl
  simp only [inc, addEdge, elim_modifyEntry, apply_ite RegionEntry.incoming, ite_self, he]
  by_cases h : x = dst <;> simp [h, CountTable.count_incr]

theorem Mirror.addEdge (hs : s.Mirror) (h : src ≠ dst) (hl : s.isLive src) : (s.addEdge src dst).Mirror := by
  refine ⟨fun t k ht => ?_, fun x => ?_⟩
  · rw [isLive_addEdge] at ht
    rw [inc_addEdge ht, out_addEdge hl, hs.mirror t k ht]
  · rw [out_addEdge hl, hs.irrefl, if_neg]
    rintro ⟨rfl, hx⟩
    exact h hx

theorem isLive_dropEdge : (s.dropEdge src dst).isLive x = s.isLive x := isLive_modifyEntry.trans isLive_modifyEntry

theorem out_dropEdge : (s.dropEdge src dst).out x y = s.out x y - if x = src ∧ y = dst then 1 else 0 := by
  simp only [out, dropEdge, unmirrorIncoming, elim_modifyEntry, apply_ite RegionEntry.outgoing, ite_self]
  by_cases h : x = src <;> cases s.find? x <;> simp [h, CountTable.count_remove]

theorem inc_dropEdge : (s.dropEdge src dst).inc x y = s.inc x y - if y = src ∧ x = dst then 1 else 0 := by
  simp only [inc, dropEdge, unmirrorIncoming, elim_modifyEntry, apply_ite RegionEntry.incoming, ite_self]
  by_cases h : x = dst <;> cases s.find? x <;> simp [h, CountTable.count_remove]

theorem Mirror.dropEdge (hs : s.Mirror) : (s.dropEdge src dst).Mirror := by
  refine ⟨fun t k ht => ?_, fun x => ?_⟩
  · rw [isLive_dropEdge] at ht
    rw [inc_dropEdge, out_dropEdge, hs.mirror t k ht]
  · rw [out_dropEdge, hs.irrefl, Nat.zero_sub]

theorem Mirror.recordOutgoing (hs : s.Mirror) (a b : Nat) : (s.recordOutgoing a b).Mirror := by
  obtain h | ⟨src, dst, -, -, hne, hl, h⟩ := recordOutgoing_cases s a b <;> rw [h]
  exacts [hs, hs.addEdge hne hl]

theorem Mirror.unrecordOutgoing (hs : s.Mirror) (a b : Nat) : (s.unrecordOutgoing a b).Mirror := by
  obtain h | ⟨src, dst, -, -, hne, -, h⟩ := unrecordOutgoing_cases s a b <;> rw [h]
  exacts [hs, hs.dropEdge]

theorem isLive_recordOutgoing {a b : Nat} : (s.recordOutgoing a b).isLive x = s.isLive x := by
  obtain h | ⟨src, dst, -, -, hne, -, h⟩ := recordOutgoing_cases s a b <;> rw [h]
  exact isLive_addEdge

theorem isLive_unrecordOutgoing {a b : Nat} : (s.unrecordOutgoing a b).isLive x = s.isLive x := by
  obtain h | ⟨src, dst, -, -, hne, -, h⟩ := unrecordOutgoing_cases s a b <;> rw [h]
  exact isLive_dropEdge

/-! ### A teardown -/

variable {ord : IterOrder} {roots : List RuntimeRegion}
variable {obj : HeapObject}

theorem out_teardownSet : (s.teardownSet ord roots).1.out x y = if x ∈ s.doomed roots then 0 else s.out x y :=
  elim_teardownSet fun _ _ hsv => by rw [hsv.outgoing]

theorem inc_teardownSet (h : (s.teardownSet ord roots).1.isLive x) :
    (s.teardownSet ord roots).1.inc x y = s.inc x y - if y ∈ s.doomed roots then s.out y x else 0 := by
  rw [isLive_teardownSet] at h
  obtain ⟨e, he⟩ := isLive_iff.1 h.1
  obtain ⟨e', he', hsv⟩ := teardownSet_survives ord h.2 he
  rw [inc_of_find? he', inc_of_find? he, hsv.incoming]

/-- A teardown takes the footprint of the dead out of every survivor's mirror, and nothing else. -/
theorem Mirror.inc_teardownSet (hs : s.Mirror) (h : (s.teardownSet ord roots).1.isLive x) :
    (s.teardownSet ord roots).1.inc x y = if (s.teardownSet ord roots).1.isLive y then s.inc x y else 0 := by
  have hx := (isLive_teardownSet.1 h).1
  rw [RegionStore.inc_teardownSet h]
  by_cases hy : y ∈ s.doomed roots
  · rw [if_pos hy, if_neg fun hl => (isLive_teardownSet.1 hl).2 hy, hs.mirror x y hx, Nat.sub_self]
  · rw [if_neg hy, Nat.sub_zero]
    by_cases hl : s.isLive y
    · rw [if_pos (isLive_teardownSet.2 ⟨hl, hy⟩)]
    · rw [if_neg fun h => hl (isLive_teardownSet.1 h).1, hs.inc_of_not_live hx hl]

theorem Mirror.teardownSet (hs : s.Mirror) : (s.teardownSet ord roots).1.Mirror := by
  refine ⟨fun t src ht => ?_, fun x => ?_⟩
  · have hlive := (isLive_teardownSet.1 ht).1
    rw [RegionStore.inc_teardownSet ht, out_teardownSet, hs.mirror t src hlive]
    split <;> omega
  · rw [out_teardownSet, hs.irrefl, ite_self]

theorem mirror_freeInv : FreeInv Mirror fun _ _ => True where
  release hs := hs.congr .decrefReachesZero
  release_root _ _ := trivial
  zero _ _ := trivial
  teardown hs _ := hs.teardownSet
  teardown_root _ _ _ := trivial
  mintLog hs := hs.congr (.of_find? fun _ => rfl)

theorem find?_teardownSlot {i : Nat} : (s.teardownSlot i).find? x = if x.get = i then none else s.find? x := by
  rw [teardownSlot]
  split
  · rename_i r hr
    rw [RuntimeRegion.new_eq_some] at hr
    subst hr
    simp only [RuntimeRegion.get_inj]
    split
    · exact find?_takeEntry
    · rename_i hl
      rw [Bool.not_eq_true, not_isLive_iff] at hl
      by_cases hx : x = r <;> simp [hx, hl]
  · rename_i hi
    rw [if_neg]
    rintro rfl
    simp at hi

theorem find?_teardownAll : s.teardownAll.find? x = none := by
  have hfold : ∀ (l : List Nat) (t : RegionStore),
      (l.foldl teardownSlot t).find? x = if x.get ∈ l then none else t.find? x := by
    intro l
    induction l with
    | nil => simp
    | cons i l ih =>
      intro t
      rw [foldl_cons, ih, find?_teardownSlot]
      by_cases hi : x.get = i <;> simp [hi]
  rw [teardownAll, hfold]
  cases he : s.find? x with
  | none => exact ite_self _
  | some e => rw [if_pos (List.mem_range.2 (Slots.lt_length_of_get? he))]

/-! ### Allocation and ownership -/

theorem findObjectCrossRefs_live {d : RuntimeRegion} (h : d ∈ s.findObjectCrossRefs r obj) :
    s.isLive d ∧ d ≠ r := by
  simp only [findObjectCrossRefs, mem_filter, mem_filterMap, decide_eq_true_eq] at h
  obtain ⟨⟨p, -, hp⟩, hne⟩ := h
  simp only [owningRegion] at hp
  split at hp
  · rename_i hl
    cases hp
    exact ⟨hl.1, hne⟩
  · simp at hp

theorem increfCrossRegionRefs_inv {I : RegionStore → Prop} (hs : I s)
    (hstep : ∀ t d, d ≠ r → (∀ x, t.isLive x = s.isLive x) → s.isLive d → I t → I ((t.incref d).recordOutgoing r.get d.get)) :
    I (s.increfCrossRegionRefs r obj) ∧ ∀ x, (s.increfCrossRegionRefs r obj).isLive x = s.isLive x := by
  suffices ∀ (l : List RuntimeRegion) (t : RegionStore), I t → (∀ x, t.isLive x = s.isLive x) →
      (∀ d ∈ l, s.isLive d ∧ d ≠ r) →
      I (l.foldl (fun s d => (s.incref d).recordOutgoing r.get d.get) t) ∧
      ∀ x, (l.foldl (fun s d => (s.incref d).recordOutgoing r.get d.get) t).isLive x = s.isLive x from
    this _ s hs (fun _ => rfl) fun d hd => findObjectCrossRefs_live hd
  intro l
  induction l with
  | nil => exact fun _ h hl _ => ⟨h, hl⟩
  | cons d l ih =>
    intro t ht htl hl
    rw [forall_mem_cons] at hl
    refine ih _ (hstep t d hl.1.2 htl hl.1.1 ht) (fun x => ?_) hl.2
    rw [isLive_recordOutgoing, (SameEdges.incref (by rw [htl]; exact hl.1.1)).live, htl]

theorem isLive_increfCrossRegionRefs : (s.increfCrossRegionRefs r obj).isLive x = s.isLive x :=
  (increfCrossRegionRefs_inv (I := fun _ => True) trivial fun _ _ _ _ _ _ => trivial).2 x

theorem Mirror.increfCrossRegionRefs (hs : s.Mirror) (r : RuntimeRegion) (obj : HeapObject) :
    (s.increfCrossRegionRefs r obj).Mirror :=
  (increfCrossRegionRefs_inv hs fun t d _ htl hd ht =>
    (ht.incref (.inl (by rw [htl]; exact hd))).recordOutgoing _ _).1

theorem SameEdges.allocObj : SameEdges ((s.ensure r).increfCrossRegionRefs r obj) (s.allocObj r obj) :=
  modifyEntry (f := fun e => { e with pool := ⟨e.pool.objects ++ [obj]⟩ }) (fun _ => rfl) fun _ => rfl

theorem Mirror.allocObj (hs : s.Mirror) (h : s.isLive r ∨ ∀ src, s.out src r = 0) (obj : HeapObject) :
    (s.allocObj r obj).Mirror :=
  ((hs.ensure h).increfCrossRegionRefs r obj).congr .allocObj

theorem Mirror.adoptRegion {p c : RuntimeRegion} (hs : s.Mirror) (hp : s.isLive p ∨ ∀ src, s.out src p = 0)
    (hc : s.isLive c ∨ ∀ src, s.out src c = 0) : (s.adoptRegion p c).Mirror := by
  refine ((hs.ensure hp).ensure ?_).congr .adoptRegion
  refine hc.imp (fun h => ?_) fun h src => ?_
  · rw [isLive_ensure, h, Bool.or_true]
  · rw [out_ensure, h]

theorem SameEdges.reparentOwnedChildren {a b : RuntimeRegion} (hab : a ≠ b) (hne : s.children a ≠ []) :
    SameEdges (s.ensure b) (s.reparentOwnedChildren a b) := by
  refine .of_map (f := fun x e => { e with
      reclaim := if x ∈ s.children a then .owned b else e.reclaim
      ownedChildren := if x = a then [] else if x = b then e.ownedChildren ++ s.children a else e.ownedChildren })
    (fun x => ?_) (fun _ _ => rfl) fun _ _ => rfl
  rw [find?_reparentOwnedChildren hab hne, find?_ensure]

theorem Mirror.reparentOwnedChildren {a b : RuntimeRegion} (hs : s.Mirror) (hab : a ≠ b) (hne : s.children a ≠ [])
    (h : s.isLive b ∨ ∀ src, s.out src b = 0) : (s.reparentOwnedChildren a b).Mirror :=
  (hs.ensure h).congr (.reparentOwnedChildren hab hne)

end Elle.RegionStore

namespace Elle

open RegionStore

/-- No id that this operation gives an entry is still named by the outgoing table of a live region. -/
def NoStaleName (s : RegionStore) (op : Op) : Prop :=
  ∀ ord id, ¬ s.isLive id → (op.apply ord s).isLive id → ∀ src, s.out src id = 0

theorem mirror_apply {s : RegionStore} {ord : IterOrder} {op : Op} (hs : s.Mirror) (ha : NoStaleName s op) :
    (op.apply ord s).Mirror := by
  have fresh : ∀ id, (op.apply ord s).isLive id → s.isLive id ∨ ∀ src, s.out src id = 0 := fun id h => by
    by_cases hl : s.isLive id
    exacts [.inl hl, .inr (ha ord id hl h)]
  cases op with
  | newRuntimeRegion | newRuntimeRegionTracked | beginMintLog | setFibers fs =>
    exact hs.congr (.of_find? fun _ => rfl)
  | recycleUnmaterialized mint =>
    simp only [Op.apply, recycleUnmaterialized]
    split
    · exact hs
    · split
      · exact hs
      · exact hs.congr (.of_find? fun _ => rfl)
  | ensure r => exact hs.ensure (fresh r (by simp [Op.apply, isLive_ensure]))
  | incref r =>
    exact hs.incref (fresh r (by simp [Op.apply, isLive, find?_incref]))
  | decref r => exact mirror_freeInv.decref hs
  | decrefIfPresent r => exact mirror_freeInv.decrefIfPresent hs
  | recordOutgoing src dst => exact hs.recordOutgoing src dst
  | unrecordOutgoing src dst => exact hs.unrecordOutgoing src dst
  | allocObj r obj =>
    refine hs.allocObj (fresh r ?_) obj
    rw [Op.apply, SameEdges.allocObj.live, isLive_increfCrossRegionRefs, isLive_ensure, decide_eq_true rfl, Bool.true_or]
  | adoptRegion p c =>
    have hlive : ∀ x, (s.adoptRegion p c).isLive x = ((s.ensure p).ensure c).isLive x := SameEdges.adoptRegion.live
    exact hs.adoptRegion (fresh p (by simp [Op.apply, hlive, isLive_ensure]))
      (fresh c (by simp [Op.apply, hlive, isLive_ensure]))
  | extractOwnedRegion c => exact hs.congr .extractOwnedRegion
  | reparentOwnedChildren a b =>
    by_cases h : a = b ∨ s.children a = []
    · rw [Op.apply, reparentOwnedChildren_of_nil h]; exact hs
    · rw [not_or] at h
      refine hs.reparentOwnedChildren h.1 h.2 (fresh b ?_)
      simp [Op.apply, isLive, find?_reparentOwnedChildren h.1 h.2]
  | freeRegionGroup members => exact mirror_freeInv.freeRegionSet hs fun _ _ => trivial
  | teardownAll => exact .of_empty fun _ => find?_teardownAll
  | reclaimMintScope ps => exact mirror_freeInv.reclaimMintScope hs

theorem mirror_of_reachable {s : RegionStore} (h : Reachable NoStaleName s) : s.Mirror :=
  h.inv (.of_empty fun _ => rfl) fun _ _ _ hs ha => mirror_apply hs ha

/-- In every run in which no id is given an entry while a live table still names it, the two ledgers are exact
mirrors: two live regions have the edge between them in both tables, with the same positive count, or in
neither; no entry names a reserved id or its own region; and a teardown leaves in the mirror of every survivor,
rescued or not, exactly the edges of the sources that survive. -/
theorem edge_ledgers_mirror {s : RegionStore} (h : Reachable NoStaleName s) :
    (∀ a b ea eb, s.find? a = some ea → s.find? b = some eb →
      ea.outgoing.count b = eb.incoming.count a ∧
      (b ∈ ea.outgoing.keys ↔ a ∈ eb.incoming.keys) ∧ (b ∈ ea.outgoing.keys → 0 < ea.outgoing.count b)) ∧
    (∀ a ea k, s.find? a = some ea → k ∈ ea.outgoing.keys ∨ k ∈ ea.incoming.keys →
      k.get ≠ 0 ∧ k.get ≠ 1 ∧ k ≠ a) ∧
    ∀ ord roots t src, (s.teardownSet ord roots).1.isLive t →
      (s.teardownSet ord roots).1.inc t src = if (s.teardownSet ord roots).1.isLive src then s.inc t src else 0 := by
  have hm := mirror_of_reachable h
  have hcount : ∀ a b ea eb, s.find? a = some ea → s.find? b = some eb →
      ea.outgoing.count b = eb.incoming.count a := fun a b ea eb ha hb => by
    rw [← out_of_find? ha, ← inc_of_find? hb, hm.mirror b a (isLive_of_find? hb)]
  refine ⟨fun a b ea eb ha hb => ⟨hcount a b ea eb ha hb, ?_, CountTable.mem_keys.1⟩, fun a ea k ha hk => ?_,
    fun ord roots t src ht => hm.inc_teardownSet ht⟩
  · rw [CountTable.mem_keys, CountTable.mem_keys, hcount a b ea eb ha hb]
  · have hself : ea.outgoing.count a = 0 := by rw [← out_of_find? ha, hm.irrefl]
    have hk2 := k.two_le
    refine ⟨by omega, by omega, ?_⟩
    rintro rfl
    rw [CountTable.mem_keys, CountTable.mem_keys, ← hcount k k ea ea ha ha, hself] at hk
    omega

/-- The region with id `n + 2`, for concrete stores. -/
def region (n : Nat) : RuntimeRegion := ⟨n + 2, by omega⟩

/-- A store in which region 2 holds an edge into region 3: both tables have it. -/
theorem edge_ledgers_mirror_recorded :
    let s := ((RegionStore.new.ensure (region 0)).ensure (region 1)).recordOutgoing 2 3
    s.out (region 0) (region 1) = 1 ∧ s.inc (region 1) (region 0) = 1 := by
  intro s
  have hout : s.out (region 0) (region 1) = 1 := by decide
  have h1 : Reachable NoStaleName (RegionStore.new.ensure (region 0)) :=
    .step .listed (.ensure (region 0)) .new fun _ _ _ _ _ => rfl
  have h2 : Reachable NoStaleName ((RegionStore.new.ensure (region 0)).ensure (region 1)) :=
    .step .listed (.ensure (region 1)) h1 fun _ _ _ _ _ => by rw [out_ensure]; rfl
  have h3 : Reachable NoStaleName s :=
    .step .listed (.recordOutgoing 2 3) h2 fun _ _ hn hl => absurd (isLive_recordOutgoing ▸ hl) hn
  obtain ⟨ea, ha⟩ := isLive_iff.1 (show s.isLive (region 0) from by decide)
  obtain ⟨eb, hb⟩ := isLive_iff.1 (show s.isLive (region 1) from by decide)
  refine ⟨hout, ?_⟩
  rw [inc_of_find? hb, ← ((edge_ledgers_mirror h3).1 _ _ ea eb ha hb).1, ← out_of_find? ha, hout]

end Elle

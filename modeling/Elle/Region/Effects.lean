import Elle.Region.Ops

/-! # What the operations do

For each operation of the store, the entry of every region after it, and that the ids, the generations and
the fibers are left alone.  The invariants of the store are proved from these statements.
-/

namespace Elle

/-- How a region is reclaimed with one reference more. -/
def Reclaim.incref : Reclaim → Reclaim
  | .counted rc => .counted (rc + 1)
  | .owned owner => .owned owner

/-- How a region is reclaimed with one reference fewer. -/
def Reclaim.decref : Reclaim → Reclaim
  | .counted rc => .counted (rc - 1)
  | .owned owner => .owned owner

/-- One reference fewer, never below zero; inert on an owned region. -/
def RegionEntry.decref (e : RegionEntry) : RegionEntry :=
  match e.reclaim with
  | .counted rc => { e with reclaim := .counted (rc - 1) }
  | .owned _ => e

namespace RegionEntry

variable (e : RegionEntry)

@[simp] theorem incref_ownedChildren : e.incref.ownedChildren = e.ownedChildren := by rw [incref]; split <;> rfl
@[simp] theorem incref_outgoing : e.incref.outgoing = e.outgoing := by rw [incref]; split <;> rfl
@[simp] theorem incref_incoming : e.incref.incoming = e.incoming := by rw [incref]; split <;> rfl
@[simp] theorem decref_ownedChildren : e.decref.ownedChildren = e.ownedChildren := by rw [decref]; split <;> rfl
@[simp] theorem decref_outgoing : e.decref.outgoing = e.outgoing := by rw [decref]; split <;> rfl
@[simp] theorem decref_incoming : e.decref.incoming = e.incoming := by rw [decref]; split <;> rfl
@[simp] theorem decref_pool : e.decref.pool = e.pool := by rw [decref]; split <;> rfl

theorem incref_reclaim : e.incref.reclaim = e.reclaim.incref := by
  rw [incref]; split <;> simp_all [Reclaim.incref]

theorem decref_reclaim : e.decref.reclaim = e.reclaim.decref := by
  rw [decref]; split <;> simp_all [Reclaim.decref]

theorem incref_owned (p : RuntimeRegion) : e.incref.reclaim = .owned p ↔ e.reclaim = .owned p := by
  rw [incref_reclaim]; cases e.reclaim <;> simp [Reclaim.incref]

theorem decref_owned (p : RuntimeRegion) : e.decref.reclaim = .owned p ↔ e.reclaim = .owned p := by
  rw [decref_reclaim]; cases e.reclaim <;> simp [Reclaim.decref]

end RegionEntry

namespace RegionStore

/-! ### Relations that counting and edge traffic keep -/

/-- Recording does nothing, or adds an edge between two different regions of which the source exists. -/
theorem recordOutgoing_cases (s : RegionStore) (a b : Nat) : s.recordOutgoing a b = s ∨
    ∃ src dst : RuntimeRegion, a = src.get ∧ b = dst.get ∧ src ≠ dst ∧ s.isLive src ∧
      s.recordOutgoing a b = s.addEdge src dst := by
  unfold recordOutgoing
  split
  · exact .inl rfl
  next hb =>
  split
  · next src dst ha hd =>
    rw [RuntimeRegion.new_eq_some] at ha hd
    split
    · next hl => exact .inr ⟨src, dst, ha, hd, fun h => hb (.inr (.inr (by rw [ha, hd, h]))), hl, rfl⟩
    · exact .inl rfl
  · exact .inl rfl

/-- Un-recording does nothing, or takes out an edge between two different regions that was recorded. -/
theorem unrecordOutgoing_cases (s : RegionStore) (a b : Nat) : s.unrecordOutgoing a b = s ∨
    ∃ src dst : RuntimeRegion, a = src.get ∧ b = dst.get ∧ src ≠ dst ∧ 0 < s.out src dst ∧
      s.unrecordOutgoing a b = s.dropEdge src dst := by
  unfold unrecordOutgoing
  split
  · exact .inl rfl
  next hb =>
  split
  · next src dst ha hd =>
    rw [RuntimeRegion.new_eq_some] at ha hd
    split
    · next hl => exact .inr ⟨src, dst, ha, hd, fun h => hb (.inr (.inr (by rw [ha, hd, h]))), hl, rfl⟩
    · exact .inl rfl
  · exact .inl rfl

/-- The update moves no region in the ownership forest. -/
def Plain (f : RegionEntry → RegionEntry) : Prop :=
  ∀ e, (f e).ownedChildren = e.ownedChildren ∧ ∀ p, (f e).reclaim = .owned p ↔ e.reclaim = .owned p

theorem Plain.of_rfl {f : RegionEntry → RegionEntry} (hc : ∀ e, (f e).ownedChildren = e.ownedChildren)
    (hr : ∀ e, (f e).reclaim = e.reclaim) : Plain f := fun e => ⟨hc e, fun p => by rw [hr]⟩

/-- A relation between stores that creating a region keeps, and every update that moves none. -/
structure Frame (R : RegionStore → RegionStore → Prop) : Prop where
  refl : ∀ {s}, R s s
  trans : ∀ {s s' s''}, R s s' → R s' s'' → R s s''
  ensure : ∀ {s r}, R s (s.ensure r)
  modify : ∀ {s r f}, Plain f → R s (s.modifyEntry r f)

namespace Frame

variable {R : RegionStore → RegionStore → Prop} {s : RegionStore} {r src dst : RuntimeRegion} {a b : Nat}

theorem foldl (hR : Frame R) {α : Type*} {step : RegionStore → α → RegionStore} (h : ∀ s a, R s (step s a))
    (l : List α) (s : RegionStore) : R s (l.foldl step s) := by
  induction l generalizing s with
  | nil => exact hR.refl
  | cons a l ih => exact hR.trans (h s a) (ih _)

theorem incref (hR : Frame R) : R s (s.incref r) :=
  hR.trans hR.ensure (hR.modify fun e => ⟨e.incref_ownedChildren, e.incref_owned⟩)

theorem addEdge (hR : Frame R) : R s (s.addEdge src dst) := by
  refine hR.trans (hR.modify ?_) (hR.modify ?_) <;> exact .of_rfl (fun _ => rfl) fun _ => rfl

theorem unmirrorIncoming (hR : Frame R) {n : Nat} : R s (s.unmirrorIncoming src dst n) :=
  hR.modify (.of_rfl (fun _ => rfl) fun _ => rfl)

theorem dropEdge (hR : Frame R) : R s (s.dropEdge src dst) := by
  exact hR.trans (hR.modify (by exact .of_rfl (fun _ => rfl) fun _ => rfl)) hR.unmirrorIncoming

theorem recordOutgoing (hR : Frame R) : R s (s.recordOutgoing a b) := by
  obtain h | ⟨src, dst, -, -, -, -, h⟩ := recordOutgoing_cases s a b <;> rw [h]
  exacts [hR.refl, hR.addEdge]

theorem unrecordOutgoing (hR : Frame R) : R s (s.unrecordOutgoing a b) := by
  obtain h | ⟨src, dst, -, -, -, -, h⟩ := unrecordOutgoing_cases s a b <;> rw [h]
  exacts [hR.refl, hR.dropEdge]

theorem allocObj (hR : Frame R) {obj : HeapObject} : R s (s.allocObj r obj) :=
  hR.trans (hR.trans hR.ensure (hR.foldl (fun _ _ => hR.trans hR.incref hR.recordOutgoing) _ _))
    (hR.modify (.of_rfl (fun _ => rfl) fun _ => rfl))

end Frame

/-! ### What only the minting and freeing of ids touches -/

/-- The store `s'` issues the same ids as `s`, at the same generations, and sees the same fibers. -/
structure SameIds (s s' : RegionStore) : Prop where
  free : s'.freePhysical = s.freePhysical
  next : s'.nextPhysical = s.nextPhysical
  gen : ∀ r, s'.generationRaw r = s.generationRaw r
  slots : s.generations.length ≤ s'.generations.length
  fibers : s'.fibers = s.fibers

namespace SameIds

variable {s s' s'' : RegionStore} {r src dst : RuntimeRegion} {f : RegionEntry → RegionEntry}

theorem refl : SameIds s s := ⟨rfl, rfl, fun _ => rfl, Nat.le_refl _, rfl⟩

theorem trans (h : SameIds s s') (h' : SameIds s' s'') : SameIds s s'' :=
  ⟨h'.free.trans h.free, h'.next.trans h.next, fun r => (h'.gen r).trans (h.gen r), h.slots.trans h'.slots,
    h'.fibers.trans h.fibers⟩

theorem modifyEntry : SameIds s (s.modifyEntry r f) := by
  rw [RegionStore.modifyEntry]; split <;> exact ⟨rfl, rfl, fun _ => rfl, Nat.le_refl _, rfl⟩

theorem growGenerations : SameIds s (s.growGenerations r) := by
  refine ⟨rfl, rfl, fun x => ?_, by simp [RegionStore.growGenerations], rfl⟩
  simp only [generationRaw, RegionStore.growGenerations, List.getD_eq_getElem?_getD]
  by_cases hx : x.get < s.generations.length
  · rw [List.getElem?_append_left hx]
  · rw [List.getElem?_append_right (by omega), List.getElem?_eq_none (Nat.le_of_not_lt hx),
      List.getElem?_replicate]
    split <;> rfl

theorem ensure : SameIds s (s.ensure r) := by
  refine (growGenerations (r := r)).trans ?_
  rw [RegionStore.ensure]
  split
  · exact refl
  · exact ⟨rfl, rfl, fun _ => rfl, Nat.le_refl _, rfl⟩

theorem frame : Frame SameIds := ⟨refl, trans, ensure, fun _ => modifyEntry⟩

theorem overFree {b : Bool} : SameIds s (s.overFree b) := by
  rw [RegionStore.overFree]; split <;> exact ⟨rfl, rfl, fun _ => rfl, Nat.le_refl _, rfl⟩

theorem decrefReachesZero {fc : Option RuntimeRegion} : SameIds s (s.decrefReachesZero r fc).1 := by
  rw [RegionStore.decrefReachesZero]
  split
  · exact overFree
  · split
    · exact refl
    · split
      · exact overFree
      · exact ⟨rfl, rfl, fun _ => rfl, Nat.le_refl _, rfl⟩

theorem withCounters {c : ReclaimCounters} : SameIds s (s.withCounters c) :=
  ⟨rfl, rfl, fun _ => rfl, Nat.le_refl _, rfl⟩

theorem adoptRegion {p c : RuntimeRegion} : SameIds s (s.adoptRegion p c) :=
  (((ensure.trans ensure).trans modifyEntry).trans withCounters).trans modifyEntry

theorem extractOwnedRegion : SameIds s (s.extractOwnedRegion r) := by
  rw [RegionStore.extractOwnedRegion]
  split
  · exact (modifyEntry.trans withCounters).trans modifyEntry
  · exact refl

theorem reparentOwnedChildren {a b : RuntimeRegion} : SameIds s (s.reparentOwnedChildren a b) := by
  rw [RegionStore.reparentOwnedChildren]
  split
  · exact refl
  · split
    · exact refl
    · exact (((modifyEntry.trans withCounters).trans ensure).trans
        (frame.foldl (fun _ _ => modifyEntry) _ _)).trans modifyEntry

end SameIds

/-! ### Entries after an operation -/

variable {s : RegionStore} {r x src dst : RuntimeRegion}

theorem find?_growGenerations : (s.growGenerations r).find? x = s.find? x := rfl

theorem find?_ensure : (s.ensure r).find? x = if x = r then some ((s.find? r).getD .fresh) else s.find? x := by
  have hlive : (s.growGenerations r).isLive r = (s.find? r).isSome := rfl
  rw [ensure, hlive]
  split
  · rename_i h
    obtain ⟨e, he⟩ := Option.isSome_iff_exists.1 h
    by_cases hx : x = r <;> simp [hx, he, find?_growGenerations]
  · rename_i h
    rw [Option.not_isSome_iff_eq_none.1 h, find?_setEntry, find?_growGenerations, Option.getD_none]

/-- What is read of an entry does not tell a region just created from one that is not there. -/
theorem elim_ensure {α : Type*} {d : α} {g : RegionEntry → α} (h : g .fresh = d) :
    ((s.ensure r).find? x).elim d g = (s.find? x).elim d g := by
  rw [find?_ensure]
  by_cases hx : x = r
  · subst hx; cases s.find? x <;> simp [h]
  · rw [if_neg hx]

theorem children_ensure : (s.ensure r).children x = s.children x := elim_ensure rfl

theorem isLive_ensure : (s.ensure r).isLive x = (decide (x = r) || s.isLive x) := by
  rw [isLive, find?_ensure]
  by_cases hx : x = r <;> simp [hx, isLive]

theorem reclaim?_ensure :
    (s.ensure r).reclaim? x = if x = r then some ((s.reclaim? r).getD (.counted 1)) else s.reclaim? x := by
  simp only [reclaim?, find?_ensure]
  by_cases hx : x = r
  · subst hx; cases s.find? x <;> simp [RegionEntry.fresh]
  · simp [hx]

theorem find?_incref :
    (s.incref r).find? x = if x = r then some ((s.find? r).getD .fresh).incref else s.find? x := by
  rw [incref, find?_modifyEntry, find?_ensure, find?_ensure]
  by_cases hx : x = r <;> simp [hx]

@[simp] theorem find?_overFree {b : Bool} : (s.overFree b).find? x = s.find? x := by
  rw [overFree]; split <;> rfl

theorem find?_decrefReachesZero {fc : Option RuntimeRegion} :
    (s.decrefReachesZero r fc).1.find? x = if x = r then (s.find? r).map .decref else s.find? x := by
  by_cases hx : x = r
  · subst hx
    rw [if_pos rfl, decrefReachesZero]
    cases he : s.find? x with
    | none => simpa using he
    | some e =>
      obtain ⟨_, rc | p, _, _, _⟩ := e
      · by_cases h0 : rc = 0 <;> simp [h0, RegionEntry.decref, he]
      · simpa [RegionEntry.decref] using he
  · rw [if_neg hx, decrefReachesZero]
    split
    · simp
    · split
      · rfl
      · split <;> simp [hx]

theorem reclaim?_decref_self {fc : Option RuntimeRegion} {m : Nat} (h : s.reclaim? r = some (.counted m)) :
    (s.decrefReachesZero r fc).1.reclaim? r = some (.counted (m - 1)) := by
  obtain ⟨e, he, her⟩ := Option.map_eq_some_iff.1 h
  rw [reclaim?, find?_decrefReachesZero, if_pos rfl, he, Option.map_some, Option.map_some, RegionEntry.decref_reclaim, her,
    Reclaim.decref]

theorem reclaim?_decref_of_ne {fc : Option RuntimeRegion} (h : x ≠ r) :
    (s.decrefReachesZero r fc).1.reclaim? x = s.reclaim? x := by
  rw [reclaim?, find?_decrefReachesZero, if_neg h, reclaim?]

theorem decrefReachesZero_snd {fc : Option RuntimeRegion} :
    (s.decrefReachesZero r fc).2 ↔ ∃ rc, s.reclaim? r = some (.counted rc) ∧ rc ≤ 1 := by
  rw [decrefReachesZero, reclaim?]
  cases he : s.find? r with
  | none => simp
  | some e =>
    obtain ⟨_, rc | p, _, _, _⟩ := e
    · by_cases h0 : rc = 0
      · simp [h0]
      · simp [h0]; omega
    · simp

theorem reclaim?_modifyEntry {f : RegionEntry → RegionEntry} {g : Reclaim → Reclaim}
    (h : ∀ e, (f e).reclaim = g e.reclaim) :
    (s.modifyEntry r f).reclaim? x = if x = r then (s.reclaim? r).map g else s.reclaim? x := by
  by_cases hx : x = r <;> simp [hx, reclaim?, Function.comp_def, h]

theorem reclaim?_kept {f : RegionEntry → RegionEntry} (h : ∀ e, (f e).reclaim = e.reclaim) :
    (s.modifyEntry r f).reclaim? x = s.reclaim? x := by
  rw [reclaim?_modifyEntry (g := id) h, Option.map_id, id]
  by_cases hx : x = r <;> simp [hx]

theorem reclaim?_restamp {m : Reclaim} : (s.modifyEntry r fun e => { e with reclaim := m }).reclaim? x =
    if x = r then (s.reclaim? r).map fun _ => m else s.reclaim? x :=
  reclaim?_modifyEntry fun _ => rfl

theorem reclaim?_adoptRegion {p c : RuntimeRegion} : (s.adoptRegion p c).reclaim? x =
    if x = c then some (.owned p) else if x = p then some ((s.reclaim? p).getD (.counted 1)) else s.reclaim? x := by
  have hlast : (s.adoptRegion p c).reclaim? x =
      (((s.ensure p).ensure c).modifyEntry c fun e => { e with reclaim := .owned p }).reclaim? x :=
    reclaim?_kept fun _ => rfl
  rw [hlast, reclaim?_restamp]
  by_cases hx : x = c <;> simp [hx, reclaim?_ensure]

theorem children_adoptRegion {p c : RuntimeRegion} :
    (s.adoptRegion p c).children x = if x = p then s.children p ++ [c] else s.children x := by
  have hsame : ∀ y, ((s.ensure p).ensure c).children y = s.children y := fun _ => children_ensure.trans children_ensure
  rw [← hsame, ← hsame]
  simp only [adoptRegion, children, elim_modifyEntry, find?_withCounters, apply_ite RegionEntry.ownedChildren, ite_self]
  by_cases hx : x = p
  · subst hx
    obtain ⟨e, he⟩ := isLive_iff.1 (show ((s.ensure x).ensure c).isLive x by simp [isLive_ensure])
    simp [he]
  · simp [hx]

theorem extractOwnedRegion_of_not_owned (h : ∀ o, s.reclaim? r ≠ some (.owned o)) : s.extractOwnedRegion r = s := by
  rw [extractOwnedRegion]
  split
  · rename_i o ho; exact absurd ho (h o)
  · rfl

theorem children_extractOwnedRegion {o : RuntimeRegion} (h : s.reclaim? r = some (.owned o)) :
    (s.extractOwnedRegion r).children x = if x = o then (s.children o).filter (· ≠ r) else s.children x := by
  simp only [extractOwnedRegion, h, children, elim_modifyEntry, find?_withCounters,
    apply_ite RegionEntry.ownedChildren, ite_self]
  by_cases hx : x = o
  · subst hx; cases s.find? x <;> simp
  · simp [hx]

theorem reclaim?_extractOwnedRegion {o : RuntimeRegion} (h : s.reclaim? r = some (.owned o)) :
    (s.extractOwnedRegion r).reclaim? x =
      if x = r then some (.counted (1 + s.externalIncoming r (s.subtree r))) else s.reclaim? x := by
  simp only [extractOwnedRegion, h]
  rw [reclaim?_kept (by intro; rfl)]
  exact reclaim?_restamp.trans (by rw [h]; rfl)

theorem reparentOwnedChildren_of_nil {a b : RuntimeRegion} (h : a = b ∨ s.children a = []) :
    s.reparentOwnedChildren a b = s := by
  rw [reparentOwnedChildren]
  split
  · rfl
  · rename_i hab; rw [h.resolve_left hab]

theorem find?_restamp (l : List RuntimeRegion) (target : RuntimeRegion) (s : RegionStore) (x : RuntimeRegion) :
    (l.foldl (fun s c => s.modifyEntry c fun e => { e with reclaim := .owned target }) s).find? x =
      (s.find? x).map fun e => { e with reclaim := if x ∈ l then .owned target else e.reclaim } := by
  induction l generalizing s with
  | nil => cases h : s.find? x <;> simp [h]
  | cons c l ih =>
    rw [List.foldl_cons, ih, find?_modifyEntry]
    by_cases hx : x = c
    · subst hx; simp [Function.comp_def]
    · simp [hx]

theorem find?_reparentOwnedChildren {a b : RuntimeRegion} (hab : a ≠ b) (h : s.children a ≠ []) :
    (s.reparentOwnedChildren a b).find? x =
      (if x = b then some ((s.find? b).getD .fresh) else s.find? x).map fun e => { e with
        reclaim := if x ∈ s.children a then .owned b else e.reclaim
        ownedChildren := if x = a then [] else if x = b then e.ownedChildren ++ s.children a else e.ownedChildren } := by
  have heq : s.reparentOwnedChildren a b =
      ((s.children a).foldl (fun s c => s.modifyEntry c fun e => { e with reclaim := .owned b })
        (((s.modifyEntry a fun e => { e with ownedChildren := [] }).withCounters
          ((s.modifyEntry a fun e => { e with ownedChildren := [] }).counters.countReparents
            (s.children a).length)).ensure b)).modifyEntry b
        fun e => { e with ownedChildren := e.ownedChildren ++ s.children a } := by
    rw [reparentOwnedChildren, if_neg hab]
    cases hc : s.children a with
    | nil => exact absurd hc h
    | cons c cs => rfl
  simp only [heq, find?_modifyEntry, find?_restamp, find?_ensure, find?_withCounters]
  by_cases h1 : x = b
  · subst h1; simp [hab.symm]
  · by_cases h2 : x = a
    · subst h2; cases he : s.find? x <;> simp [h1]
    · cases he : s.find? x <;> simp [h1, h2]

end RegionStore

end Elle

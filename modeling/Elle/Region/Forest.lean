import Elle.Region.Mirror

/-! # The ownership forest

An owned region records its owner and is listed among the owner's children.  `Forest` says that the two agree,
that nothing is listed twice and that following owners ends at a counted region.
-/

namespace Elle.RegionStore

open List

variable {s s' : RegionStore} {r x y p c : RuntimeRegion}

/-- Following owners from `x` ends at a counted region. -/
inductive Rooted (s : RegionStore) : RuntimeRegion → Prop
  | counted {x : RuntimeRegion} {rc : Nat} : s.reclaim? x = some (.counted rc) → Rooted s x
  | owned {x p : RuntimeRegion} : s.reclaim? x = some (.owned p) → Rooted s p → Rooted s x

/-- Whatever is listed among the children of a region records that region as its owner. -/
structure Listed (s : RegionStore) : Prop where
  owner_of_child : ∀ {p c}, c ∈ s.children p → s.reclaim? c = some (.owned p)

/-- Owners and children agree, no child is listed twice, and every region that exists is rooted. -/
structure Forest (s : RegionStore) : Prop where
  owner_of_child : ∀ {p c}, c ∈ s.children p → s.reclaim? c = some (.owned p)
  child_of_owner : ∀ {p c}, s.reclaim? c = some (.owned p) → c ∈ s.children p
  nodup : ∀ p, (s.children p).Nodup
  rooted : ∀ x, s.isLive x → s.Rooted x

theorem owned_or_counted (h : s.isLive x) :
    (∃ p, s.reclaim? x = some (.owned p)) ∨ ∃ rc, s.reclaim? x = some (.counted rc) := by
  obtain ⟨e, he⟩ := isLive_iff.1 h
  rw [reclaim?_of_find? he]
  cases e.reclaim with
  | owned p => exact .inl ⟨p, rfl⟩
  | counted rc => exact .inr ⟨rc, rfl⟩

theorem Listed.owner_unique (hs : s.Listed) (h : c ∈ s.children p) (h' : c ∈ s.children y) : p = y := by
  have := (hs.owner_of_child h).symm.trans (hs.owner_of_child h')
  simpa using this

namespace Forest

theorem isLive_child (hs : s.Forest) (h : c ∈ s.children p) : s.isLive c := isLive_of_reclaim? (hs.owner_of_child h)

theorem listed (hs : s.Forest) : s.Listed := ⟨hs.owner_of_child⟩

theorem owner_unique (hs : s.Forest) (h : c ∈ s.children p) (h' : c ∈ s.children y) : p = y :=
  hs.listed.owner_unique h h'

theorem not_child_of_counted (hs : s.Forest) {rc : Nat} (h : s.reclaim? c = some (.counted rc)) : c ∉ s.children p := by
  intro hc
  rw [hs.owner_of_child hc] at h
  simp at h

theorem eq_of_reach_counted (hs : s.Forest) {rc : Nat} (h : s.reclaim? x = some (.counted rc))
    (hr : s.ownership.Reach r x) : r = x := by
  rcases Relation.ReflTransGen.cases_tail hr with h' | ⟨y, -, hy⟩
  · exact h'.symm
  · exact absurd hy (hs.not_child_of_counted h)

end Forest

/-! ### Steps that leave the forest alone -/

/-- The same children and owners; regions may be created, and counts may change. -/
structure SameForest (s s' : RegionStore) : Prop where
  children : ∀ x, s'.children x = s.children x
  owned : ∀ x p, s'.reclaim? x = some (.owned p) ↔ s.reclaim? x = some (.owned p)
  live : ∀ x, s.isLive x → s'.isLive x

namespace SameForest

theorem refl : SameForest s s := ⟨fun _ => rfl, fun _ _ => Iff.rfl, fun _ h => h⟩

theorem trans {s'' : RegionStore} (h : SameForest s s') (h' : SameForest s' s'') : SameForest s s'' :=
  ⟨fun x => (h'.children x).trans (h.children x), fun x p => (h'.owned x p).trans (h.owned x p),
    fun x hx => h'.live x (h.live x hx)⟩

theorem of_map {f : RuntimeRegion → RegionEntry → RegionEntry} (h : ∀ x, s'.find? x = (s.find? x).map (f x))
    (hc : ∀ x e, (f x e).ownedChildren = e.ownedChildren)
    (ho : ∀ x e p, (f x e).reclaim = .owned p ↔ e.reclaim = .owned p) : SameForest s s' := by
  refine ⟨fun x => ?_, fun x p => ?_, fun x hx => ?_⟩
  · simp only [RegionStore.children, h]; cases s.find? x <;> simp [hc]
  · simp only [reclaim?, h]; cases s.find? x <;> simp [ho]
  · simpa [isLive, h] using hx

theorem of_find? (h : ∀ x, s'.find? x = s.find? x) : SameForest s s' :=
  of_map (f := fun _ e => e) (fun x => by rw [h]; simp) (fun _ _ => rfl) fun _ _ _ => Iff.rfl

theorem of_update {f : RegionEntry → RegionEntry}
    (h : ∀ x, s'.find? x = if x = r then (s.find? r).map f else s.find? x) (hf : Plain f) : SameForest s s' := by
  refine of_map (f := fun x e => if x = r then f e else e) (fun x => ?_) (fun x e => ?_) (fun x e p => ?_)
  · rw [h]
    by_cases hx : x = r <;> simp [hx]
  all_goals by_cases hx : x = r <;> simp [hx, hf e]

theorem modifyEntry {f : RegionEntry → RegionEntry} (hf : Plain f) : SameForest s (s.modifyEntry r f) :=
  of_update (fun _ => find?_modifyEntry) hf

theorem ensure : SameForest s (s.ensure r) := by
  refine ⟨fun x => children_ensure, fun x p => ?_, fun x hx => ?_⟩
  · rw [reclaim?_ensure]
    by_cases hx : x = r
    · subst hx; cases s.reclaim? x <;> simp
    · simp [hx]
  · rw [isLive_ensure, hx, Bool.or_true]

theorem decrefReachesZero {fc : Option RuntimeRegion} : SameForest s (s.decrefReachesZero r fc).1 :=
  of_update (fun _ => find?_decrefReachesZero) fun e => ⟨e.decref_ownedChildren, e.decref_owned⟩

theorem frame : Frame SameForest :=
  ⟨refl, trans, ensure, modifyEntry⟩

end SameForest

theorem Forest.of_empty (h : ∀ x, s.find? x = none) : s.Forest :=
  ⟨fun hc => by simp [children, h] at hc, fun hc => by simp [reclaim?, h] at hc, fun p => by simp [children, h],
    fun x hx => by simp [isLive, h] at hx⟩

theorem Rooted.congr (h : SameForest s s') (hx : s.Rooted x) : s'.Rooted x := by
  induction hx with
  | @counted x rc hx =>
    rcases owned_or_counted (h.live x (isLive_of_reclaim? hx)) with ⟨p, hp⟩ | ⟨rc', hrc⟩
    · rw [(h.owned x p).1 hp] at hx
      simp at hx
    · exact .counted hrc
  | owned hx _ ih => exact .owned ((h.owned _ _).2 hx) ih

theorem Forest.congr (hs : s.Forest) (h : SameForest s s') : s'.Forest := by
  refine ⟨fun hc => ?_, fun hc => ?_, fun p => ?_, fun x hx => ?_⟩
  · rw [h.children] at hc; exact (h.owned _ _).2 (hs.owner_of_child hc)
  · rw [h.children]; exact hs.child_of_owner ((h.owned _ _).1 hc)
  · rw [h.children]; exact hs.nodup p
  · rcases owned_or_counted hx with ⟨p, hp⟩ | ⟨rc, hrc⟩
    · exact (hs.rooted x (isLive_of_reclaim? ((h.owned x p).1 hp))).congr h
    · exact .counted hrc

/-! ### Adoption -/

theorem reclaim?_eq_none : s.reclaim? x = none ↔ s.isLive x = false := by
  rw [reclaim?, Option.map_eq_none_iff, not_isLive_iff]

theorem children_of_not_live (h : s.isLive x = false) : s.children x = [] := by
  rw [children, not_isLive_iff.1 h, Option.elim_none]

/-- The store `s'` is `s` with the regions `C` moved below `b`, which is created if need be. -/
structure Regrafted (s s' : RegionStore) (C : List RuntimeRegion) (b : RuntimeRegion) : Prop where
  owned : ∀ {x q}, s'.reclaim? x = some (.owned q) ↔ x ∈ C ∧ q = b ∨ x ∉ C ∧ s.reclaim? x = some (.owned q)
  counted : ∀ {x rc}, x ∉ C → s.reclaim? x = some (.counted rc) → s'.reclaim? x = some (.counted rc)
  created : s.reclaim? b = none → s'.reclaim? b = some (.counted 1)
  children : ∀ {q d}, d ∈ s'.children q ↔ d ∈ C ∧ q = b ∨ d ∉ C ∧ d ∈ s.children q

theorem Listed.regraft {C : List RuntimeRegion} {b : RuntimeRegion} (hs : s.Listed) (h : Regrafted s s' C b) :
    s'.Listed :=
  ⟨fun hd => h.owned.2 ((h.children.1 hd).imp_right (And.imp_right hs.owner_of_child))⟩

theorem Forest.regraft {C : List RuntimeRegion} {b : RuntimeRegion} (hs : s.Forest) (h : Regrafted s s' C b)
    (hnodup : ∀ q, (s'.children q).Nodup) (hb : ∀ c ∈ C, ¬ s.ownership.Reach c b) : s'.Forest := by
  -- what is not below a region of `C` keeps its chain of owners, the target first of all
  have habove : ∀ {x}, s.Rooted x → (∀ c ∈ C, ¬ s.ownership.Reach c x) → s'.Rooted x := by
    intro x hx
    induction hx with
    | counted hx => exact fun hn => .counted (h.counted (fun hc => hn _ hc .refl) hx)
    | owned hx _ ih =>
      intro hn
      have hc := hs.child_of_owner hx
      exact .owned (h.owned.2 (.inr ⟨fun hc => hn _ hc .refl, hx⟩)) (ih fun c hc' hr => hn c hc' (hr.tail hc))
  have hbr : s'.Rooted b := by
    by_cases hl : s.isLive b
    · exact habove (hs.rooted b hl) hb
    · exact .counted (h.created (reclaim?_eq_none.2 (by simpa using hl)))
  have hall : ∀ {x}, s.Rooted x → s'.Rooted x := by
    intro x hx
    induction hx with
    | @counted x rc hx =>
      by_cases hc : x ∈ C
      · exact .owned (h.owned.2 (.inl ⟨hc, rfl⟩)) hbr
      · exact .counted (h.counted hc hx)
    | @owned x q hx _ ih =>
      by_cases hc : x ∈ C
      · exact .owned (h.owned.2 (.inl ⟨hc, rfl⟩)) hbr
      · exact .owned (h.owned.2 (.inr ⟨hc, hx⟩)) ih
  refine ⟨(hs.listed.regraft h).owner_of_child, fun hd => h.children.2 ?_, hnodup, fun x hx => ?_⟩
  · exact (h.owned.1 hd).imp_right (And.imp_right hs.child_of_owner)
  · rcases owned_or_counted hx with ⟨q, hq⟩ | ⟨rc, hrc⟩
    · rcases h.owned.1 hq with ⟨-, rfl⟩ | ⟨-, h'⟩
      · exact .owned hq hbr
      · exact hall (hs.rooted x (isLive_of_reclaim? h'))
    · exact .counted hrc

/-- Adoption of a region that is not owned, by a parent outside its subtree. -/
theorem Forest.adoptRegion (hs : s.Forest) (hne : p ≠ c) (hc : ∀ o, s.reclaim? c ≠ some (.owned o))
    (hp : p ∉ s.subtree c) : (s.adoptRegion p c).Forest := by
  rw [mem_subtree] at hp
  have hcount : ∀ {q}, c ∉ s.children q := fun h => hc _ (hs.owner_of_child h)
  refine hs.regraft (C := [c]) (b := p) ⟨fun {x q} => ?_, fun {x rc} hx h => ?_, fun h => ?_, fun {q d} => ?_⟩
    (fun q => ?_) (by simpa using hp)
  · rw [reclaim?_adoptRegion, mem_singleton]
    by_cases h1 : x = c
    · simp [h1, eq_comm]
    · by_cases h2 : x = p
      · subst h2
        cases s.reclaim? x <;> simp [h1]
      · simp [h1, h2]
  · rw [reclaim?_adoptRegion, if_neg (by simpa using hx)]
    split
    · rename_i h2; simp [← h2, h]
    · exact h
  · rw [reclaim?_adoptRegion, if_neg hne, if_pos rfl, h, Option.getD_none]
  · rw [children_adoptRegion, mem_singleton]
    by_cases h1 : d = c
    · subst h1
      by_cases h2 : q = p <;> simp [h2, hcount]
    · by_cases h2 : q = p <;> simp [h1, h2]
  · rw [children_adoptRegion]
    split
    · exact List.nodup_append.2 ⟨hs.nodup p, by simp, fun a ha b hb hab =>
        hcount (q := p) (by rw [← List.mem_singleton.1 hb, ← hab]; exact ha)⟩
    · exact hs.nodup q

/-! ### Cutting regions loose

Extraction and teardown share one shape: some regions become counted and leave their owners' lists, some
regions are gone, and everything else keeps its owner, which survives with it. -/

/-- The store `s'` is `s` with some regions gone and some cut loose: a survivor that is still owned has the owner it had,
which survives, and an owner's list is what it was without the regions gone or cut loose. -/
structure CutLoose (s s' : RegionStore) : Prop where
  owned : ∀ {x p}, s'.reclaim? x = some (.owned p) → s.reclaim? x = some (.owned p) ∧ s'.isLive p
  children : ∀ {x p}, x ∈ s'.children p ↔ x ∈ s.children p ∧ s'.isLive p ∧ s'.reclaim? x = some (.owned p)
  nodup : ∀ p, (s'.children p).Sublist (s.children p)
  live : ∀ {x}, s'.isLive x → s.isLive x

theorem Forest.cutLoose (hs : s.Forest) (h : CutLoose s s') : s'.Forest := by
  refine ⟨fun hc => (h.children.1 hc).2.2, fun hc => ?_, fun p => (hs.nodup p).sublist (h.nodup p), fun x hx => ?_⟩
  · obtain ⟨ho, hp⟩ := h.owned hc
    exact h.children.2 ⟨hs.child_of_owner ho, hp, hc⟩
  · have hrooted := hs.rooted x (h.live hx)
    induction hrooted with
    | @counted x rc hc =>
      rcases owned_or_counted hx with ⟨p, hp⟩ | ⟨rc', hrc⟩
      · rw [(h.owned hp).1] at hc; simp at hc
      · exact .counted hrc
    | @owned x p ho _ ih =>
      rcases owned_or_counted hx with ⟨q, hq⟩ | ⟨rc', hrc⟩
      · obtain ⟨ho', hl⟩ := h.owned hq
        rw [ho, Option.some.injEq, Reclaim.owned.injEq] at ho'
        exact .owned hq (ho' ▸ ih (ho' ▸ hl))
      · exact .counted hrc

theorem Forest.extractOwnedRegion (hs : s.Forest) (r : RuntimeRegion) : (s.extractOwnedRegion r).Forest := by
  by_cases h : ∃ o, s.reclaim? r = some (.owned o)
  swap
  · rw [extractOwnedRegion_of_not_owned fun o ho => h ⟨o, ho⟩]; exact hs
  obtain ⟨o, ho⟩ := h
  have hlive : ∀ x, (s.extractOwnedRegion r).isLive x = s.isLive x := SameEdges.extractOwnedRegion.live
  have hrec := fun x => reclaim?_extractOwnedRegion (x := x) ho
  refine hs.cutLoose ⟨fun {x p} hx => ?_, fun {x p} => ?_, fun p => ?_, fun hx => hlive _ ▸ hx⟩
  · rw [hrec] at hx
    split at hx
    · simp at hx
    · exact ⟨hx, by rw [hlive]; exact isLive_of_mem_children (hs.child_of_owner hx)⟩
  · rw [children_extractOwnedRegion ho, hlive, hrec]
    have hp : x ∈ s.children p → s.isLive p := isLive_of_mem_children
    have hox : x ∈ s.children p → s.reclaim? x = some (.owned p) := hs.owner_of_child
    have hr : r ∈ s.children p → p = o := fun h => hs.owner_unique h (hs.child_of_owner ho)
    by_cases hxr : x = r
    · subst hxr
      by_cases hpo : p = o
      · simp [hpo]
      · simpa [hpo] using fun h => hpo (hr h)
    · by_cases hpo : p = o
      · subst hpo; simp only [if_true, mem_filter, hxr, decide_true, not_false_eq_true, ne_eq, if_false]
        tauto
      · simp only [hpo, hxr, if_false]; tauto
  · rw [children_extractOwnedRegion ho]
    split
    · rename_i h; subst h; exact filter_sublist
    · exact List.Sublist.refl _

/-! ### Reparenting -/

theorem children_reparentOwnedChildren {a b : RuntimeRegion} (hab : a ≠ b) (h : s.children a ≠ []) :
    (s.reparentOwnedChildren a b).children x =
      if x = a then [] else if x = b then s.children b ++ s.children a else s.children x := by
  have ha : s.isLive a := by
    by_contra hl
    exact h (children_of_not_live (by simpa using hl))
  rw [children, find?_reparentOwnedChildren hab h]
  by_cases h1 : x = a
  · subst h1
    obtain ⟨e, he⟩ := isLive_iff.1 ha
    simp [hab, he]
  · by_cases h2 : x = b
    · subst h2
      cases he : s.find? x <;> simp [h1, children, he, RegionEntry.fresh]
    · cases he : s.find? x <;> simp [h1, h2, children, he]

theorem reclaim?_reparentOwnedChildren {a b : RuntimeRegion} (hab : a ≠ b) (h : s.children a ≠ [])
    (hl : ∀ c ∈ s.children a, s.isLive c) : (s.reparentOwnedChildren a b).reclaim? x =
      if x ∈ s.children a then some (.owned b)
      else if x = b then some ((s.reclaim? b).getD (.counted 1)) else s.reclaim? x := by
  rw [reclaim?, find?_reparentOwnedChildren hab h]
  by_cases h1 : x ∈ s.children a
  · obtain ⟨e, he⟩ := isLive_iff.1 (hl x h1)
    by_cases h2 : x = b
    · subst h2; simp [h1]
    · simp [h1, h2, he]
  · by_cases h2 : x = b
    · subst h2; cases he : s.find? x <;> simp [h1, reclaim?, he, RegionEntry.fresh]
    · cases he : s.find? x <;> simp [h1, h2, reclaim?, he]

theorem Listed.reparent {a b : RuntimeRegion} (hs : s.Listed) (hab : a ≠ b) (hnil : s.children a ≠ []) :
    Regrafted s (s.reparentOwnedChildren a b) (s.children a) b := by
  have hrec := fun x => reclaim?_reparentOwnedChildren (x := x) hab hnil fun c hc =>
    isLive_of_reclaim? (hs.owner_of_child hc)
  refine ⟨fun {x q} => ?_, fun {x rc} hx h => ?_, fun h => ?_, fun {q d} => ?_⟩
  · rw [hrec]
    by_cases h1 : x ∈ s.children a
    · simp [h1, eq_comm]
    · by_cases h2 : x = b
      · subst h2
        cases s.reclaim? x <;> simp [h1]
      · simp [h1, h2]
  · rw [hrec, if_neg hx]
    split
    · rename_i h2; simp [← h2, h]
    · exact h
  · rw [hrec, if_neg fun hb => by simp [hs.owner_of_child hb] at h, if_pos rfl, h, Option.getD_none]
  · rw [children_reparentOwnedChildren hab hnil]
    have hone : d ∈ s.children a → d ∈ s.children q → a = q := hs.owner_unique
    by_cases h1 : q = a
    · subst h1
      simp [hab]
    · by_cases h2 : q = b
      · simp [h2]
        tauto
      · simp [h1, h2]
        tauto

theorem Forest.reparentOwnedChildren {a b : RuntimeRegion} (hs : s.Forest) (hb : a = b ∨ b ∉ s.subtree a) :
    (s.reparentOwnedChildren a b).Forest := by
  by_cases hnil : a = b ∨ s.children a = []
  · rw [reparentOwnedChildren_of_nil hnil]; exact hs
  rw [not_or] at hnil
  obtain ⟨hab, hnil⟩ : a ≠ b ∧ s.children a ≠ [] := hnil
  replace hb := hb.resolve_left hab
  rw [mem_subtree] at hb
  refine hs.regraft (hs.listed.reparent hab hnil) (fun q => ?_) fun c hc hr => hb (.head hc hr)
  rw [children_reparentOwnedChildren hab hnil]
  split
  · exact nodup_nil
  · split
    · exact List.nodup_append.2 ⟨hs.nodup b, hs.nodup a, fun x hx y hy hxy => hab (hs.owner_unique hy (hxy ▸ hx))⟩
    · exact hs.nodup q

end Elle.RegionStore

import Elle.Region.Session

/-! # Counts cover the edges from outside

`Sound` is the invariant of a session: every recorded edge leads to a live region, at the generation stamped when it
was recorded, and the count of a counted region covers the references of the client, the releases a running cascade
still owes it, and the edges from outside its own subtree.  Edges from inside are not covered: a rescue and an
extraction rebuild a count without them.
-/

namespace Elle

open RegionStore List

/-- The invariant of a store, the releases still owed, the references of the client and the stamps of the edges. -/
structure Sound (s : RegionStore) (pending : List RuntimeRegion) (held : RuntimeRegion → Nat)
    (stamps : RuntimeRegion → RuntimeRegion → List Nat) : Prop where
  mirror : s.Mirror
  forest : s.Forest
  fibers : s.fibers = []
  target : ∀ {x y}, 0 < s.out x y → s.isLive y
  stamped : ∀ x y, (stamps x y).length = s.out x y
  current : ∀ x y, ∀ g ∈ stamps x y, g = s.generationRaw y
  held_counted : ∀ {r}, 0 < held r → ∃ rc, s.reclaim? r = some (.counted rc)
  cover : ∀ {r rc}, s.reclaim? r = some (.counted rc) →
    held r + pending.count r + s.edgesOutside r (s.subtree r) ≤ rc

namespace Sound

variable {s s' : RegionStore} {pending pending' : List RuntimeRegion} {held held' : RuntimeRegion → Nat}
  {stamps : RuntimeRegion → RuntimeRegion → List Nat} {r x y src dst p c : RuntimeRegion} {ord : IterOrder}

theorem new : Sound .new [] (fun _ => 0) fun _ _ => [] := by
  refine ⟨.of_empty fun _ => rfl, .of_empty fun _ => rfl, rfl, fun h => ?_, fun _ _ => rfl, by simp, by simp, fun h => ?_⟩
  · simp [out] at h
  · simp [reclaim?] at h

section

variable (h : Sound s pending held stamps)
include h

/-- A step that leaves the edges and the ids alone, and after which the subtree of a counted region has grown, or its
count covers the edges from outside in another way. -/
theorem relink (he : SameEdges s s') (hf : s'.Forest) (hfibers : s'.fibers = s.fibers)
    (hgen : ∀ r, s'.generationRaw r = s.generationRaw r)
    (hheld : ∀ {r}, 0 < held' r → ∃ rc, s'.reclaim? r = some (.counted rc))
    (hcover : ∀ {r rc}, s'.reclaim? r = some (.counted rc) →
      held' r + pending'.count r + s'.edgesOutside r (s'.subtree r) ≤ rc) : Sound s' pending' held' stamps :=
  ⟨h.mirror.congr he, hf, hfibers.trans h.fibers, fun ho => by rw [he.out] at ho; rw [he.live]; exact h.target ho,
    fun x y => by rw [he.out, h.stamped], fun x y g hg => by rw [hgen, h.current x y g hg], hheld, hcover⟩

theorem same (he : SameEdges s s') (hf : SameForest s s') (hi : SameIds s s')
    (hheld : ∀ {r}, 0 < held' r → ∃ rc, s'.reclaim? r = some (.counted rc))
    (hcover : ∀ {r rc'}, s'.reclaim? r = some (.counted rc') → ∃ rc, s.reclaim? r = some (.counted rc) ∧
      held' r + pending'.count r + rc ≤ held r + pending.count r + rc') : Sound s' pending' held' stamps := by
  refine h.relink he (h.forest.congr hf) hi.fibers hi.gen hheld fun {r rc'} hr => ?_
  obtain ⟨rc, hrc, hle⟩ := hcover hr
  have := h.cover hrc
  rw [subtree_congr hf.children, edgesOutside_congr fun k => he.out k r]
  omega

end

/-! ### Creating regions and taking references -/

theorem no_edge_into_dead (h : Sound s pending held stamps) (hr : s.isLive r = false) (k : RuntimeRegion) :
    s.out k r = 0 := by
  by_contra hne
  rw [h.target (Nat.pos_of_ne_zero hne)] at hr
  simp at hr

theorem held_of_dead (h : Sound s pending held stamps) (hr : ∀ rc, s.reclaim? r ≠ some (.counted rc)) : held r = 0 := by
  by_contra hne
  obtain ⟨rc, hrc⟩ := h.held_counted (Nat.pos_of_ne_zero hne)
  exact hr rc hrc

theorem ensure (h : Sound s [] held stamps) (r : RuntimeRegion) :
    Sound (s.ensure r) [] (Session.heldOnEnsure s held r) stamps := by
  by_cases hl : s.isLive r
  · have hsame : ∀ x, (s.ensure r).reclaim? x = s.reclaim? x := fun x => by
      rw [reclaim?_ensure]
      obtain ⟨e, he⟩ := isLive_iff.1 hl
      by_cases hx : x = r <;> simp [hx, reclaim?_of_find? he]
    rw [Session.heldOnEnsure, if_pos hl]
    exact h.same (.ensure hl) .ensure .ensure (fun hr => by rw [hsame]; exact h.held_counted hr)
      fun {x rc} hx => ⟨rc, hsame x ▸ hx, Nat.le_refl _⟩
  · have hdead : s.isLive r = false := by simpa using hl
    rw [Session.heldOnEnsure, if_neg hl]
    refine ⟨h.mirror.ensure (.inr (h.no_edge_into_dead hdead)), h.forest.congr .ensure,
      SameIds.ensure.fibers.trans h.fibers, fun ho => ?_, fun x y => by rw [out_ensure, h.stamped],
      fun x y g hg => by rw [SameIds.ensure.gen, h.current x y g hg], fun {x} hx => ?_, fun {x rc} hx => ?_⟩
    · rw [out_ensure] at ho
      rw [isLive_ensure, h.target ho, Bool.or_true]
    · rw [reclaim?_ensure]
      by_cases hxr : x = r
      · exact ⟨1, by simp [hxr, reclaim?_eq_none.2 hdead]⟩
      · rw [Function.update_of_ne hxr] at hx
        rw [if_neg hxr]
        exact h.held_counted hx
    · rw [subtree_congr SameForest.ensure.children, edgesOutside_congr fun k => out_ensure]
      rw [reclaim?_ensure] at hx
      by_cases hxr : x = r
      · subst hxr
        have hzero : s.edgesOutside x (s.subtree x) = 0 := Finset.sum_eq_zero fun k _ => h.no_edge_into_dead hdead k
        simp only [if_true, reclaim?_eq_none.2 hdead, Option.getD_none, Option.some.injEq, Reclaim.counted.injEq] at hx
        simp [hzero, hx]
      · rw [if_neg hxr] at hx
        rw [Function.update_of_ne hxr]
        exact h.cover hx

theorem reclaim?_incref (hl : s.isLive r) :
    (s.incref r).reclaim? x = if x = r then (s.reclaim? r).map Reclaim.incref else s.reclaim? x := by
  obtain ⟨e, he⟩ := isLive_iff.1 hl
  simp only [reclaim?, find?_incref]
  by_cases hx : x = r
  · subst hx; simp [he, RegionEntry.incref_reclaim]
  · simp [hx]

theorem incref (h : Sound s [] held stamps) (hl : s.isLive r) (hother : ∀ x, x ≠ r → held' x = held x)
    (hr : held' r ≤ held r + 1) (ho : ∀ o, s.reclaim? r = some (.owned o) → held' r = held r) :
    Sound (s.incref r) [] held' stamps := by
  refine h.same (.incref hl) SameForest.frame.incref SameIds.frame.incref (fun {x} hx => ?_) fun {x rc'} hx => ?_
  · rw [reclaim?_incref hl]
    by_cases hxr : x = r
    · subst hxr
      rcases owned_or_counted hl with ⟨o, hown⟩ | ⟨rc, hrc⟩
      · rw [ho o hown, h.held_of_dead fun rc hrc => by simp [hown] at hrc] at hx
        omega
      · exact ⟨rc + 1, by simp [hrc, Reclaim.incref]⟩
    · rw [if_neg hxr]
      exact h.held_counted (hother x hxr ▸ hx)
  · rw [reclaim?_incref hl] at hx
    by_cases hxr : x = r
    · subst hxr
      rcases owned_or_counted hl with ⟨o, hown⟩ | ⟨rc, hrc⟩
      · simp [hown, Reclaim.incref] at hx
      · simp only [if_true, hrc, Option.map_some, Reclaim.incref, Option.some.injEq, Reclaim.counted.injEq] at hx
        exact ⟨rc, hrc, by omega⟩
    · rw [if_neg hxr] at hx
      exact ⟨rc', hx, by rw [hother x hxr]⟩

/-! ### Container stores -/

theorem recordOutgoing_of_live (hne : src ≠ dst) (hl : s.isLive src) :
    s.recordOutgoing src.get dst.get = s.addEdge src dst := by
  have h1 := dst.two_le
  have h2 : dst.get ≠ src.get := fun h => hne (RuntimeRegion.ext_get h).symm
  rw [recordOutgoing, if_neg (by omega)]
  simp [hl]

theorem edgesOutside_addEdge (hl : s.isLive src) {S : Finset RuntimeRegion} :
    (s.addEdge src dst).edgesOutside r S ≤ s.edgesOutside r S + if r = dst then 1 else 0 := by
  have hlive : (s.addEdge src dst).live = s.live := by
    ext k; rw [mem_live, mem_live, isLive_addEdge]
  rw [edgesOutside, edgesOutside, hlive, Finset.sum_congr rfl fun k _ => out_addEdge hl, Finset.sum_add_distrib]
  refine Nat.add_le_add_left ?_ _
  by_cases hr : r = dst
  · simp only [hr, and_true, if_true, Finset.sum_ite_eq']
    split <;> omega
  · simp [hr]

theorem update_update_apply {α : Type*} {f : RuntimeRegion → RuntimeRegion → α} {v : α} :
    Function.update f src (Function.update (f src) dst v) x y = if x = src ∧ y = dst then v else f x y := by
  by_cases hx : x = src
  · subst hx; by_cases hy : y = dst <;> simp [hy]
  · simp [hx]

theorem addEdge (h : Sound s [] held stamps) (hne : src ≠ dst) (hsrc : s.isLive src) (hdst : s.isLive dst)
    (hroom : ∀ rc, s.reclaim? dst = some (.counted rc) → held dst + s.edgesOutside dst (s.subtree dst) + 1 ≤ rc) :
    Sound (s.addEdge src dst) [] held (Session.stamp s stamps src dst) := by
  have hout := fun x y => @out_addEdge s x y src dst hsrc
  have hrec : ∀ x, (s.addEdge src dst).reclaim? x = s.reclaim? x := fun x => by
    rw [RegionStore.addEdge, reclaim?_kept (by intro; rfl), reclaim?_kept (by intro; rfl)]
  refine ⟨h.mirror.addEdge hne hsrc, h.forest.congr SameForest.frame.addEdge, SameIds.frame.addEdge.fibers.trans h.fibers, fun {x y} ho => ?_,
    fun x y => ?_, fun x y g hg => ?_, fun hx => by rw [hrec]; exact h.held_counted hx, fun {x rc} hx => ?_⟩
  · rw [isLive_addEdge]
    rw [hout] at ho
    by_cases hxy : x = src ∧ y = dst
    · rw [hxy.2]; exact hdst
    · rw [if_neg hxy] at ho; exact h.target ho
  · rw [hout, Session.stamp, update_update_apply]
    split
    · rename_i hxy
      rw [hxy.1, hxy.2, length_cons, h.stamped]
    · exact h.stamped x y
  · rw [SameIds.frame.addEdge.gen]
    rw [Session.stamp, update_update_apply] at hg
    split at hg
    · rename_i hxy
      rw [hxy.2]
      exact (mem_cons.1 hg).elim id (h.current src dst g)
    · exact h.current x y g hg
  · rw [hrec] at hx
    rw [subtree_congr SameForest.frame.addEdge.children]
    have hle := @edgesOutside_addEdge s x src dst hsrc (s.subtree x)
    by_cases hxd : x = dst
    · subst hxd
      have := hroom rc hx
      simp only [if_true] at hle
      simp only [count_nil]
      omega
    · have := h.cover hx
      simp only [hxd, if_false] at hle
      omega

theorem store (h : Sound s [] held stamps) (hne : src ≠ dst) (hsrc : s.isLive src) (hdst : s.isLive dst) :
    Sound ((s.incref dst).recordOutgoing src.get dst.get) [] held (Session.stamp (s.incref dst) stamps src dst) := by
  have hlive : ∀ x, (s.incref dst).isLive x = s.isLive x := (SameEdges.incref hdst).live
  have hi : Sound (s.incref dst) [] held stamps := h.incref hdst (fun _ _ => rfl) (by omega) fun _ _ => rfl
  rw [recordOutgoing_of_live hne (by rw [hlive]; exact hsrc)]
  refine hi.addEdge hne (by rw [hlive]; exact hsrc) (by rw [hlive]; exact hdst) fun rc hrc => ?_
  rw [subtree_congr SameForest.frame.incref.children, edgesOutside_congr fun k => (SameEdges.incref hdst).out k dst]
  rw [reclaim?_incref hdst, if_pos rfl] at hrc
  rcases owned_or_counted hdst with ⟨o, hown⟩ | ⟨rc', hrc'⟩
  · simp [hown, Reclaim.incref] at hrc
  · have := h.cover hrc'
    simp only [hrc', Option.map_some, Reclaim.incref, Option.some.injEq, Reclaim.counted.injEq] at hrc
    omega

theorem storeAll (s₀ : RegionStore) (refs : List RuntimeRegion) (hr : s.isLive r)
    (hgen : ∀ x, s.generationRaw x = s₀.generationRaw x) (hrefs : ∀ d ∈ refs, s.isLive d ∧ r ≠ d)
    (h : Sound s [] held stamps) :
    Sound (refs.foldl (fun s d => (s.incref d).recordOutgoing r.get d.get) s) [] held
      (refs.foldl (fun st d => Session.stamp s₀ st r d) stamps) := by
  induction refs generalizing s stamps with
  | nil => exact h
  | cons d refs ih =>
    rw [forall_mem_cons] at hrefs
    obtain ⟨⟨hd, hne⟩, hrefs⟩ := hrefs
    have hlive : ∀ x, ((s.incref d).recordOutgoing r.get d.get).isLive x = s.isLive x := fun x => by
      rw [isLive_recordOutgoing, (SameEdges.incref hd).live]
    have hstep := h.store hne hr hd
    have hstamp : Session.stamp (s.incref d) stamps r d = Session.stamp s₀ stamps r d := by
      rw [Session.stamp, Session.stamp, SameIds.frame.incref.gen, hgen]
    rw [hstamp] at hstep
    refine ih (by rw [hlive]; exact hr) (fun x => ?_) (fun d' hd' => by rw [hlive]; exact hrefs d' hd') hstep
    rw [SameIds.frame.recordOutgoing.gen, SameIds.frame.incref.gen, hgen]

/-! ### Taking edges out and giving references back -/

theorem unrecordOutgoing_eq (hm : s.Mirror) (src dst : RuntimeRegion) :
    (0 < s.out src dst ∧ src ≠ dst ∧ s.unrecordOutgoing src.get dst.get = s.dropEdge src dst) ∨
      (s.out src dst = 0 ∧ s.unrecordOutgoing src.get dst.get = s) := by
  rcases Nat.eq_zero_or_pos (s.out src dst) with h0 | hpos
  · refine .inr ⟨h0, ?_⟩
    obtain h | ⟨a, b, ha, hb, -, hab, -⟩ := unrecordOutgoing_cases s src.get dst.get
    · exact h
    · rw [← RuntimeRegion.ext_get ha, ← RuntimeRegion.ext_get hb, h0] at hab
      omega
  · have hne : src ≠ dst := fun h => by rw [h, hm.irrefl] at hpos; omega
    have h1 := dst.two_le
    have h2 : dst.get ≠ src.get := fun h => hne (RuntimeRegion.ext_get h).symm
    refine .inl ⟨hpos, hne, ?_⟩
    rw [unrecordOutgoing, if_neg (by omega)]
    simp [hpos]

theorem edgesOutside_dropEdge (hpos : 0 < s.out src dst) {S : Finset RuntimeRegion} (hS : src ∉ S) :
    (s.dropEdge src dst).edgesOutside dst S + 1 = s.edgesOutside dst S := by
  have hmem : src ∈ s.live \ S := Finset.mem_sdiff.2 ⟨mem_live.2 (isLive_of_out hpos), hS⟩
  have hlive : (s.dropEdge src dst).live = s.live := by
    ext k; rw [mem_live, mem_live, isLive_dropEdge]
  rw [edgesOutside, edgesOutside, hlive, ← Finset.add_sum_erase _ _ hmem, ← Finset.add_sum_erase _ _ hmem]
  have hrest : ∀ k ∈ (s.live \ S).erase src, (s.dropEdge src dst).out k dst = s.out k dst := fun k hk => by
    rw [out_dropEdge, if_neg fun h => Finset.ne_of_mem_erase hk h.1, Nat.sub_zero]
  rw [Finset.sum_congr rfl hrest, out_dropEdge, if_pos ⟨rfl, rfl⟩]
  omega

theorem reclaim?_unrecordOutgoing {a b : Nat} : (s.unrecordOutgoing a b).reclaim? x = s.reclaim? x := by
  obtain heq | ⟨src, dst, -, -, hne, -, heq⟩ := unrecordOutgoing_cases s a b <;> rw [heq]
  rw [dropEdge, unmirrorIncoming, reclaim?_kept (by intro; rfl), reclaim?_kept (by intro; rfl)]

theorem unrecord (h : Sound s [] held stamps) (src dst : RuntimeRegion)
    (hroom : ∀ {r rc}, s.reclaim? r = some (.counted rc) →
      held r + pending.count r + (s.unrecordOutgoing src.get dst.get).edgesOutside r (s.subtree r) ≤ rc) :
    Sound (s.unrecordOutgoing src.get dst.get) pending held (Session.unstamp stamps src dst) := by
  have hrec : ∀ x, (s.unrecordOutgoing src.get dst.get).reclaim? x = s.reclaim? x := fun x => reclaim?_unrecordOutgoing
  have hout : ∀ x y, (s.unrecordOutgoing src.get dst.get).out x y =
      s.out x y - if x = src ∧ y = dst then 1 else 0 := fun x y => by
    rcases unrecordOutgoing_eq h.mirror src dst with ⟨-, hne, heq⟩ | ⟨h0, heq⟩ <;> rw [heq]
    · exact out_dropEdge
    · by_cases hxy : x = src ∧ y = dst
      · rw [hxy.1, hxy.2, h0]; simp
      · simp [hxy]
  refine ⟨h.mirror.unrecordOutgoing _ _, h.forest.congr SameForest.frame.unrecordOutgoing, SameIds.frame.unrecordOutgoing.fibers.trans h.fibers,
    fun {x y} ho => ?_, fun x y => ?_, fun x y g hg => ?_, fun hx => by rw [hrec]; exact h.held_counted hx,
    fun {x rc} hx => ?_⟩
  · rw [isLive_unrecordOutgoing]
    rw [hout] at ho
    exact h.target (ho.trans_le (Nat.sub_le _ _))
  · rw [Session.unstamp, update_update_apply, hout]
    by_cases hxy : x = src ∧ y = dst
    · obtain ⟨rfl, rfl⟩ := hxy
      simp [h.stamped]
    · simp [hxy, h.stamped]
  · rw [SameIds.frame.unrecordOutgoing.gen]
    rw [Session.unstamp, update_update_apply] at hg
    by_cases hxy : x = src ∧ y = dst
    · obtain ⟨rfl, rfl⟩ := hxy
      rw [if_pos ⟨rfl, rfl⟩] at hg
      exact h.current x y g (mem_of_mem_tail hg)
    · rw [if_neg hxy] at hg
      exact h.current x y g hg
  · rw [subtree_congr SameForest.frame.unrecordOutgoing.children]
    exact hroom (hrec x ▸ hx)

theorem release {t : RuntimeRegion} {rest : List RuntimeRegion} {fc : Option RuntimeRegion}
    (h : Sound s (t :: rest) held stamps) : Sound (s.decrefReachesZero t fc).1 rest held stamps := by
  have hrec : ∀ x rc', (s.decrefReachesZero t fc).1.reclaim? x = some (.counted rc') ↔
      ∃ rc, s.reclaim? x = some (.counted rc) ∧ rc' = if x = t then rc - 1 else rc := fun x rc' => by
    simp only [reclaim?, find?_decrefReachesZero]
    by_cases hx : x = t
    · subst hx
      cases s.find? x with
      | none => simp
      | some e =>
        simp only [if_true, Option.map_some, RegionEntry.decref_reclaim]
        cases e.reclaim <;> simp [Reclaim.decref, eq_comm]
    · simp [hx]
  refine h.same .decrefReachesZero .decrefReachesZero .decrefReachesZero (fun {x} hx => ?_) fun {x rc'} hx => ?_
  · obtain ⟨rc, hrc⟩ := h.held_counted hx
    exact ⟨_, (hrec x _).2 ⟨rc, hrc, rfl⟩⟩
  · obtain ⟨rc, hrc, rfl⟩ := (hrec x rc').1 hx
    have hcov := h.cover hrc
    refine ⟨rc, hrc, ?_⟩
    by_cases hxt : x = t
    · subst hxt
      rw [count_cons_self] at hcov ⊢
      rw [if_pos rfl]
      omega
    · rw [count_cons_of_ne (Ne.symm hxt), if_neg hxt]

/-! ### Ownership -/

section

variable (h : Sound s [] held stamps)
include h

theorem adopt {rc : Nat} (hne : p ≠ c) (hp : s.isLive p)
    (hc : s.reclaim? c = some (.counted rc)) (hpc : p ∉ s.subtree c) :
    Sound (s.adoptRegion p c) [] (Function.update held c 0) stamps := by
  have hcl : s.isLive c := isLive_of_reclaim? hc
  have he : SameEdges s (s.adoptRegion p c) :=
    ((SameEdges.ensure hp).trans (.ensure (by rw [isLive_ensure, hcl, Bool.or_true]))).trans .adoptRegion
  have hrec : ∀ x, x ≠ c → (s.adoptRegion p c).reclaim? x = s.reclaim? x := fun x hx => by
    rw [reclaim?_adoptRegion, if_neg hx]
    by_cases hxp : x = p
    · subst hxp
      obtain ⟨e, he⟩ := isLive_iff.1 hp
      rw [if_pos rfl, reclaim?_of_find? he, Option.getD_some]
    · rw [if_neg hxp]
  have hsub : ∀ r, ∀ k ∈ s.subtree r, k ∈ (s.adoptRegion p c).subtree r := subtree_mono fun a b hb => by
    rw [children_adoptRegion]
    split
    · rename_i hap; subst hap; exact mem_append_left _ hb
    · exact hb
  refine h.relink he (h.forest.adoptRegion hne (fun o ho => by simp [hc] at ho) hpc) SameIds.adoptRegion.fibers
    SameIds.adoptRegion.gen (fun {x} hx => ?_) fun {x rc} hx => ?_
  · have hxc : x ≠ c := fun hxc => by subst hxc; simp at hx
    rw [Function.update_of_ne hxc] at hx
    rw [hrec x hxc]
    exact h.held_counted hx
  · have hxc : x ≠ c := fun hxc => by
      subst hxc
      rw [reclaim?_adoptRegion, if_pos rfl] at hx
      simp at hx
    have hcov := h.cover (hrec x hxc ▸ hx)
    have hle : (s.adoptRegion p c).edgesOutside x ((s.adoptRegion p c).subtree x) ≤ s.edgesOutside x (s.subtree x) :=
      he.edgesOutside_le fun k hk _ => hsub x k hk
    rw [Function.update_of_ne hxc]
    omega

theorem extract {o : RuntimeRegion} (hc : s.reclaim? c = some (.owned o))
    (hback : ∀ a rc, s.reclaim? a = some (.counted rc) → c ∈ s.subtree a →
      held a + s.edgesOutside a ∅ ≤ rc ∨ ∀ k ∈ s.subtree c, s.out k a = 0) :
    Sound (s.extractOwnedRegion c) [] (Function.update held c 1) stamps := by
  have he : SameEdges s (s.extractOwnedRegion c) := .extractOwnedRegion
  have hrec := fun x => reclaim?_extractOwnedRegion (x := x) hc
  -- the only link that is gone is the one to `c`
  have hlink : ∀ {a b}, b ∈ s.children a → b ∈ (s.extractOwnedRegion c).children a ∨ b = c := fun {a b} hb => by
    rw [children_extractOwnedRegion hc]
    by_cases hbc : b = c
    · exact .inr hbc
    · left
      split
      · rename_i hao; subst hao; exact List.mem_filter.2 ⟨hb, by simpa using hbc⟩
      · exact hb
  have hreach : ∀ {a k}, s.ownership.Reach a k → (s.extractOwnedRegion c).ownership.Reach a k ∨
      s.ownership.Reach a c ∧ s.ownership.Reach c k ∧ (s.extractOwnedRegion c).ownership.Reach c k := fun {a k} hr => by
    induction hr with
    | refl => exact .inl .refl
    | @tail y z hay hyz ih =>
      rcases hlink hyz with hz | rfl
      · exact ih.imp (·.tail hz) fun ⟨hac, hcy, hcy'⟩ => ⟨hac, hcy.tail hyz, hcy'.tail hz⟩
      · exact .inr ⟨hay.tail hyz, .refl, .refl⟩
  refine h.relink he (h.forest.extractOwnedRegion c) SameIds.extractOwnedRegion.fibers SameIds.extractOwnedRegion.gen
    (fun {x} hx => ?_) fun {x rc} hx => ?_
  · rw [hrec]
    by_cases hxc : x = c
    · exact ⟨_, if_pos hxc⟩
    · rw [Function.update_of_ne hxc] at hx
      rw [if_neg hxc]
      exact h.held_counted hx
  · rw [hrec] at hx
    rw [count_nil, Nat.add_zero]
    by_cases hxc : x = c
    · subst hxc
      rw [if_pos rfl, Option.some.injEq, Reclaim.counted.injEq, h.mirror.externalIncoming (isLive_of_reclaim? hc)] at hx
      have hle : (s.extractOwnedRegion x).edgesOutside x ((s.extractOwnedRegion x).subtree x) ≤
          s.edgesOutside x (s.subtree x) :=
        he.edgesOutside_le fun k hk _ => mem_subtree.2 ((hreach (mem_subtree.1 hk)).elim id (·.2.2))
      rw [Function.update_self]
      omega
    · rw [if_neg hxc] at hx
      rw [Function.update_of_ne hxc]
      have hcov := h.cover hx
      by_cases hmem : c ∈ s.subtree x
      · rcases hback x rc hx hmem with hall | hnone
        · have hle : (s.extractOwnedRegion c).edgesOutside x ((s.extractOwnedRegion c).subtree x) ≤ s.edgesOutside x ∅ :=
            he.edgesOutside_le fun k hk => by simp at hk
          omega
        · refine (Nat.add_le_add_left (he.edgesOutside_le (S := s.subtree x) fun k hk hpos => ?_) _).trans hcov
          rcases hreach (mem_subtree.1 hk) with hr | ⟨-, hck, -⟩
          · exact mem_subtree.2 hr
          · rw [hnone k (mem_subtree.2 hck)] at hpos
            omega
      · refine (Nat.add_le_add_left (he.edgesOutside_le (S := s.subtree x) fun k hk _ => ?_) _).trans hcov
        rcases hreach (mem_subtree.1 hk) with hr | ⟨hac, -⟩
        · exact mem_subtree.2 hr
        · exact absurd (mem_subtree.2 hac) hmem

theorem reparent {a b : RuntimeRegion} (hab : a ≠ b) (hne : s.children a ≠ [])
    (ha : Session.OwnerNode s a) (hb : Session.OwnerNode s b) :
    Sound (s.reparentOwnedChildren a b) [] (Session.heldOnEnsure s held b) stamps := by
  have hlive : ∀ c ∈ s.children a, s.isLive c := fun c => h.forest.isLive_child
  have he : SameEdges (s.ensure b) (s.reparentOwnedChildren a b) := .reparentOwnedChildren hab hne
  have hba : b ∉ s.subtree a := fun hmem => by
    rcases Relation.ReflTransGen.cases_tail (mem_subtree.1 hmem) with h' | ⟨y, -, hy⟩
    · exact hab h'.symm
    · exact hb.1 y (h.forest.owner_of_child hy)
  have hrec : ∀ {x rc}, (s.reparentOwnedChildren a b).reclaim? x = some (.counted rc) ↔
      (s.ensure b).reclaim? x = some (.counted rc) := fun {x rc} => by
    rw [reclaim?_reparentOwnedChildren hab hne hlive]
    by_cases h1 : x ∈ s.children a
    · have howned := (SameForest.ensure (r := b)).owned x a |>.2 (h.forest.owner_of_child h1)
      rw [howned, if_pos h1]
      simp
    · rw [if_neg h1]
      by_cases h2 : x = b
      · subst h2
        simp only [reclaim?, find?_ensure, if_true]
        cases s.find? x <;> simp [RegionEntry.fresh]
      · simp only [reclaim?, find?_ensure, h2, if_false]
  -- only `a` loses children, and it is below no other region
  have hsub : ∀ {x k}, x ≠ a → s.ownership.Reach x k → (s.reparentOwnedChildren a b).ownership.Reach x k := by
    intro x k hxa hr
    induction hr with
    | refl => exact .refl
    | @tail y z hxy hyz ih =>
      have hya : y ≠ a := fun hya => by
        subst hya
        rcases Relation.ReflTransGen.cases_tail hxy with h' | ⟨w, -, hw⟩
        · exact hxa h'.symm
        · exact ha.1 w (h.forest.owner_of_child hw)
      refine ih.tail ?_
      change z ∈ (s.reparentOwnedChildren a b).children y
      rw [children_reparentOwnedChildren hab hne, if_neg hya]
      split
      · rename_i hyb; subst hyb; exact mem_append_left _ hyz
      · exact hyz
  have h1 := h.ensure b
  have hi : SameIds s (s.reparentOwnedChildren a b) := .reparentOwnedChildren
  refine h1.relink he (h.forest.reparentOwnedChildren (.inr hba)) (hi.fibers.trans SameIds.ensure.fibers.symm)
    (fun r => (hi.gen r).trans (SameIds.ensure.gen r).symm) (fun hx => (h1.held_counted hx).imp fun _ => hrec.2)
    fun {x rc} hx => ?_
  have hcov := h1.cover (hrec.1 hx)
  refine (Nat.add_le_add_left (he.edgesOutside_le fun k hk hpos => ?_) _).trans hcov
  rw [subtree_congr SameForest.ensure.children] at hk
  by_cases hxa : x = a
  · rw [hxa, out_ensure, ha.2 k] at hpos
    omega
  · exact mem_subtree.2 (hsub hxa (mem_subtree.1 hk))

/-! ### A teardown -/

/-- A teardown of a region that no one holds, whose survivors hold no edge to it. -/
theorem teardown (ord : IterOrder) (hr : s.reclaim? r = none ∨ s.reclaim? r = some (.counted 0))
    (hback : ∀ m, s.Spared r m → s.out m r = 0) :
    Sound (s.teardownSet ord [r]).1 (s.teardownSet ord [r]).2.2 held
      fun x y => if (s.teardownSet ord [r]).1.isLive x then stamps x y else [] := by
  have hu : s.Unowned [r] := fun x hx o ho => by
    rw [List.mem_singleton.1 hx] at ho
    rcases hr with hr | hr <;> simp [hr] at ho
  have hinv := rescueInv h.forest hu
  have howned : ∀ {x}, x ∈ (s.rescued [r]).map Prod.fst → ∃ o, s.reclaim? x = some (.owned o) := fun {x} hx => by
    obtain ⟨⟨x, o⟩, hxo, rfl⟩ := List.mem_map.1 hx
    exact ⟨o, h.forest.owner_of_child (hinv.cut hxo).1⟩
  have hzero : s.isLive r → s.reclaim? r = some (.counted 0) := fun hl => hr.resolve_left fun hn => by
    rw [reclaim?_eq_none.1 hn] at hl
    simp at hl
  -- a survivor that points at the root is spared inside its subtree, for nothing outside points at it
  have hroot : ∀ {x}, x ∉ s.doomed [r] → r ∈ s.doomed [r] → s.out x r = 0 := fun {x} hx hrd => by
    by_contra hne
    have hl := isLive_of_mem_doomed hrd
    have hcov := h.cover (hzero hl)
    by_cases hmem : x ∈ s.subtree r
    · exact hne (hback x (spared_of_survives h.mirror h.forest hu hl hmem hx))
    · have hle : s.out x r ≤ s.edgesOutside r (s.subtree r) :=
        Finset.single_le_sum (f := fun k => s.out k r) (fun _ _ => Nat.zero_le _)
          (Finset.mem_sdiff.2 ⟨mem_live.2 (isLive_of_out (Nat.pos_of_ne_zero hne)), hmem⟩)
      omega
  have htarget : ∀ {x y}, x ∉ s.doomed [r] → 0 < s.out x y → y ∉ s.doomed [r] := fun {x y} hx ho hy => by
    have hyr := List.mem_singleton.1 (root_of_out_doomed h.mirror hx hy ho)
    subst hyr
    rw [hroot hx hy] at ho
    omega
  have hlive : ∀ {x}, (s.teardownSet ord [r]).1.isLive x ↔ s.isLive x ∧ x ∉ s.doomed [r] := isLive_teardownSet
  have hout : ∀ x y, (s.teardownSet ord [r]).1.out x y = if x ∈ s.doomed [r] then 0 else s.out x y :=
    fun _ _ => out_teardownSet
  have hkept : ∀ {x rc}, s.reclaim? x = some (.counted rc) → x ∉ s.doomed [r] →
      (s.teardownSet ord [r]).1.reclaim? x = some (.counted rc) := fun {x rc} hx hd => by
    rw [reclaim?_teardownSet, if_neg hd, if_neg fun hres => ?_, hx]
    obtain ⟨o, ho⟩ := howned hres
    simp [ho] at hx
  refine ⟨h.mirror.teardownSet, h.forest.teardownSet hu, fibers_teardownSet h.fibers, fun {x y} ho => ?_, fun x y => ?_,
    fun x y g hg => ?_, fun {x} hx => ?_, fun {x rc} hx => ?_⟩
  · rw [hout] at ho
    split at ho
    · omega
    · rename_i hx
      exact hlive.2 ⟨h.target ho, htarget hx ho⟩
  · rw [hout]
    by_cases hx : (s.teardownSet ord [r]).1.isLive x
    · rw [if_pos hx, if_neg (hlive.1 hx).2, h.stamped]
    · rw [if_neg hx, length_nil]
      split
      · rfl
      · rename_i hd
        by_contra hne
        exact hx (hlive.2 ⟨isLive_of_out (Nat.pos_of_ne_zero fun h0 => hne h0.symm), hd⟩)
  · split at hg
    · rename_i hx
      have hpos : 0 < s.out x y := by rw [← h.stamped]; exact length_pos_of_mem hg
      have hy := htarget (hlive.1 hx).2 hpos
      rw [(teardownSet_ids s ord [r]).2.2.2 y (.inr hy), if_neg hy]
      exact h.current x y g hg
    · simp at hg
  · obtain ⟨rc, hrc⟩ := h.held_counted hx
    refine ⟨rc, hkept hrc fun hd => ?_⟩
    have hcov := h.cover hrc
    -- the only counted region of the set is the root, and nothing holds it
    obtain ⟨q, hq, hl, hreach⟩ := (h.forest.mem_collect hu).1 (doomed_subset s [r] hd)
    rw [List.mem_singleton.1 hq] at hl hreach
    obtain rfl := h.forest.eq_of_reach_counted hrc hreach
    rw [hzero hl, Option.some.injEq, Reclaim.counted.injEq] at hrc
    omega
  · have hl : (s.teardownSet ord [r]).1.isLive x := isLive_of_reclaim? hx
    obtain ⟨hlx, hd⟩ := hlive.1 hl
    rw [reclaim?_teardownSet, if_neg hd] at hx
    split at hx
    · rename_i hres
      obtain ⟨o, ho⟩ := howned hres
      have hcount := rescueCount_eq h.mirror hinv hl
      have hfront := count_frontier_teardownSet h.fibers hl
      have hheld := h.held_of_dead (r := x) fun rc' hrc => by simp [ho] at hrc
      rw [ho, Option.map_some, Option.some.injEq, Reclaim.counted.injEq] at hx
      omega
    · have hcol : x ∉ (s.collect [r]).dying := fun hcol => by
        obtain ⟨q, hq, hlq, hreach⟩ := (h.forest.mem_collect hu).1 hcol
        rw [List.mem_singleton.1 hq] at hlq hreach
        obtain rfl := h.forest.eq_of_reach_counted hx hreach
        exact hd (hinv.roots r (List.mem_singleton.2 rfl) hlq)
      have hcov := h.cover hx
      have hle := edgesOutside_of_not_collected h.forest h.fibers hu hl hcol
      omega

end

/-! ### The operations of the client -/

theorem ensure_of_live (hl : s.isLive r) (hg : r.get < s.generations.length) : s.ensure r = s := by
  have hgrow : s.growGenerations r = s := by
    rw [growGenerations, show r.get + 1 - s.generations.length = 0 by omega, replicate_zero, append_nil]
  rw [RegionStore.ensure, hgrow]
  exact if_pos hl

theorem ensure_ensure : (s.ensure r).ensure r = s.ensure r :=
  ensure_of_live (by simp [isLive_ensure]) ensure_slot

theorem incref_ensure : (s.ensure r).incref r = s.incref r := by
  rw [RegionStore.incref, RegionStore.incref, ensure_ensure]

theorem adoptRegion_ensure : (s.ensure p).adoptRegion p c = s.adoptRegion p c := by
  rw [adoptRegion, adoptRegion, ensure_ensure]

theorem isLive_ensure_self : (s.ensure r).isLive r := by simp [isLive_ensure]

section

variable (h : Sound s [] held stamps)
include h

theorem mint : Sound s.newRuntimeRegion.2 [] held stamps := by
  have he : SameEdges s s.newRuntimeRegion.2 := .of_find? fun _ => rfl
  have hf : SameForest s s.newRuntimeRegion.2 := .of_find? fun _ => rfl
  refine h.relink he (h.forest.congr hf) rfl (fun _ => rfl) h.held_counted fun {x rc} hx => ?_
  rw [subtree_congr hf.children, edgesOutside_congr fun k => he.out k x]
  exact h.cover hx

theorem allocObj (r : RuntimeRegion) (obj : HeapObject) :
    Sound (s.allocObj r obj) [] (Session.heldOnEnsure s held r)
      (((s.ensure r).findObjectCrossRefs r obj).foldl (fun st d => Session.stamp (s.ensure r) st r d) stamps) := by
  have hall := (h.ensure r).storeAll (s.ensure r) ((s.ensure r).findObjectCrossRefs r obj) isLive_ensure_self
    (fun _ => rfl) fun d hd => ⟨(findObjectCrossRefs_live hd).1, (findObjectCrossRefs_live hd).2.symm⟩
  have hrec : ∀ x, (s.allocObj r obj).reclaim? x = ((s.ensure r).increfCrossRegionRefs r obj).reclaim? x := fun x =>
    reclaim?_kept fun _ => rfl
  refine hall.same .allocObj (.modifyEntry (.of_rfl (fun _ => rfl) fun _ => rfl)) .modifyEntry (fun hx => ?_) fun {x rc} hx => ?_
  · obtain ⟨rc, hrc⟩ := hall.held_counted hx
    exact ⟨rc, (hrec _).trans hrc⟩
  · exact ⟨rc, (hrec x).symm.trans hx, Nat.le_refl _⟩

theorem storeOp (hne : src ≠ dst) :
    Sound ((s.incref dst).recordOutgoing src.get dst.get) [] (Session.heldOnEnsure s held dst)
      (if (s.incref dst).isLive src then Session.stamp (s.incref dst) stamps src dst else stamps) := by
  have h1 := h.ensure dst
  have hlive : (s.incref dst).isLive src = (s.ensure dst).isLive src := by
    rw [← incref_ensure, (SameEdges.incref isLive_ensure_self).live]
  by_cases hl : (s.ensure dst).isLive src
  · rw [hlive, if_pos hl, ← incref_ensure]
    exact h1.store hne hl isLive_ensure_self
  · have hnop : (s.incref dst).recordOutgoing src.get dst.get = s.incref dst := by
      obtain heq | ⟨a, b, ha, -, -, hal, -⟩ := recordOutgoing_cases (s.incref dst) src.get dst.get
      · exact heq
      · rw [← RuntimeRegion.ext_get ha, hlive] at hal
        exact absurd hal hl
    rw [hlive, if_neg hl, hnop, ← incref_ensure]
    exact h1.incref isLive_ensure_self (fun _ _ => rfl) (by omega) fun _ _ => rfl

/-- Removing an edge from outside the subtree of its target, or one that the count of the target covers. -/
theorem unrecordOp (hpos : 0 < s.out src dst)
    (hback : src ∉ s.subtree dst ∨ ∀ rc, s.reclaim? dst = some (.counted rc) → held dst + s.edgesOutside dst ∅ ≤ rc) :
    Sound (s.unrecordOutgoing src.get dst.get) [dst] held (Session.unstamp stamps src dst) := by
  refine h.unrecord src dst fun {x rc} hx => ?_
  rcases unrecordOutgoing_eq h.mirror src dst with ⟨-, hne, heq⟩ | ⟨h0, -⟩
  swap
  · omega
  rw [heq]
  have hcov := h.cover hx
  by_cases hxd : x = dst
  · subst hxd
    rw [count_singleton_self]
    rcases hback with hsrc | hall
    · have := edgesOutside_dropEdge hpos hsrc
      omega
    · have hdrop := edgesOutside_dropEdge hpos (Finset.notMem_empty src)
      have hle : (s.dropEdge src x).edgesOutside x (s.subtree x) ≤ (s.dropEdge src x).edgesOutside x ∅ :=
        SameEdges.refl.edgesOutside_le fun k hk => by simp at hk
      have := hall rc hx
      omega
  · have hsame : (s.dropEdge src dst).edgesOutside x (s.subtree x) = s.edgesOutside x (s.subtree x) :=
      edgesOutside_congr fun k => by rw [out_dropEdge, if_neg fun hk => hxd hk.2, Nat.sub_zero]
    rw [hsame, List.count_eq_zero.2 (by simpa using hxd)]
    exact hcov

theorem increfOp (r : RuntimeRegion) :
    Sound (s.incref r) [] (if s.regionIsOwned r then Session.heldOnEnsure s held r
      else Function.update (Session.heldOnEnsure s held r) r (Session.heldOnEnsure s held r r + 1)) stamps := by
  rw [← incref_ensure]
  refine (h.ensure r).incref isLive_ensure_self (fun x hx => ?_) ?_ fun o ho => ?_
  · split
    · rfl
    · rw [Function.update_of_ne hx]
  · split
    · omega
    · rw [Function.update_self]
  · rw [if_pos (regionIsOwned_iff.2 ⟨o, (SameForest.ensure.owned r o).1 ho⟩)]

theorem decrefOp {fc : Option RuntimeRegion} (hr : 0 < held r) :
    Sound (s.decrefReachesZero r fc).1 [] (Function.update held r (held r - 1)) stamps := by
  refine Sound.release (t := r) (h.same .refl .refl .refl (fun {x} hx => ?_) fun {x rc} hx => ⟨rc, hx, ?_⟩)
  · by_cases hxr : x = r
    · exact hxr ▸ h.held_counted hr
    · rw [Function.update_of_ne hxr] at hx
      exact h.held_counted hx
  · by_cases hxr : x = r
    · subst hxr
      rw [Function.update_self, count_singleton_self, count_nil]
      omega
    · rw [Function.update_of_ne hxr, List.count_eq_zero.2 (by simpa using hxr), count_nil]

theorem adoptOp {rc : Nat} (hne : p ≠ c) (hc : s.reclaim? c = some (.counted rc))
    (hpc : p ∉ s.subtree c) :
    Sound (s.adoptRegion p c) [] (Function.update (Session.heldOnEnsure s held p) c 0) stamps := by
  have hrec : (s.ensure p).reclaim? c = some (.counted rc) := by
    rw [reclaim?, find?_ensure, if_neg hne.symm]
    exact hc
  rw [← adoptRegion_ensure]
  exact (h.ensure p).adopt hne isLive_ensure_self hrec (by rw [subtree_congr SameForest.ensure.children]; exact hpc)

theorem extractOp (hback : s.regionIsOwned c →
      ∀ a rc, s.reclaim? a = some (.counted rc) → c ∈ s.subtree a →
        (∀ rc, s.reclaim? a = some (.counted rc) → held a + s.edgesOutside a ∅ ≤ rc) ∨ ∀ k ∈ s.subtree c, s.out k a = 0) :
    Sound ((s.unrecordOutgoing src.get c.get).extractOwnedRegion c) []
      (if s.regionIsOwned c then Function.update held c 1 else held) (Session.unstamp stamps src c) := by
  have hle : ∀ x y, (s.unrecordOutgoing src.get c.get).out x y ≤ s.out x y := fun x y => by
    rcases unrecordOutgoing_eq h.mirror src c with ⟨-, hne, heq⟩ | ⟨-, heq⟩ <;> rw [heq]
    rw [out_dropEdge]
    exact Nat.sub_le _ _
  have h1 : Sound (s.unrecordOutgoing src.get c.get) [] held (Session.unstamp stamps src c) :=
    h.unrecord src c fun {x rc} hx =>
      (Nat.add_le_add_left (edgesOutside_mono (fun _ hk _ => hk) fun k => hle k x) _).trans (h.cover hx)
  have hrec : ∀ x, (s.unrecordOutgoing src.get c.get).reclaim? x = s.reclaim? x := fun x => reclaim?_unrecordOutgoing
  by_cases hown : s.regionIsOwned c
  · obtain ⟨o, ho⟩ := regionIsOwned_iff.1 hown
    rw [if_pos hown]
    refine h1.extract (by rw [hrec]; exact ho) fun a rc ha hmem => ?_
    rw [subtree_congr SameForest.frame.unrecordOutgoing.children] at hmem ⊢
    rw [hrec] at ha
    refine (hback hown a rc ha hmem).imp (fun hall => ?_) fun hnone k hk => ?_
    · exact (Nat.add_le_add_left (edgesOutside_mono (fun _ hk _ => hk) fun k => hle k a) _).trans (hall rc ha)
    · exact Nat.le_zero.1 ((hle k a).trans (hnone k hk).le)
  · rw [extractOwnedRegion_of_not_owned fun o ho => hown (regionIsOwned_iff.2 ⟨o, hrec c ▸ ho⟩), if_neg hown]
    exact h1

end

end Sound

end Elle

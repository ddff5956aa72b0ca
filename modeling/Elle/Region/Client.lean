import Elle.Region.Cover

/-! # Runs of a client

`SessionInv` is `Sound` for the store of a session with the releases its cascade still owes, and says that what waits
to be torn down is held by no one.
-/

namespace Elle

open RegionStore

structure SessionInv (S : Session) : Prop where
  sound : Sound S.regions S.cascade.frontier S.held S.stamps
  roots : ∀ set ∈ S.cascade.worklist, ∃ r, set = [r] ∧
    (S.regions.reclaim? r = none ∨ S.regions.reclaim? r = some (.counted 0))

namespace SessionInv

variable {S : Session} {s : RegionStore} {r : RuntimeRegion} {ord : IterOrder}

theorem new : SessionInv .new := ⟨.new, by simp [Session.new]⟩

theorem settled {held : RuntimeRegion → Nat} {stamps : RuntimeRegion → RuntimeRegion → List Nat}
    (h : Sound s [] held stamps) : SessionInv ⟨Session.settled s, held, stamps⟩ := ⟨h, by simp [Session.settled]⟩

theorem reclaim?_of_zero {fc : Option RuntimeRegion} (h : (s.decrefReachesZero r fc).2) :
    (s.decrefReachesZero r fc).1.reclaim? r = some (.counted 0) := by
  obtain ⟨rc, hrc, hle⟩ := decrefReachesZero_snd.1 h
  rw [reclaim?_decref_self hrc, Nat.sub_eq_zero_of_le hle]

theorem release {held : RuntimeRegion → Nat} {stamps : RuntimeRegion → RuntimeRegion → List Nat}
    (h : Sound (s.decrefReachesZero r none).1 [] held stamps) : SessionInv ⟨Session.release s r, held, stamps⟩ := by
  refine ⟨h, fun set hset => ?_⟩
  simp only [Session.release] at hset
  split at hset
  · rename_i hz
    exact ⟨r, List.mem_singleton.1 hset, .inr (reclaim?_of_zero hz)⟩
  · simp at hset

theorem root_teardownSet {q : RuntimeRegion} (hs : s.Forest) (hu : s.Unowned [r])
    (h : s.reclaim? q = none ∨ s.reclaim? q = some (.counted 0)) :
    (s.teardownSet ord [r]).1.reclaim? q = none ∨ (s.teardownSet ord [r]).1.reclaim? q = some (.counted 0) := by
  rw [reclaim?_teardownSet]
  split
  · exact .inl rfl
  · rw [if_neg fun hres => ?_]
    · exact h
    · obtain ⟨⟨x, o⟩, hxo, rfl⟩ := List.mem_map.1 hres
      have ho := hs.owner_of_child ((rescueInv hs hu).cut hxo).1
      rcases h with h | h <;> rw [ho] at h <;> simp at h

theorem tick (h : SessionInv S) (hb : S.BackEdgesCounted .tick) : SessionInv (S.tick ord) := by
  rw [Session.tick]
  cases hc : cascadeStep ord S.cascade with
  | none => exact h
  | some c =>
    obtain ⟨set, worklist, hf, hw, hs, hw', hf'⟩ | ⟨t, rest, hf, hs, hf', hw'⟩ := cascadeStep_cases hc
    · -- the next set is one region that no one holds
      have hsound := h.sound
      have hroots := h.roots
      rw [hf] at hsound
      rw [hw, List.forall_mem_cons] at hroots
      obtain ⟨⟨r, rfl, hr⟩, hroots⟩ := hroots
      have hu : S.regions.Unowned [r] := fun x hx o ho => by
        rw [List.mem_singleton.1 hx] at ho
        rcases hr with hr | hr <;> simp [hr] at ho
      have htear := hsound.teardown ord hr (hb hf [r] (by rw [hw]; rfl) r (List.mem_singleton.2 rfl))
      refine ⟨?_, fun set hset => ?_⟩
      · simp only [Session.regions, hs, hf']
        exact htear
      · rw [hw'] at hset
        obtain ⟨q, hq, hrec⟩ := hroots set hset
        simp only [Session.regions, hs]
        exact ⟨q, hq, root_teardownSet hsound.forest hu hrec⟩
    · have hsound := h.sound
      rw [hf] at hsound
      have hlive : ∀ x, (S.regions.decrefReachesZero t S.cascade.src).1.isLive x = S.regions.isLive x :=
        fun x => isLive_decrefReachesZero
      have hstamps : (fun x y => if (S.regions.decrefReachesZero t S.cascade.src).1.isLive x then S.stamps x y else []) =
          S.stamps := by
        funext x y
        split
        · rfl
        · rename_i hx
          rw [hlive] at hx
          refine (List.eq_nil_of_length_eq_zero ?_).symm
          rw [hsound.stamped]
          by_contra hne
          exact hx (isLive_of_out (Nat.pos_of_ne_zero hne))
      refine ⟨?_, fun set hset => ?_⟩
      · simp only [Session.regions, hs, hf', hstamps]
        exact hsound.release
      · simp only [Session.regions, hs]
        rw [hw'] at hset
        -- a region at zero is owed no release
        have hold : ∀ set ∈ S.cascade.worklist, ∃ r, set = [r] ∧
            ((S.regions.decrefReachesZero t S.cascade.src).1.reclaim? r = none ∨
              (S.regions.decrefReachesZero t S.cascade.src).1.reclaim? r = some (.counted 0)) := fun set hset => by
          obtain ⟨q, hq, hrec⟩ := h.roots set hset
          refine ⟨q, hq, ?_⟩
          have hqt : q ≠ t ∨ S.regions.reclaim? q = none := by
            rcases hrec with hrec | hrec
            · exact .inr hrec
            · refine .inl fun hqt => ?_
              have := hsound.cover hrec
              rw [hqt, List.count_cons_self] at this
              omega
          rcases hqt with hqt | hnone
          · rw [reclaim?_decref_of_ne hqt]
            exact hrec
          · left
            rw [reclaim?_eq_none, hlive, ← reclaim?_eq_none]
            exact hnone
        split at hset
        · rename_i hz
          rcases List.mem_cons.1 hset with rfl | hset
          · exact ⟨t, rfl, .inr (reclaim?_of_zero hz)⟩
          · exact hold set hset
        · exact hold set hset

theorem apply {e : IterOrder × SessionOp} (h : SessionInv S) (hd : S.Discipline e.2) (hb : S.BackEdgesCounted e.2) :
    SessionInv (S.apply e) := by
  have hidle : S.Idle → Sound S.regions [] S.held S.stamps := fun hi => hi.2 ▸ h.sound
  obtain ⟨ord, op⟩ := e
  cases op with
  | mint => exact settled (hidle hd).mint
  | alloc r obj => exact settled ((hidle hd).allocObj r obj)
  | store src dst => exact settled ((hidle hd.1).storeOp hd.2)
  | remove src dst => exact release ((hidle hd.1).unrecordOp hd.2 hb).release
  | incref r => exact settled ((hidle hd).increfOp r)
  | decref r => exact release ((hidle hd.1).decrefOp hd.2)
  | adopt p c =>
    obtain ⟨hi, hne, ⟨rc, hc⟩, hpc⟩ := hd
    exact settled ((hidle hi).adoptOp hne hc hpc)
  | extract src c => exact settled ((hidle hd).extractOp hb)
  | reparent a b =>
    obtain ⟨hi, ha, hb'⟩ := hd
    refine settled ?_
    by_cases hnop : a = b ∨ S.regions.children a = []
    · rw [reparentOwnedChildren_of_nil hnop, if_pos hnop]
      exact hidle hi
    · rw [if_neg hnop]
      rw [not_or] at hnop
      exact (hidle hi).reparent hnop.1 hnop.2 ha hb'
  | tick => exact h.tick hb

end SessionInv

namespace Session

/-! ### Every run -/

/-- The sessions of the runs in which the client keeps to its discipline. -/
def Reachable (Allowed : Session → SessionOp → Prop) : Session → Prop :=
  Runs.Reachable Session.apply (fun S e => Allowed S e.2) .new

/-- The client keeps to its discipline and gives up no edge from inside a subtree uncovered. -/
def Careful (S : Session) (op : SessionOp) : Prop := S.Discipline op ∧ S.BackEdgesCounted op

variable {S : Session}

theorem inv_of_reachable (h : Reachable Careful S) : SessionInv S :=
  Runs.Reachable.inv .new (fun _ _ hS ha => hS.apply ha.1 ha.2) h

/-- In every run of a careful client, at every step of every cascade, each edge a live region records leads to a
region that is still live and is the incarnation it was when the edge was recorded. -/
theorem no_dangling_edge (h : Reachable Careful S) (src dst : RuntimeRegion) (hedge : 0 < S.regions.out src dst) :
    S.regions.isLive dst ∧ (S.stamps src dst).length = S.regions.out src dst ∧
      ∀ g ∈ S.stamps src dst, g = S.regions.generationRaw dst := by
  have hs := (inv_of_reachable h).sound
  exact ⟨hs.target hedge, hs.stamped src dst, hs.current src dst⟩

/-- The session after a list of operations, along the listed iteration order. -/
def exec (ops : List SessionOp) : Session := (ops.map (IterOrder.listed, ·)).foldl Session.apply .new

def leaf : HeapObject := ⟨[], none, 1⟩

/-- Region 2 holds an edge to region 3. -/
def stored : Session := exec [.alloc (region 0) leaf, .alloc (region 1) leaf, .store (region 0) (region 1)]

theorem reachable_stored : Reachable Careful stored :=
  Runs.Reachable.start.foldl ⟨⟨by decide +kernel, trivial⟩, ⟨by decide +kernel, trivial⟩, ⟨by decide +kernel, trivial⟩, trivial⟩

theorem no_dangling_edge_stored :
    0 < stored.regions.out (region 0) (region 1) ∧ stored.regions.isLive (region 1) :=
  ⟨by decide +kernel, (no_dangling_edge reachable_stored (region 0) (region 1) (by decide +kernel)).1⟩

/-- In every run of a careful client, at every step of every cascade, the count of a counted region is at least the
number of edges that live regions outside its own subtree record to it. -/
theorem count_covers_external_edges (h : Reachable Careful S) (r : RuntimeRegion) (rc : Nat)
    (hr : S.regions.reclaim? r = some (.counted rc)) :
    ∑ k ∈ S.regions.live \ S.regions.subtree r, S.regions.out k r ≤ rc := by
  have hcov := (inv_of_reachable h).sound.cover hr
  rw [edgesOutside] at hcov
  omega

theorem count_covers_external_edges_stored : stored.regions.reclaim? (region 1) = some (.counted 2) ∧
    ∑ k ∈ stored.regions.live \ stored.regions.subtree (region 1), stored.regions.out k (region 1) ≤ 2 :=
  ⟨by decide +kernel, count_covers_external_edges reachable_stored (region 1) 2 (by decide +kernel)⟩

/-- Region 2 owns region 3, which owns region 4; regions 4 and 5 hold edges to region 3.  When region 2 is dropped,
region 3 is rescued for the edge of region 5 alone; then region 4 is taken out of it, with its edge. -/
def backEdgeRun : List SessionOp :=
  [.alloc (region 0) leaf, .alloc (region 1) leaf, .alloc (region 2) leaf, .alloc (region 3) leaf,
    .store (region 2) (region 1), .store (region 3) (region 1), .store (region 1) (region 2),
    .adopt (region 0) (region 1), .adopt (region 1) (region 2), .decref (region 0), .tick,
    .extract (region 1) (region 2)]

theorem dangling_back_edge : ∃ S, Reachable Discipline S ∧
    0 < S.regions.out (region 2) (region 1) ∧ S.regions.isLive (region 1) = false := by
  refine ⟨exec (backEdgeRun ++ [.remove (region 3) (region 1), .tick]), Runs.Reachable.start.foldl ?_, ?_⟩ <;>
    decide +kernel

theorem uncounted_back_edge : ∃ S, Reachable Discipline S ∧ S.regions.reclaim? (region 1) = some (.counted 1) ∧
    ∑ k ∈ S.regions.live \ S.regions.subtree (region 1), S.regions.out k (region 1) = 2 := by
  refine ⟨exec backEdgeRun, Runs.Reachable.start.foldl ?_, ?_⟩ <;> decide +kernel

end Session

end Elle

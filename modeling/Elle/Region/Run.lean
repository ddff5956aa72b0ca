import Elle.Lib.Runs
import Elle.Region.Cascade

/-! # Runs of the store

`Op` lists what a fiber heap asks of its region store, and `Op.apply` what the store does.  The frees are
loops over two elementary steps, the release of one reference and the teardown of one set; the rules of `FreeInv`
carry what those two preserve through every operation that frees.
-/

namespace Elle

/-- An operation of the region store, or a move of the fibers outside it. -/
inductive Op where
  | newRuntimeRegion
  | newRuntimeRegionTracked
  | recycleUnmaterialized (mint : RegionMint)
  | ensure (r : RuntimeRegion)
  | incref (r : RuntimeRegion)
  | decref (r : RuntimeRegion)
  | decrefIfPresent (r : RuntimeRegion)
  | recordOutgoing (src dst : Nat)
  | unrecordOutgoing (src dst : Nat)
  | allocObj (r : RuntimeRegion) (obj : HeapObject)
  | adoptRegion (parent child : RuntimeRegion)
  | extractOwnedRegion (child : RuntimeRegion)
  | reparentOwnedChildren (source target : RuntimeRegion)
  | freeRegionGroup (members : List RuntimeRegion)
  | teardownAll
  | beginMintLog
  | reclaimMintScope (protectedIds : List RuntimeRegion)
  | setFibers (fibers : List Fiber)

/-- The store after an operation, for one iteration order of the hash maps. -/
def Op.apply (ord : IterOrder) (s : RegionStore) : Op → RegionStore
  | .newRuntimeRegion => s.newRuntimeRegion.2
  | .newRuntimeRegionTracked => s.newRuntimeRegionTracked.2
  | .recycleUnmaterialized mint => s.recycleUnmaterialized mint
  | .ensure r => s.ensure r
  | .incref r => s.incref r
  | .decref r => (s.decref ord r).1
  | .decrefIfPresent r => (s.decrefIfPresent ord r).1
  | .recordOutgoing src dst => s.recordOutgoing src dst
  | .unrecordOutgoing src dst => s.unrecordOutgoing src dst
  | .allocObj r obj => s.allocObj r obj
  | .adoptRegion parent child => s.adoptRegion parent child
  | .extractOwnedRegion child => s.extractOwnedRegion child
  | .reparentOwnedChildren source target => s.reparentOwnedChildren source target
  | .freeRegionGroup members => (s.freeRegionGroup ord members).1
  | .teardownAll => s.teardownAll
  | .beginMintLog => s.beginMintLog
  | .reclaimMintScope protectedIds => (s.reclaimMintScope ord protectedIds).1
  | .setFibers fibers => { s with fibers := fibers }

/-- A state of a run that starts empty and whose every operation is one `Allowed` admits, along any iteration
orders. -/
def Reachable (Allowed : RegionStore → Op → Prop) : RegionStore → Prop :=
  Runs.Reachable (fun s (e : IterOrder × Op) => e.2.apply e.1 s) (fun s e => Allowed s e.2) .new

namespace Reachable

variable {Allowed : RegionStore → Op → Prop} {s : RegionStore}

theorem new : Reachable Allowed .new := .start

theorem step (ord : IterOrder) (op : Op) (h : Reachable Allowed s) (ha : Allowed s op) :
    Reachable Allowed (op.apply ord s) := Runs.Reachable.step (ord, op) h ha

/-- What holds at the start and is preserved by every admitted operation holds in every reachable state. -/
theorem inv {I : RegionStore → Prop} (h0 : I .new) (hstep : ∀ s ord op, I s → Allowed s op → I (op.apply ord s))
    (h : Reachable Allowed s) : I s := Runs.Reachable.inv h0 (fun s (e : IterOrder × Op) => hstep s e.1 e.2) h

end Reachable

namespace RegionStore

/-! ### Rules for the frees -/

/-- What the two elementary steps of a free preserve: `I`, when sets are torn down whose members satisfy
`Root`, which a region keeps satisfying and satisfies when its count reaches zero. -/
structure FreeInv (I : RegionStore → Prop) (Root : RegionStore → RuntimeRegion → Prop) : Prop where
  release : ∀ {s r fc}, I s → I (s.decrefReachesZero r fc).1
  release_root : ∀ {s r fc x}, I s → Root s x → Root (s.decrefReachesZero r fc).1 x
  zero : ∀ {s r fc}, I s → (s.decrefReachesZero r fc).2 → Root (s.decrefReachesZero r fc).1 r
  teardown : ∀ {s ord roots}, I s → (∀ r ∈ roots, Root s r) → I (s.teardownSet ord roots).1
  teardown_root : ∀ {s ord roots x}, I s → (∀ r ∈ roots, Root s r) → Root s x → Root (s.teardownSet ord roots).1 x
  mintLog : ∀ {s : RegionStore} {log}, I s → I { s with mintLog := log }

namespace FreeInv

variable {I : RegionStore → Prop} {Root : RegionStore → RuntimeRegion → Prop} {s : RegionStore} {ord : IterOrder}
  {r : RuntimeRegion} (h : FreeInv I Root)

include h

theorem next {c c' : Cascade} (hc : Next c c') (hi : I c.store ∧ ∀ set ∈ c.worklist, ∀ r ∈ set, Root c.store r) :
    I c'.store ∧ ∀ set ∈ c'.worklist, ∀ r ∈ set, Root c'.store r := by
  obtain ⟨hI, hR⟩ := hi
  cases hc with
  | @release s worklist before after t src freed =>
    have hold : ∀ set ∈ worklist, ∀ r ∈ set, Root (s.decrefReachesZero t src).1 r :=
      fun set hset r hr => h.release_root hI (hR set hset r hr)
    refine ⟨h.release hI, ?_⟩
    split
    · rename_i hz
      rw [List.forall_mem_cons]
      exact ⟨by simpa using h.zero hI hz, hold⟩
    · exact hold
  | teardown ord =>
    simp only [List.forall_mem_append, List.forall_mem_cons] at hR
    obtain ⟨hbefore, hset, hafter⟩ := hR
    refine ⟨h.teardown hI hset, fun set' hset' r hr => h.teardown_root hI hset ?_⟩
    rcases List.mem_append.1 hset' with h' | h'
    exacts [hbefore set' h' r hr, hafter set' h' r hr]

theorem freeRegionSet {roots : List RuntimeRegion} (hs : I s) (hr : ∀ r ∈ roots, Root s r) :
    I (s.freeRegionSet ord roots).1 :=
  (BoundedLoop.run_inv (L := cascading ord) (fun _ _ hc hi => h.next (cascadeStep_next hc) hi)
    (s := ⟨s, [roots], [], none, 0⟩) ⟨hs, by simpa using hr⟩).1

theorem decrefWithCascade {fc : Option RuntimeRegion} (hs : I s) : I (s.decrefWithCascade ord r fc).1 := by
  rw [RegionStore.decrefWithCascade]
  split
  · rename_i hz
    exact h.freeRegionSet (h.release hs) (by simpa using h.zero hs hz)
  · exact h.release hs

theorem decref (hs : I s) : I (s.decref ord r).1 := h.decrefWithCascade hs

theorem decrefIfPresent (hs : I s) : I (s.decrefIfPresent ord r).1 := by
  rw [RegionStore.decrefIfPresent]
  split
  · exact h.decref hs
  · exact hs

theorem balance {gen n : Nat} {sf : RegionStore × Nat} (hs : I sf.1) : I (balance ord r gen n sf).1 := by
  induction n generalizing sf with
  | zero => exact hs
  | succ n ih =>
    rw [RegionStore.balance]
    split
    · exact ih (h.decrefWithCascade hs)
    · exact hs

theorem reclaimMintScope {ps : List RuntimeRegion} (hs : I s) : I (s.reclaimMintScope ord ps).1 := by
  rw [RegionStore.reclaimMintScope]
  split
  · exact hs
  · suffices ∀ (k : RuntimeRegion → Nat) (ms : List (RuntimeRegion × Nat)) (sf : RegionStore × Nat), I sf.1 →
        I (ms.foldl (fun sf m => RegionStore.balance ord m.1 m.2 (k m.1) sf) sf).1 from this _ _ _ (h.mintLog hs)
    intro k ms
    induction ms with
    | nil => exact fun _ hsf => hsf
    | cons m ms ih => exact fun sf hsf => ih _ (h.balance hsf)

end FreeInv

end RegionStore

end Elle

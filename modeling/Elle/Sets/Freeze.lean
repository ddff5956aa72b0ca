import Elle.Sets.Ops

/-!
# Sets on the heap are ascending

The invariant: struct keys are keys, and the elements of every set are settled and strictly
ascending. Freezing keeps it whatever is frozen, since the elements of a mutable set are settled
already. What it makes of a value is settled if the value is layered: mutable collections above,
settled values below.
-/

namespace Elle.Repr.Sets

open Cmp Sorted List

variable {F : Type} {h h' : Heap F}

structure Member (h : Heap F) (m : Ref F × Value F) : Prop where
  view_eq : view h m.1 = some m.2
  settled : Settled m.2

theorem Member.keeps {m : Ref F × Value F} (hm : Member h m) (hk : Keeps h h') : Member h' m :=
  ⟨view_keeps hm.view_eq hm.settled hk, hm.settled⟩

theorem members_eq {ms : List (Ref F × Value F)} (hms : ∀ m ∈ ms, view h m.1 = some m.2) :
    members h (ms.map (·.1)) = some ms := by
  rw [members, Pointwise.mapM_eq_some_iff, forall₂_map_left_iff]
  refine List.forall₂_same.2 fun m hm => ?_
  rw [hms m hm]
  rfl

section

variable [TotalFloat F]

theorem ordered_member (hkeys : KeysOk h) : OrderedOn (Member h) (cmpMember (F := F)) := by
  constructor
  · intro a b ha hb
    exact (oriented (fun h => h.1) (all_inKeyMemory_of_settled hkeys ha.view_eq ha.settled) b.2
      (all_inKeyMemory_of_settled hkeys hb.view_eq hb.settled)).1
  · intro a b c ha hb hc
    exact (lawful noClash_isLeft (fun h => h.1)
      (all_inKeyMemory_of_settled hkeys ha.view_eq ha.settled) b.2 c.2
      (all_inKeyMemory_of_settled hkeys hb.view_eq hb.settled)
      (all_inKeyMemory_of_settled hkeys hc.view_eq hc.settled)).1

theorem same_of_cmpMember (hkeys : KeysOk h) {a b : Ref F × Value F} (ha : Member h a)
    (hb : Member h b) (hcmp : cmpMember a b = .eq) : sameMember a b :=
  (eqWith_agrees (all_inKeyMemory_of_settled hkeys ha.view_eq ha.settled) b.2
    (all_inKeyMemory_of_settled hkeys hb.view_eq hb.settled)).1 hcmp

def SetOk (h : Heap F) (es : List (Ref F)) : Prop :=
  ∃ ms, ms.map (·.1) = es ∧ (∀ m ∈ ms, Member h m) ∧ Ascending cmpMember ms

variable {es : List (Ref F)} {c : Cell F} {ms : List (Ref F × Value F)} {r : Ref F} {v : Value F} {n : Nat}

theorem SetOk.keeps (hs : SetOk h es) (hk : Keeps h h') : SetOk h' es := by
  obtain ⟨ms, hes, hms, hasc⟩ := hs
  exact ⟨ms, hes, fun m hm => (hms m hm).keeps hk, hasc⟩

structure CellOk (h : Heap F) (c : Cell F) : Prop where
  keys : ∀ m es, c = .struct m es → ∀ e ∈ es, ∃ k, view h e.1 = some k ∧ k.isKey
  set : ∀ m es, c = .set m es → SetOk h es

def Inv (h : Heap F) : Prop := ∀ (x : Nat) c, h[x]? = some c → CellOk h c

theorem Inv.keysOk (hinv : Inv h) : KeysOk h := fun x m es hc => (hinv x _ hc).keys m es rfl

theorem CellOk.keeps (hc : CellOk h c) (hkeys : KeysOk h) (hk : Keeps h h') : CellOk h' c := by
  refine ⟨fun m es hces e he => ?_, fun m es hces => (hc.set m es hces).keeps hk⟩
  obtain ⟨k, hview, hkey⟩ := hc.keys m es hces e he
  exact ⟨k, view_key_keeps hkeys hview hkey hk, hkey⟩

theorem Inv.alloc (hinv : Inv h) (hc : CellOk h c) : Inv (h ++ [c]) := by
  intro x d hd
  refine CellOk.keeps ?_ hinv.keysOk (keeps_append h [c])
  rcases Nat.lt_or_ge x h.length with hx | hx
  · rw [getElem?_append_left hx] at hd
    exact hinv x d hd
  · rw [getElem?_append_right hx] at hd
    obtain rfl : d = c := List.mem_singleton.1 (mem_of_getElem? hd)
    exact hc

theorem Inv.set (hinv : Inv h) {x : Nat} {c' : Cell F} (hx : h[x]? = some c) (hm : c.isMutable)
    (hc : CellOk h c') : Inv (h.set x c') := by
  intro y d hd
  refine CellOk.keeps ?_ hinv.keysOk (keeps_set hx hm)
  rcases eq_or_ne x y with rfl | hxy
  · rw [getElem?_set_self (List.getElem?_eq_some_iff.1 hx).1] at hd
    cases hd
    exact hc
  · rw [getElem?_set_ne hxy] at hd
    exact hinv y d hd

/-! ### Ordered elements -/

theorem collectRefs_ok (hkeys : KeysOk h) (hms : ∀ m ∈ ms, Member h m) :
    ∃ es, collectRefs h (ms.map (·.1)) = some es ∧ SetOk h es := by
  refine ⟨_, by rw [collectRefs, members_eq fun m hm => (hms m hm).view_eq]; rfl, _, rfl, ?_, ?_⟩
  · exact fun m hm => hms m (of_mem_collect hm)
  · exact (ordered_member hkeys).ascending_collect (same_of_cmpMember hkeys) hms

theorem SetOk.collectRefs (hkeys : KeysOk h) (hs : SetOk h es) :
    ∃ es', collectRefs h es = some es' ∧ SetOk h es' := by
  obtain ⟨ms, rfl, hms, -⟩ := hs
  exact collectRefs_ok hkeys hms

theorem SetOk.insertRef (hkeys : KeysOk h) (hs : SetOk h es) (hr : Member h (r, v)) :
    ∃ es', insertRef h r es = some es' ∧ SetOk h es' := by
  obtain ⟨ms, rfl, hms, hasc⟩ := hs
  refine ⟨_, by rw [Sets.insertRef, members_eq fun m hm => (hms m hm).view_eq, hr.view_eq]; rfl, _, rfl,
    fun m hm => ?_, (ordered_member hkeys).ascending_insert hr hms hasc⟩
  rcases of_mem_insert hm with rfl | hm
  · exact hr
  · exact hms m hm

theorem SetOk.removeRef {es' : List (Ref F)} (hs : SetOk h es) (he : removeRef h r es = some es') :
    SetOk h es' := by
  obtain ⟨ms, rfl, hms, hasc⟩ := hs
  rw [Sets.removeRef, members_eq fun m hm => (hms m hm).view_eq] at he
  obtain ⟨v, -, rfl⟩ := Option.map_eq_some_iff.1 he
  have hsub := remove_sublist cmpMember (r, v) ms
  exact ⟨_, rfl, fun m hm => hms m (hsub.subset hm), hasc.sublist hsub⟩

/-! ### Freezing -/

variable {lossy : List UInt8 → List UInt8}

/-- The heap after some allocations, with the invariant kept. -/
structure Grown (h h' : Heap F) : Prop where
  inv : Inv h'
  grows : ∃ new, h' = h ++ new

theorem Grown.refl (hinv : Inv h) : Grown h h := ⟨hinv, [], by simp⟩

theorem Grown.trans {h'' : Heap F} (hg : Grown h h') (hg' : Grown h' h'') : Grown h h'' := by
  obtain ⟨new, rfl⟩ := hg.grows
  obtain ⟨new', rfl⟩ := hg'.grows
  exact ⟨hg'.inv, new ++ new', append_assoc _ _ _⟩

theorem Grown.alloc (hg : Grown h h') (hc : CellOk h' c) : Grown h (h' ++ [c]) :=
  hg.trans ⟨hg.inv.alloc hc, [c], rfl⟩

theorem Grown.keeps (hg : Grown h h') : Keeps h h' := by
  obtain ⟨new, rfl⟩ := hg.grows
  exact keeps_append h new

theorem Grown.view (hg : Grown h h') (hv : view h r = some v) : view h' r = some v := by
  obtain ⟨new, rfl⟩ := hg.grows
  exact view_append hv new

theorem freezeWith_immutable {x : Nat} (hc : h[x]? = some c) (hmut : c.isMutable = false) :
    freezeWith lossy (n + 1) h (.obj x) = some (.obj x, h) := by
  rw [freezeWith, hc]
  cases c with
  | string m _ | bytes m _ | array m _ | struct m _ | set m _ => cases hmut; rfl
  | box _ _ => cases hmut
  | _ => rfl

theorem freezeWith_viewed (hv : viewWith h n r = some v) (hs : Settled v) :
    freezeWith lossy n h r = some (r, h) := by
  cases r with
  | imm i => cases n <;> rfl
  | obj x =>
    obtain ⟨m, c, o, rfl, hc, rfl, hrel⟩ := viewWith_obj hv
    exact freezeWith_immutable hc (hrel.isMutable_eq.trans (hs.self.immutable x o rfl))

theorem freezeWith_settled (hv : view h r = some v) (hs : Settled v) {p : Ref F × Heap F}
    (hp : freezeWith lossy n h r = some p) : p = (r, h) := by
  cases r with
  | imm i => cases n <;> exact (Option.some.inj hp).symm
  | obj x =>
    cases n with
    | zero => cases hp
    | succ n =>
      obtain ⟨m, c, o, -, hc, rfl, hrel⟩ := viewWith_obj hv
      rw [freezeWith_immutable hc (hrel.isMutable_eq.trans (hs.self.immutable x o rfl))] at hp
      exact (Option.some.inj hp).symm

theorem freezeAll_settled (hms : ∀ m ∈ ms, Member h m) {p : List (Ref F) × Heap F}
    (hp : freezeAll (freezeWith lossy n) h (ms.map (·.1)) = some p) : p = (ms.map (·.1), h) := by
  induction ms generalizing p with
  | nil => exact (Option.some.inj hp).symm
  | cons m ms ih =>
    obtain ⟨q, hq, hp⟩ := Option.bind_eq_some_iff.1 hp
    have hm := hms m mem_cons_self
    obtain rfl := freezeWith_settled hm.view_eq hm.settled hq
    obtain ⟨q, hq, rfl⟩ := Option.map_eq_some_iff.1 hp
    rw [ih (fun m hm => hms m (mem_cons_of_mem _ hm)) hq]
    rfl

theorem freezeAll_grown {freeze : Heap F → Ref F → Option (Ref F × Heap F)}
    (hfreeze : ∀ h r p, Inv h → freeze h r = some p → Grown h p.2) {rs : List (Ref F)}
    (hinv : Inv h) {p : List (Ref F) × Heap F} (hp : freezeAll freeze h rs = some p) :
    Grown h p.2 := by
  induction rs generalizing h p with
  | nil =>
    cases hp
    exact .refl hinv
  | cons r rs ih =>
    obtain ⟨q, hq, hp⟩ := Option.bind_eq_some_iff.1 hp
    obtain ⟨q', hq', rfl⟩ := Option.map_eq_some_iff.1 hp
    have hg := hfreeze h r q hinv hq
    exact hg.trans (ih (p := q') hg.inv hq')

theorem freezeWith_grown {p : Ref F × Heap F} (hinv : Inv h) (hp : freezeWith lossy n h r = some p) :
    Grown h p.2 := by
  induction n generalizing h r p with
  | zero =>
    cases r with
    | imm i =>
      cases hp
      exact .refl hinv
    | obj x => cases hp
  | succ n ih =>
    cases r with
    | imm i =>
      cases hp
      exact .refl hinv
    | obj x =>
      have hall : ∀ {rs p}, freezeAll (freezeWith lossy n) h rs = some p → Grown h p.2 :=
        freezeAll_grown (fun h r p => ih) hinv
      rw [freezeWith] at hp
      split at hp
      · obtain ⟨q, hq, rfl⟩ := Option.map_eq_some_iff.1 hp
        exact (hall hq).alloc ⟨nofun, nofun⟩
      · next es hc =>
        obtain ⟨q, hq, rfl⟩ := Option.map_eq_some_iff.1 hp
        have hg := hall hq
        refine hg.alloc ⟨?_, nofun⟩
        rintro _ _ ⟨⟩ e he
        have hkey := (of_mem_zip he).1
        obtain ⟨e', he', hee'⟩ := List.mem_map.1 hkey
        obtain ⟨k, hk, hkey⟩ := hinv.keysOk x true es hc e' he'
        exact ⟨k, hee' ▸ hg.view hk, hkey⟩
      · next es hc =>
        obtain ⟨q, hq, hp⟩ := Option.bind_eq_some_iff.1 hp
        obtain ⟨set, hset, rfl⟩ := Option.map_eq_some_iff.1 hp
        obtain ⟨ms, rfl, hms, -⟩ := (hinv x _ hc).set true es rfl
        obtain rfl := freezeAll_settled hms hq
        obtain ⟨es', hes', hok⟩ := collectRefs_ok hinv.keysOk hms
        rw [hes'] at hset
        cases hset
        refine (Grown.refl hinv).alloc ⟨nofun, ?_⟩
        rintro _ _ ⟨⟩
        exact hok
      · cases hp
        exact (Grown.refl hinv).alloc ⟨nofun, nofun⟩
      · cases hp
        exact (Grown.refl hinv).alloc ⟨nofun, nofun⟩
      · cases hp
        exact .refl hinv

/-! ### Layered values -/

section

omit [TotalFloat F]

/-- Mutable collections above, settled values below: no immutable collection, pair or box has
something mutable in it. -/
inductive Layered : Value F → Prop
  | settled {v : Value F} : Settled v → Layered v
  | collection {x : Nat} {o : HeapObject F} : o.isMutable → (∀ c v, o ≠ .box c v) →
      (∀ c ∈ o.children, Layered c) → Layered (.heap x o)

theorem view_alloc {o : HeapObject F} (hrel : c.Rel (fun r u => view h r = some u) o) :
    view (h ++ [c]) (.obj h.length) = some (.heap h.length o) := by
  rw [view, length_append]
  refine viewWith_obj_eq (by simp) (hrel.imp fun r u _ hu => ?_)
  refine viewWith_agree hu fun w _ x p d _ hd _ => ?_
  rw [getElem?_append_left (List.getElem?_eq_some_iff.1 hd).1, hd]

theorem member_alloc {o : HeapObject F} (hrel : c.Rel (fun r u => view h r = some u) o)
    (hm : c.isMutable = false) (hchild : ∀ u ∈ o.children, Settled u) :
    Member (alloc h c).2 ((alloc h c).1, .heap h.length o) := by
  refine ⟨view_alloc hrel, Value.all_heap.2 ⟨⟨?_, nofun⟩, hchild⟩⟩
  rintro _ _ ⟨⟩
  rw [← hrel.isMutable_eq, hm]

end

def Freezes (lossy : List UInt8 → List UInt8) (v : Value F) : Prop :=
  ∀ (n : Nat) (h : Heap F) (r : Ref F), Inv h → n ≤ h.length → viewWith h n r = some v →
    ∃ p u, freezeWith lossy n h r = some p ∧ Member p.2 (p.1, u)

theorem Grown.viewWith (hg : Grown h h') (hv : viewWith h n r = some v) : viewWith h' n r = some v := by
  obtain ⟨new, rfl⟩ := hg.grows
  refine viewWith_agree hv fun w _ x p d _ hd _ => ?_
  rw [getElem?_append_left (List.getElem?_eq_some_iff.1 hd).1, hd]

theorem freezeAll_freezes {rs : List (Ref F)} {vs : List (Value F)} (hvs : ∀ v ∈ vs, Freezes lossy v)
    (hinv : Inv h) (hn : n ≤ h.length) (hview : List.Forall₂ (fun r v => viewWith h n r = some v) rs vs) :
    ∃ (p : List (Ref F) × Heap F) (ms : List (Ref F × Value F)),
      freezeAll (freezeWith lossy n) h rs = some p ∧ p.1 = ms.map (·.1) ∧
        rs.length = ms.length ∧ ∀ m ∈ ms, Member p.2 m := by
  induction rs generalizing h vs with
  | nil => exact ⟨([], h), [], rfl, rfl, rfl, nofun⟩
  | cons r rs ih =>
    cases hview with
    | @cons _ v _ vs hr hrs =>
      obtain ⟨p, u, hp, hu⟩ := hvs v mem_cons_self n h r hinv hn hr
      have hg := freezeWith_grown hinv hp
      obtain ⟨q, ms, hq, hqms, hlen, hms⟩ := ih (fun v hv => hvs v (mem_cons_of_mem _ hv)) hg.inv
        (hn.trans hg.keeps.length) (hrs.imp fun _ _ h => hg.viewWith h)
      have hg' := freezeAll_grown (fun h r p => freezeWith_grown) hg.inv hq
      refine ⟨(p.1 :: q.1, q.2), (p.1, u) :: ms, ?_, by rw [hqms]; rfl, congrArg (· + 1) hlen, ?_⟩
      · rw [freezeAll, hp, Option.bind_some, hq]
        rfl
      · intro m hm
        rcases List.mem_cons.1 hm with rfl | hm
        · exact hu.keeps hg'.keeps
        · exact hms m hm

omit [TotalFloat F] in
theorem forall₂_view_members (hms : ∀ m ∈ ms, Member h m) :
    List.Forall₂ (fun r u => view h r = some u) (ms.map (·.1)) (ms.map (·.2)) := by
  rw [forall₂_map_left_iff, forall₂_map_right_iff]
  exact List.forall₂_same.2 fun m hm => (hms m hm).view_eq

theorem Layered.freezes (hv : Layered v) : Freezes lossy v := by
  induction hv with
  | @settled v hs =>
    intro n h r hinv hn hview
    exact ⟨(r, h), v, freezeWith_viewed hview hs, viewWith_mono hview hn, hs⟩
  | @collection x o hmut hbox _ ih =>
    intro n h r hinv hn hview
    cases r with
    | imm i => cases n <;> exact absurd (Option.some.inj hview) (i.2 x o)
    | obj y =>
      obtain ⟨n, c, o', rfl, hc, ho', hrel⟩ := viewWith_obj hview
      cases ho'
      have hall : ∀ {rs : List (Ref F)} {vs : List (Value F)}, (∀ v ∈ vs, v ∈ o.children) →
          List.Forall₂ (fun r v => viewWith h n r = some v) rs vs →
          ∃ (p : List (Ref F) × Heap F) (ms : List (Ref F × Value F)),
            freezeAll (freezeWith lossy n) h rs = some p ∧ p.1 = ms.map (·.1) ∧
              rs.length = ms.length ∧ ∀ m ∈ ms, Member p.2 m := fun hvs =>
        freezeAll_freezes (fun v hv => ih v (hvs v hv)) hinv (by omega)
      have hc' := hrel.isMutable_eq.trans hmut
      have hdone : ∀ (h₁ : Heap F) (c₁ : Cell F) (o₁ : HeapObject F),
          freezeWith lossy (n + 1) h (.obj x) = some (alloc h₁ c₁) →
          c₁.Rel (fun r u => view h₁ r = some u) o₁ → c₁.isMutable = false →
          (∀ u ∈ o₁.children, Settled u) →
          ∃ p u, freezeWith lossy (n + 1) h (.obj x) = some p ∧ Member p.2 (p.1, u) :=
        fun h₁ c₁ o₁ hp hrel hm hchild => ⟨_, _, hp, member_alloc hrel hm hchild⟩
      have hsettled : ∀ {h₁ : Heap F} {ms : List (Ref F × Value F)}, (∀ m ∈ ms, Member h₁ m) →
          ∀ u ∈ ms.map (·.2), Settled u := by
        intro h₁ ms hms u hu
        obtain ⟨m, hm, rfl⟩ := List.mem_map.1 hu
        exact (hms m hm).settled
      rw [freezeWith, hc] at hdone ⊢
      rcases c with ⟨m, s⟩ | ⟨m, s⟩ | _ | ⟨m, es⟩ | ⟨m, es⟩ | ⟨m, es⟩ | _ | _ | _ | _ <;>
        rcases o with ⟨m', s'⟩ | ⟨m', s'⟩ | _ | ⟨m', vs⟩ | ⟨m', vs⟩ | ⟨m', vs⟩ | ⟨c', v'⟩ | _ | _ | _ <;>
        first
        | exact absurd hrel id
        | (cases hc'; done)
        | exact absurd rfl (hbox _ _)
        | (obtain rfl : m := hc')
      case string.string => exact hdone h _ (.string false (lossy s)) rfl ⟨rfl, rfl⟩ rfl nofun
      case bytes.bytes => exact hdone h _ (.bytes false s) rfl ⟨rfl, rfl⟩ rfl nofun
      case array.array =>
        obtain ⟨⟨rs, h₁⟩, ms, hp, rfl, -, hms⟩ := hall (fun v hv => hv) hrel.2
        exact hdone h₁ (.array false (ms.map Prod.fst)) (.array false (ms.map Prod.snd))
          (by simp only [hp]; rfl) ⟨rfl, forall₂_view_members hms⟩ rfl (hsettled hms)
      case struct.struct =>
        have hvalues : List.Forall₂ (fun r v => viewWith h n r = some v) (es.map (·.2)) (vs.map (·.2)) := by
          rw [forall₂_map_left_iff, forall₂_map_right_iff]
          exact hrel.2.imp fun _ _ h => h.2
        have hmem : ∀ v ∈ vs.map (·.2), v ∈ (HeapObject.struct m' vs).children := by
          intro v hv
          obtain ⟨e, he, rfl⟩ := List.mem_map.1 hv
          exact List.mem_flatMap.2 ⟨e, he, by simp⟩
        obtain ⟨⟨rs, h₁⟩, ms, hp, rfl, -, hms⟩ := hall hmem hvalues
        have hg := freezeAll_grown (fun h r p => freezeWith_grown) hinv hp
        have hkeys : List.Forall₂ (fun r u => view h r = some u) (es.map (·.1)) (vs.map (·.1)) := by
          rw [forall₂_map_left_iff, forall₂_map_right_iff]
          exact hrel.2.imp fun _ _ h => viewWith_mono h.1 (by omega)
        refine hdone h₁ (.struct false ((es.map Prod.fst).zip (ms.map Prod.fst)))
          (.struct false ((vs.map Prod.fst).zip (ms.map Prod.snd))) (by simp only [hp]; rfl)
          ⟨rfl, Pointwise.zip (hkeys.imp fun _ _ h => hg.view h) (forall₂_view_members hms)⟩ rfl ?_
        intro u hu
        obtain ⟨e, he, hu⟩ := List.mem_flatMap.1 hu
        rcases List.mem_pair.1 hu with rfl | rfl
        · obtain ⟨r, hr, hru⟩ := Pointwise.exists_left hkeys (of_mem_zip he).1
          obtain ⟨e', he', rfl⟩ := List.mem_map.1 hr
          obtain ⟨k, hk, hkey⟩ := hinv.keysOk x true es hc e' he'
          obtain rfl := Option.some.inj (hk.symm.trans hru)
          exact settled_of_isKey (all_inMemory hinv.keysOk hk) hkey
        · exact hsettled hms _ (of_mem_zip he).2
      case set.set =>
        obtain ⟨⟨rs, h₁⟩, ms, hp, rfl, -, hms⟩ := hall (fun v hv => hv) hrel.2
        have hinv₁ := (freezeAll_grown (fun h r p => freezeWith_grown) hinv hp).inv
        obtain ⟨es', hes', ms', rfl, hms', -⟩ := collectRefs_ok hinv₁.keysOk hms
        exact hdone h₁ (.set false (ms'.map Prod.fst)) (.set false (ms'.map Prod.snd))
          (by simp only [hp, Option.bind_some, hes']; rfl) ⟨rfl, forall₂_view_members hms'⟩ rfl (hsettled hms')

end

end Elle.Repr.Sets

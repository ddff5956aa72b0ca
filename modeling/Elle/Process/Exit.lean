import Elle.Process.Effects

/-!
# What an exit does

`process-exit` marks a process dead while it walks the links of those it has marked before. Its
work on the table is a list of deeds: it kills a process, which drops its I/O, its parks and its
name, or it tells a live process of a death (`exists_spread`).
-/

namespace Elle.Process

open List

inductive Deed where
  | kill (pid : Pid) (reason : Val)
  | tell (pid : Pid) (msg : Val) (made : Maker)
  deriving DecidableEq

namespace Deed

def killed : Deed → Option Pid
  | kill pid _ => some pid
  | tell .. => none

def death : Deed → Option (Pid × Val)
  | kill pid reason => some (pid, reason)
  | tell .. => none

def toldTo (q : Pid) : Deed → Option (Val × Maker)
  | tell pid msg made => if pid = q then some (msg, made) else none
  | kill .. => none

end Deed

def kills (ds : List Deed) : List Pid := ds.filterMap Deed.killed

def told (q : Pid) (ds : List Deed) : List (Val × Maker) := ds.filterMap (Deed.toldTo q)

section

variable {p q : Pid} {r m : Val} {made : Maker} {ds : List Deed}

@[simp] theorem kills_kill : kills (.kill p r :: ds) = p :: kills ds := rfl

@[simp] theorem kills_tell : kills (.tell p m made :: ds) = kills ds := rfl

@[simp] theorem told_nil : told q [] = [] := rfl

@[simp] theorem told_kill : told q (.kill p r :: ds) = told q ds := rfl

@[simp] theorem told_self : told q (.tell q m made :: ds) = (m, made) :: told q ds := by
  simp [told, Deed.toldTo]

theorem told_ne (h : p ≠ q) : told q (.tell p m made :: ds) = told q ds := by
  simp [told, Deed.toldTo, h]

theorem mem_told : (m, made) ∈ told q ds ↔ .tell q m made ∈ ds := by
  simp only [told, mem_filterMap]
  constructor
  · rintro ⟨_ | ⟨p, m', made'⟩, hmem, hd⟩
    · cases hd
    · simp only [Deed.toldTo, Option.ite_none_right_eq_some, Option.some.injEq, Prod.mk.injEq] at hd
      obtain ⟨rfl, rfl, rfl⟩ := hd
      exact hmem
  · exact fun hmem => ⟨_, hmem, if_pos rfl⟩

end

theorem count_told (ds : List Deed) (q : Pid) (m : Val) (made : Maker) :
    (told q ds).count (m, made) = ds.count (.tell q m made) := by
  induction ds with
  | nil => rfl
  | cons d rest ih =>
    cases d with
    | kill p r => simpa using ih
    | tell p m' made' =>
      by_cases hp : p = q
      · subst hp
        rw [told_self, count_cons, count_cons, ih]
        simp
      · rw [told_ne hp, ih, count_cons_of_ne (by simp [hp])]

theorem filter_told {ds : List Deed} {q : Pid} {made : Maker} {m : Val}
    (h : ∀ m', .tell q m' made ∈ ds → m' = m) :
    (told q ds).filter (fun e => e.2 = made) = List.replicate (ds.count (.tell q m made)) (m, made) := by
  rw [← count_told, ← filter_eq]
  refine List.filter_congr fun e he => ?_
  obtain ⟨m', made'⟩ := e
  by_cases hmade : made' = made
  · subst hmade
    simp [h m' (mem_told.1 he)]
  · simp [hmade]

theorem countP_told {ds : List Deed} {q : Pid} {made : Maker} {m : Val}
    (h : ∀ m', .tell q m' made ∈ ds → m' = m) :
    (told q ds).countP (fun e => e.2 = made) = ds.count (.tell q m made) := by
  rw [countP_eq_length_filter, filter_told h, length_replicate]

theorem mem_kills {ds : List Deed} {d : Pid} : d ∈ kills ds ↔ ∃ r, .kill d r ∈ ds := by
  simp only [kills, mem_filterMap]
  constructor
  · rintro ⟨_ | _, hmem, hd⟩
    · cases hd
      exact ⟨_, hmem⟩
    · cases hd
  · rintro ⟨r, hmem⟩
    exact ⟨_, hmem, rfl⟩

@[simp] theorem kills_append (ds es : List Deed) : kills (ds ++ es) = kills ds ++ kills es :=
  filterMap_append ..

theorem reason_unique {ds : List Deed} (h : (kills ds).Nodup) {d : Pid} {r r' : Val}
    (hr : .kill d r ∈ ds) (hr' : .kill d r' ∈ ds) : r = r' := by
  induction ds with
  | nil => cases hr
  | cons e rest ih =>
    cases e with
    | tell => exact ih h (by simpa using hr) (by simpa using hr')
    | kill x rx =>
      obtain ⟨hx, hrest⟩ := List.nodup_cons.1 (show (x :: kills rest).Nodup from h)
      rcases List.mem_cons.1 hr with he | hmem <;> rcases List.mem_cons.1 hr' with he' | hmem'
      · cases he
        cases he'
        rfl
      · cases he
        exact absurd (mem_kills.2 ⟨_, hmem'⟩) hx
      · cases he'
        exact absurd (mem_kills.2 ⟨_, hmem⟩) hx
      · exact ih hrest hmem hmem'

/-- A process entry after its death. -/
def Proc.buried (reason : Val) (p : Proc) : Proc :=
  { p with
    alive := false
    exitReason := if (imposed reason).getD false then some reason else p.exitReason
    name := if p.name.truthy then .nil else p.name }

namespace Core

variable (s : Core)

/-- The part of `process-exit` before it notifies anyone. -/
def kill (pid : Pid) (reason : Val) : Core :=
  let s := (s.update pid fun p => { p with alive := false }).note (.died pid reason)
  let s := s.update pid fun p =>
    { p with exitReason := if (imposed reason).getD false then some reason else p.exitReason }
  ((s.cancelProcessIo pid).cancelProcessFutex pid).unregisterName pid

def tell (pid : Pid) (msg : Val) (made : Maker) : Core :=
  let s := s.deliver pid msg made
  match made with
  | .monitor ref => s.update pid fun p => { p with monitors := p.monitors.del ref }
  | _ => s

def deed : Deed → Core
  | .kill pid reason => s.kill pid reason
  | .tell pid msg made => s.tell pid msg made

variable {s} {p q : Pid} {r : Val}

theorem foldl_cancelIo {ids : List Nat} (hnodup : ids.Nodup)
    (hpending : ∀ id ∈ ids, (s.ioPending.get? id).isSome) :
    ids.foldl cancelIo s = { s with
        ioPending := s.ioPending.filter fun e => e.1 ∉ ids
        log := s.log ++ ids.map .cancelled } := by
  induction ids generalizing s with
  | nil => simp [KeyMap.filter]
  | cons id rest ih =>
    obtain ⟨hid, hrest⟩ := List.nodup_cons.1 hnodup
    have hhead : s.cancelIo id = { s with ioPending := s.ioPending.del id }.note (.cancelled id) :=
      if_pos (hpending id (by simp))
    have hrest' : ∀ i ∈ rest, ((s.cancelIo id).ioPending.get? i).isSome := by
      intro i hi
      have hne : i ≠ id := fun h => hid (h ▸ hi)
      rw [hhead]
      simpa [note, hne] using hpending i (by simp [hi])
    rw [foldl_cons, ih hrest hrest', hhead]
    simp only [note, KeyMap.del, KeyMap.filter_filter, append_assoc, map_cons, singleton_append]
    congr 2
    funext e
    simp [bne, Bool.beq_eq_decide_eq]

theorem cancelIoWhere_eq (s : Core) (owned : IoEntry → Bool) :
    ∃ ids : List Nat, s.cancelIoWhere owned = { s with
        ioPending := s.ioPending.filter fun e => !owned e.2
        log := s.log ++ ids.map .cancelled } := by
  refine ⟨(s.ioPending.entries.filter fun e => owned e.2).map (·.1), ?_⟩
  rw [cancelIoWhere, foldl_cancelIo]
  · congr 1
    apply KeyMap.filter_congr
    rintro ⟨id, e⟩ he
    have hkey : id ∈ (s.ioPending.entries.filter fun e => owned e.2).map (·.1) ↔ owned e := by
      simp only [mem_map, mem_filter]
      constructor
      · rintro ⟨⟨id', e'⟩, ⟨he', howned⟩, rfl⟩
        have : e' = e := Option.some.inj <| (s.ioPending.get?_eq_some.2 he').symm.trans
          (s.ioPending.get?_eq_some.2 he)
        exact this ▸ howned
      · exact fun howned => ⟨_, ⟨he, howned⟩, rfl⟩
    simp [hkey]
  · exact s.ioPending.nodup.sublist (List.filter_sublist.map _)
  · intro id hid
    obtain ⟨⟨id', e⟩, he, rfl⟩ := List.mem_map.1 hid
    rw [s.ioPending.get?_eq_some.2 (List.mem_filter.1 he).1]
    rfl

theorem unregisterName_eq (s : Core) (p : Pid) :
    s.unregisterName p =
      { s.update p (fun x => { x with name := if x.name.truthy then .nil else x.name }) with
        names := if (s.proc p).name.truthy then Function.update s.names (s.proc p).name none
          else s.names } := by
  unfold unregisterName
  by_cases h : (s.proc p).name.truthy
  · have hproc : s.update p (fun x => { x with name := if x.name.truthy then .nil else x.name }) =
        s.update p fun x => { x with name := .nil } := update_congr (by simp [h])
    simp only [h, if_true, hproc]
    rfl
  · have hproc : s.update p (fun x => { x with name := if x.name.truthy then .nil else x.name }) = s :=
      (update_congr (by simp [h])).trans (update_id s p)
    simp [h, hproc]

theorem kill_eq (s : Core) (p : Pid) (r : Val) :
    ∃ ids : List Nat, s.kill p r = { s.update p (Proc.buried r) with
        ioPending := s.ioPending.filter fun e => e.2.pid != some p
        futexParked := s.futexParked.filter fun e => e.2.owner != p
        names := if (s.proc p).name.truthy then Function.update s.names (s.proc p).name none
          else s.names
        log := s.log ++ .died p r :: ids.map .cancelled } := by
  set s₁ := (s.update p fun x => { x with alive := false }).note (.died p r) with hs₁
  set s₂ := s₁.update p fun x =>
    { x with exitReason := if (imposed r).getD false then some r else x.exitReason } with hs₂
  obtain ⟨ids, hids⟩ := s₂.cancelIoWhere_eq fun e => e.pid == some p
  have hname : (s₂.proc p).name = (s.proc p).name := by simp [hs₂, hs₁]
  have hprocs : (s₂.update p fun x =>
      { x with name := if x.name.truthy then .nil else x.name }).procs =
        (s.update p (Proc.buried r)).procs := by
    simp only [hs₂, hs₁, update_note, update_update]
    rfl
  refine ⟨ids, ?_⟩
  change ((s₂.cancelIoWhere fun e => e.pid == some p).cancelProcessFutex p).unregisterName p = _
  rw [hids, unregisterName_eq]
  simp only [Core.mk.injEq]
  refine ⟨hprocs, rfl, rfl, ?_, rfl, rfl, rfl, rfl, rfl, rfl, rfl, ?_⟩
  · exact hname ▸ rfl
  · exact append_assoc ..

/-! ### Reads after a deed -/

theorem proc_kill (s : Core) (p q : Pid) (r : Val) :
    (s.kill p r).proc q = (s.update p (Proc.buried r)).proc q := by
  obtain ⟨ids, h⟩ := s.kill_eq p r
  rw [h]
  rfl

theorem isAlive_kill (s : Core) (p q : Pid) (r : Val) :
    (s.kill p r).isAlive q = (s.isAlive q && q != p) := by
  rw [isAlive, proc_kill, proc_update, isAlive]
  by_cases hq : q = p
  · subst hq
    by_cases hlt : q < s.procs.length
    · simp [hlt, Proc.buried]
    · have : (s.proc q).alive = false := Bool.eq_false_iff.2 fun h => hlt (lt_of_isAlive h)
      simp [hlt, this]
  · simp [hq]

theorem proc_deed_eq {β : Type*} (g : Proc → β)
    (h : ∀ x mbox alive exitReason name monitors,
      g { x with mbox, alive, exitReason, name, monitors } = g x)
    (s : Core) (d : Deed) (q : Pid) : g ((s.deed d).proc q) = g (s.proc q) := by
  cases d with
  | kill p r =>
    rw [deed, proc_kill]
    exact proc_update_eq fun x => h x x.mbox _ _ _ x.monitors
  | tell p m made =>
    have hdeliver : g ((s.deliver p m made).proc q) = g (s.proc q) := by
      unfold deliver
      split
      · exact proc_update_eq fun x => h x _ x.alive x.exitReason x.name x.monitors
      · rfl
    cases made with
    | monitor ref =>
      refine Eq.trans ?_ hdeliver
      exact proc_update_eq fun x => h x x.mbox x.alive x.exitReason x.name _
    | _ => exact hdeliver

theorem proc_deeds_eq {β : Type*} (g : Proc → β)
    (h : ∀ x mbox alive exitReason name monitors,
      g { x with mbox, alive, exitReason, name, monitors } = g x)
    (s : Core) (ds : List Deed) (q : Pid) : g ((ds.foldl deed s).proc q) = g (s.proc q) := by
  induction ds generalizing s with
  | nil => rfl
  | cons d rest ih => rw [foldl_cons, ih, proc_deed_eq g h]

theorem isAlive_tell (s : Core) (p q : Pid) (m : Val) (made : Maker) :
    (s.tell p m made).isAlive q = s.isAlive q := by
  unfold tell
  cases made <;> simp

theorem isAlive_deeds (s : Core) (ds : List Deed) (q : Pid) :
    (ds.foldl deed s).isAlive q = (s.isAlive q && decide (q ∉ kills ds)) := by
  induction ds generalizing s with
  | nil => simp [kills]
  | cons d rest ih =>
    rw [foldl_cons, ih]
    cases d with
    | kill p r =>
      rw [deed, isAlive_kill, kills_kill]
      by_cases hq : q = p
      · simp [hq]
      · simp [hq, bne_iff_ne.2 hq]
    | tell p m made =>
      rw [deed, isAlive_tell, kills_tell]

theorem isAlive_deeds_iff {ds : List Deed} : (ds.foldl deed s).isAlive q ↔ s.isAlive q ∧ q ∉ kills ds := by
  simp [isAlive_deeds]

theorem trapping_deeds (s : Core) (ds : List Deed) (q : Pid) :
    ((ds.foldl deed s).proc q).trapping = (s.proc q).trapping :=
  proc_deeds_eq Proc.trapping (fun _ _ _ _ _ _ => rfl) s ds q

theorem links_deeds (s : Core) (ds : List Deed) (q : Pid) :
    ((ds.foldl deed s).proc q).links = (s.proc q).links :=
  proc_deeds_eq Proc.links (fun _ _ _ _ _ _ => rfl) s ds q

theorem monitoredBy_deeds (s : Core) (ds : List Deed) (q : Pid) :
    ((ds.foldl deed s).proc q).monitoredBy = (s.proc q).monitoredBy :=
  proc_deeds_eq Proc.monitoredBy (fun _ _ _ _ _ _ => rfl) s ds q

end Core

/-! ## The deeds of one exit -/

/-- `d` falls with reason `r'` when `p` exits with reason `r`: it is `p`, or a live process that does
not trap exits and is linked to one that falls abnormally. -/
inductive Falls (s : Core) (p : Pid) (r : Val) : Pid → Val → Prop
  | root : Falls s p r p r
  | link {d q : Pid} {r' : Val} (h : Falls s p r d r') (hr : normal r' = false)
      (hq : q ∈ (s.proc d).links) (halive : s.isAlive q) (htrap : (s.proc q).trapping = false) :
      Falls s p r q (linkedReason d r')

theorem Falls.trapping {s : Core} {p d : Pid} {r r' : Val} (h : Falls s p r d r') (hd : d ≠ p) :
    (s.proc d).trapping = false := by
  cases h with
  | root => exact absurd rfl hd
  | link _ _ _ _ htrap => exact htrap

/-- The deeds `ds` of an exit of `p` in table `s`, while it notifies: of each process it has killed,
`d`, the links `heard d` and the monitors `watched d` have been served. -/
structure Spread (s : Core) (p : Pid) (r : Val) (heard : Pid → List Pid)
    (watched : Pid → List (Ref × Pid)) (ds : List Deed) : Prop where
  root : .kill p r ∈ ds
  nodup : (kills ds).Nodup
  alive : ∀ d ∈ kills ds, s.isAlive d
  falls : ∀ {d r'}, .kill d r' ∈ ds → Falls s p r d r'
  /-- A linked process that has to fall has fallen. -/
  closed : ∀ {d r'}, .kill d r' ∈ ds → normal r' = false → ∀ q ∈ heard d, s.isAlive q →
    (s.proc q).trapping = false → q ∈ kills ds
  /-- A linked process that traps exits was told once. -/
  exits : ∀ {d r'}, .kill d r' ∈ ds → ∀ q ∈ heard d, s.isAlive q → (s.proc q).trapping → q ≠ p →
    ds.count (.tell q (exitMsg d r') (.exit d)) = 1
  /-- A watcher that survives was told once. -/
  downs : ∀ {d r'}, .kill d r' ∈ ds → ∀ ref q, (ref, q) ∈ watched d → s.isAlive q → q ∉ kills ds →
    ds.count (.tell q (downMsg ref d r') (.monitor ref)) = 1
  /-- No one else was told anything. -/
  only : ∀ {q m made}, .tell q m made ∈ ds → s.isAlive q ∧ ∃ d r', .kill d r' ∈ ds ∧
    (made = .exit d ∧ m = exitMsg d r' ∧ q ∈ heard d ∧ (s.proc q).trapping ∨
      ∃ ref, made = .monitor ref ∧ m = downMsg ref d r' ∧ (ref, q) ∈ watched d)

namespace Spread

variable {s : Core} {p l : Pid} {r : Val} {heard : Pid → List Pid}
  {watched : Pid → List (Ref × Pid)} {ds es : List Deed}

theorem start (h : s.isAlive p) (hheard : heard p = []) (hwatched : watched p = []) :
    Spread s p r heard watched [.kill p r] where
  root := by simp
  nodup := by simp [kills, Deed.killed]
  alive := by simpa [kills, Deed.killed] using h
  falls hd := by
    simp only [mem_singleton, Deed.kill.injEq] at hd
    obtain ⟨rfl, rfl⟩ := hd
    exact .root
  closed hd _ q hq := by
    simp only [mem_singleton, Deed.kill.injEq] at hd
    simp [hd.1, hheard] at hq
  exits hd q hq := by
    simp only [mem_singleton, Deed.kill.injEq] at hd
    simp [hd.1, hheard] at hq
  downs hd ref q hq := by
    simp only [mem_singleton, Deed.kill.injEq] at hd
    simp [hd.1, hwatched] at hq
  only h := by simp at h

/-- The link `l` of `p` has been served too. -/
def hear (heard : Pid → List Pid) (p l : Pid) : Pid → List Pid :=
  Function.update heard p (heard p ++ [l])

theorem mem_hear {d q : Pid} : q ∈ hear heard p l d ↔ q ∈ heard d ∨ d = p ∧ q = l := by
  unfold hear
  by_cases hd : d = p
  · subst hd
    simp
  · simp [hd]

section

variable (h : Spread s p r heard watched ds)
include h

theorem reason_root {r' : Val} (hr : .kill p r' ∈ ds) : r' = r :=
  reason_unique h.nodup hr h.root

theorem not_trapping {d : Pid} (hd : d ∈ kills ds) (hne : d ≠ p) : (s.proc d).trapping = false := by
  obtain ⟨r', hr'⟩ := mem_kills.1 hd
  exact (h.falls hr').trapping hne

theorem count_exit_eq_zero {d q : Pid} {m : Val}
    (hd : d ∉ kills ds) : ds.count (.tell q m (.exit d)) = 0 := by
  refine List.count_eq_zero.2 fun hmem => hd ?_
  obtain ⟨-, d', r', hkill, ⟨hmade, -⟩ | ⟨ref, hmade, -⟩⟩ := h.only hmem
  · cases hmade
    exact mem_kills.2 ⟨r', hkill⟩
  · cases hmade

theorem count_down_eq_zero {d q : Pid} {ref : Ref} {r' : Val}
    (hd : ∀ r', .kill d r' ∈ ds → (ref, q) ∉ watched d) :
    ds.count (.tell q (downMsg ref d r') (.monitor ref)) = 0 := by
  refine List.count_eq_zero.2 fun hmem => ?_
  obtain ⟨-, d', r'', hkill, ⟨hmade, -⟩ | ⟨ref', hmade, hm, hw⟩⟩ := h.only hmem
  · cases hmade
  · obtain ⟨rfl, rfl, -⟩ := downMsg_inj.1 hm
    exact hd _ hkill hw

/-- A link that asks for nothing: the process is dead, or it ignores a normal exit. -/
theorem skip
    (hl : s.isAlive l → l ∈ kills ds ∨ (s.proc l).trapping = false ∧ normal r) :
    Spread s p r (hear heard p l) watched ds where
  root := h.root
  nodup := h.nodup
  alive := h.alive
  falls := h.falls
  closed {d r'} hd hr q hq halive htrap := by
    rcases mem_hear.1 hq with hq | ⟨rfl, rfl⟩
    · exact h.closed hd hr q hq halive htrap
    · rcases hl halive with hmem | ⟨-, hnormal⟩
      · exact hmem
      · rw [h.reason_root hd, hnormal] at hr
        cases hr
  exits {d r'} hd q hq halive htrap hne := by
    rcases mem_hear.1 hq with hq | ⟨rfl, rfl⟩
    · exact h.exits hd q hq halive htrap hne
    · rcases hl halive with hmem | ⟨hfalse, -⟩
      · rw [h.not_trapping hmem hne] at htrap
        cases htrap
      · rw [hfalse] at htrap
        cases htrap
  downs := h.downs
  only hmem := by
    obtain ⟨halive, d, r', hd, ⟨hmade, hm, hq, htrap⟩ | hdown⟩ := h.only hmem
    · exact ⟨halive, d, r', hd, .inl ⟨hmade, hm, mem_hear.2 (.inl hq), htrap⟩⟩
    · exact ⟨halive, d, r', hd, .inr hdown⟩

theorem tellExit (halive : s.isAlive l) (hl : l ∉ kills ds)
    (htrap : (s.proc l).trapping) (hheard : l ∉ heard p) :
    Spread s p r (hear heard p l) watched (ds ++ [Deed.tell l (exitMsg p r) (.exit p)]) := by
  have hkills : kills (ds ++ [Deed.tell l (exitMsg p r) (.exit p)]) = kills ds := by
    simp [kills, Deed.killed]
  have hmem {d r'} : .kill d r' ∈ ds ++ [Deed.tell l (exitMsg p r) (.exit p)] ↔ .kill d r' ∈ ds := by simp
  refine
    { root := hmem.2 h.root
      nodup := hkills ▸ h.nodup
      alive := hkills ▸ h.alive
      falls := fun hd => h.falls (hmem.1 hd)
      closed := fun {d r'} hd hr q hq ha ht => ?_
      exits := fun {d r'} hd q hq ha ht hne => ?_
      downs := fun {d r'} hd ref q hq ha hnot => ?_
      only := fun {q m made} hd => ?_ }
  · rw [hkills]
    rcases mem_hear.1 hq with hq | ⟨rfl, rfl⟩
    · exact h.closed (hmem.1 hd) hr q hq ha ht
    · rw [ht] at htrap
      cases htrap
  · have hkill := hmem.1 hd
    rw [count_append]
    rcases mem_hear.1 hq with hq | ⟨rfl, rfl⟩
    · have hne' : .tell l (exitMsg p r) (.exit p) ≠ Deed.tell q (exitMsg d r') (.exit d) := by
        rintro he
        obtain ⟨rfl, -, rfl⟩ := he
        exact hheard hq
      rw [h.exits hkill q hq ha ht hne, count_singleton, if_neg (by simpa using hne')]
    · have hzero : ds.count (.tell q (exitMsg d r') (.exit d)) = 0 := by
        refine List.count_eq_zero.2 fun htold => hheard ?_
        obtain ⟨-, d', r'', -, ⟨hmade, -, hq, -⟩ | ⟨ref, hmade, -⟩⟩ := h.only htold
        · cases hmade
          exact hq
        · cases hmade
      rw [hzero, h.reason_root hkill]
      simp
  · rw [count_append, h.downs (hmem.1 hd) ref q hq ha (hkills ▸ hnot), count_singleton, if_neg (by simp)]
  · rcases List.mem_append.1 hd with hd | hd
    · obtain ⟨ha, d, r', hkill, ⟨hmade, hm, hq, ht⟩ | hdown⟩ := h.only hd
      · exact ⟨ha, d, r', hmem.2 hkill, .inl ⟨hmade, hm, mem_hear.2 (.inl hq), ht⟩⟩
      · exact ⟨ha, d, r', hmem.2 hkill, .inr hdown⟩
    · simp only [mem_singleton, Deed.tell.injEq] at hd
      obtain ⟨rfl, rfl, rfl⟩ := hd
      exact ⟨halive, p, r, hmem.2 h.root, .inl ⟨rfl, rfl, mem_hear.2 (.inr ⟨rfl, rfl⟩), htrap⟩⟩

/-- A linked process falls, and takes with it all that are still alive and have to. -/
theorem fall
    (hheard : ∀ d ≠ p, heard d = (s.proc d).links.items)
    (hwatched : ∀ d ≠ p, watched d = (s.proc d).monitoredBy.entries)
    (halive : s.isAlive l) (hlink : l ∈ (s.proc p).links) (hl : l ∉ kills ds)
    (htrap : (s.proc l).trapping = false) (hr : normal r = false)
    (hes : Spread (ds.foldl Core.deed s) l (linkedReason p r) (fun d => (s.proc d).links.items)
      (fun d => (s.proc d).monitoredBy.entries) es) :
    Spread s p r (hear heard p l) watched (ds ++ es) := by
  have halive' {q : Pid} := @Core.isAlive_deeds_iff s q ds
  have htrap' := s.trapping_deeds ds
  have hnew {d : Pid} (hd : d ∈ kills es) : d ∉ kills ds ∧ d ≠ p :=
    have hnot := (halive'.1 (hes.alive d hd)).2
    ⟨hnot, fun he => hnot (he ▸ mem_kills.2 ⟨r, h.root⟩)⟩
  have hheard' {d q : Pid} (hne : d ≠ p) (hq : q ∈ hear heard p l d) : q ∈ (s.proc d).links.items := by
    rcases mem_hear.1 hq with hq | ⟨rfl, -⟩
    · exact hheard d hne ▸ hq
    · exact absurd rfl hne
  have hfalls {d r'} (hd : Falls (ds.foldl Core.deed s) l (linkedReason p r) d r') : Falls s p r d r' := by
    induction hd with
    | root => exact .link .root hr hlink halive htrap
    | link _ hr' hq ha ht ih =>
      exact .link ih hr' (s.links_deeds ds _ ▸ hq) (halive'.1 ha).1 ((htrap' _).symm.trans ht)
  refine
    { root := mem_append_left _ h.root
      nodup := by
        rw [kills_append]
        exact h.nodup.append hes.nodup fun d hd hd' => (hnew hd').1 hd
      alive := fun d hd => by
        rw [kills_append, mem_append] at hd
        exact hd.elim (h.alive d) fun hd => (halive'.1 (hes.alive d hd)).1
      falls := fun hd => (List.mem_append.1 hd).elim h.falls fun hd => hfalls (hes.falls hd)
      closed := fun {d r'} hd hr' q hq ha ht => ?_
      exits := fun {d r'} hd q hq ha ht hne => ?_
      downs := fun {d r'} hd ref q hq ha hnot => ?_
      only := fun {q m made} hd => ?_ }
  · rw [kills_append, mem_append]
    rcases List.mem_append.1 hd with hd | hd
    · rcases mem_hear.1 hq with hq | ⟨rfl, rfl⟩
      · exact .inl (h.closed hd hr' q hq ha ht)
      · exact .inr (mem_kills.2 ⟨_, hes.root⟩)
    · by_cases hq' : q ∈ kills ds
      · exact .inl hq'
      · have hne := (hnew (mem_kills.2 ⟨_, hd⟩)).2
        exact .inr (hes.closed hd hr' q (hheard' hne hq) (halive'.2 ⟨ha, hq'⟩) ((htrap' q).trans ht))
  · rw [count_append]
    have hqd : q ∉ kills ds := fun hmem => by
      rw [h.not_trapping hmem hne] at ht
      cases ht
    rcases List.mem_append.1 hd with hd | hd
    · have hzero : es.count (.tell q (exitMsg d r') (.exit d)) = 0 :=
        hes.count_exit_eq_zero fun hmem => (hnew hmem).1 (mem_kills.2 ⟨_, hd⟩)
      rcases mem_hear.1 hq with hq | ⟨rfl, rfl⟩
      · rw [h.exits hd q hq ha ht hne, hzero]
      · rw [htrap] at ht
        cases ht
    · have hd' := hnew (mem_kills.2 ⟨_, hd⟩)
      have hql : q ≠ l := fun he => by
        rw [he, htrap] at ht
        cases ht
      rw [h.count_exit_eq_zero hd'.1,
        hes.exits hd q (hheard' hd'.2 hq) (halive'.2 ⟨ha, hqd⟩) ((htrap' q).trans ht) hql]
  · rw [count_append]
    have hnot' : q ∉ kills ds ∧ q ∉ kills es := by simpa [not_or] using hnot
    rcases List.mem_append.1 hd with hd | hd
    · rw [h.downs hd ref q hq ha hnot'.1, hes.count_down_eq_zero]
      exact fun r'' hkill => absurd (mem_kills.2 ⟨_, hd⟩) (hnew (mem_kills.2 ⟨_, hkill⟩)).1
    · have hd' := hnew (mem_kills.2 ⟨_, hd⟩)
      rw [hwatched d hd'.2] at hq
      rw [hes.downs hd ref q hq (halive'.2 ⟨ha, hnot'.1⟩) hnot'.2, h.count_down_eq_zero]
      exact fun r'' hkill => absurd (mem_kills.2 ⟨_, hkill⟩) hd'.1
  · rcases List.mem_append.1 hd with hd | hd
    · obtain ⟨ha, d, r', hkill, ⟨hmade, hm, hq, ht⟩ | hdown⟩ := h.only hd
      · exact ⟨ha, d, r', mem_append_left _ hkill, .inl ⟨hmade, hm, mem_hear.2 (.inl hq), ht⟩⟩
      · exact ⟨ha, d, r', mem_append_left _ hkill, .inr hdown⟩
    · obtain ⟨ha, d, r', hkill, hwhy⟩ := hes.only hd
      have hne := (hnew (mem_kills.2 ⟨_, hkill⟩)).2
      refine ⟨(halive'.1 ha).1, d, r', mem_append_right _ hkill, ?_⟩
      rcases hwhy with ⟨hmade, hm, hq, ht⟩ | ⟨ref, hmade, hm, hw⟩
      · exact .inl ⟨hmade, hm, mem_hear.2 (.inl (hheard d hne ▸ hq)), (htrap' q).symm.trans ht⟩
      · exact .inr ⟨ref, hmade, hm, hwatched d hne ▸ hw⟩

end

/-- What `notify-monitors` tells of `p` in table `s`. -/
def downsOf (s : Core) (p : Pid) (r : Val) : List Deed :=
  ((s.proc p).monitoredBy.entries.filter fun e => s.isAlive e.2).map fun e =>
    .tell e.2 (downMsg e.1 p r) (.monitor e.1)

theorem mem_downsOf {d : Deed} : d ∈ downsOf s p r ↔ ∃ ref q,
    (ref, q) ∈ (s.proc p).monitoredBy.entries ∧ s.isAlive q ∧ d = .tell q (downMsg ref p r) (.monitor ref) := by
  simp only [downsOf, mem_map, mem_filter, Prod.exists]
  constructor
  · rintro ⟨ref, q, ⟨hmem, halive⟩, rfl⟩
    exact ⟨ref, q, hmem, halive, rfl⟩
  · rintro ⟨ref, q, hmem, halive, rfl⟩
    exact ⟨ref, q, ⟨hmem, halive⟩, rfl⟩

theorem nodup_downsOf : (downsOf s p r).Nodup := by
  refine List.Nodup.map ?_ ((s.proc p).monitoredBy.nodup.of_map.filter _)
  rintro ⟨ref, q⟩ ⟨ref', q'⟩ h
  simp only [Deed.tell.injEq, Maker.monitor.injEq] at h
  rw [h.1, h.2.2]

theorem kills_downsOf : kills (downsOf s p r) = [] := by
  simp [kills, downsOf, filterMap_eq_nil_iff, Deed.killed]

theorem tellDowns (h : Spread s p r heard watched ds) (hp : watched p = []) :
    Spread s p r heard (Function.update watched p (s.proc p).monitoredBy.entries)
      (ds ++ downsOf (ds.foldl Core.deed s) p r) := by
  have halive' {q : Pid} := @Core.isAlive_deeds_iff s q ds
  have hentries := s.monitoredBy_deeds ds p
  have hkills : kills (ds ++ downsOf (ds.foldl Core.deed s) p r) = kills ds := by
    rw [kills_append, kills_downsOf, append_nil]
  have hmem {d r'} : .kill d r' ∈ ds ++ downsOf (ds.foldl Core.deed s) p r ↔ .kill d r' ∈ ds := by
    rw [mem_append, mem_downsOf]
    simp
  have hnone {q : Pid} {m : Val} {d : Pid} :
      (downsOf (ds.foldl Core.deed s) p r).count (.tell q m (.exit d)) = 0 := by
    refine List.count_eq_zero.2 fun hd => ?_
    obtain ⟨ref, q', -, -, he⟩ := mem_downsOf.1 hd
    simp at he
  refine
    { root := hmem.2 h.root
      nodup := hkills ▸ h.nodup
      alive := hkills ▸ h.alive
      falls := fun hd => h.falls (hmem.1 hd)
      closed := fun hd => hkills ▸ h.closed (hmem.1 hd)
      exits := fun hd q hq ha ht hne => by
        rw [count_append, h.exits (hmem.1 hd) q hq ha ht hne, hnone]
      downs := fun {d r'} hd ref q hq ha hnot => ?_
      only := fun {q m made} hd => ?_ }
  · rw [hkills] at hnot
    rw [count_append]
    by_cases hdp : d = p
    · subst hdp
      rw [Function.update_self] at hq
      have hone : Deed.tell q (downMsg ref d r) (.monitor ref) ∈ downsOf (ds.foldl Core.deed s) d r :=
        mem_downsOf.2 ⟨ref, q, hentries ▸ hq, halive'.2 ⟨ha, hnot⟩, rfl⟩
      rw [h.reason_root (hmem.1 hd), count_eq_one_of_mem nodup_downsOf hone, h.count_down_eq_zero]
      simp [hp]
    · rw [Function.update_of_ne hdp] at hq
      rw [h.downs (hmem.1 hd) ref q hq ha hnot, List.count_eq_zero.2]
      intro hmem'
      obtain ⟨ref', q', -, -, he⟩ := mem_downsOf.1 hmem'
      simp only [Deed.tell.injEq, downMsg_inj] at he
      exact hdp he.2.1.2.1
  · rcases List.mem_append.1 hd with hd | hd
    · obtain ⟨ha, d, r', hkill, hexit | ⟨ref, hmade, hm, hw⟩⟩ := h.only hd
      · exact ⟨ha, d, r', hmem.2 hkill, .inl hexit⟩
      · have hne : d ≠ p := fun he => by simp [he, hp] at hw
        exact ⟨ha, d, r', hmem.2 hkill, .inr ⟨ref, hmade, hm, by rwa [Function.update_of_ne hne]⟩⟩
    · obtain ⟨ref, q', hentry, ha, he⟩ := mem_downsOf.1 hd
      cases he
      refine ⟨(halive'.1 ha).1, p, r, hmem.2 h.root, .inr ⟨ref, rfl, rfl, ?_⟩⟩
      rw [Function.update_self]
      exact hentries ▸ hentry

end Spread

namespace Core

variable {s : Core} {p q : Pid} {r : Val}

theorem exitWithin_succ {depth : Nat} (halive : s.isAlive p) (hr : imposed r ≠ none) :
    exitWithin (depth + 1) s p r =
      ((s.kill p r).notifyLinks (exitWithin depth) p r).notifyMonitors p r := by
  obtain ⟨b, hb⟩ := Option.ne_none_iff_exists'.1 hr
  rw [exitWithin, if_pos halive, hb]
  simp only [kill, hb, Option.getD_some]

theorem exitWithin_dead {depth : Nat} (h : s.isAlive p = false) : exitWithin depth s p r = s := by
  cases depth with
  | zero => rfl
  | succ depth =>
    rw [exitWithin, if_neg]
    simp [h]

/-- What an exit leaves alone besides the processes. -/
structure SameRest (s s' : Core) : Prop where
  length : s'.procs.length = s.procs.length
  ready : s'.ready = s.ready
  waiting : s'.waiting = s.waiting
  timers : s'.timers = s.timers
  clock : s'.clock = s.clock
  nextRef : s'.nextRef = s.nextRef
  joining : s'.joining = s.joining
  raised : s'.raised = s.raised

theorem SameRest.refl (s : Core) : SameRest s s := ⟨rfl, rfl, rfl, rfl, rfl, rfl, rfl, rfl⟩

theorem SameRest.trans {s₁ s₂ s₃ : Core} (h : SameRest s₁ s₂) (h' : SameRest s₂ s₃) : SameRest s₁ s₃ :=
  ⟨h'.length.trans h.length, h'.ready.trans h.ready, h'.waiting.trans h.waiting,
    h'.timers.trans h.timers, h'.clock.trans h.clock, h'.nextRef.trans h.nextRef,
    h'.joining.trans h.joining, h'.raised.trans h.raised⟩

theorem sameRest_update (s : Core) (p : Pid) (f : Proc → Proc) : SameRest s (s.update p f) :=
  ⟨length_update, rfl, rfl, rfl, rfl, rfl, rfl, rfl⟩

theorem sameRest_deliver (s : Core) (p : Pid) (m : Val) (made : Maker) :
    SameRest s (s.deliver p m made) := by
  unfold deliver
  split
  · exact (sameRest_update s p _).trans ⟨rfl, rfl, rfl, rfl, rfl, rfl, rfl, rfl⟩
  · exact .refl s

theorem sameRest_deed (s : Core) (d : Deed) : SameRest s (s.deed d) := by
  cases d with
  | kill p r =>
    obtain ⟨ids, h⟩ := s.kill_eq p r
    rw [deed, h]
    exact ⟨length_update, rfl, rfl, rfl, rfl, rfl, rfl, rfl⟩
  | tell p m made =>
    cases made with
    | monitor ref => exact (sameRest_deliver s p m _).trans (sameRest_update _ _ _)
    | _ => exact sameRest_deliver s p m _

theorem sameRest_deeds (s : Core) (ds : List Deed) : SameRest s (ds.foldl deed s) := by
  induction ds generalizing s with
  | nil => exact .refl s
  | cons d rest ih => exact (s.sameRest_deed d).trans (ih _)

def live (s : Core) : Finset Pid := (Finset.range s.procs.length).filter fun q => s.isAlive q

theorem mem_live : q ∈ s.live ↔ s.isAlive q := by
  simp only [live, Finset.mem_filter, Finset.mem_range, and_iff_right_iff_imp]
  exact lt_of_isAlive

theorem card_live_lt {ds : List Deed} (halive : s.isAlive p) (hp : p ∈ kills ds) :
    (ds.foldl deed s).live.card < s.live.card := by
  refine Finset.card_lt_card (Finset.ssubset_iff_of_subset ?_ |>.2 ⟨p, mem_live.2 halive, ?_⟩)
  · intro q hq
    rw [mem_live, isAlive_deeds] at hq
    exact mem_live.2 (Bool.and_eq_true_iff.1 hq).1
  · simp [mem_live, isAlive_deeds, hp]

theorem card_live_le (s : Core) : s.live.card ≤ s.procs.length :=
  (Finset.card_filter_le _ _).trans_eq (Finset.card_range _)

/-- The complete deeds of an exit. -/
abbrev Exits (s : Core) (p : Pid) (r : Val) (ds : List Deed) : Prop :=
  Spread s p r (fun d => (s.proc d).links.items) (fun d => (s.proc d).monitoredBy.entries) ds

theorem notifyMonitors_eq (s : Core) (p : Pid) (r : Val) :
    s.notifyMonitors p r = (Spread.downsOf s p r).foldl deed s := by
  unfold notifyMonitors Spread.downsOf
  generalize (s.proc p).monitoredBy.entries = entries
  induction entries generalizing s with
  | nil => rfl
  | cons e rest ih =>
    rw [foldl_cons]
    by_cases halive : s.isAlive e.2
    · have htell (q : Pid) : (s.tell e.2 (downMsg e.1 p r) (.monitor e.1)).isAlive q = s.isAlive q :=
        isAlive_tell ..
      rw [if_pos halive, filter_cons_of_pos (p := fun e : Ref × Pid => s.isAlive e.2) halive,
        map_cons, foldl_cons]
      refine (ih _).trans ?_
      simp only [show (s.deliver e.2 (downMsg e.1 p r) (.monitor e.1)).update e.2 _ =
        s.tell e.2 (downMsg e.1 p r) (.monitor e.1) from rfl, htell]
      rfl
    · rw [if_neg halive, filter_cons_of_neg (p := fun e : Ref × Pid => s.isAlive e.2) halive]
      exact ih s

variable {depth : Nat}

/-- The loop of `notify-links` over the links `rest` that are still to be served. -/
theorem exists_spread_links
    (ih : ∀ (s : Core) (p : Pid) (r : Val), s.isAlive p → imposed r ≠ none → s.live.card ≤ depth →
      ∃ ds, exitWithin depth s p r = ds.foldl deed s ∧ Exits s p r ds)
    (halive : s.isAlive p) (hdepth : s.live.card ≤ depth + 1) (rest : List Pid) :
    ∀ {heard watched ds}, Spread s p r heard watched ds →
      (∀ d ≠ p, heard d = (s.proc d).links.items) →
      (∀ d ≠ p, watched d = (s.proc d).monitoredBy.entries) →
      (∀ l ∈ rest, l ∈ (s.proc p).links) → (∀ l ∈ rest, l ∉ heard p) → rest.Nodup →
      ∃ heard' es, rest.foldl (fun s linked =>
          if s.isAlive linked then
            if (s.proc linked).trapping then s.deliver linked (exitMsg p r) (.exit p)
            else if normal r then s
            else exitWithin depth s linked (linkedReason p r)
          else s) (ds.foldl deed s) = es.foldl deed s ∧
        Spread s p r heard' watched es ∧
        (∀ d ≠ p, heard' d = (s.proc d).links.items) ∧ heard' p = heard p ++ rest := by
  induction rest with
  | nil =>
    intro heard watched ds h hheard _ _ _ _
    exact ⟨heard, ds, rfl, h, hheard, by simp⟩
  | cons l rest ihrest =>
    intro heard watched ds h hheard hwatched hlinks hnew hnodup
    obtain ⟨hl, hrest⟩ := List.nodup_cons.1 hnodup
    -- what is left to do once `l` has been served by the deeds `es`
    have happ : Spread.hear heard p l p ++ rest = heard p ++ l :: rest := by
      simp [Spread.hear]
    have hnext {es} (hes : Spread s p r (Spread.hear heard p l) watched es) :=
      happ ▸ ihrest hes (fun d hd => by rw [Spread.hear, Function.update_of_ne hd, hheard d hd]) hwatched
        (fun l' hl' => hlinks l' (mem_cons_of_mem _ hl'))
        (fun l' hl' => by
          simp only [Spread.mem_hear, true_and, not_or]
          exact ⟨hnew l' (mem_cons_of_mem _ hl'), fun he => hl (he ▸ hl')⟩) hrest
    rw [foldl_cons]
    by_cases ha : (ds.foldl deed s).isAlive l
    · obtain ⟨hal, hnot⟩ : s.isAlive l ∧ l ∉ kills ds := isAlive_deeds_iff.1 ha
      rw [if_pos ha, s.trapping_deeds]
      by_cases ht : (s.proc l).trapping
      · rw [if_pos ht]
        have hes := hnext (h.tellExit hal hnot ht (hnew l (by simp)))
        rwa [foldl_append] at hes
      · rw [if_neg ht]
        by_cases hr : normal r
        · rw [if_pos hr]
          exact hnext (h.skip fun _ => .inr ⟨Bool.eq_false_iff.2 ht, hr⟩)
        · rw [if_neg hr]
          have hcard : (ds.foldl deed s).live.card ≤ depth :=
            Nat.le_of_lt_succ (Nat.lt_of_lt_of_le (card_live_lt halive (mem_kills.2 ⟨r, h.root⟩)) hdepth)
          obtain ⟨es, hexit, hes⟩ := ih _ l (linkedReason p r) ha (by simp) hcard
          have hes' : Spread s p r (Spread.hear heard p l) watched (ds ++ es) :=
            h.fall hheard hwatched hal (hlinks l (by simp)) hnot (Bool.eq_false_iff.2 ht)
              (Bool.eq_false_iff.2 hr) (by simpa only [Exits, links_deeds, monitoredBy_deeds] using hes)
          have hrest := hnext hes'
          rwa [foldl_append, ← hexit] at hrest
    · rw [if_neg ha]
      refine hnext (h.skip fun hal => .inl ?_)
      by_contra hnot
      exact ha (isAlive_deeds_iff.2 ⟨hal, hnot⟩)

theorem exists_spread (depth : Nat) : ∀ (s : Core) (p : Pid) (r : Val), s.isAlive p →
    imposed r ≠ none → s.live.card ≤ depth →
    ∃ ds, exitWithin depth s p r = ds.foldl deed s ∧ Exits s p r ds := by
  induction depth with
  | zero =>
    intro s p r halive _ hcard
    have : s.live = ∅ := Finset.card_eq_zero.1 (Nat.le_zero.1 hcard)
    exact absurd (mem_live.2 halive) (this ▸ Finset.notMem_empty p)
  | succ depth ih =>
    intro s p r halive hr hcard
    set heard := Function.update (fun d => (s.proc d).links.items) p [] with hheard
    set watched := Function.update (fun d => (s.proc d).monitoredBy.entries) p [] with hwatched
    have hstart : Spread s p r heard watched [.kill p r] :=
      Spread.start halive (by simp [hheard]) (by simp [hwatched])
    obtain ⟨heard', ds, hfold, hspread, hheard', hp⟩ :=
      exists_spread_links ih halive hcard (s.proc p).links.items hstart
        (fun d hd => by simp [hheard, hd]) (fun d hd => by simp [hwatched, hd]) (fun l hl => hl)
        (fun l _ => by simp [hheard]) (s.proc p).links.nodup
    have hlinks : ((s.kill p r).proc p).links = (s.proc p).links :=
      proc_deed_eq Proc.links (fun _ _ _ _ _ _ => rfl) s (.kill p r) p
    have hall : heard' = fun d => (s.proc d).links.items := by
      funext d
      by_cases hd : d = p
      · rw [hd, hp]
        simp [hheard]
      · exact hheard' d hd
    have hwall : Function.update watched p (s.proc p).monitoredBy.entries =
        fun d => (s.proc d).monitoredBy.entries := by
      funext d
      by_cases hd : d = p
      · simp [hd]
      · simp [hwatched, hd]
    have hdown := hspread.tellDowns (by simp [hwatched])
    rw [hall, hwall] at hdown
    refine ⟨_, ?_, hdown⟩
    rw [exitWithin_succ halive hr, notifyLinks, hlinks, notifyMonitors_eq, foldl_append, ← hfold]
    rfl

theorem processExit_eq (halive : s.isAlive p) (hr : imposed r ≠ none) :
    ∃ ds, s.processExit p r = ds.foldl deed s ∧ Exits s p r ds :=
  exists_spread _ s p r halive hr s.card_live_le

theorem processExit_dead (h : s.isAlive p = false) : s.processExit p r = s := exitWithin_dead h

theorem processExit_raise (halive : s.isAlive p) (hr : imposed r = none) :
    s.processExit p r =
      { (s.update p fun x => { x with alive := false }).note (.died p r) with raised := true } := by
  unfold processExit
  obtain ⟨depth, hdepth⟩ : ∃ depth, s.procs.length = depth + 1 :=
    Nat.exists_eq_succ_of_ne_zero (Nat.ne_zero_of_lt (lt_of_isAlive halive))
  rw [hdepth, exitWithin, if_pos halive, hr]

theorem processExit_cases {P : Core → Prop} (s : Core) (p : Pid) (r : Val) (hdead : s.isAlive p = false → P s)
    (hraise : s.isAlive p → imposed r = none →
      P { (s.update p fun x => { x with alive := false }).note (.died p r) with raised := true })
    (hdeeds : ∀ ds, s.isAlive p → imposed r ≠ none → Exits s p r ds → P (ds.foldl deed s)) :
    P (s.processExit p r) := by
  cases halive : s.isAlive p with
  | false =>
    rw [processExit_dead halive]
    exact hdead halive
  | true =>
    by_cases hr : imposed r = none
    · rw [processExit_raise halive hr]
      exact hraise halive hr
    · obtain ⟨ds, heq, hds⟩ := processExit_eq halive hr
      exact heq ▸ hdeeds ds halive hr hds

theorem raised_processExit : (s.processExit p r).raised = (s.raised || s.isAlive p && (imposed r).isNone) :=
  s.processExit_cases (P := fun s' => s'.raised = (s.raised || s.isAlive p && (imposed r).isNone)) p r
    (fun hdead => by simp [hdead]) (fun halive hr => by simp [halive, hr])
    fun ds halive hr _ => by simp [halive, hr, (s.sameRest_deeds ds).raised]

end Core

end Elle.Process

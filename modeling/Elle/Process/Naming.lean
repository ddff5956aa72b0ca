import Elle.Process.Acts

/-!
# Registered names

The table `names` is what `whereis` reads; an exit looks at the `:name` of the dying process only.
`register` writes both, but it does not clear what stood in either before, so a process can have more
names than it knows, and know a name that is another's by now.
-/

namespace Elle.Process

open List

namespace Core

variable {s s' s₀ : Core} {st : Step} {n : Val} {p q : Pid}

/-- What the deaths from `s₀` to `s` have made of the names. -/
structure Left (s₀ s : Core) : Prop where
  length : s₀.procs.length ≤ s.procs.length
  names : ∀ {n p}, s.names n = some p ↔
    s₀.names n = some p ∧ ∀ d, s₀.isAlive d → s.isAlive d = false → ¬(n.truthy ∧ (s₀.proc d).name = n)
  name : ∀ {d}, s.isAlive d → (s.proc d).name = (s₀.proc d).name
  /-- A process of `s` is one of `s₀`, or has no name. -/
  alive : ∀ {d}, s.isAlive d → s₀.isAlive d ∨ (s₀.proc d).name = .nil

namespace Left

theorem of_eq (h : Left s₀ s) (hlength : s'.procs.length = s.procs.length) (hnames : s'.names = s.names)
    (halive : ∀ q, s'.isAlive q = s.isAlive q) (hname : ∀ q, (s'.proc q).name = (s.proc q).name) :
    Left s₀ s' where
  length := hlength ▸ h.length
  names {n p} := by simpa only [hnames, halive] using h.names (n := n) (p := p)
  name {d} hd := (hname d).trans (h.name (halive d ▸ hd))
  alive {d} hd := h.alive (halive d ▸ hd)

theorem refl (s : Core) : Left s s :=
  ⟨le_rfl, ⟨fun h => ⟨h, fun d hd hdead => by simp [hd] at hdead⟩, And.left⟩, fun _ => rfl, .inl⟩

theorem same (h : Left s₀ s) (hprocs : s'.procs = s.procs) (hnames : s'.names = s.names) : Left s₀ s' :=
  h.of_eq (by rw [hprocs]) hnames (by simp [isAlive, proc, hprocs]) (by simp [proc, hprocs])

theorem update (h : Left s₀ s) {f : Proc → Proc} (hf : ∀ x, (f x).alive = x.alive ∧ (f x).name = x.name) :
    Left s₀ (s.update p f) :=
  h.of_eq length_update rfl (fun _ => isAlive_update _ _ _ fun x => (hf x).1) fun _ =>
    name_update _ _ _ fun x => (hf x).2

theorem spawn (h : Left s₀ s) : Left s₀ s.spawn.1 := by
  have hlen : s₀.procs.length ≤ s.spawn.1.procs.length := h.length.trans (by simp [Core.spawn])
  have hnil : (s₀.proc s.procs.length).name = .nil := by rw [proc_of_le h.length]
  refine ⟨hlen, h.names.trans (and_congr_right fun _ => forall₂_congr fun d hd => ?_), fun {d} hd => ?_, fun {d} hd => ?_⟩
  · have hne := Nat.ne_of_lt ((lt_of_isAlive hd).trans_le h.length)
    rw [isAlive, isAlive, proc_spawn_ne hne]
  all_goals by_cases hne : d = s.procs.length
  · rw [hne, proc_spawn_self, hnil]
  · rw [proc_spawn_ne hne, h.name (isAlive_of_spawn hne hd)]
  · exact .inr (hne ▸ hnil)
  · exact h.alive (isAlive_of_spawn hne hd)

theorem name_deeds {ds : List Deed} (hq : q ∉ kills ds) : ((ds.foldl deed s).proc q).name = (s.proc q).name := by
  induction ds generalizing s with
  | nil => rfl
  | cons d rest ih =>
    cases d with
    | kill p r =>
      rw [kills_kill, mem_cons, not_or] at hq
      rw [foldl_cons, ih hq.2, deed, name_kill, if_neg fun h => hq.1 h.1]
    | tell p m made =>
      rw [foldl_cons, ih (kills_tell ▸ hq), deed, (tell_name s p m made).2]

/-- The dead of `s` were alive in `s₀`, or had no name to give up. -/
theorem exit (h : Left s₀ s) {r : Val} (hr : (s.processExit p r).raised = false) :
    Left s₀ (s.processExit p r) := by
  refine s.processExit_cases (P := fun s' => s'.raised = false → Left s₀ s') p r (fun _ _ => h)
    (fun _ _ hr => absurd hr (by simp)) (fun ds _ _ hds _ => ?_) hr
  have halive {d : Pid} := @isAlive_deeds_iff s d ds
  refine ⟨(s.sameRest_deeds ds).length ▸ h.length, fun {n p} => ?_, fun {d} hd => ?_, fun hd => h.alive (halive.1 hd).1⟩
  · rw [names_deeds, h.names, and_assoc, and_congr_right_iff]
    refine fun _ => ⟨fun ⟨hgone, hkills⟩ d hd hdead => ?_, fun hgone => ⟨fun d hd hdead => ?_, fun d hd hname => ?_⟩⟩
    · by_cases hs : s.isAlive d
      · rw [← h.name hs]
        exact hkills d (by_contra fun hd' => Bool.eq_false_iff.1 hdead (halive.2 ⟨hs, hd'⟩))
      · exact hgone d hd (Bool.eq_false_iff.2 hs)
    · exact hgone d hd (Bool.eq_false_iff.2 fun hd' => Bool.eq_false_iff.1 hdead (halive.1 hd').1)
    · have hs := hds.alive d hd
      rw [h.name hs] at hname
      rcases h.alive hs with hd' | hnil
      · exact hgone d hd' (Bool.eq_false_iff.2 fun hd'' => (halive.1 hd'').2 hd) hname
      · rw [← hname.2, hnil] at hname
        cases hname.1
  · rw [name_deeds (halive.1 hd).2, h.name (halive.1 hd).1]

theorem blind (s₀ : Core) : Blind False (Left s₀) where
  sched h hprocs _ hnames _ := h.same hprocs hnames
  update hf h := h.update fun x => ⟨congrArg (·.1) (hf x), congrArg (·.2.2.2.2) (hf x)⟩
  note _ h := h.same rfl rfl
  calm hc hn h := h.of_eq hc.length (hn.resolve_left id).1 hc.alive (hn.resolve_left id).2
  addLink _ _ h := (h.update (by simp)).update (by simp)
  removeLink h := (h.update (by simp)).update (by simp)
  monitor {s w t} _ h := by
    have h₀ : Left s₀ ({ s with nextRef := s.nextRef + 1 }.note (.monitored s.nextRef w t)) := h.same rfl rfl
    exact s.addMonitor_cases (fun _ => (h₀.update (by simp)).update (by simp))
      (deliver_cases _ (fun _ => (h₀.update (by simp)).same rfl rfl) h₀)
  demonitor {s w ref} _ h := by
    have h₁ : Left s₀ ((s.update w fun x => { x with monitors := x.monitors.del ref }).note (.demonitored ref)) :=
      (h.update (by simp)).same rfl rfl
    exact s.removeMonitor_cases h fun _ _ => ⟨h₁, h₁.update (by simp)⟩
  spawn h := h.spawn
  exit hr h := h.exit hr

end Left

theorem turn_command (hq : s.isAlive q) (cmd : Command) : ∃ s₁ : Core,
    s.turn q (.command cmd) = s₁.handleCmd q cmd ∧ s₁.names = s.names ∧ ∀ p, s₁.isAlive p = s.isAlive p :=
  ⟨_, if_pos hq, rfl, fun _ => isAlive_update _ _ _ fun _ => rfl⟩

theorem step_of_yields {cmd : Command} (h : s.Yields st q cmd) :
    ∃ s₁ : Core, s.step st = s₁.handleCmd q cmd ∧ s₁.names = s.names ∧ ∀ p, s₁.isAlive p = s.isAlive p := by
  obtain ⟨hr, hq, ⟨rfl, hmem⟩ | ⟨id, rfl, hget⟩⟩ := h
  all_goals rw [step, if_neg (by simp [hr])]
  · rw [if_pos hmem]
    exact turn_command (s := { s with ready := s.ready.erase q }) hq cmd
  · rw [completeIo, hget]
    exact turn_command (s := { s with ioPending := s.ioPending.del id }) hq cmd

theorem Yields.unique {c c' : Command} (h : s.Yields st p c) (h' : s.Yields st q c') : p = q ∧ c = c' := by
  obtain ⟨-, -, ⟨rfl, -⟩ | ⟨id, rfl, hget⟩⟩ := h
  · obtain ⟨-, -, ⟨heq, -⟩ | ⟨_, heq, -⟩⟩ := h' <;> cases heq
    exact ⟨rfl, rfl⟩
  · obtain ⟨-, -, ⟨heq, -⟩ | ⟨_, heq, hget'⟩⟩ := h' <;> cases heq
    rw [hget] at hget'
    cases hget'
    exact ⟨rfl, rfl⟩

/-- A step registers or unregisters one name, or its deaths alone tell what becomes of the names. -/
theorem named_step (hr : (s.step st).raised = false) :
    (∃ q n holder, s.isAlive q ∧ (∀ p, (s.step st).isAlive p = s.isAlive p) ∧
      (s.step st).names = Function.update s.names n holder ∧
        (s.Yields st q (.register n) ∧ holder = some q ∨ s.Yields st q (.unregister n) ∧ holder = none)) ∨
    (∀ q n, ¬s.Yields st q (.register n) ∧ ¬s.Yields st q (.unregister n)) ∧ Left s (s.step st) := by
  have hset {q : Pid} {n : Val} {holder : Option Pid} {name : Val} {s₁ : Core} (hnames : s₁.names = s.names)
      (halive : ∀ p, s₁.isAlive p = s.isAlive p)
      (hstep : s.step st = ({ s₁ with names := Function.update s₁.names n holder }.update q fun x =>
        { x with name := name }).resume q okVal) : (∀ p, (s.step st).isAlive p = s.isAlive p) ∧
      (s.step st).names = Function.update s.names n holder := by
    rw [hstep, ← hnames]
    refine ⟨fun p => ?_, resume_cases (P := fun s' => s'.names = _) _ (fun _ => rfl) rfl⟩
    rw [isAlive_resume, isAlive_update _ _ _ (by simp)]
    exact halive p
  by_cases hn : ∃ q n, s.Yields st q (.register n) ∨ s.Yields st q (.unregister n)
  · obtain ⟨q, n, hy⟩ := hn
    refine .inl ⟨q, n, ?_⟩
    rcases hy with hy | hy <;> obtain ⟨s₁, hstep, hnames, halive⟩ := step_of_yields hy
    · exact ⟨some q, hy.2.1, (hset hnames halive hstep).1, (hset hnames halive hstep).2, .inl ⟨hy, rfl⟩⟩
    · exact ⟨none, hy.2.1, (hset hnames halive hstep).1, (hset hnames halive hstep).2, .inr ⟨hy, rfl⟩⟩
  · push Not at hn
    refine .inr ⟨hn, (Left.blind s).closed.step (fun q cmd hy hren => ?_) hr (.refl s)⟩
    cases cmd with
    | register n => exact (hn q n).1 hy
    | unregister n => exact (hn q n).2 hy
    | _ => cases hren

/-- Of the commands of `p` about the name `n`, the last was to register it. -/
def Registered (steps : List Step) (p : Pid) (n : Val) : Prop :=
  ∃ before st after, steps = before ++ st :: after ∧ (({} : Core).run before).Yields st p (.register n) ∧
    ∀ mid st' rest, after = mid ++ st' :: rest →
      ¬(({} : Core).run (before ++ st :: mid)).Yields st' p (.unregister n)

theorem Registered.concat {steps : List Step} (h : Registered steps p n)
    (hno : ¬(({} : Core).run steps).Yields st p (.unregister n)) : Registered (steps ++ [st]) p n := by
  obtain ⟨before, st₀, after, rfl, hy, hafter⟩ := h
  refine ⟨before, st₀, after ++ [st], by simp, hy, fun mid st' rest heq => ?_⟩
  rcases eq_nil_or_concat rest with rfl | ⟨rest, x, rfl⟩
  · obtain ⟨rfl, rfl⟩ : after = mid ∧ st = st' := by simpa using heq
    exact hno
  · rw [concat_eq_append, ← cons_append, ← append_assoc] at heq
    exact hafter mid st' rest (append_inj_left' heq rfl)

/-- The table of names after the steps: each name means a live process that has registered it, and the
last step took no name from a live process but by a command about that name. -/
structure NamesExact (steps : List Step) : Prop where
  held : ∀ n p, (({} : Core).run steps).names n = some p →
    (({} : Core).run steps).isAlive p ∧ Registered steps p n
  kept : ∀ before st, steps = before ++ [st] → ∀ n p, (({} : Core).run before).names n = some p →
    (({} : Core).run steps).isAlive p →
    (∀ q, ¬(({} : Core).run before).Yields st q (.register n) ∧
      ¬(({} : Core).run before).Yields st q (.unregister n)) → (({} : Core).run steps).names n = some p

def Dies (s : Core) (st : Step) (p : Pid) : Prop := s.isAlive p ∧ (s.step st).isAlive p = false

/-- The process a name means dies in the step exactly when one whose `:name` it is does. -/
def NamesApt (s : Core) (st : Step) : Prop :=
  ∀ n p, s.names n = some p → (s.Dies st p ↔ ∃ d, s.Dies st d ∧ n.truthy ∧ (s.proc d).name = n)

theorem NamesExact.apt {steps : List Step} (h : NamesExact steps) (h' : NamesExact (steps ++ [st]))
    (hr : (({} : Core).run (steps ++ [st])).raised = false) : NamesApt (({} : Core).run steps) st := by
  intro n p hn
  have hlive := (h.held n p hn).1
  have hkept := h'.kept steps st rfl n p hn
  have hheld := h'.held n p
  rw [run_concat] at hr hkept hheld
  rcases named_step hr with ⟨_, _, _, _, hsame, -⟩ | ⟨hnot, hleft⟩
  · have hno {d} : ¬Dies (({} : Core).run steps) st d := fun hd => by
      rw [Dies, hsame, hd.1] at hd
      cases hd.2
    exact ⟨fun hd => absurd hd hno, fun ⟨d, hd, _⟩ => absurd hd hno⟩
  · refine ⟨fun hd => by_contra fun hno => ?_, fun ⟨d, hd, hname⟩ => ⟨hlive, Bool.eq_false_iff.2 fun hp => ?_⟩⟩
    · have hstill := hleft.names.2 ⟨hn, fun d ha hdead hname => hno ⟨d, ⟨ha, hdead⟩, hname⟩⟩
      exact Bool.eq_false_iff.1 hd.2 (hheld hstill).1
    · exact (hleft.names.1 (hkept hp fun q => hnot q n)).2 d hd.1 hd.2 hname

theorem NamesExact.concat {steps : List Step} (h : NamesExact steps)
    (hr : (({} : Core).run (steps ++ [st])).raised = false) (hapt : NamesApt (({} : Core).run steps) st) :
    NamesExact (steps ++ [st]) := by
  rw [run_concat] at hr
  rcases named_step hr with ⟨q, m, holder, hq, hsame, hnames, hy⟩ | ⟨hnot, hleft⟩
  · -- a command about the name `m`
    refine ⟨fun n p hn => ?_, fun before st' heq n p hn _ hfree => ?_⟩
    · rw [run_concat, hnames, Function.update_apply] at hn
      rw [run_concat, hsame]
      split at hn
      next hnm =>
        subst hnm hn
        rcases hy with ⟨hy, hholder⟩ | ⟨-, hholder⟩ <;> cases hholder
        exact ⟨hq, steps, st, [], rfl, hy, by simp⟩
      next hnm =>
        have hno : ¬(({} : Core).run steps).Yields st p (.unregister n) := fun hy' => by
          rcases hy with ⟨hy, -⟩ | ⟨hy, -⟩ <;> cases (hy.unique hy').2
          exact hnm rfl
        exact ⟨(h.held n p hn).1, (h.held n p hn).2.concat hno⟩
    · obtain ⟨rfl, rfl⟩ : steps = before ∧ st = st' := by simpa using heq
      have hnm : n ≠ m := fun hnm => hy.elim (fun hy => (hfree q).1 (hnm ▸ hy.1)) fun hy => (hfree q).2 (hnm ▸ hy.1)
      rw [run_concat, hnames, Function.update_of_ne hnm, hn]
  · refine ⟨fun n p hn => ?_, fun before st' heq n p hn hp _ => ?_⟩
    · rw [run_concat] at hn ⊢
      obtain ⟨hn, hgone⟩ := hleft.names.1 hn
      obtain ⟨hp, hreg⟩ := h.held n p hn
      refine ⟨by_contra fun hdead => ?_, hreg.concat (hnot p n).2⟩
      obtain ⟨d, hd, hname⟩ := (hapt n p hn).1 ⟨hp, Bool.eq_false_iff.2 hdead⟩
      exact hgone d hd.1 hd.2 hname
    · obtain ⟨rfl, rfl⟩ : steps = before ∧ st = st' := by simpa using heq
      rw [run_concat] at hp ⊢
      refine hleft.names.2 ⟨hn, fun d ha hdead hname => ?_⟩
      exact Bool.eq_false_iff.1 ((hapt n p hn).2 ⟨d, ⟨ha, hdead⟩, hname⟩).2 hp

end Core

end Elle.Process

import Elle.Process.Acts

/-!
# Monitors over a whole run

A monitor is in two tables, under its ref: that of the watcher and that of the target. `Watch` says
how the tables and the log agree: a monitor that is still in its watcher's table has a live target
and has sent nothing; every other one has been removed by its watcher or has sent one `:DOWN`.
-/

namespace Elle.Process

open List

namespace Core

/-- How many messages the monitor `ref` has sent to `w`. -/
def downs (s : Core) (w : Pid) (ref : Ref) : Nat :=
  (s.deliveries w).countP fun e => e.2 = .monitor ref

/-- Nothing has happened to the monitors. -/
structure Quiet (s s' : Core) : Prop where
  length : s'.procs.length = s.procs.length
  alive : ∀ q, s'.isAlive q = s.isAlive q
  monitors : ∀ q, (s'.proc q).monitors = (s.proc q).monitors
  monitoredBy : ∀ q, (s'.proc q).monitoredBy = (s.proc q).monitoredBy
  nextRef : s.nextRef ≤ s'.nextRef
  log : ∃ es, s'.log = s.log ++ es ∧ ∀ e ∈ es, e.unwatched

namespace Quiet

variable {s s' : Core}

theorem of_procs (hprocs : s'.procs = s.procs) (hlog : s'.log = s.log)
    (hnext : s.nextRef ≤ s'.nextRef) : Quiet s s' where
  length := by rw [hprocs]
  alive q := by simp [isAlive, proc, hprocs]
  monitors q := by simp [proc, hprocs]
  monitoredBy q := by simp [proc, hprocs]
  nextRef := hnext
  log := ⟨[], by simp [hlog]⟩

theorem of_calm (h : Calm s s') : Quiet s s' :=
  ⟨h.length, h.alive, h.monitors, h.monitoredBy, h.nextRef.ge, [], by simp [h.log]⟩

theorem update {f : Proc → Proc} (s : Core) (p : Pid)
    (hf : ∀ x, (f x).alive = x.alive ∧ (f x).monitors = x.monitors ∧ (f x).monitoredBy = x.monitoredBy) :
    Quiet s (s.update p f) where
  length := length_update
  alive _ := isAlive_update _ _ _ fun x => (hf x).1
  monitors _ := monitors_update _ _ _ fun x => (hf x).2.1
  monitoredBy _ := monitoredBy_update _ _ _ fun x => (hf x).2.2
  nextRef := le_rfl
  log := ⟨[], by simp [Core.update]⟩

theorem note (s : Core) {e : Event} (he : e.unwatched) : Quiet s (s.note e) :=
  ⟨rfl, fun _ => rfl, fun _ => rfl, fun _ => rfl, le_rfl, [e], rfl, by simpa using he⟩

theorem downs (h : Quiet s s') (w : Pid) (ref : Ref) : s'.downs w ref = s.downs w ref := by
  obtain ⟨es, hes, hq⟩ := h.log
  have hnone : ((es.filterMap (Event.deliveredTo w)).countP fun e => e.2 = .monitor ref) = 0 := by
    rw [countP_eq_zero]
    intro x hx hmade
    obtain ⟨e, he, hx⟩ := List.mem_filterMap.1 hx
    have hquiet := hq e he
    cases e with
    | delivered p m made =>
      simp only [Event.deliveredTo, Option.ite_none_right_eq_some, Option.some.injEq] at hx
      obtain ⟨-, rfl⟩ := hx
      obtain rfl : made = .monitor ref := of_decide_eq_true hmade
      cases hquiet
    | _ => cases hx
  rw [Core.downs, deliveries, hes, filterMap_append, countP_append, hnone]
  rfl

theorem mem_log (h : Quiet s s') {e : Event} (he : e.unwatched = false) : e ∈ s'.log ↔ e ∈ s.log := by
  obtain ⟨es, hes, hq⟩ := h.log
  rw [hes, mem_append, or_iff_left]
  intro hmem
  rw [hq e hmem] at he
  cases he

end Quiet

/-- How the tables of monitors agree with what has happened. -/
structure Watch (s : Core) : Prop where
  fresh : ∀ {ref w t}, .monitored ref w t ∈ s.log → ref < s.nextRef ∧ w < s.procs.length
  removed : ∀ {ref}, .demonitored ref ∈ s.log → ref < s.nextRef
  unique : ∀ {ref w t w' t'}, .monitored ref w t ∈ s.log → .monitored ref w' t' ∈ s.log → w = w' ∧ t = t'
  /-- A message of a monitor went to its watcher. -/
  sent : ∀ {ref w m}, .delivered w m (.monitor ref) ∈ s.log → ∃ t, .monitored ref w t ∈ s.log
  watching : ∀ {ref w t}, s.isAlive w → (s.proc w).monitors.get? ref = some t →
    .monitored ref w t ∈ s.log ∧ s.isAlive t ∧ .demonitored ref ∉ s.log ∧
      (s.proc t).monitoredBy.get? ref = some w
  watched : ∀ {ref w t}, s.isAlive t → (s.proc t).monitoredBy.get? ref = some w →
    .monitored ref w t ∈ s.log ∧ .demonitored ref ∉ s.log ∧
      (s.isAlive w → (s.proc w).monitors.get? ref = some t)
  /-- A monitor is removed, or active, or has ended in one message. -/
  ended : ∀ {ref w t}, s.isAlive w → .monitored ref w t ∈ s.log →
    .demonitored ref ∈ s.log ∧ s.downs w ref = 0 ∨
    (s.proc w).monitors.get? ref = some t ∧ s.downs w ref = 0 ∨
    .demonitored ref ∉ s.log ∧ (s.proc w).monitors.get? ref = none ∧ s.downs w ref = 1

namespace Watch

variable {s s' : Core}

section

variable (h : Watch s)
include h

theorem quiet (hq : Quiet s s') : Watch s' := by
  have hm {ref w t} : .monitored ref w t ∈ s'.log ↔ .monitored ref w t ∈ s.log := hq.mem_log rfl
  have hd {ref} : .demonitored ref ∈ s'.log ↔ .demonitored ref ∈ s.log := hq.mem_log rfl
  constructor
  · intro ref w t hmem
    have := h.fresh (hm.1 hmem)
    exact ⟨this.1.trans_le hq.nextRef, hq.length ▸ this.2⟩
  · exact fun hmem => (h.removed (hd.1 hmem)).trans_le hq.nextRef
  · exact fun hmem hmem' => h.unique (hm.1 hmem) (hm.1 hmem')
  · intro ref w m hmem
    obtain ⟨t, ht⟩ := h.sent ((hq.mem_log rfl).1 hmem)
    exact ⟨t, hm.2 ht⟩
  · intro ref w t hw hget
    simpa only [hm, hd, hq.alive, hq.monitoredBy] using h.watching (hq.alive w ▸ hw) (hq.monitors w ▸ hget)
  · intro ref w t ht hget
    simpa only [hm, hd, hq.alive, hq.monitors] using h.watched (hq.alive t ▸ ht) (hq.monitoredBy t ▸ hget)
  · intro ref w t hw hmem
    simpa only [hd, hq.downs, hq.monitors] using h.ended (hq.alive w ▸ hw) (hm.1 hmem)

theorem spawn : Watch s.spawn.1 := by
  have hproc {q : Pid} (hq : q ≠ s.procs.length) : s.spawn.1.proc q = s.proc q := proc_spawn_ne hq
  have hself : s.spawn.1.proc s.procs.length = {} := proc_spawn_self
  have halive {q : Pid} (hq : s.isAlive q) : s.spawn.1.isAlive q := isAlive_spawn hq
  constructor
  · intro ref w t hmem
    have := h.fresh hmem
    exact ⟨this.1, this.2.trans (by simp [Core.spawn])⟩
  · exact h.removed
  · exact h.unique
  · exact h.sent
  · intro ref w t hw hget
    by_cases hne : w = s.procs.length
    · rw [hne, hself] at hget
      cases hget
    · rw [hproc hne] at hget
      obtain ⟨h1, h2, h3, h4⟩ := h.watching (isAlive_of_spawn hne hw) hget
      refine ⟨h1, halive h2, h3, ?_⟩
      rwa [hproc (Nat.ne_of_lt (lt_of_isAlive h2))]
  · intro ref w t ht hget
    by_cases hne : t = s.procs.length
    · rw [hne, hself] at hget
      cases hget
    · rw [hproc hne] at hget
      obtain ⟨h1, h2, h3⟩ := h.watched (isAlive_of_spawn hne ht) hget
      have hw := Nat.ne_of_lt (h.fresh h1).2
      refine ⟨h1, h2, fun ha => ?_⟩
      rw [hproc hw]
      exact h3 (isAlive_of_spawn hw ha)
  · intro ref w t hw hmem
    have hne := Nat.ne_of_lt (h.fresh hmem).2
    rw [hproc hne]
    exact h.ended (isAlive_of_spawn hne hw) hmem

theorem not_monitored {w t : Pid} : .monitored s.nextRef w t ∉ s.log :=
  fun hmem => Nat.lt_irrefl _ (h.fresh hmem).1

theorem downs_eq_zero (w : Pid) : s.downs w s.nextRef = 0 := by
  rw [Core.downs, countP_eq_zero]
  rintro ⟨m, made⟩ hmem hmade
  obtain rfl : made = .monitor s.nextRef := of_decide_eq_true hmade
  obtain ⟨t, ht⟩ := h.sent (mem_deliveries.1 hmem)
  exact h.not_monitored ht

theorem monitor {w : Pid} (hw : s.isAlive w) (t : Pid) : Watch (s.addMonitor w t).1 := by
  set m := downMsg s.nextRef t (.keyword "noproc")
  set s₀ := { s with nextRef := s.nextRef + 1 }.note (.monitored s.nextRef w t) with hs₀
  have hproc (q : Pid) : s₀.proc q = s.proc q := rfl
  have hw₀ : w < s₀.procs.length := lt_of_isAlive hw
  set s' := (s.addMonitor w t).1 with hs'
  have hlive (ht : s.isAlive t) : s' = (s₀.update w fun p =>
      { p with monitors := p.monitors.put s.nextRef t }).update t fun p =>
        { p with monitoredBy := p.monitoredBy.put s.nextRef w } := by
    exact congrArg Prod.fst (if_pos ht)
  have hdead (ht : ¬s.isAlive t) : s' = (s₀.update w fun p => { p with mbox := p.mbox ++ [m] }).note
      (.delivered w m (.monitor s.nextRef)) := by
    have hnot : ¬s₀.isAlive t := ht
    exact (congrArg Prod.fst (if_neg hnot)).trans (if_pos hw)
  have halive (q : Pid) : s'.isAlive q = s.isAlive q := by
    by_cases ht : s.isAlive t
    · rw [hlive ht]
      simp only [isAlive_update, implies_true]
      rfl
    · rw [hdead ht]
      simp only [isAlive_note, isAlive_update, implies_true]
      rfl
  have hmonitors {q : Pid} {r : Ref} : (s'.proc q).monitors.get? r =
      if s.isAlive t ∧ q = w ∧ r = s.nextRef then some t else (s.proc q).monitors.get? r := by
    by_cases ht : s.isAlive t
    · rw [hlive ht]
      by_cases hq : q = w
      · subst hq
        simp [proc_update_self hw₀, hproc, ht]
      · simp [hq, hproc]
    · rw [hdead ht]
      simp [hproc, ht]
  have hby {q : Pid} {r : Ref} : (s'.proc q).monitoredBy.get? r =
      if s.isAlive t ∧ q = t ∧ r = s.nextRef then some w else (s.proc q).monitoredBy.get? r := by
    by_cases ht : s.isAlive t
    · rw [hlive ht]
      by_cases hq : q = t
      · subst hq
        have hq₀ : q < s₀.procs.length := lt_of_isAlive ht
        rw [proc_update_self (by rwa [length_update])]
        simp [hproc, ht]
      · simp [hq, hproc]
    · rw [hdead ht]
      simp [hproc, ht]
  have hlog : s'.log = s.log ++ .monitored s.nextRef w t ::
      if s.isAlive t then [] else [.delivered w m (.monitor s.nextRef)] := by
    by_cases ht : s.isAlive t
    · rw [hlive ht, if_pos ht]
      rfl
    · rw [hdead ht, if_neg ht]
      exact append_assoc ..
  have hdowns (q : Pid) (r : Ref) : s'.downs q r =
      s.downs q r + if ¬s.isAlive t ∧ q = w ∧ r = s.nextRef then 1 else 0 := by
    rw [Core.downs, deliveries, hlog, filterMap_append, countP_append]
    congr 1
    by_cases hq : w = q
    · subst hq
      by_cases hr : s.nextRef = r
      · cases s.isAlive t <;> simp [filterMap_cons, Event.deliveredTo, hr]
      · cases s.isAlive t <;> simp [filterMap_cons, Event.deliveredTo, hr, Ne.symm hr]
    · cases s.isAlive t <;> simp [filterMap_cons, Event.deliveredTo, hq, Ne.symm hq]
  have hlen : s'.procs.length = s.procs.length := by
    by_cases ht : s.isAlive t
    · rw [hlive ht, length_update, length_update]
      rfl
    · rw [hdead ht]
      exact length_update
  have hnext : s'.nextRef = s.nextRef + 1 := by
    by_cases ht : s.isAlive t
    · rw [hlive ht]
      rfl
    · rw [hdead ht]
      rfl
  have hmem {ref w' t'} : .monitored ref w' t' ∈ s'.log ↔
      .monitored ref w' t' ∈ s.log ∨ ref = s.nextRef ∧ w' = w ∧ t' = t := by
    rw [hlog]
    split <;> simp
  have hdem {ref} : .demonitored ref ∈ s'.log ↔ .demonitored ref ∈ s.log := by
    rw [hlog]
    split <;> simp
  have hnew : .demonitored s.nextRef ∉ s.log := fun hmem => Nat.lt_irrefl _ (h.removed hmem)
  constructor
  · intro ref w' t' hm
    rw [hnext, hlen]
    rcases hmem.1 hm with hm | ⟨rfl, rfl, -⟩
    · exact ⟨Nat.lt_succ_of_lt (h.fresh hm).1, (h.fresh hm).2⟩
    · exact ⟨Nat.lt_succ_self _, lt_of_isAlive hw⟩
  · exact fun hm => hnext ▸ Nat.lt_succ_of_lt (h.removed (hdem.1 hm))
  · intro ref w₁ t₁ w₂ t₂ h₁ h₂
    rcases hmem.1 h₁ with h₁' | ⟨he, rfl, rfl⟩ <;> rcases hmem.1 h₂ with h₂' | ⟨he', rfl, rfl⟩
    · exact h.unique h₁' h₂'
    · exact absurd (he' ▸ h₁') h.not_monitored
    · exact absurd (he ▸ h₂') h.not_monitored
    · exact ⟨rfl, rfl⟩
  · intro ref w' m' hm
    have hm' : .delivered w' m' (.monitor ref) ∈ s.log ∨ ref = s.nextRef ∧ w' = w := by
      rw [hlog] at hm
      split at hm <;> simp at hm <;> tauto
    rcases hm' with hm | ⟨rfl, rfl⟩
    · obtain ⟨t', ht'⟩ := h.sent hm
      exact ⟨t', hmem.2 (.inl ht')⟩
    · exact ⟨t, hmem.2 (.inr ⟨rfl, rfl, rfl⟩)⟩
  · intro ref w' t' hw' hget
    rw [hmonitors] at hget
    split at hget
    · next hnew' =>
      obtain ⟨ht, rfl, rfl⟩ := hnew'
      obtain rfl := Option.some.inj hget
      refine ⟨hmem.2 (.inr ⟨rfl, rfl, rfl⟩), (halive t).trans ht, fun hm => hnew (hdem.1 hm), ?_⟩
      rw [hby, if_pos ⟨ht, rfl, rfl⟩]
    · obtain ⟨h1, h2, h3, h4⟩ := h.watching (halive w' ▸ hw') hget
      refine ⟨hmem.2 (.inl h1), (halive t').trans h2, fun hm => h3 (hdem.1 hm), ?_⟩
      rw [hby, if_neg fun he => Nat.ne_of_lt (h.fresh h1).1 he.2.2, h4]
  · intro ref w' t' ht' hget
    rw [hby] at hget
    split at hget
    · next hnew' =>
      obtain ⟨ht, rfl, rfl⟩ := hnew'
      obtain rfl := Option.some.inj hget
      refine ⟨hmem.2 (.inr ⟨rfl, rfl, rfl⟩), fun hm => hnew (hdem.1 hm), fun _ => ?_⟩
      rw [hmonitors, if_pos ⟨ht, rfl, rfl⟩]
    · obtain ⟨h1, h2, h3⟩ := h.watched (halive t' ▸ ht') hget
      refine ⟨hmem.2 (.inl h1), fun hm => h2 (hdem.1 hm), fun hw' => ?_⟩
      rw [hmonitors, if_neg fun he => Nat.ne_of_lt (h.fresh h1).1 he.2.2, h3 (halive w' ▸ hw')]
  · intro ref w' t' hw' hm
    rw [hdem, hdowns, hmonitors]
    rcases hmem.1 hm with hm | ⟨rfl, rfl, rfl⟩
    · have hne : ref ≠ s.nextRef := Nat.ne_of_lt (h.fresh hm).1
      simpa [hne] using h.ended (halive w' ▸ hw') hm
    · have hnone : (s.proc w').monitors.get? s.nextRef = none := by
        rw [Option.eq_none_iff_forall_ne_some]
        exact fun t' hget => h.not_monitored (h.watching hw hget).1
      by_cases ht : s.isAlive t'
      · exact .inr (.inl (by simp [ht, h.downs_eq_zero]))
      · exact .inr (.inr (by simp [ht, hnew, hnone, h.downs_eq_zero]))

theorem demonitor {w : Pid} (hw : s.isAlive w) (ref : Ref) : Watch (s.removeMonitor ref w) := by
  unfold removeMonitor
  split
  · exact h
  rename_i t hget
  obtain ⟨hmon, ht, hrem, hback⟩ := h.watching hw hget
  set s₁ := (s.update w fun p => { p with monitors := p.monitors.del ref }).note (.demonitored ref) with hs₁
  have ht₁ : s₁.isAlive t := by simpa [hs₁] using ht
  rw [if_pos ht₁]
  set s' := s₁.update t fun p => { p with monitoredBy := p.monitoredBy.del ref } with hs'
  have halive (q : Pid) : s'.isAlive q = s.isAlive q := by simp [hs', hs₁]
  have hmonitors {q : Pid} {r : Ref} : (s'.proc q).monitors.get? r =
      if q = w ∧ r = ref then none else (s.proc q).monitors.get? r := by
    by_cases hq : q = w
    · subst hq
      simp [hs', hs₁, proc_update_self (lt_of_isAlive hw)]
    · simp [hs', hs₁, hq]
  have hby {q : Pid} {r : Ref} : (s'.proc q).monitoredBy.get? r =
      if q = t ∧ r = ref then none else (s.proc q).monitoredBy.get? r := by
    by_cases hq : q = t
    · subst hq
      rw [hs', proc_update_self (lt_of_isAlive ht₁)]
      simp [hs₁]
    · simp [hs', hs₁, hq]
  have hlog : s'.log = s.log ++ [Event.demonitored ref] := rfl
  have hdowns (q : Pid) (r : Ref) : s'.downs q r = s.downs q r := by
    rw [Core.downs, deliveries, hlog, filterMap_append]
    simp [Event.deliveredTo, Core.downs, deliveries]
  have hlen : s'.procs.length = s.procs.length := by simp [hs', hs₁, note]
  have hmem {ref' w' t'} : .monitored ref' w' t' ∈ s'.log ↔ .monitored ref' w' t' ∈ s.log := by
    simp [hlog]
  have hdem {ref'} : .demonitored ref' ∈ s'.log ↔ .demonitored ref' ∈ s.log ∨ ref' = ref := by
    simp [hlog]
  constructor
  · intro ref' w' t' hm
    exact ⟨(h.fresh (hmem.1 hm)).1, hlen ▸ (h.fresh (hmem.1 hm)).2⟩
  · intro ref' hm
    rcases hdem.1 hm with hm | rfl
    · exact h.removed hm
    · exact (h.fresh hmon).1
  · exact fun h₁ h₂ => h.unique (hmem.1 h₁) (hmem.1 h₂)
  · intro ref' w' m hm
    obtain ⟨t', ht'⟩ := h.sent (m := m) (by simpa [hlog] using hm)
    exact ⟨t', hmem.2 ht'⟩
  · intro ref' w' t' hw' hget'
    rw [hmonitors] at hget'
    split at hget'
    · cases hget'
    rename_i hne
    obtain ⟨h1, h2, h3, h4⟩ := h.watching (halive w' ▸ hw') hget'
    have hne' : ref' ≠ ref := by
      rintro rfl
      exact hne ⟨(h.unique h1 hmon).1, rfl⟩
    refine ⟨hmem.2 h1, (halive t').trans h2, fun hm => (hdem.1 hm).elim h3 hne', ?_⟩
    rw [hby, if_neg fun he => hne' he.2, h4]
  · intro ref' w' t' ht' hget'
    rw [hby] at hget'
    split at hget'
    · cases hget'
    rename_i hne
    obtain ⟨h1, h2, h3⟩ := h.watched (halive t' ▸ ht') hget'
    have hne' : ref' ≠ ref := by
      rintro rfl
      exact hne ⟨(h.unique h1 hmon).2, rfl⟩
    refine ⟨hmem.2 h1, fun hm => (hdem.1 hm).elim h2 hne', fun hw' => ?_⟩
    rw [hmonitors, if_neg fun he => hne' he.2, h3 (halive w' ▸ hw')]
  · intro ref' w' t' hw' hm
    rw [hdem, hdowns, hmonitors]
    have hended := h.ended (halive w' ▸ hw') (hmem.1 hm)
    by_cases hne : ref' = ref
    · subst hne
      obtain ⟨rfl, rfl⟩ := h.unique hmon (hmem.1 hm)
      refine .inl ⟨.inr rfl, ?_⟩
      rcases hended with ⟨_, hzero⟩ | ⟨_, hzero⟩ | ⟨_, hnone, _⟩
      · exact hzero
      · exact hzero
      · rw [hget] at hnone
        cases hnone
    · simpa [hne] using hended

theorem exit {p : Pid} {r : Val} (hp : s.isAlive p) (hr : imposed r ≠ none) :
    Watch (s.processExit p r) := by
  obtain ⟨ds, heq, hds⟩ := processExit_eq hp hr
  rw [heq]
  set s' := ds.foldl deed s with hs'
  have halive {q : Pid} : s'.isAlive q ↔ s.isAlive q ∧ q ∉ kills ds := isAlive_deeds_iff
  have hby (q : Pid) : (s'.proc q).monitoredBy = (s.proc q).monitoredBy := monitoredBy_deeds ..
  obtain ⟨es, hlog, hes⟩ := s.log_append_deeds ds
  have hm {ref w t} : .monitored ref w t ∈ s'.log ↔ .monitored ref w t ∈ s.log := by
    rw [hs', hlog, mem_append, or_iff_left]
    intro hmem
    rcases hes _ hmem with ⟨_, _, he⟩ | ⟨_, he⟩ | ⟨_, _, _, he, -⟩ <;> cases he
  have hd {ref} : .demonitored ref ∈ s'.log ↔ .demonitored ref ∈ s.log := by
    rw [hs', hlog, mem_append, or_iff_left]
    intro hmem
    rcases hes _ hmem with ⟨_, _, he⟩ | ⟨_, he⟩ | ⟨_, _, _, he, -⟩ <;> cases he
  have hdowns {ref w} (hw : s'.isAlive w) : s'.downs w ref = s.downs w ref +
      (told w ds).countP fun e => e.2 = .monitor ref := by
    rw [Core.downs, deliveries_deeds hw, countP_append]
    rfl
  -- a message of the monitor `ref` comes from its target, which has died
  have htold {ref w m} (htell : .tell w m (.monitor ref) ∈ ds) : ∃ t r', .kill t r' ∈ ds ∧
      m = downMsg ref t r' ∧ .monitored ref w t ∈ s.log ∧ .demonitored ref ∉ s.log ∧
      (s.isAlive w → (s.proc w).monitors.get? ref = some t) := by
    obtain ⟨-, t, r', hkill, ⟨hmade, -⟩ | ⟨ref', hmade, hm, hw⟩⟩ := hds.only htell
    · cases hmade
    · cases hmade
      have ht := hds.alive t (mem_kills.2 ⟨_, hkill⟩)
      exact ⟨t, r', hkill, hm, h.watched ht ((s.proc t).monitoredBy.get?_eq_some.2 hw)⟩
  constructor
  · intro ref w t hmem
    have := h.fresh (hm.1 hmem)
    exact ⟨(s.sameRest_deeds ds).nextRef ▸ this.1, (s.sameRest_deeds ds).length ▸ this.2⟩
  · exact fun hmem => (s.sameRest_deeds ds).nextRef ▸ h.removed (hd.1 hmem)
  · exact fun hmem hmem' => h.unique (hm.1 hmem) (hm.1 hmem')
  · intro ref w m hmem
    rw [hs', hlog, mem_append] at hmem
    rcases hmem with hmem | hmem
    · obtain ⟨t, ht⟩ := h.sent hmem
      exact ⟨t, hm.2 ht⟩
    · rcases hes _ hmem with ⟨_, _, he⟩ | ⟨_, he⟩ | ⟨_, _, _, he, htell⟩
      · cases he
      · cases he
      · cases he
        obtain ⟨t, _, _, _, ht, _⟩ := htold htell
        exact ⟨t, hm.2 ht⟩
  · intro ref w t hw hget
    obtain ⟨hget, hnot⟩ := (monitors_deeds s ds w).1 hget
    have hw' := halive.1 hw
    obtain ⟨h1, h2, h3, h4⟩ := h.watching hw'.1 hget
    refine ⟨hm.2 h1, halive.2 ⟨h2, fun hkill => ?_⟩, fun hmem => h3 (hd.1 hmem), (hby t).symm ▸ h4⟩
    -- the target has died, so the watcher was told
    obtain ⟨r', hkill⟩ := mem_kills.1 hkill
    have hone := hds.downs hkill ref w ((s.proc t).monitoredBy.get?_eq_some.1 h4) hw'.1 hw'.2
    exact hnot _ (List.count_pos_iff.1 (hone ▸ Nat.one_pos))
  · intro ref w t ht hget
    obtain ⟨h1, h2, h3⟩ := h.watched (halive.1 ht).1 (hby t ▸ hget)
    refine ⟨hm.2 h1, fun hmem => h2 (hd.1 hmem), fun hw => (monitors_deeds s ds w).2 ?_⟩
    refine ⟨h3 (halive.1 hw).1, fun m htell => (halive.1 ht).2 ?_⟩
    obtain ⟨t', r', hkill, -, hmon, -⟩ := htold htell
    obtain ⟨-, rfl⟩ := h.unique h1 hmon
    exact mem_kills.2 ⟨r', hkill⟩
  · intro ref w t hw hmem
    have hw' := halive.1 hw
    have hmon := hm.1 hmem
    rw [hdowns hw, hd]
    have hzero (hno : ∀ m, .tell w m (.monitor ref) ∉ ds) :
        ((told w ds).countP fun e => e.2 = .monitor ref) = 0 := by
      have hnil : ∀ m, .tell w m (.monitor ref) ∈ ds → m = .nil := fun m htell => absurd htell (hno m)
      rw [countP_told hnil]
      exact List.count_eq_zero.2 (hno _)
    rcases h.ended hw'.1 hmon with ⟨hrem, hcount⟩ | ⟨hget, hcount⟩ | ⟨hrem, hget, hcount⟩
    · refine .inl ⟨hrem, ?_⟩
      rw [hcount, hzero]
      intro m htell
      obtain ⟨_, _, _, _, _, hnot, _⟩ := htold htell
      exact hnot hrem
    · obtain ⟨-, -, hrem, hback⟩ := h.watching hw'.1 hget
      by_cases ht : t ∈ kills ds
      · obtain ⟨r', hkill⟩ := mem_kills.1 ht
        have hone := hds.downs hkill ref w ((s.proc t).monitoredBy.get?_eq_some.1 hback) hw'.1 hw'.2
        have hmsg : ∀ m, .tell w m (.monitor ref) ∈ ds → m = downMsg ref t r' := by
          intro m htell
          obtain ⟨t', r'', hkill', rfl, hmon', -⟩ := htold htell
          obtain ⟨-, rfl⟩ := h.unique hmon hmon'
          rw [reason_unique hds.nodup hkill hkill']
        refine .inr (.inr ⟨hrem, ?_, by rw [hcount, countP_told hmsg, hone]⟩)
        rw [Option.eq_none_iff_forall_ne_some]
        intro t' hget'
        exact ((monitors_deeds s ds w).1 hget').2 _ (List.count_pos_iff.1 (hone ▸ Nat.one_pos))
      · have hno : ∀ m, .tell w m (.monitor ref) ∉ ds := by
          intro m htell
          obtain ⟨t', r', hkill, -, hmon', -⟩ := htold htell
          obtain ⟨-, rfl⟩ := h.unique hmon hmon'
          exact ht (mem_kills.2 ⟨r', hkill⟩)
        exact .inr (.inl ⟨(monitors_deeds s ds w).2 ⟨hget, hno⟩, by rw [hcount, hzero hno]⟩)
    · refine .inr (.inr ⟨hrem, ?_, ?_⟩)
      · rw [Option.eq_none_iff_forall_ne_some]
        intro t' hget'
        rw [((monitors_deeds s ds w).1 hget').1] at hget
        cases hget
      · rw [hcount, hzero]
        intro m htell
        obtain ⟨t', _, _, _, _, _, hsome⟩ := htold htell
        rw [hsome hw'.1] at hget
        cases hget

theorem processExit {p : Pid} {r : Val} (hr : (s.processExit p r).raised = false) :
    Watch (s.processExit p r) := by
  cases halive : s.isAlive p with
  | false => rwa [processExit_dead halive]
  | true =>
    refine h.exit halive fun hnone => ?_
    simp [raised_processExit, halive, hnone] at hr

end

theorem start : Watch {} := by
  constructor <;> exact fun h => by cases h

theorem blind : Blind True Watch where
  sched h hprocs hlog _ hnext := h.quiet (.of_procs hprocs hlog hnext)
  update hf h := h.quiet (.update _ _ fun x => ⟨congrArg (·.1) (hf x), congrArg (·.2.2.1) (hf x),
    congrArg (·.2.2.2.1) (hf x)⟩)
  note he h := h.quiet (.note _ he)
  calm hc _ h := h.quiet (.of_calm hc)
  addLink _ _ h := (h.quiet (.update _ _ (by simp))).quiet (.update _ _ (by simp))
  removeLink h := (h.quiet (.update _ _ (by simp))).quiet (.update _ _ (by simp))
  monitor hw h := h.monitor hw _
  demonitor hw h := h.demonitor hw _
  spawn h := h.spawn
  exit hr h := h.processExit hr

end Watch

end Core

end Elle.Process

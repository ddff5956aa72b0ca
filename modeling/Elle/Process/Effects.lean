import Elle.Process.Scheduler

/-!
# What the table's operations touch

One lemma for a read of the table after each operation. Most operations change one field of one
process; `proc_update_eq` says that every other field reads as before.
-/

namespace Elle.Process

open List

namespace Proc

/-- What of a process no message changes. -/
def fixed (p : Proc) : Bool × KeySet Pid × KeyMap Ref Pid × KeyMap Ref Pid × Val :=
  (p.alive, p.links, p.monitors, p.monitoredBy, p.name)

theorem take_eq (p : Proc) (pred : Option (Val → Bool)) : (p.take pred).2 = { p with
      mbox := (p.take pred).2.mbox, saveQueue := (p.take pred).2.saveQueue
      recvPred := (p.take pred).2.recvPred } := by
  unfold take
  split
  · split <;> rfl
  · dsimp only
    split <;> rfl

section

variable (p : Proc) (pred : Option (Val → Bool))

@[simp] theorem take_alive : (p.take pred).2.alive = p.alive := by rw [take_eq]

@[simp] theorem take_timerRef : (p.take pred).2.timerRef = p.timerRef := by rw [take_eq]

@[simp] theorem take_fixed : (p.take pred).2.fixed = p.fixed := by rw [take_eq]; rfl

@[simp] theorem take_resume : (p.take pred).2.resume = p.resume := by rw [take_eq]

end

end Proc

namespace Core

variable {s : Core} {p q : Pid} {f : Proc → Proc}

theorem proc_of_le (h : s.procs.length ≤ p) : s.proc p = { alive := false } := by
  rw [proc, getD_eq_getElem?_getD, getElem?_eq_none h]
  rfl

theorem lt_of_isAlive (h : s.isAlive p) : p < s.procs.length := by
  by_contra hlt
  rw [isAlive, proc_of_le (Nat.not_lt.1 hlt)] at h
  exact Bool.false_ne_true h

theorem proc_update (s : Core) (p q : Pid) (f : Proc → Proc) :
    (s.update p f).proc q = if q = p ∧ p < s.procs.length then f (s.proc q) else s.proc q := by
  simp only [update, proc, getD_eq_getElem?_getD, getElem?_modify]
  by_cases hq : q = p
  · subst hq
    by_cases hlt : q < s.procs.length
    · simp [hlt]
    · simp [hlt]
  · simp [hq, Ne.symm hq]

theorem proc_update_self (h : p < s.procs.length) : (s.update p f).proc p = f (s.proc p) := by
  simp [proc_update, h]

@[simp] theorem proc_update_ne (h : q ≠ p) : (s.update p f).proc q = s.proc q := by
  simp [proc_update, h]

theorem proc_update_eq {β : Type*} {g : Proc → β} (h : ∀ x, g (f x) = g x) :
    g ((s.update p f).proc q) = g (s.proc q) := by
  rw [proc_update]
  split
  · exact h _
  · rfl

theorem update_update (s : Core) (p : Pid) (f g : Proc → Proc) :
    (s.update p f).update p g = s.update p (g ∘ f) := by
  simp [update, modify_modify_eq]

theorem update_congr {g : Proc → Proc} (h : f (s.proc p) = g (s.proc p)) : s.update p f = s.update p g := by
  have hprocs : s.procs.modify p f = s.procs.modify p g := by
    apply ext_getElem?
    intro i
    rw [getElem?_modify, getElem?_modify]
    by_cases hi : p = i
    · subst hi
      cases hx : s.procs[p]? with
      | none => rfl
      | some x =>
        have : s.proc p = x := by simp [proc, getD_eq_getElem?_getD, hx]
        simp [← this, h]
    · simp [hi]
  simp [update, hprocs]

@[simp] theorem update_id (s : Core) (p : Pid) : (s.update p fun x => x) = s := by
  have : s.procs.modify p (fun x => x) = s.procs := modify_id ..
  simp [update, this]

@[simp] theorem length_update : (s.update p f).procs.length = s.procs.length := by simp [update]

theorem update_note (s : Core) (p : Pid) (f : Proc → Proc) (e : Event) :
    (s.note e).update p f = (s.update p f).note e := rfl

@[simp] theorem proc_note (e : Event) : (s.note e).proc q = s.proc q := rfl

section

variable (s p q)

@[simp] theorem mbox_update (h : ∀ x, (f x).mbox = x.mbox) :
    ((s.update p f).proc q).mbox = (s.proc q).mbox := proc_update_eq (g := Proc.mbox) h

@[simp] theorem saveQueue_update (h : ∀ x, (f x).saveQueue = x.saveQueue) :
    ((s.update p f).proc q).saveQueue = (s.proc q).saveQueue := proc_update_eq (g := Proc.saveQueue) h

@[simp] theorem recvPred_update (h : ∀ x, (f x).recvPred = x.recvPred) :
    ((s.update p f).proc q).recvPred = (s.proc q).recvPred := proc_update_eq (g := Proc.recvPred) h

@[simp] theorem timerRef_update (h : ∀ x, (f x).timerRef = x.timerRef) :
    ((s.update p f).proc q).timerRef = (s.proc q).timerRef := proc_update_eq (g := Proc.timerRef) h

@[simp] theorem aliases_update (h : ∀ x, (f x).aliases = x.aliases) :
    ((s.update p f).proc q).aliases = (s.proc q).aliases := proc_update_eq (g := Proc.aliases) h

@[simp] theorem resume_update (h : ∀ x, (f x).resume = x.resume) :
    ((s.update p f).proc q).resume = (s.proc q).resume := proc_update_eq (g := Proc.resume) h

@[simp] theorem links_update (h : ∀ x, (f x).links = x.links) :
    ((s.update p f).proc q).links = (s.proc q).links := proc_update_eq (g := Proc.links) h

@[simp] theorem monitors_update (h : ∀ x, (f x).monitors = x.monitors) :
    ((s.update p f).proc q).monitors = (s.proc q).monitors := proc_update_eq (g := Proc.monitors) h

@[simp] theorem monitoredBy_update (h : ∀ x, (f x).monitoredBy = x.monitoredBy) :
    ((s.update p f).proc q).monitoredBy = (s.proc q).monitoredBy := proc_update_eq (g := Proc.monitoredBy) h

@[simp] theorem name_update (h : ∀ x, (f x).name = x.name) :
    ((s.update p f).proc q).name = (s.proc q).name := proc_update_eq (g := Proc.name) h

@[simp] theorem isAlive_update (h : ∀ x, (f x).alive = x.alive) :
    (s.update p f).isAlive q = s.isAlive q := proc_update_eq (g := Proc.alive) h

end

@[simp] theorem isAlive_note (e : Event) : (s.note e).isAlive q = s.isAlive q := rfl

theorem proc_spawn_self : s.spawn.1.proc s.procs.length = {} := by
  simp [spawn, proc, getD_eq_getElem?_getD]

theorem proc_spawn_ne (h : q ≠ s.procs.length) : s.spawn.1.proc q = s.proc q := by
  simp only [spawn, proc, getD_eq_getElem?_getD]
  rcases Nat.lt_or_gt_of_ne h with hlt | hlt
  · rw [getElem?_append_left hlt]
  · rw [getElem?_eq_none (by simp; omega), getElem?_eq_none (by omega)]

theorem isAlive_spawn (h : s.isAlive q) : s.spawn.1.isAlive q := by
  rw [isAlive, proc_spawn_ne (Nat.ne_of_lt (lt_of_isAlive h))]
  exact h

theorem isAlive_of_spawn (hq : q ≠ s.procs.length) (h : s.spawn.1.isAlive q) : s.isAlive q := by
  rw [isAlive, proc_spawn_ne hq] at h
  exact h

theorem mem_deliveries {m : Val} {made : Maker} :
    (m, made) ∈ s.deliveries q ↔ .delivered q m made ∈ s.log := by
  simp only [deliveries, mem_filterMap]
  constructor
  · rintro ⟨e, he, hd⟩
    cases e with
    | delivered p m' made' =>
      simp only [Event.deliveredTo, Option.ite_none_right_eq_some, Option.some.injEq, Prod.mk.injEq] at hd
      obtain ⟨rfl, rfl, rfl⟩ := hd
      exact he
    | _ => cases hd
  · exact fun he => ⟨_, he, if_pos rfl⟩

/-! ## Cases

What each operation can make of the table, for an invariant `P` of it. -/

section

variable {P : Core → Prop} (s : Core)

theorem deliver_cases {m : Val} {made : Maker}
    (halive : s.isAlive p →
      P ((s.update p fun x => { x with mbox := x.mbox ++ [m] }).note (.delivered p m made)))
    (hdead : P s) : P (s.deliver p m made) := by
  unfold deliver
  split
  · exact halive ‹_›
  · exact hdead

@[simp] theorem isAlive_deliver {m : Val} {made : Maker} : (s.deliver p m made).isAlive q = s.isAlive q :=
  s.deliver_cases (P := fun s' => s'.isAlive q = s.isAlive q) (by simp) rfl

theorem resume_cases {v : Val}
    (halive : s.isAlive p → P { s.update p fun x => { x with resume := v } with ready := s.ready ++ [p] })
    (hdead : P s) : P (s.resume p v) := by
  unfold resume
  split
  · exact halive ‹_›
  · exact hdead

@[simp] theorem isAlive_resume {v : Val} : (s.resume p v).isAlive q = s.isAlive q :=
  s.resume_cases (P := fun s' => s'.isAlive q = s.isAlive q)
    (fun _ => isAlive_update s p q (f := fun x => { x with resume := v }) (by simp)) rfl

theorem reply_cases {ref : Ref} {v : Val} (hsome : P (s.deliver p (replyMsg ref v) (.reply ref)))
    (hnone : P s) : P (s.reply p ref v) := by
  unfold reply
  split
  · exact hsome
  · exact hnone

theorem addMonitor_cases {w : Pid}
    (halive : let s₀ := { s with nextRef := s.nextRef + 1 }.note (.monitored s.nextRef w p)
      s₀.isAlive p → P ((s₀.update w fun x => { x with monitors := x.monitors.put s.nextRef p }).update p
        fun x => { x with monitoredBy := x.monitoredBy.put s.nextRef w }))
    (hdead : let s₀ := { s with nextRef := s.nextRef + 1 }.note (.monitored s.nextRef w p)
      P (s₀.deliver w (downMsg s.nextRef p (.keyword "noproc")) (.monitor s.nextRef))) :
    P (s.addMonitor w p).1 := by
  unfold addMonitor
  dsimp only
  split
  · exact halive ‹_›
  · exact hdead

theorem removeMonitor_cases {ref : Ref} {w : Pid} (hnone : P s)
    (hsome : ∀ target, (s.proc w).monitors.get? ref = some target →
      let s₁ := (s.update w fun x => { x with monitors := x.monitors.del ref }).note (.demonitored ref)
      P s₁ ∧ P (s₁.update target fun x => { x with monitoredBy := x.monitoredBy.del ref })) :
    P (s.removeMonitor ref w) := by
  unfold removeMonitor
  split
  · exact hnone
  · rename_i target htarget
    dsimp only
    split
    · exact (hsome target htarget).2
    · exact (hsome target htarget).1

theorem fireTimer_cases {t : Timer} (hraised : P { s with raised := true }) (hskip : P s)
    (hdeadline : P ((s.update t.pid fun x => { x with timerRef := none }).deliver t.pid timeoutVal
      (.deadline s.clock)))
    (hsent : P (s.deliver t.pid t.msg .sender)) : P (s.fireTimer t) := by
  unfold fireTimer
  split_ifs
  · exact hraised
  · exact hdeadline
  · exact hskip
  · exact hsent

@[simp] theorem isAlive_fireTimer (t : Timer) : (s.fireTimer t).isAlive q = s.isAlive q :=
  s.fireTimer_cases (P := fun s' => s'.isAlive q = s.isAlive q) rfl rfl (by simp) (by simp)

theorem waitForMessage_cases {pred : Option (Val → Bool)}
    (hblock : P { s.update p fun x => { (x.take pred).2 with recvPred := pred } with
      waiting := s.waiting ++ [p] })
    (hgot : ∀ msg, P ((s.update p fun x => (x.take pred).2).answer p msg)) :
    P (s.waitForMessage p pred).1 := by
  unfold waitForMessage
  dsimp only
  split
  · exact hblock
  · exact hgot _

theorem wakeOne_cases {acc : Core × List Pid} (hdead : P acc.1)
    (hblock : acc.1.isAlive p → P (acc.1.update p fun x => x.takeMessage.2))
    (hgot : acc.1.isAlive p → ∀ msg,
      P ((acc.1.update p fun x => { x.takeMessage.2 with timerRef := none }).answer p msg)) :
    P (wakeOne acc p).1 := by
  unfold wakeOne
  dsimp only
  split_ifs with hp
  · exact hblock hp
  · exact hgot hp _
  · exact hdead

end

end Core

end Elle.Process

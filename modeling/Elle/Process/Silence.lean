import Elle.Process.Watch

/-!
# A dead process stays out of it

Nothing is delivered to a dead process and it takes no turn, in any run: `Silent q s₀ s` says that
from `s₀` to `s` nothing has reached the process `q`, and every step keeps it for a dead one.
-/

namespace Elle.Process

/-- Whether an event hands something to `q` or is a turn of it. -/
def Event.reaches (q : Pid) : Event → Bool
  | delivered p .. | asked p _ | answered p _ | flushed p .. | ran p _ => p == q
  | _ => false

namespace Core

/-- From `s₀` to `s` nothing has reached the dead process `q`. -/
structure Silent (q : Pid) (s₀ s : Core) : Prop where
  length : q < s.procs.length
  dead : s.isAlive q = false
  mbox : (s.proc q).mbox = (s₀.proc q).mbox
  saveQueue : (s.proc q).saveQueue = (s₀.proc q).saveQueue
  log : s.log.filter (·.reaches q) = s₀.log.filter (·.reaches q)

namespace Silent

variable {q : Pid} {s₀ s s' : Core}

section

variable (h : Silent q s₀ s)
include h

theorem same (hprocs : s'.procs = s.procs) (hlog : s'.log = s.log) :
    Silent q s₀ s' := by
  have hproc : s'.proc q = s.proc q := by simp [proc, hprocs]
  exact ⟨hprocs ▸ h.length, (congrArg Proc.alive hproc).trans h.dead, hproc ▸ h.mbox,
    hproc ▸ h.saveQueue, hlog ▸ h.log⟩

theorem ne {p : Pid} (hp : s.isAlive p) : q ≠ p := by
  rintro rfl
  rw [h.dead] at hp
  cases hp

theorem update_ne {p : Pid} (hne : q ≠ p) (f : Proc → Proc) : Silent q s₀ (s.update p f) := by
  have hproc : (s.update p f).proc q = s.proc q := proc_update_ne hne
  exact ⟨by simpa using h.length, (congrArg Proc.alive hproc).trans h.dead, hproc ▸ h.mbox,
    hproc ▸ h.saveQueue, h.log⟩

theorem update {p : Pid} {f : Proc → Proc}
    (hf : ∀ x, (f x).alive = x.alive ∧ (f x).mbox = x.mbox ∧ (f x).saveQueue = x.saveQueue) :
    Silent q s₀ (s.update p f) :=
  ⟨by simpa using h.length, (isAlive_update _ _ _ fun x => (hf x).1).trans h.dead,
    (mbox_update _ _ _ fun x => (hf x).2.1).trans h.mbox,
    (saveQueue_update _ _ _ fun x => (hf x).2.2).trans h.saveQueue, h.log⟩

theorem note {e : Event} (he : e.reaches q = false) : Silent q s₀ (s.note e) :=
  ⟨h.length, h.dead, h.mbox, h.saveQueue, by simp [Core.note, he, h.log]⟩

theorem deliver (p : Pid) (m : Val) (made : Maker) : Silent q s₀ (s.deliver p m made) := by
  refine s.deliver_cases (fun hp => ?_) h
  exact (h.update_ne (h.ne hp) _).note (by simp [Event.reaches, (h.ne hp).symm])

theorem resume (p : Pid) (v : Val) : Silent q s₀ (s.resume p v) :=
  s.resume_cases (fun _ => same (s := s.update p _) (h.update (by simp)) rfl rfl) h

theorem answer {p : Pid} (hp : q ≠ p) (v : Val) : Silent q s₀ (s.answer p v) :=
  (h.note (by simp [Event.reaches, hp.symm])).resume _ _

theorem deed (d : Deed) : Silent q s₀ (s.deed d) := by
  cases d with
  | kill p r =>
    obtain ⟨ids, hlog⟩ := s.kill_log p r
    have hproc := s.proc_kill p q r
    refine ⟨?_, ?_, ?_, ?_, ?_⟩
    · rw [(s.sameRest_deed (.kill p r)).length]
      exact h.length
    · simp [Core.deed, isAlive_kill, h.dead]
    · rw [Core.deed, hproc, mbox_update, h.mbox]
      exact fun _ => rfl
    · rw [Core.deed, hproc, saveQueue_update, h.saveQueue]
      exact fun _ => rfl
    · have hnil : (Event.died p r :: ids.map Event.cancelled).filter (·.reaches q) = [] := by
        simp [Event.reaches]
      rw [Core.deed, hlog, List.filter_append, h.log, hnil, List.append_nil]
  | tell p m made =>
    cases made with
    | monitor ref => exact (h.deliver p m _).update (by simp)
    | _ => exact h.deliver p m _

end

theorem foldl {α : Type*} {f : Core → α → Core} (hf : ∀ s a, Silent q s₀ s → Silent q s₀ (f s a))
    (as : List α) (h : Silent q s₀ s) : Silent q s₀ (as.foldl f s) := by
  induction as generalizing s with
  | nil => exact h
  | cons a rest ih => exact ih (hf s a h)

theorem processExit (h : Silent q s₀ s) (p : Pid) (r : Val) : Silent q s₀ (s.processExit p r) :=
  s.processExit_cases p r (fun _ => h)
    (fun halive _ => ((h.update_ne (h.ne halive) _).note rfl).same rfl rfl)
    fun ds _ _ _ => h.foldl (fun _ d h => h.deed d) ds

theorem act (h : Silent q s₀ s) (pid : Pid) (ha : Act pid True s s') : Silent q s₀ s' := by
  have hfresh : Silent q s₀ { s with nextRef := s.nextRef + 1 } := h.same rfl rfl
  cases ha with
  | calm hc =>
    exact ⟨hc.length ▸ h.length, (hc.alive q).trans h.dead, (hc.mbox q).trans h.mbox,
      (hc.saveQueue q).trans h.saveQueue, hc.log ▸ h.log⟩
  | addLink | removeLink => exact ((h.update (by simp)).update (by simp))
  | send => exact h.deliver _ _ _
  | signal => exact h.deliver _ _ _
  | reply target ref value => exact s.reply_cases (h.deliver _ _ _) h
  | freshRef | timer | dropTimer => exact h.same rfl rfl
  | addAlias hp => exact hfresh.update (by simp)
  | dropAlias hp ref => exact h.update (by simp)
  | flush hp tag ref =>
    exact (h.update_ne (h.ne hp) _).note (by simp [Event.reaches, (h.ne hp).symm])
  | monitor hp target =>
    have h₀ : Silent q s₀ ({ s with nextRef := s.nextRef + 1 }.note (.monitored s.nextRef pid target)) :=
      hfresh.note rfl
    exact s.addMonitor_cases (fun _ => ((h₀.update (by simp)).update (by simp))) (h₀.deliver _ _ _)
  | demonitor hp ref =>
    have h₁ := (h.update (p := pid) (f := fun p => { p with monitors := p.monitors.del ref }) (by simp)).note
      (e := .demonitored ref) rfl
    exact s.removeMonitor_cases h fun _ _ => ⟨h₁, (h₁.update (by simp))⟩
  | spawn =>
    have hproc : s.spawn.1.proc q = s.proc q := proc_spawn_ne (Nat.ne_of_lt h.length)
    exact ⟨h.length.trans (by simp [Core.spawn]), (congrArg Proc.alive hproc).trans h.dead,
      hproc ▸ h.mbox, hproc ▸ h.saveQueue, h.log⟩
  | exit target reason => exact h.processExit _ _

theorem waitForMessage (h : Silent q s₀ s) {p : Pid} (hp : q ≠ p) (pred : Option (Val → Bool)) :
    Silent q s₀ (s.waitForMessage p pred).1 :=
  s.waitForMessage_cases (same (s := s.update p _) (h.update_ne hp _) rfl rfl)
    fun _ => (h.update_ne hp _).answer hp _

theorem fireTimer (h : Silent q s₀ s) (t : Timer) : Silent q s₀ (s.fireTimer t) :=
  s.fireTimer_cases (h.same rfl rfl) h ((h.update (by simp)).deliver _ _ _) (h.deliver _ _ _)

theorem wakeOne {acc : Core × List Pid} (h : Silent q s₀ acc.1) (p : Pid) :
    Silent q s₀ (Core.wakeOne acc p).1 :=
  wakeOne_cases h (fun hp => h.update_ne (h.ne hp) _)
    fun hp _ => (h.update_ne (h.ne hp) _).answer (h.ne hp) _

theorem closed (q : Pid) (s₀ : Core) : Closed True (Silent q s₀) where
  sched h hprocs hlog _ _ := h.same hprocs hlog
  act := fun pid {_ _} ha _ h => h.act pid ha
  asked hp h := h.note (by simp [Event.reaches, (h.ne hp).symm])
  waitForMessage hp h := h.waitForMessage (h.ne hp) _
  armed h := (h.update (by simp))
  resume h := h.resume _ _
  ran hp h := (h.note (by simp [Event.reaches, (h.ne hp).symm])).update (by simp)
  fireTimer h := h.fireTimer _
  wakeOne h := h.wakeOne _
  cancelled h := h.note rfl

end Silent

/-! ## Links are symmetric -/

/-- A link is in the sets of both its processes. -/
def Linked (s : Core) : Prop := ∀ a b, b ∈ (s.proc a).links ↔ a ∈ (s.proc b).links

namespace Linked

variable {s s' : Core}

section

variable (h : Linked s)
include h

theorem same (hlinks : ∀ q, (s'.proc q).links = (s.proc q).links) : Linked s' := by
  intro a b
  rw [hlinks, hlinks]
  exact h a b

theorem update {p : Pid} {f : Proc → Proc} (hf : ∀ x, (f x).links = x.links) : Linked (s.update p f) :=
  h.same fun _ => links_update _ _ _ hf

theorem deliver (p : Pid) (m : Val) (made : Maker) : Linked (s.deliver p m made) :=
  s.deliver_cases (fun _ => (h.update (by simp)).same fun _ => rfl) h

theorem processExit (p : Pid) (r : Val) : Linked (s.processExit p r) :=
  s.processExit_cases p r (fun _ => h) (fun _ _ => (h.update (by simp)).same fun _ => rfl)
    fun ds _ _ _ => h.same (s.links_deeds ds)

theorem addLink {a b : Pid} (ha : s.isAlive a) (hb : s.isAlive b) : Linked (s.addLink a b) := by
  have hmem (x y : Pid) : y ∈ ((s.addLink a b).proc x).links ↔
      y ∈ (s.proc x).links ∨ x = a ∧ y = b ∨ x = b ∧ y = a := by
    simp only [Core.addLink, proc_update, length_update, lt_of_isAlive ha, lt_of_isAlive hb, and_true]
    split <;> split <;> simp_all [KeySet.mem_put] <;> tauto
  intro x y
  rw [hmem, hmem, h x y]
  tauto

theorem removeLink (a b : Pid) : Linked (s.removeLink a b) := by
  have hmem (x y : Pid) : y ∈ ((s.removeLink a b).proc x).links ↔
      y ∈ (s.proc x).links ∧ ¬(x = a ∧ y = b) ∧ ¬(x = b ∧ y = a) := by
    by_cases hx : x < s.procs.length
    · have hlt (c : Pid) : (x = c ∧ c < s.procs.length) ↔ x = c := ⟨And.left, fun h => ⟨h, h ▸ hx⟩⟩
      simp only [Core.removeLink, proc_update, length_update, hlt]
      split <;> split <;> simp_all [KeySet.mem_del]
    · have hnone : (s.proc x).links = {} := by rw [proc_of_le (Nat.not_lt.1 hx)]
      have hnone' : ((s.removeLink a b).proc x).links = {} := by
        rw [proc_of_le (by simpa [Core.removeLink] using Nat.not_lt.1 hx)]
      simp [hnone, hnone']
  intro x y
  rw [hmem, hmem, h x y]
  tauto

theorem spawn : Linked s.spawn.1 := by
  refine h.same fun q => ?_
  by_cases hq : q = s.procs.length
  · subst hq
    rw [proc_spawn_self, proc_of_le le_rfl]
  · rw [proc_spawn_ne hq]

end

theorem start : Linked {} := fun a b => by
  simp only [proc_of_le (s := {}) (Nat.zero_le _)]
  exact iff_of_false KeySet.not_mem_default KeySet.not_mem_default

theorem blind : Blind True Linked where
  sched h hprocs _ _ _ := h.same fun q => by simp [proc, hprocs]
  update hf h := h.update fun x => congrArg (·.2.1) (hf x)
  note _ h := h.same fun _ => rfl
  calm hc _ h := h.same hc.links
  addLink ha hb h := h.addLink ha hb
  removeLink h := h.removeLink _ _
  monitor {s w t} _ h := by
    have h₀ : Linked ({ s with nextRef := s.nextRef + 1 }.note (.monitored s.nextRef w t)) :=
      h.same fun _ => rfl
    exact s.addMonitor_cases (fun _ => ((h₀.update (by simp)).update (by simp))) (h₀.deliver _ _ _)
  demonitor {s _ _} _ h := s.removeMonitor_cases h fun _ _ =>
    ⟨(h.update (by simp)).same fun _ => rfl, update ((h.update (by simp)).same fun _ => rfl) (by simp)⟩
  spawn h := h.spawn
  exit _ h := h.processExit _ _

end Linked

end Core

end Elle.Process

import Elle.Process.Acts

/-!
# Where a process is

A process that is not running is in the ready queue, blocked in a receive, waiting for a join, for
I/O or on a futex, and never in two of them at once. A turn takes it out of the one it is in and
puts it into one.
-/

namespace Elle.Process

open List

namespace Core

/-- How many of the scheduler's tables a process is in. -/
def places (s : Core) (q : Pid) : Nat :=
  s.ready.count q + s.waiting.count q + s.joining.count q +
    (s.ioPending.entries.countP fun e => e.2 = .waiter (.process q)) +
    s.futexParked.countP fun e => e.2 = .process q

/-- Every process is in one table at most, and one that is still to be spawned in none. -/
def Placed (s : Core) : Prop := ∀ q : Nat, s.places q ≤ if q < s.procs.length then 1 else 0

/-- No process has come into a table, but for new ones. -/
structure Stays (s s' : Core) : Prop where
  length : s.procs.length ≤ s'.procs.length
  places : ∀ q : Nat, s'.places q ≤ s.places q + if s.procs.length ≤ q ∧ q < s'.procs.length then 1 else 0

variable {s s' : Core} {q pid : Pid}

theorem count_append_one (l : List Pid) (p q : Pid) :
    (l ++ [p]).count q = l.count q + if q = p then 1 else 0 := by
  rw [count_append, count_singleton]
  simp only [beq_iff_eq, eq_comm (a := p)]

namespace Stays

theorem trans {s₁ s₂ s₃ : Core} (h : Stays s₁ s₂) (h' : Stays s₂ s₃) : Stays s₁ s₃ := by
  refine ⟨h.length.trans h'.length, fun q => ?_⟩
  have h₁ := h.length
  have h₂ := h'.length
  have hq := h.places q
  have hq' := h'.places q
  split at hq <;> split at hq' <;> split <;> omega

theorem of_sublist (hlength : s'.procs.length = s.procs.length) (hready : s'.ready.Sublist s.ready)
    (hwaiting : s'.waiting.Sublist s.waiting) (hjoining : s'.joining.Sublist s.joining)
    (hio : s'.ioPending.entries.Sublist s.ioPending.entries)
    (hfutex : s'.futexParked.Sublist s.futexParked) : Stays s s' := by
  refine ⟨hlength.ge, fun q => ?_⟩
  have h₁ := hready.count_le q
  have h₂ := hwaiting.count_le q
  have h₃ := hjoining.count_le q
  have h₄ := hio.countP_le (p := fun e => e.2 = .waiter (.process q))
  have h₅ := hfutex.countP_le (p := fun e => e.2 = .process q)
  unfold Core.places
  omega

theorem of_eq (hlength : s'.procs.length = s.procs.length) (hready : s'.ready = s.ready)
    (hwaiting : s'.waiting = s.waiting) (hjoining : s'.joining = s.joining)
    (hio : s'.ioPending = s.ioPending) (hfutex : s'.futexParked = s.futexParked) : Stays s s' :=
  of_sublist hlength (hready ▸ .refl _) (hwaiting ▸ .refl _) (hjoining ▸ .refl _) (hio ▸ .refl _)
    (hfutex ▸ .refl _)

theorem update (s : Core) (p : Pid) (f : Proc → Proc) : Stays s (s.update p f) :=
  of_eq length_update rfl rfl rfl rfl rfl

theorem deliver (s : Core) (p : Pid) (m : Val) (made : Maker) : Stays s (s.deliver p m made) :=
  s.deliver_cases (fun _ => (update s p _).trans (of_eq rfl rfl rfl rfl rfl rfl))
    (of_eq rfl rfl rfl rfl rfl rfl)

theorem processExit (s : Core) (p : Pid) (r : Val) : Stays s (s.processExit p r) := by
  refine s.processExit_cases p r (fun _ => of_eq rfl rfl rfl rfl rfl rfl)
    (fun _ _ => (update s p _).trans (of_eq rfl rfl rfl rfl rfl rfl)) fun ds _ _ _ => ?_
  have hrest := s.sameRest_deeds ds
  refine of_sublist hrest.length (hrest.ready ▸ .refl _) (hrest.waiting ▸ .refl _)
    (hrest.joining ▸ .refl _) ?_ ?_
  · rw [ioPending_deeds]
    exact filter_sublist
  · rw [futexParked_deeds]
    exact filter_sublist

theorem spawn (s : Core) : Stays s s.spawn.1 := by
  have hlength : s.spawn.1.procs.length = s.procs.length + 1 := by simp [Core.spawn]
  refine ⟨by omega, fun q => ?_⟩
  have hready : s.spawn.1.ready.count q = s.ready.count q + if q = s.procs.length then 1 else 0 :=
    count_append_one ..
  have hplaces : s.spawn.1.places q = s.places q + if q = s.procs.length then 1 else 0 := by
    unfold Core.places
    rw [hready]
    simp only [Core.spawn]
    omega
  rw [hplaces, hlength]
  split <;> split <;> omega

theorem act (ha : Act pid True s s') : Stays s s' := by
  cases ha with
  | calm hc => exact of_eq hc.length hc.ready hc.waiting hc.joining hc.ioPending hc.futexParked
  | addLink | removeLink => exact (update s _ _).trans (update _ _ _)
  | send | signal => exact deliver _ _ _ _
  | reply target ref value => exact s.reply_cases (deliver _ _ _ _) (of_eq rfl rfl rfl rfl rfl rfl)
  | freshRef | timer | dropTimer => exact of_eq rfl rfl rfl rfl rfl rfl
  | addAlias | flush => exact of_eq length_update rfl rfl rfl rfl rfl
  | dropAlias => exact update _ _ _
  | monitor hp target =>
    have h₀ : Stays s ({ s with nextRef := s.nextRef + 1 }.note (.monitored s.nextRef pid target)) :=
      of_eq rfl rfl rfl rfl rfl rfl
    exact s.addMonitor_cases (fun _ => h₀.trans ((update _ _ _).trans (update _ _ _)))
      (h₀.trans (deliver _ _ _ _))
  | demonitor hp ref =>
    have h₁ : Stays s ((s.update pid fun p => { p with monitors := p.monitors.del ref }).note
        (.demonitored ref)) := of_eq length_update rfl rfl rfl rfl rfl
    exact s.removeMonitor_cases (of_eq rfl rfl rfl rfl rfl rfl) fun _ _ => ⟨h₁, h₁.trans (update _ _ _)⟩
  | spawn => exact spawn s
  | exit target reason => exact processExit _ _ _

theorem acts (ha : Acts pid True s s') : Stays s s' := by
  induction ha with
  | refl => exact of_eq rfl rfl rfl rfl rfl rfl
  | tail _ ha ih => exact ih.trans (act ha)

theorem fireTimers (s : Core) : Stays s s.fireTimers := by
  have hone (s : Core) (t : Timer) : Stays s (s.fireTimer t) :=
    s.fireTimer_cases (of_eq rfl rfl rfl rfl rfl rfl) (of_eq rfl rfl rfl rfl rfl rfl)
      ((update s _ _).trans (deliver _ _ _ _)) (deliver _ _ _ _)
  have hall (ts : List Timer) : ∀ s : Core,
      Stays s (ts.foldl (fun s t => if s.raised then s else s.fireTimer t) s) := by
    induction ts with
    | nil => exact fun s => of_eq rfl rfl rfl rfl rfl rfl
    | cons t rest ih =>
      intro s
      refine Stays.trans ?_ (ih _)
      dsimp only
      split
      · exact of_eq rfl rfl rfl rfl rfl rfl
      · exact hone s t
  have hstart : Stays s { s with timers := s.timers.filter fun t => !decide (t.fireAt ≤ s.clock) } :=
    of_eq rfl rfl rfl rfl rfl rfl
  exact hstart.trans (hall _ _)

end Stays

theorem Placed.stays (h : Placed s) (h' : Stays s s') : Placed s' := by
  intro q
  have hq := h q
  have hq' := h'.places q
  have hlength := h'.length
  split at hq <;> split at hq' <;> split <;> omega

theorem Placed.enter (h : Placed s) (hpid : s.places pid = 0) (hlt : s.procs.length > pid)
    (hlength : s'.procs.length = s.procs.length)
    (hplaces : ∀ q, s'.places q ≤ s.places q + if q = pid then 1 else 0) : Placed s' := by
  intro q
  have hq := h q
  have hq' := hplaces q
  rw [hlength]
  by_cases hqp : q = pid
  · subst hqp
    rw [if_pos hlt]
    rw [if_pos rfl] at hq'
    omega
  · rw [if_neg hqp] at hq'
    omega

theorem places_resume (s : Core) (p : Pid) (v : Val) (q : Pid) :
    (s.resume p v).places q ≤ s.places q + if q = p then 1 else 0 := by
  unfold resume
  split
  · simp only [places, update, count_append_one]
    omega
  · omega

theorem length_resume (s : Core) (p : Pid) (v : Val) : (s.resume p v).procs.length = s.procs.length := by
  unfold resume
  split
  · exact length_update
  · rfl

theorem Placed.resume (h : Placed s) (hpid : s.places pid = 0) (hlt : s.procs.length > pid) (v : Val) :
    Placed (s.resume pid v) :=
  h.enter hpid hlt (length_resume ..) (places_resume s pid v)

theorem Placed.answer (h : Placed s) (hpid : s.places pid = 0) (hlt : s.procs.length > pid) (v : Val) :
    Placed (s.answer pid v) :=
  Placed.resume (s := s.note (.answered pid v)) h hpid hlt v

/-- What a turn starts from: the process that runs is in no table. -/
structure Running (s : Core) (pid : Pid) : Prop where
  placed : Placed s
  nowhere : s.places pid = 0
  lt : s.procs.length > pid

namespace Running

section

variable (h : Running s pid)
include h

theorem stays (h' : Stays s s') : Running s' pid := by
  have hlt := h.lt
  have hplaces := h'.places pid
  rw [if_neg (by omega), h.nowhere] at hplaces
  exact ⟨h.placed.stays h', Nat.le_zero.1 hplaces, Nat.lt_of_lt_of_le hlt h'.length⟩

theorem resume (v : Val) : Placed (s.resume pid v) :=
  h.placed.resume h.nowhere h.lt v

theorem waitForMessage (pred : Option (Val → Bool)) :
    Placed (s.waitForMessage pid pred).1 := by
  unfold Core.waitForMessage
  dsimp only
  split
  · refine (h.stays (.update s pid _)).placed.enter (h.stays (.update s pid _)).nowhere
      (h.stays (.update s pid _)).lt rfl fun q => ?_
    simp only [places, update, count_append_one]
    omega
  · exact (h.stays (.update s pid _)).placed.answer (h.stays (.update s pid _)).nowhere
      (h.stays (.update s pid _)).lt _

theorem handleCmd (hp : s.isAlive pid) (cmd : Command) :
    Placed (s.handleCmd pid cmd) := by
  have hasked (w : Inbox.Want Val) : Running (s.note (.asked pid w)) pid :=
    h.stays (.of_eq rfl rfl rfl rfl rfl rfl)
  cases hspecial : cmd.special with
  | false =>
    obtain ⟨s₁, v, hacts, heq⟩ := handleCmd_acts hp hspecial fun _ => trivial
    rw [heq]
    exact (h.stays (.acts hacts)).resume v
  | true =>
    cases cmd with
    | recv | recvMatch pred => exact (hasked _).waitForMessage _
    | recvTimeout ticks =>
      simp only [Core.handleCmd]
      split
      · exact (hasked _).waitForMessage _
      · exact ((hasked _).waitForMessage _).stays (.of_eq length_update rfl rfl rfl rfl rfl)
    | unknown => exact h.placed.stays (.of_eq rfl rfl rfl rfl rfl rfl)
    | _ => cases hspecial

theorem turn (sig : Signal) : Placed (s.turn pid sig) := by
  unfold Core.turn
  split
  · rename_i hp
    have h₁ : Running ((s.note (.ran pid (s.proc pid).resume)).update pid fun p =>
        { p with resume := .nil }) pid := h.stays (.of_eq length_update rfl rfl rfl rfl rfl)
    generalize hs₁ : (s.note (.ran pid (s.proc pid).resume)).update pid _ = s₁ at h₁ ⊢
    cases sig with
    | done v | error v => exact h₁.placed.stays (.processExit _ _ _)
    | served v => exact h₁.resume v
    | command cmd =>
      refine h₁.handleCmd ?_ cmd
      rw [← hs₁]
      simpa using hp
    | fuel | wait =>
      refine h₁.placed.enter h₁.nowhere h₁.lt rfl fun q => ?_
      simp only [dispatchSignal, places, count_append_one]
      omega
    | park key =>
      refine h₁.placed.enter h₁.nowhere h₁.lt rfl fun q => ?_
      simp only [dispatchSignal, places, countP_append, countP_singleton, decide_eq_true_eq,
        Waiter.process.injEq, eq_comm (a := pid)]
      omega
    | io id =>
      refine h₁.placed.enter h₁.nowhere h₁.lt rfl fun q => ?_
      have hdel : ((s₁.ioPending.del id).entries.countP fun e => e.2 = .waiter (.process q)) ≤
          s₁.ioPending.entries.countP fun e => e.2 = .waiter (.process q) :=
        List.Sublist.countP_le filter_sublist
      simp only [dispatchSignal, places, KeyMap.put, countP_cons, decide_eq_true_eq,
        IoEntry.waiter.injEq, Waiter.process.injEq, eq_comm (a := pid)]
      omega
  · exact h.placed

end

end Running

theorem Placed.leave (h : Placed s) (hlength : s'.procs.length = s.procs.length)
    (hplaces : ∀ q, s'.places q + (if q = pid then 1 else 0) ≤ s.places q) : Running s' pid := by
  have hpid := hplaces pid
  have hone := h pid
  rw [if_pos rfl] at hpid
  have hlt : s.procs.length > pid := by
    by_contra hlt
    rw [if_neg hlt] at hone
    omega
  refine ⟨fun q => ?_, ?_, hlength ▸ hlt⟩
  · have hq := hplaces q
    have hq' := h q
    rw [hlength]
    omega
  · rw [if_pos hlt] at hone
    omega

theorem count_erase_add {l : List Pid} {p : Pid} (h : p ∈ l) (q : Pid) :
    (l.erase p).count q + (if q = p then 1 else 0) ≤ l.count q := by
  by_cases hq : q = p
  · subst hq
    have := List.count_pos_iff.2 h
    rw [count_erase_self, if_pos rfl]
    omega
  · rw [count_erase_of_ne hq, if_neg hq]
    omega

theorem Placed.ready (h : Placed s) (hpid : pid ∈ s.ready) :
    Running { s with ready := s.ready.erase pid } pid := by
  refine h.leave rfl fun q => ?_
  have := count_erase_add hpid q
  simp only [places]
  omega

theorem Placed.joining (h : Placed s) (hpid : pid ∈ s.joining) :
    Running { s with joining := s.joining.erase pid } pid := by
  refine h.leave rfl fun q => ?_
  have := count_erase_add hpid q
  simp only [places]
  omega

theorem Placed.ioPending (h : Placed s) {id : Nat}
    (hget : s.ioPending.get? id = some (.waiter (.process pid))) :
    Running { s with ioPending := s.ioPending.del id } pid := by
  refine h.leave rfl fun q => ?_
  have hsplit := countP_eq_countP_filter_add s.ioPending.entries
    (fun e => e.2 = .waiter (.process q)) (·.1 != id)
  have hone : (if q = pid then 1 else 0) ≤
      (s.ioPending.entries.filter fun e => !(e.1 != id)).countP fun e => e.2 = .waiter (.process q) := by
    split
    · rename_i hq
      subst hq
      rw [Nat.succ_le_iff, countP_pos_iff]
      exact ⟨_, List.mem_filter.2 ⟨s.ioPending.get?_eq_some.1 hget, by simp⟩, by simp⟩
    · exact Nat.zero_le _
  simp only [places, KeyMap.del, KeyMap.filter]
  omega

theorem Placed.futexParked (h : Placed s) {key : Val} (hmem : (key, .process pid) ∈ s.futexParked) :
    Running { s with futexParked := s.futexParked.erase (key, .process pid) } pid := by
  refine h.leave rfl fun q => ?_
  have hpos : (if q = pid then 1 else 0) ≤ s.futexParked.countP fun e => e.2 = .process q := by
    split
    · rename_i hq
      subst hq
      rw [Nat.succ_le_iff, countP_pos_iff]
      exact ⟨_, hmem, by simp⟩
    · exact Nat.zero_le _
  have herase := countP_erase (fun e => decide (e.2 = .process q)) s.futexParked (key, .process pid)
  simp only [places]
  rw [herase]
  simp only [hmem, true_and, decide_eq_true_eq, Waiter.process.injEq, eq_comm (a := pid)]
  omega

/-- Waking moves a process to the ready queue or leaves it among the blocked. -/
structure Woken (acc : Core × List Pid) (woken : List Pid) (acc' : Core × List Pid) : Prop where
  length : acc'.1.procs.length = acc.1.procs.length
  joining : acc'.1.joining = acc.1.joining
  ioPending : acc'.1.ioPending = acc.1.ioPending
  futexParked : acc'.1.futexParked = acc.1.futexParked
  count : ∀ q, acc'.1.ready.count q + acc'.2.count q ≤ acc.1.ready.count q + acc.2.count q + woken.count q

theorem woken_wakeOne (acc : Core × List Pid) (p : Pid) : Woken acc [p] (wakeOne acc p) := by
  have hone (q : Pid) : [p].count q = if q = p then 1 else 0 := by
    simpa using count_append_one [] p q
  unfold wakeOne
  dsimp only
  split_ifs with hp hmsg
  · refine ⟨length_update, rfl, rfl, rfl, fun q => ?_⟩
    simp only [update, count_append_one, hone]
    omega
  · unfold answer resume
    split
    · refine ⟨by simp [update, note], rfl, rfl, rfl, fun q => ?_⟩
      simp only [update, note, count_append_one, hone]
      omega
    · exact ⟨by simp [update, note], rfl, rfl, rfl, fun q => Nat.le_add_right _ _⟩
  · exact ⟨rfl, rfl, rfl, rfl, fun q => Nat.le_add_right _ _⟩

theorem woken_foldl (ps : List Pid) (acc : Core × List Pid) : Woken acc ps (ps.foldl wakeOne acc) := by
  induction ps generalizing acc with
  | nil => exact ⟨rfl, rfl, rfl, rfl, fun q => Nat.le_refl _⟩
  | cons p rest ih =>
    have h := woken_wakeOne acc p
    have h' := ih (wakeOne acc p)
    refine ⟨h'.length.trans h.length, h'.joining.trans h.joining, h'.ioPending.trans h.ioPending,
      h'.futexParked.trans h.futexParked, fun q => ?_⟩
    have hq := h.count q
    have hq' := h'.count q
    have hcons : (p :: rest).count q = [p].count q + rest.count q := by
      rw [← count_append, singleton_append]
    rw [foldl_cons, hcons]
    omega

section

variable (h : Placed s)
include h

theorem Placed.wakeWaiting : Placed s.wakeWaiting := by
  have hwoken := woken_foldl s.waiting (s, [])
  refine h.stays ⟨hwoken.length.ge, fun q => ?_⟩
  have hq := hwoken.count q
  simp only [places, Core.wakeWaiting]
  rw [hwoken.joining, hwoken.ioPending, hwoken.futexParked]
  dsimp only
  simp only [count_nil] at hq
  omega

theorem Placed.shutdownIdle : Placed s.shutdownIdle := by
  have hfold (ps : List Pid) (s : Core) :
      Stays s (ps.foldl (fun s pid => s.processExit pid (.keyword "shutdown")) s) := by
    induction ps generalizing s with
    | nil => exact .of_eq rfl rfl rfl rfl rfl rfl
    | cons p rest ih => exact (Stays.processExit ..).trans (ih _)
  exact h.stays ((hfold _ s).trans
    (.of_sublist rfl (.refl _) (nil_sublist _) (.refl _) (.refl _) (.refl _)))

theorem Placed.step (st : Step) : Placed (s.step st) := by
  unfold Core.step
  split
  · exact h
  cases st with
  | tick | advanceTo | deadlock => exact h.stays (.of_eq rfl rfl rfl rfl rfl rfl)
  | fireTimers => exact h.stays (.fireTimers s)
  | wakeWaiting => exact h.wakeWaiting
  | runOne pid sig =>
    dsimp only
    split
    · rename_i hpid
      exact (h.ready hpid).turn sig
    · exact h
  | completeIo id sig =>
    dsimp only [Core.completeIo]
    split
    · rename_i pid hget
      exact (h.ioPending hget).turn sig
    · exact h.stays (.of_sublist rfl (.refl _) (.refl _) (.refl _) filter_sublist (.refl _))
  | wake pid v =>
    dsimp only
    split
    · rename_i hpid
      exact (h.joining hpid).resume v
    · exact h
  | unpark key w =>
    dsimp only
    split
    · rename_i hmem
      cases w with
      | process pid => exact (h.futexParked hmem).resume _
      | sub =>
        exact h.stays (.of_sublist rfl (.refl _) (.refl _) (.refl _) (.refl _) erase_sublist)
    · exact h
  | startIo id entry =>
    have hput (hentry : ∀ q, entry ≠ .waiter (.process q)) :
        Placed { s with ioPending := s.ioPending.put id entry } := by
      refine h.stays ⟨Nat.le_refl _, fun q => ?_⟩
      have hdel : ((s.ioPending.del id).entries.countP fun e => e.2 = .waiter (.process q)) ≤
          s.ioPending.entries.countP fun e => e.2 = .waiter (.process q) :=
        List.Sublist.countP_le filter_sublist
      simp only [places, KeyMap.put, countP_cons, decide_eq_true_eq, hentry q, if_false]
      omega
    dsimp only
    split
    · exact h
    · rename_i hne
      exact hput hne
  | cancelIo id =>
    dsimp only [Core.cancelIo]
    split
    · exact h.stays (.of_sublist rfl (.refl _) (.refl _) (.refl _) filter_sublist (.refl _))
    · exact h
  | parkSub key fiber pid =>
    refine h.stays ⟨Nat.le_refl _, fun q => ?_⟩
    simp only [places, countP_append, countP_singleton, reduceCtorEq, decide_false]
    simp
  | shutdownIdle => exact h.shutdownIdle
  | inject pid msg => exact h.stays (.deliver _ _ _ _)
  | spawn => exact h.stays (.spawn s)

theorem Placed.run (steps : List Step) : Placed (s.run steps) := by
  induction steps generalizing s with
  | nil => exact h
  | cons st rest ih => exact ih (h.step st)

theorem Placed.lt_of_waiting (hpid : pid ∈ s.waiting) : pid < s.procs.length := by
  have hpos := List.count_pos_iff.2 hpid
  have hle := h pid
  by_contra hlt
  rw [if_neg hlt] at hle
  unfold places at hle
  omega

theorem Placed.nodup_waiting : s.waiting.Nodup := by
  refine List.nodup_iff_count_le_one.2 fun q => ?_
  have hle := h q
  unfold places at hle
  split at hle <;> omega

theorem Placed.not_waiting_of_ready (hpid : pid ∈ s.ready) : pid ∉ s.waiting := by
  intro hw
  have h₁ := List.count_pos_iff.2 hpid
  have h₂ := List.count_pos_iff.2 hw
  have hle := h pid
  unfold places at hle
  split at hle <;> omega

end

theorem Running.not_waiting (h : Running s pid) : pid ∉ s.waiting := by
  intro hw
  have h₁ := List.count_pos_iff.2 hw
  have h₂ := h.nowhere
  unfold places at h₂
  omega

theorem Running.not_ready (h : Running s pid) : pid ∉ s.ready := by
  intro hw
  have h₁ := List.count_pos_iff.2 hw
  have h₂ := h.nowhere
  unfold places at h₂
  omega

/-- In every run of the scheduler a process is in at most one of its tables, and a pid never handed out is
in none. -/
theorem rounds_place_once (rounds : List (Round × Bool)) (q : Pid) :
    let s := rounds.foldl (fun s r => s.run (s.round r.1 r.2)) (({} : Core).run [.spawn])
    s.places q ≤ 1 ∧ (s.procs.length ≤ q → s.places q = 0) := by
  intro s
  have hstart : Placed ({} : Core) := fun _ => Nat.zero_le _
  have hs : Placed s := List.foldlRecOn _ _ (hstart.run [.spawn]) fun s h r _ => h.run _
  have hq := hs q
  split at hq <;> omega

end Core

end Elle.Process

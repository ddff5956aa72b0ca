import Elle.Process.Aftermath

/-!
# What a command can do

Every command but a receive is a few acts on the table and then a `resume` of the process that
yielded it (`handleCmd_acts`). An invariant of the table is proved once for each act, not once for
each command.
-/

namespace Elle.Process

/-- Whether an event has nothing to do with monitors. -/
def Event.unwatched : Event → Bool
  | monitored .. | demonitored _ | delivered _ _ (.monitor _) => false
  | _ => true

namespace Core

/-- Nothing has changed but trapping, names and dictionaries. -/
structure Calm (s s' : Core) : Prop where
  length : s'.procs.length = s.procs.length
  alive : ∀ q, s'.isAlive q = s.isAlive q
  mbox : ∀ q, (s'.proc q).mbox = (s.proc q).mbox
  saveQueue : ∀ q, (s'.proc q).saveQueue = (s.proc q).saveQueue
  recvPred : ∀ q, (s'.proc q).recvPred = (s.proc q).recvPred
  timerRef : ∀ q, (s'.proc q).timerRef = (s.proc q).timerRef
  aliases : ∀ q, (s'.proc q).aliases = (s.proc q).aliases
  monitors : ∀ q, (s'.proc q).monitors = (s.proc q).monitors
  monitoredBy : ∀ q, (s'.proc q).monitoredBy = (s.proc q).monitoredBy
  resume : ∀ q, (s'.proc q).resume = (s.proc q).resume
  links : ∀ q, (s'.proc q).links = (s.proc q).links
  ready : s'.ready = s.ready
  waiting : s'.waiting = s.waiting
  timers : s'.timers = s.timers
  clock : s'.clock = s.clock
  ioPending : s'.ioPending = s.ioPending
  futexParked : s'.futexParked = s.futexParked
  nextRef : s'.nextRef = s.nextRef
  joining : s'.joining = s.joining
  raised : s'.raised = s.raised
  log : s'.log = s.log

theorem Calm.trans {s₁ s₂ s₃ : Core} (h : Calm s₁ s₂) (h' : Calm s₂ s₃) : Calm s₁ s₃ :=
  ⟨h'.length.trans h.length, fun q => (h'.alive q).trans (h.alive q),
    fun q => (h'.mbox q).trans (h.mbox q), fun q => (h'.saveQueue q).trans (h.saveQueue q),
    fun q => (h'.recvPred q).trans (h.recvPred q), fun q => (h'.timerRef q).trans (h.timerRef q),
    fun q => (h'.aliases q).trans (h.aliases q), fun q => (h'.monitors q).trans (h.monitors q),
    fun q => (h'.monitoredBy q).trans (h.monitoredBy q), fun q => (h'.resume q).trans (h.resume q),
    fun q => (h'.links q).trans (h.links q), h'.ready.trans h.ready, h'.waiting.trans h.waiting, h'.timers.trans h.timers,
    h'.clock.trans h.clock, h'.ioPending.trans h.ioPending, h'.futexParked.trans h.futexParked,
    h'.nextRef.trans h.nextRef, h'.joining.trans h.joining, h'.raised.trans h.raised,
    h'.log.trans h.log⟩

variable {s : Core} {pid : Pid}

theorem calm_update {f : Proc → Proc} (p : Pid) (h : ∀ x, f x = { x with
      trapping := (f x).trapping, name := (f x).name, dict := (f x).dict
      exitReason := (f x).exitReason }) : Calm s (s.update p f) where
  length := length_update
  alive _ := isAlive_update _ _ _ fun x => by rw [h x]
  mbox _ := mbox_update _ _ _ fun x => by rw [h x]
  saveQueue _ := saveQueue_update _ _ _ fun x => by rw [h x]
  recvPred _ := recvPred_update _ _ _ fun x => by rw [h x]
  timerRef _ := timerRef_update _ _ _ fun x => by rw [h x]
  aliases _ := aliases_update _ _ _ fun x => by rw [h x]
  monitors _ := monitors_update _ _ _ fun x => by rw [h x]
  monitoredBy _ := monitoredBy_update _ _ _ fun x => by rw [h x]
  resume _ := resume_update _ _ _ fun x => by rw [h x]
  links _ := links_update _ _ _ fun x => by rw [h x]
  ready := rfl
  waiting := rfl
  timers := rfl
  clock := rfl
  ioPending := rfl
  futexParked := rfl
  nextRef := rfl
  joining := rfl
  raised := rfl
  log := rfl

theorem calm_names (names : Val → Option Pid) : Calm s { s with names } :=
  ⟨rfl, fun _ => rfl, fun _ => rfl, fun _ => rfl, fun _ => rfl, fun _ => rfl, fun _ => rfl, fun _ => rfl,
    fun _ => rfl, fun _ => rfl, fun _ => rfl, rfl, rfl, rfl, rfl, rfl, rfl, rfl, rfl, rfl, rfl⟩

/-- One act of the running process `pid` on the table. Only where `named` holds does an act change names. -/
inductive Act (pid : Pid) (named : Prop) : Core → Core → Prop
  | calm {s s' : Core} (h : Calm s s')
    (hnames : named ∨ s'.names = s.names ∧ ∀ q, (s'.proc q).name = (s.proc q).name) : Act pid named s s'
  | addLink {s : Core} (h : s.isAlive pid) {target : Pid} (ht : s.isAlive target) :
    Act pid named s (s.addLink pid target)
  | removeLink (s : Core) (target : Pid) : Act pid named s (s.removeLink pid target)
  | send (s : Core) (target : Pid) (msg : Val) : Act pid named s (s.deliver target msg .sender)
  | signal (s : Core) (target dead : Pid) (reason : Val) :
    Act pid named s (s.deliver target (exitMsg dead reason) .signal)
  | reply (s : Core) (target : Pid) (ref : Ref) (value : Val) : Act pid named s (s.reply target ref value)
  | freshRef (s : Core) : Act pid named s s.freshRef.1
  | addAlias {s : Core} (h : s.isAlive pid) : Act pid named s (s.addAlias pid).1
  | dropAlias {s : Core} (h : s.isAlive pid) (ref : Ref) :
    Act pid named s (s.update pid fun p => { p with aliases := p.aliases.del ref })
  | flush {s : Core} (h : s.isAlive pid) (tag : String) (ref : Ref) :
    Act pid named s (s.flushTagged pid tag ref)
  | monitor {s : Core} (h : s.isAlive pid) (target : Pid) : Act pid named s (s.addMonitor pid target).1
  | demonitor {s : Core} (h : s.isAlive pid) (ref : Ref) : Act pid named s (s.removeMonitor ref pid)
  | spawn (s : Core) : Act pid named s s.spawn.1
  | exit (s : Core) (target : Pid) (reason : Val) : Act pid named s (s.processExit target reason)
  | timer (s : Core) (ticks : Int) (target : Pid) (msg : Val) : Act pid named s (s.addTimer ticks target msg).1
  | dropTimer (s : Core) (ref : Ref) : Act pid named s (s.cancelTimer ref).1

abbrev Acts (pid : Pid) (named : Prop) : Core → Core → Prop := Relation.ReflTransGen (Act pid named)

end Core

/-- A receive, or a command the scheduler does not know. -/
def Command.special : Command → Bool
  | recv | recvMatch _ | recvTimeout _ | unknown => true
  | _ => false

def Command.renames : Command → Bool
  | register _ | unregister _ => true
  | _ => false

namespace Core

/-- In the step `st` the process `pid` takes a turn that ends in `cmd`. -/
def Yields (s : Core) (st : Step) (pid : Pid) (cmd : Command) : Prop :=
  s.raised = false ∧ s.isAlive pid ∧ (st = .runOne pid (.command cmd) ∧ pid ∈ s.ready ∨
    ∃ id, st = .completeIo id (.command cmd) ∧ s.ioPending.get? id = some (.waiter (.process pid)))

variable {s : Core} {pid : Pid} {named : Prop}

theorem acts_link (hp : s.isAlive pid) (target : Pid) : Acts pid named s (s.link pid target).1 := by
  unfold link
  split_ifs with ht
  · exact .single (.addLink hp ht)
  · exact .refl
  · exact .single (.signal s ..)
  · exact .refl

theorem isAlive_removeMonitor (s : Core) (ref : Ref) (w q : Pid) :
    (s.removeMonitor ref w).isAlive q = s.isAlive q :=
  s.removeMonitor_cases (P := fun s' => s'.isAlive q = s.isAlive q) rfl fun _ _ => by simp

theorem handleCmd_acts {cmd : Command} (hp : s.isAlive pid) (h : cmd.special = false)
    (hn : cmd.renames → named) : ∃ s₁ v, Acts pid named s s₁ ∧ s.handleCmd pid cmd = s₁.resume pid v := by
  have none_ {v} : ∃ s₁ v', Acts pid named s s₁ ∧ s.resume pid v = s₁.resume pid v' := ⟨s, v, .refl, rfl⟩
  have one {s₁ v} (h : Act pid named s s₁) : ∃ s₂ v', Acts pid named s s₂ ∧ s₁.resume pid v = s₂.resume pid v' :=
    ⟨s₁, v, .single h, rfl⟩
  have two {s₁ s₂ v} (h : Act pid named s s₁) (h' : Act pid named s₁ s₂) :
      ∃ s₃ v', Acts pid named s s₃ ∧ s₂.resume pid v = s₃.resume pid v' :=
    ⟨s₂, v, (Relation.ReflTransGen.single h).tail h', rfl⟩
  cases cmd with
  | recv | recvMatch | recvTimeout | unknown => cases h
  | self | now | whereis | getDict => exact none_
  | send target msg => exact one (.send s target msg)
  | spawn => exact one (.spawn s)
  | spawnLink =>
    exact two (.spawn s) (.addLink (isAlive_spawn hp) (by simp [isAlive, proc_spawn_self]))
  | spawnMonitor => exact two (.spawn s) (.monitor (isAlive_spawn hp) _)
  | link target => exact ⟨_, _, acts_link hp target, rfl⟩
  | unlink target => exact one (.removeLink s target)
  | monitor target => exact one (.monitor hp target)
  | demonitor ref flush =>
    cases flush
    · exact one (.demonitor hp ref)
    · exact two (.demonitor hp ref) (.flush ((isAlive_removeMonitor ..).trans hp) "DOWN" ref)
  | makeRef => exact one (.freshRef s)
  | addAlias => exact one (.addAlias hp)
  | unalias ref =>
    exact two (.dropAlias hp ref) (.flush (by simpa using hp) "$reply" ref)
  | reply target ref value => exact one (.reply s target ref value)
  | trapExit flag | putDict key val | eraseDict key =>
    exact one (.calm (calm_update _ fun _ => rfl) (.inr ⟨rfl, fun q => name_update _ _ _ fun _ => rfl⟩))
  | exit target reason =>
    simp only [handleCmd]
    split_ifs
    · exact one (.exit s ..)
    · exact one (.signal s ..)
    · exact one (.exit s ..)
    · exact none_
  | register name | unregister name =>
    exact one (.calm ((calm_names _).trans (calm_update _ fun _ => rfl)) (.inl (hn rfl)))
  | sendNamed name msg =>
    simp only [handleCmd]
    cases s.names name with
    | none => exact none_
    | some target => exact one (.send s target msg)
  | sendAfter ticks target msg => exact one (.timer s ticks target msg)
  | cancelTimer ref => exact one (.dropTimer s ref)

theorem Act.raised {s s' : Core} (h : Act pid named s s') (hr : s'.raised = false) : s.raised = false := by
  cases h with
  | calm hc => rwa [hc.raised] at hr
  | send | signal => rwa [(sameRest_deliver ..).raised] at hr
  | reply target ref value =>
    refine s.reply_cases (P := fun s' => s'.raised = false → s.raised = false) (fun hr => ?_) id hr
    rwa [(sameRest_deliver ..).raised] at hr
  | addLink | removeLink | freshRef | addAlias | dropAlias | flush | spawn | timer | dropTimer => exact hr
  | monitor hp target =>
    refine s.addMonitor_cases (P := fun s' => s'.raised = false → s.raised = false) (fun _ hr => hr)
      (fun hr => ?_) hr
    rwa [(sameRest_deliver ..).raised] at hr
  | demonitor hp ref =>
    exact s.removeMonitor_cases (P := fun s' => s'.raised = false → s.raised = false) id
      (fun _ _ => ⟨id, id⟩) hr
  | exit target reason =>
    rw [raised_processExit, Bool.or_eq_false_iff] at hr
    exact hr.1

theorem Acts.induct {I : Core → Prop} {s s' : Core} (h : Acts pid named s s') (hr : s'.raised = false)
    (hact : ∀ {s s'}, Act pid named s s' → s'.raised = false → I s → I s') (hs : I s) : I s' := by
  induction h with
  | refl => exact hs
  | tail _ ha ih => exact hact ha hr (ih (ha.raised hr))

theorem raised_resume (s : Core) (p : Pid) (v : Val) : (s.resume p v).raised = s.raised :=
  s.resume_cases (P := fun s' => s'.raised = s.raised) (fun _ => rfl) rfl

/-! ## Steps -/

theorem run_concat (s : Core) (steps : List Step) (st : Step) : s.run (steps ++ [st]) = (s.run steps).step st :=
  List.foldl_append

theorem raised_of_step {st : Step} (h : (s.step st).raised = false) : s.raised = false :=
  Bool.eq_false_iff.2 fun hr => by
    rw [show s.step st = s from if_pos hr, hr] at h
    cases h

theorem run_raised (h : s.raised) (steps : List Step) : s.run steps = s := by
  induction steps with
  | nil => rfl
  | cons st rest ih =>
    have hstep : s.step st = s := if_pos h
    rw [run, List.foldl_cons, hstep]
    exact ih

theorem raised_step_of_run {st : Step} {rest : List Step} (h : ((s.step st).run rest).raised = false) :
    (s.step st).raised = false := by
  by_contra hraised
  rw [Bool.not_eq_false] at hraised
  rw [run_raised hraised, hraised] at h
  cases h

/-- What has to be shown of an invariant that does not look at the scheduler's queues. -/
structure Closed (named : Prop) (I : Core → Prop) : Prop where
  sched : ∀ {s s' : Core}, I s → s'.procs = s.procs → s'.log = s.log → s'.names = s.names →
    s.nextRef ≤ s'.nextRef → I s'
  act : ∀ pid {s s'}, Act pid named s s' → s'.raised = false → I s → I s'
  asked : ∀ {s pid w}, s.isAlive pid → I s → I (s.note (.asked pid w))
  waitForMessage : ∀ {s pid pred}, s.isAlive pid → I s → I (s.waitForMessage pid pred).1
  armed : ∀ {s pid ref}, I s → I (s.update pid fun p => { p with timerRef := some ref })
  resume : ∀ {s pid v}, I s → I (s.resume pid v)
  ran : ∀ {s pid}, s.isAlive pid → I s →
    I ((s.note (.ran pid (s.proc pid).resume)).update pid fun p => { p with resume := .nil })
  fireTimer : ∀ {s t}, I s → I (s.fireTimer t)
  wakeOne : ∀ {acc pid}, I acc.1 → I (wakeOne acc pid).1
  cancelled : ∀ {s id}, I s → I (s.note (.cancelled id))

namespace Closed

variable {named : Prop} {I : Core → Prop} {s : Core} {pid : Pid}

section

variable (hI : Closed named I)
include hI

theorem special {cmd : Command} (hp : s.isAlive pid) (hcmd : cmd.special) (h : I s) :
    I (s.handleCmd pid cmd) := by
  have hwait (w : Inbox.Want Val) (pred : Option (Val → Bool)) :
      I ((s.note (.asked pid w)).waitForMessage pid pred).1 := hI.waitForMessage hp (hI.asked hp h)
  cases cmd with
  | recv => exact hwait _ _
  | recvMatch pred => exact hwait _ _
  | recvTimeout ticks =>
    simp only [Core.handleCmd]
    split
    · exact hwait _ _
    · exact hI.armed (hI.sched (hwait (.within (s.clock + ticks)) none) rfl rfl rfl (Nat.le_succ _))
  | unknown => exact hI.sched h rfl rfl rfl (Nat.le_refl _)
  | _ => cases hcmd

theorem fireTimers (h : I s) : I s.fireTimers := by
  have hall (ts : List Timer) : ∀ s, I s →
      I (ts.foldl (fun s t => if s.raised then s else s.fireTimer t) s) := by
    induction ts with
    | nil => exact fun s h => h
    | cons t rest ih =>
      intro s h
      refine ih _ ?_
      dsimp only
      split
      · exact h
      · exact hI.fireTimer h
  exact hall _ _ (hI.sched h rfl rfl rfl (Nat.le_refl _))

theorem wakeWaiting (h : I s) : I s.wakeWaiting := by
  have hall (ps : List Pid) (acc : Core × List Pid) (h : I acc.1) : I (ps.foldl Core.wakeOne acc).1 := by
    induction ps generalizing acc with
    | nil => exact h
    | cons p rest ih => exact ih _ (hI.wakeOne h)
  exact hI.sched (hall s.waiting (s, []) h) rfl rfl rfl (Nat.le_refl _)

theorem handleCmd {cmd : Command} (hp : s.isAlive pid) (hn : cmd.renames → named)
    (hr : (s.handleCmd pid cmd).raised = false) (h : I s) : I (s.handleCmd pid cmd) := by
  cases hspecial : cmd.special with
  | true => exact hI.special hp hspecial h
  | false =>
    obtain ⟨s₁, v, hacts, heq⟩ := handleCmd_acts hp hspecial hn
    rw [heq, raised_resume] at hr
    rw [heq]
    exact hI.resume (hacts.induct hr (hI.act pid) h)

theorem turn {sig : Signal} (hn : s.isAlive pid → ∀ cmd, sig = .command cmd → cmd.renames → named)
    (hr : (s.turn pid sig).raised = false) (h : I s) : I (s.turn pid sig) := by
  unfold Core.turn at hr ⊢
  split
  · rename_i hp
    rw [if_pos hp] at hr
    set s₁ := (s.note (.ran pid (s.proc pid).resume)).update pid fun p => { p with resume := .nil } with hs₁
    have h₁ : I s₁ := hI.ran hp h
    cases sig with
    | done v | error v => exact hI.act pid (.exit ..) hr h₁
    | fuel | io | wait | park => exact hI.sched h₁ rfl rfl rfl (Nat.le_refl _)
    | served v => exact hI.resume h₁
    | command cmd => exact hI.handleCmd (by simpa [hs₁] using hp) (hn hp cmd rfl) hr h₁
  · exact h

theorem shutdownIdle (hr : s.raised = false) (h : I s) : I s.shutdownIdle := by
  have hfold (ps : List Pid) : ∀ s : Core, s.raised = false → I s →
      I (ps.foldl (fun s pid => s.processExit pid (.keyword "shutdown")) s) := by
    induction ps with
    | nil => exact fun s _ h => h
    | cons p rest ih =>
      intro s hr h
      have hr' : (s.processExit p (.keyword "shutdown")).raised = false := by
        rw [raised_processExit, hr, show imposed (.keyword "shutdown") = some false from rfl]
        simp
      exact ih _ hr' (hI.act p (.exit ..) hr' h)
  exact hI.sched (hfold (List.range s.procs.length) s hr h) rfl rfl rfl (Nat.le_refl _)

theorem step {st : Step} (hn : ∀ pid cmd, s.Yields st pid cmd → cmd.renames → named)
    (hr : (s.step st).raised = false) (h : I s) : I (s.step st) := by
  unfold Core.step at hr ⊢
  split
  · exact h
  rename_i hraised
  rw [if_neg hraised] at hr
  have hrun := Bool.eq_false_iff.2 hraised
  -- the queues may change before a turn or a `resume`
  have hqueue {s'} (hprocs : s'.procs = s.procs) (hlog : s'.log = s.log) (hnames : s'.names = s.names)
      (hnext : s'.nextRef = s.nextRef) : I s' :=
    hI.sched h hprocs hlog hnames (Nat.le_of_eq hnext.symm)
  cases st with
  | tick | advanceTo | parkSub | deadlock => exact hqueue rfl rfl rfl rfl
  | fireTimers => exact hI.fireTimers h
  | wakeWaiting => exact hI.wakeWaiting h
  | runOne pid sig =>
    dsimp only at hr ⊢
    split
    · rename_i hmem
      rw [if_pos hmem] at hr
      exact hI.turn (fun hp cmd hsig => hn pid cmd ⟨hrun, hp, .inl ⟨hsig ▸ rfl, hmem⟩⟩) hr (hqueue rfl rfl rfl rfl)
    · exact h
  | completeIo id sig =>
    dsimp only [Core.completeIo] at hr ⊢
    split
    · rename_i pid hget
      rw [hget] at hr
      exact hI.turn (fun hp cmd hsig => hn pid cmd ⟨hrun, hp, .inr ⟨id, hsig ▸ rfl, hget⟩⟩) hr (hqueue rfl rfl rfl rfl)
    · exact hqueue rfl rfl rfl rfl
  | wake pid v =>
    dsimp only
    split
    · exact hI.resume (hqueue rfl rfl rfl rfl)
    · exact h
  | unpark key w =>
    dsimp only
    split
    · cases w with
      | process pid => exact hI.resume (hqueue rfl rfl rfl rfl)
      | sub => exact hqueue rfl rfl rfl rfl
    · exact h
  | startIo id entry =>
    dsimp only
    split
    · exact h
    · exact hqueue rfl rfl rfl rfl
  | cancelIo id =>
    dsimp only [Core.cancelIo]
    split
    · exact hI.cancelled (hqueue rfl rfl rfl rfl)
    · exact h
  | shutdownIdle => exact hI.shutdownIdle hrun h
  | inject pid msg => exact hI.act pid (.send ..) hr h
  | spawn => exact hI.act 0 (.spawn s) hr h

end

theorem run (hI : Closed True I) {steps : List Step} (hr : (s.run steps).raised = false) (h : I s) :
    I (s.run steps) := by
  induction steps generalizing s with
  | nil => exact h
  | cons st rest ih => exact ih hr (hI.step (fun _ _ _ _ => trivial) (raised_step_of_run hr) h)

end Closed

/-! ## Invariants that look at no message -/

/-- What has to be shown of an invariant that looks at the life, the links, the monitors and the names of
processes only. -/
structure Blind (named : Prop) (I : Core → Prop) : Prop where
  sched : ∀ {s s' : Core}, I s → s'.procs = s.procs → s'.log = s.log → s'.names = s.names →
    s.nextRef ≤ s'.nextRef → I s'
  update : ∀ {s p f}, (∀ x, (f x).fixed = x.fixed) → I s → I (s.update p f)
  note : ∀ {s e}, e.unwatched → I s → I (s.note e)
  calm : ∀ {s s'}, Calm s s' → named ∨ s'.names = s.names ∧ (∀ q, (s'.proc q).name = (s.proc q).name) →
    I s → I s'
  addLink : ∀ {s a b}, s.isAlive a → s.isAlive b → I s → I (s.addLink a b)
  removeLink : ∀ {s a b}, I s → I (s.removeLink a b)
  monitor : ∀ {s w t}, s.isAlive w → I s → I (s.addMonitor w t).1
  demonitor : ∀ {s w ref}, s.isAlive w → I s → I (s.removeMonitor ref w)
  spawn : ∀ {s}, I s → I s.spawn.1
  exit : ∀ {s p r}, (s.processExit p r).raised = false → I s → I (s.processExit p r)

namespace Blind

variable {named : Prop} {I : Core → Prop} {s : Core} {p : Pid} (hI : Blind named I)
include hI

theorem deliver {m : Val} {made : Maker} (hmade : (Event.delivered p m made).unwatched) (h : I s) :
    I (s.deliver p m made) :=
  s.deliver_cases (fun _ => hI.note hmade (hI.update (fun _ => rfl) h)) h

theorem resume {v : Val} (h : I s) : I (s.resume p v) :=
  s.resume_cases (fun _ => hI.sched (hI.update (p := p) (fun _ => by rfl) h) rfl rfl rfl le_rfl) h

theorem answer {v : Val} (h : I s) : I (s.answer p v) := hI.resume (hI.note rfl h)

theorem act {pid : Pid} {s' : Core} (ha : Act pid named s s') (hr : s'.raised = false) (h : I s) : I s' := by
  cases ha with
  | calm hc hn => exact hI.calm hc hn h
  | addLink hp ht => exact hI.addLink hp ht h
  | removeLink => exact hI.removeLink h
  | send | signal => exact hI.deliver rfl h
  | reply => exact s.reply_cases (hI.deliver rfl h) h
  | freshRef | timer => exact hI.sched h rfl rfl rfl (Nat.le_succ _)
  | dropTimer => exact hI.sched h rfl rfl rfl le_rfl
  | addAlias => exact hI.update (fun _ => rfl) (hI.sched h rfl rfl rfl (Nat.le_succ _))
  | dropAlias => exact hI.update (fun _ => rfl) h
  | flush => exact hI.note rfl (hI.update (fun _ => rfl) h)
  | monitor hp => exact hI.monitor hp h
  | demonitor hp => exact hI.demonitor hp h
  | spawn => exact hI.spawn h
  | exit => exact hI.exit hr h

theorem closed : Closed named I where
  sched := hI.sched
  act _ _ _ ha hr h := hI.act ha hr h
  asked _ h := hI.note rfl h
  waitForMessage {s pid pred} _ h :=
    s.waitForMessage_cases (hI.sched (hI.update (p := pid) (fun x => by exact x.take_fixed pred) h) rfl rfl rfl le_rfl)
      fun _ => hI.answer (hI.update (fun x => x.take_fixed pred) h)
  armed h := hI.update (fun _ => rfl) h
  resume h := hI.resume h
  ran _ h := hI.update (fun _ => rfl) (hI.note rfl h)
  fireTimer {s _} h := s.fireTimer_cases (hI.sched h rfl rfl rfl le_rfl) h
    (hI.deliver rfl (hI.update (fun _ => rfl) h)) (hI.deliver rfl h)
  wakeOne h := wakeOne_cases h (fun _ => hI.update (fun x => x.take_fixed x.recvPred) h)
    fun _ _ => hI.answer (hI.update (fun x => x.take_fixed x.recvPred) h)
  cancelled h := hI.note rfl h

end Blind

end Core

end Elle.Process

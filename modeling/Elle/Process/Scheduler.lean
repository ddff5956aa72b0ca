import Elle.Process.Core

/-!
# Commands and rounds of the process scheduler (lib/process/commands.lisp, scheduler.lisp)

`handleCmd` is the command table. A `Step` is one thing the scheduler does: a phase of its loop, or
a turn of one process, given by the signal it ends in. Sub-fibers appear only where they touch the
process table: they start and end I/O and park on futexes, and they end the waits of processes.
-/

namespace Elle.Process

open Inbox (Want)

/-- The commands a process yields (primitives.lisp, and `alias`, `unalias`, `reply` and `make-ref` of
genserver.lisp). -/
inductive Command where
  | send (pid : Pid) (msg : Val)
  | recv
  | recvMatch (pred : Val → Bool)
  | recvTimeout (ticks : Int)
  | self
  | spawn
  | spawnLink
  | spawnMonitor
  | link (pid : Pid)
  | unlink (pid : Pid)
  | monitor (pid : Pid)
  | demonitor (ref : Ref) (flush : Bool)
  | makeRef
  | addAlias
  | unalias (ref : Ref)
  | reply (pid : Pid) (ref : Ref) (value : Val)
  | now
  | trapExit (flag : Bool)
  | exit (pid : Pid) (reason : Val)
  | register (name : Val)
  | unregister (name : Val)
  | whereis (name : Val)
  | sendNamed (name : Val) (msg : Val)
  | sendAfter (ticks : Int) (pid : Pid) (msg : Val)
  | cancelTimer (ref : Ref)
  | putDict (key val : Val)
  | getDict (key : Val)
  | eraseDict (key : Val)
  | unknown

namespace Core

variable (s : Core)

/-- Block `pid` until a message its receive can take arrives; true when one was there. -/
def waitForMessage (pid : Pid) (pred : Option (Val → Bool)) : Core × Bool :=
  let msg := ((s.proc pid).take pred).1
  if msg = .nil then
    ({ s.update pid fun p => { (p.take pred).2 with recvPred := pred } with
        waiting := s.waiting ++ [pid] }, false)
  else ((s.update pid fun p => (p.take pred).2).answer pid msg, true)

def handleCmd (pid : Pid) : Command → Core
  | .send target msg => (s.deliver target msg .sender).resume pid okVal
  | .recv => ((s.note (.asked pid .any)).waitForMessage pid none).1
  | .recvMatch pred => ((s.note (.asked pid (.pick pred))).waitForMessage pid (some pred)).1
  | .recvTimeout ticks =>
    let r := (s.note (.asked pid (.within (s.clock + ticks)))).waitForMessage pid none
    if r.2 then r.1
    else
      let t := r.1.addTimer ticks pid timeoutVal
      t.1.update pid fun p => { p with timerRef := some t.2 }
  | .self => s.resume pid (.num pid)
  | .spawn =>
    let (s, child) := s.spawn
    s.resume pid (.num child)
  | .spawnLink =>
    let (s, child) := s.spawn
    (s.addLink pid child).resume pid (.num child)
  | .spawnMonitor =>
    let (s, child) := s.spawn
    let (s, ref) := s.addMonitor pid child
    s.resume pid (.array [.num child, .num ref])
  | .link target =>
    let (s, answer) := s.link pid target
    s.resume pid answer
  | .unlink target => (s.removeLink pid target).resume pid okVal
  | .monitor target =>
    let (s, ref) := s.addMonitor pid target
    s.resume pid (.num ref)
  | .demonitor ref flush =>
    let s := s.removeMonitor ref pid
    let s := if flush then s.flushTagged pid "DOWN" ref else s
    s.resume pid okVal
  | .makeRef =>
    let (s, ref) := s.freshRef
    s.resume pid (.num ref)
  | .addAlias =>
    let (s, ref) := s.addAlias pid
    s.resume pid (.num ref)
  | .unalias ref => (s.removeAlias pid ref).resume pid okVal
  | .reply target ref value => (s.reply target ref value).resume pid okVal
  | .now => s.resume pid (.int s.clock)
  | .trapExit flag => (s.update pid fun p => { p with trapping := flag }).resume pid okVal
  | .exit target reason =>
    let s :=
      if target = pid then s.processExit pid reason
      else if s.isAlive target then
        if (s.proc target).trapping ∧ reason ≠ .keyword "kill" then
          s.deliver target (exitMsg pid reason) .signal
        else s.processExit target (killedReason reason)
      else s
    s.resume pid okVal
  | .register name =>
    ({ s with names := Function.update s.names name (some pid) }.update pid fun p =>
      { p with name := name }).resume pid okVal
  | .unregister name =>
    ({ s with names := Function.update s.names name none }.update pid fun p =>
      { p with name := .nil }).resume pid okVal
  | .whereis name => s.resume pid ((s.names name).elim .nil .num)
  | .sendNamed name msg =>
    let s := (s.names name).elim s fun target => s.deliver target msg .sender
    s.resume pid okVal
  | .sendAfter ticks target msg =>
    let (s, ref) := s.addTimer ticks target msg
    s.resume pid (.num ref)
  | .cancelTimer ref =>
    let (s, found) := s.cancelTimer ref
    s.resume pid (if found then okVal else .keyword "not-found")
  | .putDict key val =>
    let old := ((s.proc pid).dict.get? key).getD .nil
    (s.update pid fun p => { p with dict := p.dict.put key val }).resume pid old
  | .getDict key => s.resume pid (((s.proc pid).dict.get? key).getD .nil)
  | .eraseDict key =>
    let old := ((s.proc pid).dict.get? key).getD .nil
    (s.update pid fun p => { p with dict := p.dict.del key }).resume pid old
  | .unknown => { s with raised := true }

end Core

/-- How the turn of a process ends, once refused I/O and denied calls have been raised in it. -/
inductive Signal where
  | done (value : Val)
  | error (value : Val)
  | fuel
  /-- I/O, which the parent scheduler takes as submission `id`. -/
  | io (id : Nat)
  /-- A join, a select or a relayed request that is not answered yet. -/
  | wait
  /-- A park on a futex whose value is still the expected one. -/
  | park (key : Val)
  /-- A wait that is answered at once. -/
  | served (value : Val)
  | command (cmd : Command)

inductive Step where
  | tick
  | advanceTo (now : Int)
  | fireTimers
  | wakeWaiting
  /-- `run-one`: the turn of a ready process. -/
  | runOne (pid : Pid) (signal : Signal)
  /-- `complete-io`: the submission ends, and a process that waits for it takes a turn. -/
  | completeIo (id : Nat) (signal : Signal)
  /-- A join, a select or a relayed request of a process ends. -/
  | wake (pid : Pid) (value : Val)
  /-- A futex wake takes a waiter. -/
  | unpark (key : Val) (waiter : Waiter)
  /-- A sub-fiber, a nested scheduler or the alarm starts I/O. -/
  | startIo (id : Nat) (entry : IoEntry)
  | cancelIo (id : Nat)
  /-- A sub-fiber parks on a futex. -/
  | parkSub (key : Val) (fiber : Nat) (pid : Pid)
  | shutdownIdle
  /-- `stall` while PID 0 is alive. -/
  | deadlock
  | inject (pid : Pid) (msg : Val)
  | spawn

namespace Core

variable (s : Core)

def dispatchSignal (pid : Pid) : Signal → Core
  | .done value => s.processExit pid (.array [.keyword "normal", value])
  | .error value => s.processExit pid (.array [.keyword "error", value])
  | .fuel => { s with ready := s.ready ++ [pid] }
  | .io id => { s with ioPending := s.ioPending.put id (.waiter (.process pid)) }
  | .wait => { s with joining := s.joining ++ [pid] }
  | .park key => { s with futexParked := s.futexParked ++ [(key, .process pid)] }
  | .served value => s.resume pid value
  | .command cmd => s.handleCmd pid cmd

/-- The turn of a process: it takes the value it is handed and runs to its next signal. -/
def turn (pid : Pid) (signal : Signal) : Core :=
  if s.isAlive pid then
    ((s.note (.ran pid (s.proc pid).resume)).update pid fun p =>
      { p with resume := .nil }).dispatchSignal pid signal
  else s

def completeIo (id : Nat) (signal : Signal) : Core :=
  let rest := { s with ioPending := s.ioPending.del id }
  match s.ioPending.get? id with
  | some (.waiter (.process pid)) => rest.turn pid signal
  | _ => rest

/-- One step. A step whose process, submission or waiter is not where it takes it from does nothing,
and nothing happens once an error has left the scheduler. -/
def step (st : Step) : Core :=
  if s.raised then s
  else match st with
    | .tick => { s with clock := s.clock + 1 }
    | .advanceTo now => { s with clock := now }
    | .fireTimers => s.fireTimers
    | .wakeWaiting => s.wakeWaiting
    | .runOne pid signal =>
      if pid ∈ s.ready then { s with ready := s.ready.erase pid }.turn pid signal else s
    | .completeIo id signal => s.completeIo id signal
    | .wake pid value =>
      if pid ∈ s.joining then { s with joining := s.joining.erase pid }.resume pid value else s
    | .unpark key w =>
      if (key, w) ∈ s.futexParked then
        let s := { s with futexParked := s.futexParked.erase (key, w) }
        match w with
        | .process pid => s.resume pid .nil
        | .sub .. => s
      else s
    | .startIo id entry =>
      match entry with
      | .waiter (.process _) => s
      | _ => { s with ioPending := s.ioPending.put id entry }
    | .cancelIo id => s.cancelIo id
    | .parkSub key fiber pid => { s with futexParked := s.futexParked ++ [(key, .sub fiber pid)] }
    | .shutdownIdle => s.shutdownIdle
    | .deadlock => { s with raised := true }
    | .inject pid msg => s.deliver pid msg .sender
    | .spawn => s.spawn.1

def run (steps : List Step) : Core := steps.foldl step s

end Core

/-! ## Rounds -/

/-- What one round of `sched-run` is given from outside: the steps of `reap-io`, of the sub-fibers and
of the futex wakes before the blocked receives are looked at, the steps of the wait for I/O when no
process is ready, the signal each ready process's turn ends in, and the steps of the I/O reaped
after them. -/
structure Round where
  early : List Step := []
  io : List Step := []
  batch : Pid → Signal
  late : List Step := []

namespace Core

variable (s : Core)

/-- `idle`, with the steps `io` of the wait for I/O. `busy` says that a sub-fiber or a futex wake is
still to run. -/
def idle (io : List Step) (busy : Bool) : List Step :=
  if s.ioPending.entries ≠ [] then io
  else match s.earliestTimer with
    | some t => [.advanceTo t, .fireTimers, .wakeWaiting]
    | none =>
      if busy then []
      else if s.waiting = [] ∧ s.joining = [] ∧ s.futexParked = [] then []
      else if s.isAlive 0 then [.deadlock]
      else [.shutdownIdle]

/-- The steps of one round of `sched-run`. -/
def round (r : Round) (busy : Bool) : List Step :=
  let early := [Step.tick, .fireTimers] ++ r.early ++ [Step.wakeWaiting]
  let s₁ := s.run early
  let idle := if s₁.ready = [] then s₁.idle r.io busy else []
  let s₂ := s₁.run idle
  early ++ idle ++ (s₂.ready.map fun pid => .runOne pid (r.batch pid)) ++ r.late

end Core

end Elle.Process

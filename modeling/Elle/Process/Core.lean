import Elle.Lib.Inbox
import Elle.Lib.Keyed
import Elle.Process.Value

/-!
# The process table of one scheduler (lib/process/core.lisp)

Mailboxes, links, monitors, exits, aliases and timers. A process is an entry of `procs`, and its
pid is its index there; an entry is never removed, and a pid past the end reads as a dead process
with nothing in it.

A set or a map is listed without a second entry for a key, in no order that anything depends on.
`log` is not in the source: it records what was done, and no function reads it.
-/

namespace Elle.Process

open Inbox (Want)

structure Proc where
  mbox : List Val := []
  resume : Val := .nil
  alive : Bool := true
  /-- The reason an imposed exit leaves for `sched-run` to raise. -/
  exitReason : Option Val := none
  links : KeySet Pid := {}
  monitors : KeyMap Ref Pid := {}
  monitoredBy : KeyMap Ref Pid := {}
  aliases : KeySet Ref := {}
  trapping : Bool := false
  name : Val := .nil
  dict : KeyMap Val Val := {}
  saveQueue : List Val := []
  recvPred : Option (Val → Bool) := none
  timerRef : Option Ref := none

/-- A waiter: a process, as its own pid, or a sub-fiber that a process spawned. -/
inductive Waiter where
  | process (pid : Pid)
  | sub (fiber : Nat) (pid : Pid)
  deriving DecidableEq

def Waiter.owner : Waiter → Pid
  | process pid | sub _ pid => pid

/-- What a forwarded I/O submission is for. -/
inductive IoEntry where
  | waiter (w : Waiter)
  /-- Relayed for a scheduler nested in a process or a sub-fiber of it. -/
  | relay (pid : Pid)
  | alarm
  deriving DecidableEq

def IoEntry.pid : IoEntry → Option Pid
  | waiter w => some w.owner
  | relay pid => some pid
  | alarm => none

structure Timer where
  ref : Ref
  fireAt : Int
  pid : Pid
  msg : Val

/-- On whose behalf the scheduler delivers a message. -/
inductive Maker where
  /-- A `send`, a `send-named`, an injected message or a `send-after`. -/
  | sender
  /-- The exit of a linked process. -/
  | exit (dead : Pid)
  /-- An `exit` sent to a process that traps exits, or a `link` to a process that has exited. -/
  | signal
  | monitor (ref : Ref)
  | reply (ref : Ref)
  /-- The deadline of a `recv-timeout`, which fell due at tick `now`. -/
  | deadline (now : Int)
  deriving DecidableEq

inductive Event where
  | delivered (pid : Pid) (msg : Val) (made : Maker)
  | asked (pid : Pid) (want : Want Val)
  | answered (pid : Pid) (msg : Val)
  | flushed (pid : Pid) (tag : String) (ref : Ref)
  | died (pid : Pid) (reason : Val)
  | monitored (ref : Ref) (watcher target : Pid)
  | demonitored (ref : Ref)
  | cancelled (id : Nat)
  /-- A turn, with the value that was queued for the process. -/
  | ran (pid : Pid) (queued : Val)

namespace Event

/-- The message an event delivers to `q`, and on whose behalf. -/
def deliveredTo (q : Pid) : Event → Option (Val × Maker)
  | delivered pid msg made => if pid = q then some (msg, made) else none
  | _ => none

def death : Event → Option (Pid × Val)
  | died pid reason => some (pid, reason)
  | _ => none

end Event

structure Core where
  procs : List Proc := []
  ready : List Pid := []
  waiting : List Pid := []
  names : Val → Option Pid := fun _ => none
  timers : List Timer := []
  clock : Int := 0
  ioPending : KeyMap Nat IoEntry := {}
  futexParked : List (Val × Waiter) := []
  nextRef : Ref := 0
  /-- Processes parked in a join, a select or a relayed request (waits.lisp). -/
  joining : List Pid := []
  /-- Whether an error has left the scheduler. -/
  raised : Bool := false
  log : List Event := []

namespace Core

variable (s : Core)

def proc (pid : Pid) : Proc := s.procs.getD pid { alive := false }

def isAlive (pid : Pid) : Bool := (s.proc pid).alive

def update (pid : Pid) (f : Proc → Proc) : Core := { s with procs := s.procs.modify pid f }

def note (e : Event) : Core := { s with log := s.log ++ [e] }

/-- The messages delivered to `q` so far. -/
def deliveries (q : Pid) : List (Val × Maker) := s.log.filterMap (Event.deliveredTo q)

def deaths : List (Pid × Val) := s.log.filterMap Event.death

def freshRef : Core × Ref := ({ s with nextRef := s.nextRef + 1 }, s.nextRef)

def spawn : Core × Pid :=
  ({ s with procs := s.procs ++ [{}], ready := s.ready ++ [s.procs.length] }, s.procs.length)

def deliver (pid : Pid) (msg : Val) (made : Maker) : Core :=
  if s.isAlive pid then
    (s.update pid fun p => { p with mbox := p.mbox ++ [msg] }).note (.delivered pid msg made)
  else s

/-- Queue a process to run, with the value its pending yield is handed. -/
def resume (pid : Pid) (value : Val) : Core :=
  if s.isAlive pid then
    { s.update pid fun p => { p with resume := value } with ready := s.ready ++ [pid] }
  else s

def anyAlive : Bool := s.procs.any (·.alive)

/-! ## Links and monitors -/

def addLink (a b : Pid) : Core :=
  (s.update a fun p => { p with links := p.links.put b }).update b fun p =>
    { p with links := p.links.put a }

/-- `link`: the answer is `:noproc` when the target has exited, the caller was not linked to it and
does not trap exits. -/
def link (pid target : Pid) : Core × Val :=
  if s.isAlive target then (s.addLink pid target, okVal)
  else if pid ∈ (s.proc target).links then (s, okVal)
  else if (s.proc pid).trapping then
    (s.deliver pid (exitMsg target (.keyword "noproc")) .signal, okVal)
  else (s, .keyword "noproc")

def removeLink (a b : Pid) : Core :=
  (s.update a fun p => { p with links := p.links.del b }).update b fun p =>
    { p with links := p.links.del a }

def addMonitor (watcher target : Pid) : Core × Ref :=
  let ref := s.nextRef
  let s := { s with nextRef := ref + 1 }.note (.monitored ref watcher target)
  if s.isAlive target then
    ((s.update watcher fun p => { p with monitors := p.monitors.put ref target }).update target
      fun p => { p with monitoredBy := p.monitoredBy.put ref watcher }, ref)
  else (s.deliver watcher (downMsg ref target (.keyword "noproc")) (.monitor ref), ref)

def removeMonitor (ref : Ref) (watcher : Pid) : Core :=
  match (s.proc watcher).monitors.get? ref with
  | none => s
  | some target =>
    let s := (s.update watcher fun p => { p with monitors := p.monitors.del ref }).note (.demonitored ref)
    if s.isAlive target then
      s.update target fun p => { p with monitoredBy := p.monitoredBy.del ref }
    else s

/-! ## Exit -/

/-- `notify-links`, with `process-exit` as a parameter. -/
def notifyLinks (processExit : Core → Pid → Val → Core) (dead : Pid) (reason : Val) : Core :=
  (s.proc dead).links.items.foldl (fun s linked =>
    if s.isAlive linked then
      if (s.proc linked).trapping then s.deliver linked (exitMsg dead reason) (.exit dead)
      else if normal reason then s
      else processExit s linked (linkedReason dead reason)
    else s) s

def notifyMonitors (dead : Pid) (reason : Val) : Core :=
  (s.proc dead).monitoredBy.entries.foldl (fun s e =>
    if s.isAlive e.2 then
      (s.deliver e.2 (downMsg e.1 dead reason) (.monitor e.1)).update e.2 fun p =>
        { p with monitors := p.monitors.del e.1 }
    else s) s

def unregisterName (pid : Pid) : Core :=
  let n := (s.proc pid).name
  if n.truthy then
    { s with names := Function.update s.names n none }.update pid fun p => { p with name := .nil }
  else s

/-- Cancel the forwarded I/O submission `id`, when it is still pending. -/
def cancelIo (id : Nat) : Core :=
  if (s.ioPending.get? id).isSome then
    { s with ioPending := s.ioPending.del id }.note (.cancelled id)
  else s

def cancelIoWhere (owned : IoEntry → Bool) : Core :=
  ((s.ioPending.entries.filter fun e => owned e.2).map (·.1)).foldl cancelIo s

def cancelProcessIo (pid : Pid) : Core := s.cancelIoWhere fun e => e.pid == some pid

def cancelProcessFutex (pid : Pid) : Core :=
  { s with futexParked := s.futexParked.filter fun e => e.2.owner != pid }

/-- `process-exit`, one call deep for each unit of the first argument. -/
def exitWithin : Nat → Core → Pid → Val → Core
  | 0, s, _, _ => s
  | depth + 1, s, pid, reason =>
    if s.isAlive pid then
      let s := (s.update pid fun p => { p with alive := false }).note (.died pid reason)
      match imposed reason with
      | none => { s with raised := true }
      | some imposed =>
        let s := s.update pid fun p =>
          { p with exitReason := if imposed then some reason else p.exitReason }
        let s := s.cancelProcessIo pid
        let s := s.cancelProcessFutex pid
        let s := s.unregisterName pid
        let s := s.notifyLinks (exitWithin depth) pid reason
        s.notifyMonitors pid reason
    else s

/-- Each call ends a live process, so no call is deeper than the table is long. -/
def processExit (pid : Pid) (reason : Val) : Core := exitWithin s.procs.length s pid reason

def shutdownIdle : Core :=
  { (List.range s.procs.length).foldl (fun s pid => s.processExit pid (.keyword "shutdown")) s with
    waiting := [] }

/-! ## Aliases -/

/-- Remove every `[tag ref ...]` message from the mailbox of a process. -/
def flushTagged (pid : Pid) (tag : String) (ref : Ref) : Core :=
  (s.update pid fun p =>
    { p with
      mbox := p.mbox.filter fun m => !tagged tag ref m
      saveQueue := p.saveQueue.filter fun m => !tagged tag ref m }).note (.flushed pid tag ref)

def addAlias (pid : Pid) : Core × Ref :=
  ({ s with nextRef := s.nextRef + 1 }.update pid fun p =>
    { p with aliases := p.aliases.put s.nextRef }, s.nextRef)

def removeAlias (pid : Pid) (ref : Ref) : Core :=
  (s.update pid fun p => { p with aliases := p.aliases.del ref }).flushTagged pid "$reply" ref

def reply (pid : Pid) (ref : Ref) (value : Val) : Core :=
  if s.isAlive pid ∧ ref ∈ (s.proc pid).aliases then
    s.deliver pid (replyMsg ref value) (.reply ref)
  else s

/-! ## Timers -/

def addTimer (ticks : Int) (pid : Pid) (msg : Val) : Core × Ref :=
  ({ s with
      nextRef := s.nextRef + 1
      timers := s.timers ++ [⟨s.nextRef, s.clock + ticks, pid, msg⟩] }, s.nextRef)

/-- Remove a timer; true when it was still pending. -/
def cancelTimer (ref : Ref) : Core × Bool :=
  ({ s with timers := s.timers.filter (·.ref != ref) }, s.timers.any (·.ref == ref))

/-- One due timer. A `:timeout` is the deadline of a `recv-timeout` and goes only to the receive
that armed it; for a pid that never was, the look at its `:timer-ref` raises. -/
def fireTimer (t : Timer) : Core :=
  if t.msg = timeoutVal then
    if s.procs.length ≤ t.pid then { s with raised := true }
    else if (s.proc t.pid).timerRef = some t.ref then
      (s.update t.pid fun p => { p with timerRef := none }).deliver t.pid timeoutVal (.deadline s.clock)
    else s
  else s.deliver t.pid t.msg .sender

def fireTimers : Core :=
  (s.timers.filter fun t => t.fireAt ≤ s.clock).foldl
    (fun s t => if s.raised then s else s.fireTimer t)
    { s with timers := s.timers.filter fun t => !decide (t.fireAt ≤ s.clock) }

def earliestTimer : Option Int :=
  match s.timers with
  | [] => none
  | t :: ts => some (ts.foldl (fun m t => if t.fireAt < m then t.fireAt else m) t.fireAt)

end Core

/-! ## Receive -/

namespace Proc

variable (p : Proc)

/-- `scan-mbox` on a mailbox and a save queue: the message found, `nil` for none, and the two
queues after it. A match that is `nil` does not end the loop. -/
def scanMbox (pred : Val → Bool) : List Val → List Val → Val × List Val × List Val
  | [], save => (.nil, [], save)
  | msg :: mbox, save =>
    if pred msg then if msg = .nil then scanMbox pred mbox save else (msg, mbox, save)
    else scanMbox pred mbox (save ++ [msg])

/-- Put the save queue back in front of the mailbox, in order. -/
def restoreSaveQueue : Proc :=
  { p with mbox := p.saveQueue ++ p.mbox, saveQueue := [], recvPred := none }

/-- The message a receive can take now, or `nil`: the first, or the first that matches. -/
def take : Option (Val → Bool) → Val × Proc
  | none =>
    match p.mbox with
    | [] => (.nil, p)
    | msg :: mbox => (msg, { p with mbox })
  | some pred =>
    match scanMbox pred p.mbox p.saveQueue with
    | (found, mbox, saveQueue) =>
      if found = .nil then (.nil, { p with mbox, saveQueue })
      else (found, restoreSaveQueue { p with mbox, saveQueue })

/-- `take-message`: what the blocked receive of this process can take. -/
def takeMessage : Val × Proc := p.take p.recvPred

end Proc

namespace Core

variable (s : Core)

def answer (pid : Pid) (msg : Val) : Core := (s.note (.answered pid msg)).resume pid msg

/-- One blocked process of `wake-waiting`; the second component collects those still blocked. -/
def wakeOne (acc : Core × List Pid) (pid : Pid) : Core × List Pid :=
  let s := acc.1
  if s.isAlive pid then
    let msg := (s.proc pid).takeMessage.1
    if msg = .nil then (s.update pid fun p => p.takeMessage.2, acc.2 ++ [pid])
    else ((s.update pid fun p => { p.takeMessage.2 with timerRef := none }).answer pid msg, acc.2)
  else acc

def wakeWaiting : Core :=
  match s.waiting.foldl wakeOne (s, []) with
  | (s, still) => { s with waiting := still }

end Core

end Elle.Process

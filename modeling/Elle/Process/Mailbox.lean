import Elle.Process.Mail

/-!
# Mailboxes lose and invent nothing

`Faithful` is what the mailboxes owe: the history of every live process can be replayed at an inbox,
and the table holds what that inbox holds. A step keeps it exactly when it is `Smooth`: no receive
meets a `nil` as the oldest message it wants, or with a deadline a `:timeout` that someone sent, and
no deadline falls due over a waiting message.
-/

namespace Elle.Process

open List
open Inbox (Want Happening Box takeFirst)

/-- The oldest message a receive wants is not `nil` and, for a receive with a deadline, not
`:timeout`. -/
def Proc.clear (p : Proc) (pred : Option (Val → Bool)) (timed : Bool) : Bool :=
  match takeFirst (fun m => pred.all (· m)) p.mbox with
  | none => true
  | some (m, _) => m ≠ .nil ∧ ¬(timed ∧ m = timeoutVal)

def Command.clear (p : Proc) : Command → Bool
  | recv => p.clear none false
  | recvMatch pred => p.clear (some pred) false
  | recvTimeout _ => p.clear none true
  | _ => true

def Signal.clear (p : Proc) : Signal → Bool
  | command cmd => cmd.clear p
  | _ => true

namespace Core

/-- Each of the due timers that is the deadline of a blocked receive finds an empty mailbox. -/
def Punctual : Core → List Timer → Prop
  | _, [] => True
  | s, t :: ts =>
    (s.raised = false → s.isAlive t.pid → t.msg = timeoutVal → (s.proc t.pid).timerRef = some t.ref →
      (s.proc t.pid).mbox = []) ∧
    Punctual (if s.raised then s else s.fireTimer t) ts

/-- The step takes no `nil` and no foreign `:timeout` for what it is not, and no deadline comes late. -/
def Smooth (s : Core) : Step → Prop
  | .runOne pid sig => pid ∈ s.ready → s.isAlive pid → sig.clear (s.proc pid)
  | .completeIo id sig => ∀ pid, s.ioPending.get? id = some (.waiter (.process pid)) → s.isAlive pid →
    sig.clear (s.proc pid)
  | .wakeWaiting => ∀ pid ∈ s.waiting, s.isAlive pid →
    (s.proc pid).clear (s.proc pid).recvPred (s.proc pid).timerRef.isSome
  | .fireTimers => Punctual { s with timers := s.timers.filter fun t => !decide (t.fireAt ≤ s.clock) }
    (s.timers.filter fun t => t.fireAt ≤ s.clock)
  | _ => True

/-- Every live process has the inbox its history leaves: in its queues, among the blocked while it
is in a receive, and with the answer of a receive queued for it until its next turn. -/
def Faithful (s : Core) : Prop :=
  ∀ q, s.isAlive q → ∃ b, Inbox.replay timeoutVal (s.history q) = some b ∧
    (s.proc q).saveQueue ++ (s.proc q).mbox = shown b ∧ (q ∈ s.waiting ↔ b.asked.isSome) ∧
    ∀ v, b.answer = some v → q ∈ s.ready ∧ (s.proc q).resume = v

/-- No blocked process has a message that it can take. -/
def Prompt (s : Core) : Prop :=
  ∀ q ∈ s.waiting, s.isAlive q → ∀ m ∈ (s.proc q).saveQueue ++ (s.proc q).mbox,
    (s.proc q).recvPred.all (· m) = false

def Mails (s : Core) : Prop := ∀ q, s.gone q = false → ∃ b, Mail s q b

/-- While `pid` runs, it is in no receive. -/
def MailsAt (pid : Pid) (s : Core) : Prop :=
  ∀ q, s.gone q = false → ∃ b, Mail s q b ∧ (q = pid → b.free)

variable {s s' : Core} {pid q : Pid} {b : Box Val}

theorem proc_congr (h : s'.procs = s.procs) (q : Pid) : s'.proc q = s.proc q := by rw [proc, proc, h]

theorem gone_of_isAlive (h : s.isAlive q) : s.gone q = false := by simp [gone, h]

theorem Mails.faithful (h : Mails s) : Faithful s := by
  intro q hq
  obtain ⟨b, hb⟩ := h q (gone_of_isAlive hq)
  exact ⟨b, hb.replay, hb.content, hb.waiting, fun v hv => (hb.answer v hv).2⟩

theorem gone_of_act (ha : Act pid True s s') (h : s.gone q) : s'.gone q := by
  simp only [gone, Bool.and_eq_true, decide_eq_true_eq, Bool.not_eq_true'] at h ⊢
  have hsilent : Silent q s s := ⟨h.1, h.2, rfl, rfl, rfl⟩
  exact ⟨(hsilent.act pid ha).length, (hsilent.act pid ha).dead⟩

theorem Mails.sched (h : Mails s) (hprocs : s'.procs = s.procs) (hlog : s'.log = s.log)
    (hwaiting : s'.waiting = s.waiting) (htimers : s'.timers = s.timers)
    (hready : ∀ q ∈ s.ready, q ∈ s'.ready) (hnext : s.nextRef ≤ s'.nextRef) : Mails s' := by
  intro q hq
  have hq' : s.gone q = false := by rw [← hq, gone, gone, isAlive, isAlive, proc_congr hprocs, hprocs]
  obtain ⟨b, hb⟩ := h q hq'
  rw [Mail, hwaiting, htimers]
  exact ⟨b, hb.aside (.of_procs hprocs hlog (hready q) hnext)⟩

theorem Mails.of_and {R : Pid → Box Val → Prop} (h : ∀ q, s.gone q = false → ∃ b, Mail s q b ∧ R q b) :
    Mails s := fun q hq => (h q hq).imp fun _ hb => hb.1

theorem gone_congr (hlength : s'.procs.length = s.procs.length) (halive : s'.isAlive q = s.isAlive q) :
    s'.gone q = s.gone q := by
  rw [gone, gone, hlength, halive]

theorem Mails.of_update (h : Mails s) {g : Proc → Proc} (hg : ∀ x, (g x).alive = x.alive)
    (hprocs : s'.procs = (s.update pid g).procs) (es : List Event) (hlog : s'.log = s.log ++ es)
    (hes : ∀ q, q ≠ pid → ∀ e ∈ es, e.reaches q = false)
    (hready : ∀ q, q ≠ pid → q ∈ s.ready → q ∈ s'.ready)
    (hwaiting : ∀ q, q ≠ pid → (q ∈ s'.waiting ↔ q ∈ s.waiting))
    (htimers : ∀ t ∈ s'.timers, t ∈ s.timers ∨ s.nextRef ≤ t.ref ∧ t.ref < s'.nextRef)
    (hnext : s.nextRef ≤ s'.nextRef) {R : Box Val → Prop}
    (hpid : s.gone pid = false → ∃ b, Mail s' pid b ∧ R b) :
    ∀ q, s'.gone q = false → ∃ b, Mail s' q b ∧ (q = pid → R b) := by
  have hproc := proc_congr hprocs
  intro q hq
  have hq' : s.gone q = false := by
    rw [← hq]
    exact (gone_congr (hprocs ▸ length_update)
      ((congrArg Proc.alive (hproc q)).trans (isAlive_update s pid q hg))).symm
  by_cases hne : q = pid
  · subst hne
    exact (hpid hq').imp fun b hb => ⟨hb.1, fun _ => hb.2⟩
  · obtain ⟨b, hb⟩ := h q hq'
    have hhistory : s'.history q = s.history q := by
      have hnil : es.filterMap (Event.happening q) = [] :=
        List.filterMap_eq_nil_iff.2 fun e he => Event.happening_eq_none (hes q hne e he)
      rw [history, hlog, filterMap_append, hnil, append_nil, history]
    have ha : Aside q s s' :=
      .of_proc ((hproc q).trans (proc_update_ne hne)) hhistory (hready q hne) hnext
    exact ⟨b, (hb.retime ha htimers).blocked (hwaiting q hne), fun he => absurd he hne⟩

namespace MailsAt

theorem mails (h : MailsAt pid s) : Mails s := .of_and h

theorem act (h : MailsAt pid s) (ha : Act pid True s s') : MailsAt pid s' := by
  intro q hq
  have hq' : s.gone q = false := Bool.eq_false_iff.2 fun hgone => Bool.eq_false_iff.1 hq (gone_of_act ha hgone)
  obtain ⟨b, hb, hfree⟩ := h q hq'
  obtain ⟨queue, hb'⟩ := hb.act ha hq hfree
  exact ⟨_, hb', fun he => hfree he⟩

theorem acts (h : MailsAt pid s) (ha : Acts pid True s s') : MailsAt pid s' := by
  induction ha with
  | refl => exact h
  | tail _ ha ih => exact ih.act ha

theorem resume (h : MailsAt pid s) (v : Val) : Mails (s.resume pid v) := by
  have hgone (q : Pid) : (s.resume pid v).gone q = s.gone q := by
    unfold Core.resume
    split
    · exact congrArg₂ (fun a b => decide (q < a) && !b) length_update (isAlive_update s pid q fun _ => rfl)
    · rfl
  intro q hq
  obtain ⟨b, hb, hfree⟩ := h q (hgone q ▸ hq)
  by_cases hne : q = pid
  · subst hne
    exact ⟨b, hb.resume (hfree rfl) v⟩
  · have hrest : (s.resume pid v).waiting = s.waiting ∧ (s.resume pid v).timers = s.timers := by
      unfold Core.resume
      split <;> exact ⟨rfl, rfl⟩
    rw [Mail, hrest.1, hrest.2]
    exact ⟨b, hb.aside (.resume_ne hne s v)⟩

end MailsAt

theorem answer_update {g : Proc → Proc} (hp : s.isAlive pid) (hg : ∀ x, (g x).alive = x.alive) (m : Val) :
    (s.update pid g).answer pid m = { s.update pid fun p => { g p with resume := m } with
      log := s.log ++ [Event.answered pid m], ready := s.ready ++ [pid] } := by
  rw [answer, resume, isAlive_note, isAlive_update s pid pid hg, if_pos hp]
  exact congrArg (fun t : Core => { t with log := s.log ++ [Event.answered pid m], ready := s.ready ++ [pid] })
    (update_update s pid g _)

theorem waitForMessage_of_nil {pred : Option (Val → Bool)} (h : ((s.proc pid).take pred).1 = .nil) :
    s.waitForMessage pid pred = ({ s.update pid fun p => { (p.take pred).2 with recvPred := pred } with
        waiting := s.waiting ++ [pid] }, false) :=
  if_pos h

theorem waitForMessage_of_ne {pred : Option (Val → Bool)} (h : ((s.proc pid).take pred).1 ≠ .nil) :
    s.waitForMessage pid pred =
      ((s.update pid fun p => (p.take pred).2).answer pid ((s.proc pid).take pred).1, true) :=
  if_neg h

inductive Received (s : Core) (pid : Pid) (w : Want Val) (b : Box Val) : Core × Bool → Prop
  | blocked (hnone : takeFirst w.takes b.queue = none) (hnil : ((s.proc pid).take w.pred).1 = .nil) :
    Received s pid w b
      ({ (s.note (.asked pid w)).update pid fun p => { (p.take w.pred).2 with recvPred := w.pred } with
          waiting := s.waiting ++ [pid] }, false)
  | taken {m : Val} {rest : List Val} (hsome : takeFirst w.takes b.queue = some (m, rest))
    (hm : m ≠ .nil) (hlate : ¬(w.timed ∧ m = timeoutVal)) (hfound : ((s.proc pid).take w.pred).1 = m) :
    Received s pid w b (((s.note (.asked pid w)).update pid fun p => (p.take w.pred).2).answer pid m, true)

theorem received (hb : Mail s pid b) (hfree : b.free) {w : Want Val}
    (hclear : (s.proc pid).clear w.pred w.timed) :
    Received s pid w b ((s.note (.asked pid w)).waitForMessage pid w.pred) := by
  obtain ⟨hpassed, hfirst⟩ := hb.ready_to_take hfree w
  unfold Proc.clear at hclear
  cases htake : takeFirst w.takes b.queue with
  | none =>
    have hnil := (Proc.take_of_none hpassed (hfirst.trans htake)).1
    rw [waitForMessage_of_nil (s := s.note (.asked pid w)) hnil]
    exact .blocked htake hnil
  | some r =>
    obtain ⟨m, rest⟩ := r
    rw [hfirst, htake] at hclear
    obtain ⟨hm, hlate⟩ := of_decide_eq_true hclear
    have hfound := (Proc.take_of_some hpassed (hfirst.trans htake) hm).1
    rw [waitForMessage_of_ne (by rw [proc_note, hfound]; exact hm), proc_note, hfound]
    exact .taken htake hm hlate hfound

namespace MailsAt

section

variable (h : MailsAt pid s) (hp : s.isAlive pid)
include h hp

section

variable {w : Want Val} (hb : Mail s pid b) (hfree : b.free) {m : Val} {rest : List Val}
  (hsome : takeFirst w.takes b.queue = some (m, rest)) (hm : m ≠ .nil) (hlate : ¬(w.timed ∧ m = timeoutVal))
include hb hfree hsome hm hlate

theorem of_taken
    (hprocs : s'.procs = (s.update pid fun p => { (p.take w.pred).2 with resume := m }).procs)
    (hlog : s'.log = s.log ++ [Event.asked pid w, .answered pid m]) (hready : s'.ready = s.ready ++ [pid])
    (hwaiting : s'.waiting = s.waiting) (htimers : s'.timers = s.timers)
    (hnext : s'.nextRef = s.nextRef) : Mails s' := by
  refine .of_and (h.mails.of_update (R := fun _ => True) (fun x => by simp) hprocs _ hlog
    (fun q hne => by simp [Event.reaches, Ne.symm hne]) (fun q _ hq => by simp [hready, hq])
    (fun q _ => by rw [hwaiting]) (fun t ht => .inl (htimers ▸ ht)) hnext.ge
    fun _ => ⟨_, hb.takes hfree hsome hm hlate hlog ?_ (by simp [hready]) hwaiting htimers hnext, trivial⟩)
  exact (proc_congr hprocs pid).trans (proc_update_self (lt_of_isAlive hp))

theorem taken :
    Mails (((s.note (.asked pid w)).update pid fun p => (p.take w.pred).2).answer pid m) := by
  rw [answer_update (s := s.note (.asked pid w)) hp fun x => by simp]
  exact h.of_taken hp hb hfree hsome hm hlate rfl (by simp [note]) rfl rfl rfl rfl

end

theorem blocked {w : Want Val} (hb : Mail s pid b) (hfree : b.free)
    (hnone : takeFirst w.takes b.queue = none) {r : Option Ref}
    (hprocs : s'.procs = (s.update pid fun p =>
      { (p.take w.pred).2 with recvPred := w.pred, timerRef := r }).procs)
    (hlog : s'.log = s.log ++ [Event.asked pid w]) (hready : s'.ready = s.ready)
    (hwaiting : s'.waiting = s.waiting ++ [pid]) (hnext : s.nextRef ≤ s'.nextRef)
    (htimers : ∀ t ∈ s'.timers, t ∈ s.timers ∨ s.nextRef ≤ t.ref ∧ t.ref < s'.nextRef)
    (htimed : r.isSome ↔ w.timed)
    (htimer : ∀ ref, r = some ref → ref < s'.nextRef ∧
      ∀ t ∈ s'.timers, t.ref = ref → w = .within t.fireAt) : Mails s' := by
  refine .of_and (h.mails.of_update (R := fun _ => True) (fun x => by simp) hprocs [.asked pid w] hlog
    (fun q hne => by simp [Event.reaches, Ne.symm hne]) (fun q _ hq => hready ▸ hq)
    (fun q hne => by simp [hwaiting, hne]) htimers hnext
    fun _ => ⟨_, hb.blocks hfree hnone hlog ?_ (by simp [hwaiting]) htimed htimer fun t ht => ?_, trivial⟩)
  · exact (proc_congr hprocs pid).trans (proc_update_self (lt_of_isAlive hp))
  · rcases htimers t ht with hold | ⟨-, hnew⟩
    · exact Nat.lt_of_lt_of_le (hb.dated t hold) hnext
    · exact hnew

theorem receive {w : Want Val} (hw : w.timed = false)
    (hclear : (s.proc pid).clear w.pred w.timed) :
    Mails ((s.note (.asked pid w)).waitForMessage pid w.pred).1 := by
  obtain ⟨b, hb, hfree⟩ := h pid (gone_of_isAlive hp)
  have hreceived := received hb (hfree rfl) hclear
  generalize (s.note (.asked pid w)).waitForMessage pid w.pred = r at hreceived
  cases hreceived with
  | taken hsome hm hlate hfound => exact h.taken hp hb (hfree rfl) hsome hm hlate
  | blocked hnone hnil =>
    have htimer : ((s.proc pid).take w.pred).2.timerRef = none := by
      rw [Proc.take_timerRef, hb.free_timerRef (hfree rfl)]
    have hprocs : (s.update pid fun p => { (p.take w.pred).2 with recvPred := w.pred }).procs =
        (s.update pid fun p => { (p.take w.pred).2 with recvPred := w.pred, timerRef := none }).procs :=
      congrArg Core.procs (update_congr (by rw [← htimer]))
    exact h.blocked (r := none) hp hb (hfree rfl) hnone hprocs rfl rfl rfl le_rfl
      (fun t ht => .inl ht) (by simp [hw]) nofun

end

theorem procs_armed (s : Core) (pid : Pid) :
    ((s.update pid fun p => { (p.take none).2 with recvPred := none }).update pid fun p =>
      { p with timerRef := some s.nextRef }).procs =
    (s.update pid fun p => { (p.take none).2 with recvPred := none, timerRef := some s.nextRef }).procs :=
  congrArg Core.procs (update_update s pid _ _)

theorem receiveWithin (h : MailsAt pid s) (hp : s.isAlive pid) {ticks : Int}
    (hclear : (s.proc pid).clear none true) : Mails (s.handleCmd pid (.recvTimeout ticks)) := by
  obtain ⟨b, hb, hfree⟩ := h pid (gone_of_isAlive hp)
  have hreceived := received (w := .within (s.clock + ticks)) hb (hfree rfl) hclear
  simp only [Core.handleCmd]
  change Received s pid _ b ((s.note (.asked pid (.within (s.clock + ticks)))).waitForMessage pid none)
    at hreceived
  generalize (s.note (.asked pid (.within (s.clock + ticks)))).waitForMessage pid none = r at hreceived ⊢
  cases hreceived with
  | taken hsome hm hlate hfound => exact h.taken hp hb (hfree rfl) hsome hm hlate
  | blocked hnone hnil =>
    refine h.blocked (r := some s.nextRef) hp hb (hfree rfl) hnone (procs_armed s pid) rfl rfl rfl (Nat.le_succ _)
      (fun t ht => ?_) (by simp [Want.timed]) ?_
    · rcases List.mem_append.1 ht with ht | ht
      · exact .inl ht
      · obtain rfl := List.mem_singleton.1 ht
        exact .inr ⟨le_rfl, Nat.lt_succ_self _⟩
    · rintro ref ⟨⟩
      refine ⟨Nat.lt_succ_self _, fun t ht he => ?_⟩
      rcases List.mem_append.1 ht with ht | ht
      · exact absurd (hb.dated t ht) (he ▸ Nat.lt_irrefl _)
      · obtain rfl := List.mem_singleton.1 ht
        rfl

theorem handleCmd (h : MailsAt pid s) (hp : s.isAlive pid) {cmd : Command}
    (hclear : cmd.clear (s.proc pid)) : Mails (s.handleCmd pid cmd) := by
  cases hspecial : cmd.special with
  | false =>
    obtain ⟨s₁, v, hacts, heq⟩ := handleCmd_acts hp hspecial fun _ => trivial
    rw [heq]
    exact (h.acts hacts).resume v
  | true =>
    cases cmd with
    | recv => exact h.receive (w := .any) hp rfl hclear
    | recvMatch pred => exact h.receive (w := .pick pred) hp rfl hclear
    | recvTimeout ticks => exact h.receiveWithin hp hclear
    | unknown => exact h.mails.sched rfl rfl rfl rfl (fun _ hq => hq) le_rfl
    | _ => cases hspecial

end MailsAt

/-- The state in which a process runs: it is taken off the queue it stood in. -/
structure Popped (pid : Pid) (s s₀ : Core) : Prop where
  procs : s₀.procs = s.procs
  log : s₀.log = s.log
  waiting : s₀.waiting = s.waiting
  timers : s₀.timers = s.timers
  ready : ∀ q, q ≠ pid → q ∈ s.ready → q ∈ s₀.ready
  next : s₀.nextRef = s.nextRef

namespace Mails

theorem begin (h : Mails s) (hp : s.isAlive pid) (hpid : pid ∉ s.waiting) {s₀ : Core}
    (hpop : Popped pid s s₀) : MailsAt pid ((s₀.note (.ran pid (s₀.proc pid).resume)).update pid fun p =>
      { p with resume := .nil }) := by
  have hresume : (s₀.proc pid).resume = (s.proc pid).resume := by rw [proc_congr hpop.procs]
  have hprocs' : ((s₀.note (.ran pid (s₀.proc pid).resume)).update pid fun p =>
      { p with resume := .nil }).procs = (s.update pid fun p => { p with resume := .nil }).procs :=
    congrArg (·.modify pid fun p => { p with resume := .nil }) hpop.procs
  have hlog' : ((s₀.note (.ran pid (s₀.proc pid).resume)).update pid fun p =>
      { p with resume := .nil }).log = s.log ++ [Event.ran pid (s.proc pid).resume] :=
    congrArg₂ (fun l v => l ++ [Event.ran pid v]) hpop.log hresume
  refine h.of_update (g := fun p => { p with resume := .nil }) (fun _ => rfl) hprocs' _ hlog'
    (fun q hne => by simp [Event.reaches, Ne.symm hne]) hpop.ready (fun q _ => by rw [← hpop.waiting]; rfl)
    (fun t ht => .inl (hpop.timers ▸ ht)) hpop.next.ge fun hq => ?_
  obtain ⟨b, hb⟩ := h pid hq
  have hasked : b.asked = none := by simpa [hb.waiting] using hpid
  exact hb.ran hasked hlog' ((proc_congr hprocs' pid).trans (proc_update_self (lt_of_isAlive hp)))
    hpop.waiting hpop.timers hpop.next

theorem turn (h : Mails s) (hpid : pid ∉ s.waiting) {s₀ : Core} (hrun : Running s₀ pid)
    (hpop : Popped pid s s₀) {sig : Signal} (hclear : s.isAlive pid → sig.clear (s.proc pid)) :
    Mails (s₀.turn pid sig) := by
  have hproc := proc_congr hpop.procs
  unfold Core.turn
  split
  · rename_i hp
    have hp' : s.isAlive pid := by rwa [isAlive, ← hproc]
    have h₁ := h.begin hp' hpid hpop
    have hclear' := hclear hp'
    generalize hs₁ : (s₀.note (.ran pid (s₀.proc pid).resume)).update pid _ = s₁ at h₁ ⊢
    cases sig with
    | done v | error v => exact (h₁.act (.exit ..)).mails
    | fuel => exact h₁.mails.sched rfl rfl rfl rfl (fun _ hq => mem_append_left _ hq) le_rfl
    | io | wait | park => exact h₁.mails.sched rfl rfl rfl rfl (fun _ hq => hq) le_rfl
    | served v => exact h₁.resume v
    | command cmd =>
      refine h₁.handleCmd (by rw [← hs₁]; simpa using hp) ?_
      have hproc₁ : s₁.proc pid = { s.proc pid with resume := .nil } := by
        rw [← hs₁, ← hproc]
        exact proc_update_self (lt_of_isAlive hp)
      rw [hproc₁]
      cases cmd <;> exact hclear'
  · rename_i hp
    intro q hq
    have hgone : s₀.gone q = s.gone q := gone_congr (by rw [hpop.procs]) (by rw [isAlive, hproc, isAlive])
    obtain ⟨b, hb⟩ := h q (hgone ▸ hq)
    by_cases hne : q = pid
    · subst hne
      have hlt : q < s₀.procs.length := hrun.lt
      simp [gone, hlt, hp] at hq
    · rw [Mail, hpop.waiting, hpop.timers]
      exact ⟨b, hb.aside (.of_procs hpop.procs hpop.log (hpop.ready q hne) hpop.next.ge)⟩

end Mails

/-! ## Waking the blocked -/

/-- While `wake-waiting` goes through the blocked processes, with `rest` still before it. -/
structure Waking (acc : Core × List Pid) (rest : List Pid) : Prop where
  mails : ∀ q, acc.1.gone q = false → ∃ b, MailIn (acc.2 ++ rest) acc.1.timers acc.1 q b
  nodup : (acc.2 ++ rest).Nodup
  lt : ∀ q ∈ acc.2 ++ rest, q < acc.1.procs.length
  clear : ∀ q ∈ rest, acc.1.isAlive q →
    (acc.1.proc q).clear (acc.1.proc q).recvPred (acc.1.proc q).timerRef.isSome
  prompt : ∀ q ∈ acc.2, acc.1.isAlive q → ∀ m ∈ (acc.1.proc q).saveQueue ++ (acc.1.proc q).mbox,
    (acc.1.proc q).recvPred.all (· m) = false

/-- What one process of `wake-waiting` comes to. -/
inductive WokenOne (acc : Core × List Pid) (p : Pid) : Core × List Pid → Prop
  | dead (hp : acc.1.isAlive p = false) : WokenOne acc p acc
  | still (hp : acc.1.isAlive p)
    (hnone : takeFirst (fun m => (acc.1.proc p).recvPred.all (· m)) (acc.1.proc p).mbox = none) :
    WokenOne acc p (acc.1.update p fun x => x.takeMessage.2, acc.2 ++ [p])
  | woken (hp : acc.1.isAlive p) {m : Val} {rest : List Val}
    (hsome : takeFirst (fun m => (acc.1.proc p).recvPred.all (· m)) (acc.1.proc p).mbox = some (m, rest))
    (hm : m ≠ .nil) (hlate : ¬((acc.1.proc p).timerRef.isSome ∧ m = timeoutVal)) {s' : Core}
    (hprocs : s'.procs = (acc.1.update p fun x =>
      { x.takeMessage.2 with timerRef := none, resume := m }).procs)
    (hlog : s'.log = acc.1.log ++ [Event.answered p m]) (hready : s'.ready = acc.1.ready ++ [p])
    (htimers : s'.timers = acc.1.timers) (hnext : s'.nextRef = acc.1.nextRef) :
    WokenOne acc p (s', acc.2)

theorem wokenOne {acc : Core × List Pid} {p : Pid}
    (hpassed : acc.1.isAlive p → (acc.1.proc p).Passed (acc.1.proc p).recvPred)
    (hclear : acc.1.isAlive p →
      (acc.1.proc p).clear (acc.1.proc p).recvPred (acc.1.proc p).timerRef.isSome) :
    WokenOne acc p (wakeOne acc p) := by
  unfold wakeOne
  dsimp only
  cases hp : acc.1.isAlive p with
  | false => exact .dead hp
  | true =>
    have hpassed := hpassed hp
    have hclear := hclear hp
    unfold Proc.clear at hclear
    cases htake : takeFirst (fun m => (acc.1.proc p).recvPred.all (· m)) (acc.1.proc p).mbox with
    | none =>
      have hnil : (acc.1.proc p).takeMessage.1 = .nil := (Proc.take_of_none hpassed htake).1
      rw [if_pos hnil]
      exact .still hp htake
    | some r =>
      obtain ⟨m, rest⟩ := r
      rw [htake] at hclear
      obtain ⟨hm, hlate⟩ := of_decide_eq_true hclear
      have hfound : (acc.1.proc p).takeMessage.1 = m := (Proc.take_of_some hpassed htake hm).1
      rw [hfound, if_neg hm]
      rw [answer_update hp fun x => by simp [Proc.takeMessage]]
      exact .woken hp htake hm hlate rfl rfl rfl rfl rfl

namespace Waking

variable {acc : Core × List Pid} {p : Pid} {rest : List Pid}

section

variable (h : Waking acc (p :: rest))
include h

theorem woken : WokenOne acc p (Core.wakeOne acc p) := by
  refine wokenOne (fun hp => ?_) (h.clear p (by simp))
  obtain ⟨b, hb⟩ := h.mails p (gone_of_isAlive hp)
  exact hb.passed

theorem not_mem : p ∉ acc.2 ++ rest := by
  have hnodup := h.nodup
  rw [nodup_middle, nodup_cons] at hnodup
  exact hnodup.1

theorem dead (hp : acc.1.isAlive p = false) : Waking acc rest where
  mails q hq := by
    obtain ⟨b, hb⟩ := h.mails q hq
    have hne : q ≠ p := by
      rintro rfl
      simp [gone, hp, h.lt q (by simp)] at hq
    exact ⟨b, hb.blocked (by simp [hne])⟩
  nodup := (List.nodup_cons.1 (List.nodup_middle.1 h.nodup)).2
  lt q hq := h.lt q (by simp at hq ⊢; tauto)
  clear q hq := h.clear q (mem_cons_of_mem _ hq)
  prompt := h.prompt

theorem of_update {g : Proc → Proc} {s' : Core} (hprocs : s'.procs = (acc.1.update p g).procs) {still : List Pid}
    (hstill : (still ++ rest).Sublist (acc.2 ++ p :: rest))
    (hmails : ∀ q, s'.gone q = false → ∃ b, MailIn (still ++ rest) s'.timers s' q b)
    (hprompt : ∀ q ∈ still, q ∉ acc.2 → ∀ m ∈ (s'.proc q).saveQueue ++ (s'.proc q).mbox,
      (s'.proc q).recvPred.all (· m) = false) : Waking (s', still) rest := by
  have hnot := h.not_mem
  have hproc {q : Pid} (hne : q ≠ p) : s'.proc q = acc.1.proc q := (proc_congr hprocs q).trans (proc_update_ne hne)
  refine ⟨hmails, h.nodup.sublist hstill, fun q hq => ?_, fun q hq hlive => ?_, fun q hq hlive => ?_⟩
  · rw [hprocs, length_update]
    exact h.lt q (hstill.subset hq)
  · have hne : q ≠ p := fun he => hnot (he ▸ mem_append_right _ hq)
    rw [isAlive, hproc hne] at hlive
    rw [hproc hne]
    exact h.clear q (mem_cons_of_mem _ hq) hlive
  · by_cases hold : q ∈ acc.2
    · have hne : q ≠ p := fun he => hnot (he ▸ mem_append_left _ hold)
      rw [isAlive, hproc hne] at hlive
      rw [hproc hne]
      exact h.prompt q hold hlive
    · exact hprompt q hq hold

theorem still (hp : acc.1.isAlive p)
    (hnone : takeFirst (fun m => (acc.1.proc p).recvPred.all (· m)) (acc.1.proc p).mbox = none) :
    Waking (acc.1.update p fun x => x.takeMessage.2, acc.2 ++ [p]) rest := by
  have hlist : acc.2 ++ [p] ++ rest = acc.2 ++ p :: rest := by simp
  have halive (x : Proc) : x.takeMessage.2.alive = x.alive := by simp [Proc.takeMessage]
  refine h.of_update rfl (hlist ▸ .refl _) (fun q hq => ?_) fun q hq hold m hm => ?_
  · rw [hlist]
    obtain ⟨b, hb⟩ := h.mails q (by
      rw [← hq]
      exact (gone_congr length_update (isAlive_update _ _ _ halive)).symm)
    by_cases hne : q = p
    · subst hne
      exact ⟨b, hb.stays_blocked hp hnone⟩
    · exact ⟨b, hb.aside (.update_ne hne _ _)⟩
  · obtain rfl : q = p := by
      rcases List.mem_append.1 hq with hq | hq
      · exact absurd hq hold
      · exact List.mem_singleton.1 hq
    obtain ⟨b, hb⟩ := h.mails q (gone_of_isAlive hp)
    obtain ⟨-, -, hcontent, hpred⟩ := Proc.take_of_none hb.passed hnone
    have hproc : (acc.1.update q fun x => x.takeMessage.2).proc q =
        ((acc.1.proc q).take (acc.1.proc q).recvPred).2 := proc_update_self (lt_of_isAlive hp)
    rw [hproc, hcontent] at hm
    rw [hproc, hpred]
    rcases List.mem_append.1 hm with hm | hm
    · exact hb.passed m hm
    · exact Inbox.takeFirst_eq_none.1 hnone m hm

theorem wakeOne : Waking (Core.wakeOne acc p) rest := by
  have hwoken := h.woken
  generalize Core.wakeOne acc p = acc' at hwoken
  cases hwoken with
  | dead hp => exact h.dead hp
  | still hp hnone => exact h.still hp hnone
  | woken hp hsome hm hlate hprocs hlog hready htimers hnext =>
    have hproc := proc_congr hprocs
    refine h.of_update hprocs ?_ (fun q hq => ?_) fun q hq hold => absurd hq hold
    · exact (sublist_cons_self p rest).append_left acc.2
    · have hq' : acc.1.gone q = false := by
        rw [← hq]
        refine (gone_congr (hprocs ▸ length_update) ?_).symm
        exact (congrArg Proc.alive (hproc q)).trans
          (isAlive_update _ _ _ fun x => by simp [Proc.takeMessage])
      obtain ⟨b, hb⟩ := h.mails q hq'
      rw [htimers]
      by_cases hne : q = p
      · subst hne
        exact hb.wakes (by simp) hsome hm hlate hlog
          ((hproc q).trans (proc_update_self (lt_of_isAlive hp))) (by simp [hready]) hnext h.not_mem
      · have ha : Aside q acc.1 _ := .of_proc ((hproc q).trans (proc_update_ne hne))
          (by simp [history, hlog, Event.happening, Ne.symm hne]) (fun hq => by simp [hready, hq]) hnext.ge
        exact ⟨b, (hb.aside ha).blocked (by simp [hne])⟩

end

theorem foldl (h : Waking acc rest) : Waking (rest.foldl Core.wakeOne acc) [] := by
  induction rest generalizing acc with
  | nil => exact h
  | cons p rest ih => exact ih h.wakeOne

end Waking

theorem Mails.wakeWaiting (h : Mails s) (hplaced : Placed s) (hclear : Smooth s .wakeWaiting) :
    Mails s.wakeWaiting ∧ Prompt s.wakeWaiting := by
  have hstart : Waking (s, []) s.waiting :=
    ⟨h, hplaced.nodup_waiting, fun q hq => hplaced.lt_of_waiting hq, hclear, nofun⟩
  have hend := hstart.foldl
  constructor
  · intro q hq
    obtain ⟨b, hb⟩ := hend.mails q hq
    rw [append_nil] at hb
    exact ⟨b, hb.aside (.of_procs rfl rfl id le_rfl)⟩
  · exact hend.prompt

/-! ## Timers -/

/-- While `fire-timers` goes through the due timers, with `due` still before it. -/
structure Firing (s : Core) (due : List Timer) : Prop where
  mails : ∀ q, s.gone q = false → ∃ b, MailIn s.waiting (s.timers ++ due) s q b
  due : ∀ t ∈ due, t.fireAt ≤ s.clock

namespace Firing

variable {t : Timer} {rest : List Timer}

theorem drop (h : Firing s (t :: rest)) : Firing s rest where
  mails q hq := by
    obtain ⟨b, hb⟩ := h.mails q hq
    exact ⟨b, hb.retime (.refl q s) fun t' ht => .inl (by simp at ht ⊢; tauto)⟩
  due t' ht := h.due t' (mem_cons_of_mem _ ht)

theorem next (h : Firing s (t :: rest)) (hrest : SameRest s s') (hgone : ∀ q, s'.gone q = s.gone q)
    (hmails : ∀ q b, s'.gone q = false → MailIn s.waiting (s.timers ++ t :: rest) s q b →
      ∃ b', MailIn s.waiting (s.timers ++ t :: rest) s' q b') : Firing s' rest := by
  refine drop (t := t) ⟨fun q hq => ?_, fun t' ht => ?_⟩
  · obtain ⟨b, hb⟩ := h.mails q (hgone q ▸ hq)
    rw [hrest.waiting, hrest.timers]
    exact hmails q b hq hb
  · rw [hrest.clock]
    exact h.due t' ht

theorem gone_deliver (s : Core) (p q : Pid) (m : Val) (made : Maker) :
    (s.deliver p m made).gone q = s.gone q := by
  refine gone_congr (sameRest_deliver ..).length ?_
  unfold Core.deliver
  split
  · exact isAlive_update s p q fun _ => rfl
  · rfl

theorem fireTimer (h : Firing s (t :: rest)) (hpunctual : s.isAlive t.pid → t.msg = timeoutVal →
    (s.proc t.pid).timerRef = some t.ref → (s.proc t.pid).mbox = []) : Firing (s.fireTimer t) rest := by
  unfold Core.fireTimer
  split_ifs with hmsg hlen href
  · obtain ⟨hmails, hdue⟩ := h.drop
    exact ⟨fun q hq => (hmails q hq).imp fun b hb => hb.aside (.of_procs rfl rfl id le_rfl), hdue⟩
  · have hgone (q : Pid) : ((s.update t.pid fun p => { p with timerRef := none }).deliver t.pid timeoutVal
        (.deadline s.clock)).gone q = s.gone q :=
      (gone_deliver ..).trans (gone_congr length_update (isAlive_update s t.pid q fun _ => rfl))
    refine h.next ((sameRest_update ..).trans (sameRest_deliver ..)) hgone fun q b hq hb => ?_
    rw [hgone] at hq
    by_cases hne : q = t.pid
    · subst hne
      have hlive : s.isAlive t.pid := by
        simpa [gone, Nat.not_le.1 hlen] using hq
      exact ⟨_, hb.expires hlive (by simp) href (h.due t (by simp)) (hpunctual hlive hmsg href)⟩
    · exact ⟨b, hb.aside ((Aside.update_ne hne s _).trans (.deliver_ne hne _ _ _))⟩
  · exact h.drop
  · refine h.next (sameRest_deliver ..) (fun q => gone_deliver ..) fun q b hq hb => ?_
    have hmade : ∀ now, Maker.sender ≠ .deadline now := by simp
    obtain ⟨queue, hb'⟩ := hb.deliver t.pid t.msg hmade
    exact ⟨_, hb'⟩

theorem foldl {due : List Timer} (h : Firing s due) (hpunctual : Punctual s due) :
    Firing (due.foldl (fun s t => if s.raised then s else s.fireTimer t) s) [] := by
  induction due generalizing s with
  | nil => exact h
  | cons t rest ih =>
    refine ih ?_ hpunctual.2
    dsimp only
    split
    · exact h.drop
    · rename_i hr
      exact h.fireTimer (hpunctual.1 (Bool.eq_false_iff.2 hr))

end Firing

theorem Mails.firing (h : Mails s) :
    Firing { s with timers := s.timers.filter fun t => !decide (t.fireAt ≤ s.clock) }
      (s.timers.filter fun t => t.fireAt ≤ s.clock) := by
  refine ⟨fun q hq => ?_, fun t ht => by simpa using (List.mem_filter.1 ht).2⟩
  obtain ⟨b, hb⟩ := h q hq
  have ha : Aside q s { s with timers := s.timers.filter fun t => !decide (t.fireAt ≤ s.clock) } :=
    .of_procs rfl rfl id le_rfl
  refine ⟨b, hb.retime ha fun t ht => .inl ?_⟩
  simp only [mem_append, mem_filter] at ht
  tauto

theorem Mails.fireTimers (h : Mails s) (hpunctual : Smooth s .fireTimers) : Mails s.fireTimers := by
  intro q hq
  obtain ⟨b, hb⟩ := (h.firing.foldl hpunctual).mails q hq
  rw [append_nil] at hb
  exact ⟨b, hb⟩

/-! ## Every step -/

theorem Mails.wake (hrun : Running s pid) (h : Mails s) (v : Val) : Mails (s.resume pid v) := by
  refine MailsAt.resume (fun q hq => ?_) v
  obtain ⟨b, hb⟩ := h q hq
  refine ⟨b, hb, ?_⟩
  rintro rfl
  have hasked : b.asked = none := by simpa [hb.waiting] using hrun.not_waiting
  have hanswer : b.answer = none := by
    by_contra hne
    obtain ⟨v, hv⟩ := Option.ne_none_iff_exists'.1 hne
    exact hrun.not_ready (hb.answer v hv).2.1
  simp [Box.free, hasked, hanswer]

theorem Mails.act (h : Mails s) (ha : ∀ pid, Act pid True s s') : Mails s' := by
  intro q hq
  have hq' : s.gone q = false := Bool.eq_false_iff.2 fun hgone => Bool.eq_false_iff.1 hq (gone_of_act (ha q) hgone)
  obtain ⟨b, hb⟩ := h q hq'
  obtain ⟨queue, hb'⟩ := hb.act (ha (q + 1)) hq fun he => absurd he (Nat.ne_of_lt (Nat.lt_succ_self q))
  exact ⟨_, hb'⟩

theorem isAlive_processExit_self (s : Core) (p : Pid) (r : Val) : (s.processExit p r).isAlive p = false := by
  refine s.processExit_cases (P := (·.isAlive p = false)) p r id (fun halive _ => ?_) fun ds _ _ hds => ?_
  · exact congrArg Proc.alive (proc_update_self (lt_of_isAlive halive))
  · have hmem : p ∈ kills ds := mem_kills.2 ⟨r, hds.root⟩
    simp [isAlive_deeds, hmem]

theorem Mails.shutdownIdle (h : Mails s) (hplaced : Placed s) : Mails s.shutdownIdle := by
  have hfold (ps : List Pid) : ∀ s : Core, Mails s →
      Mails (ps.foldl (fun s pid => s.processExit pid (.keyword "shutdown")) s) ∧
      (ps.foldl (fun s pid => s.processExit pid (.keyword "shutdown")) s).waiting = s.waiting ∧
      ∀ q, s.gone q ∨ q ∈ ps ∧ q < s.procs.length →
        (ps.foldl (fun s pid => s.processExit pid (.keyword "shutdown")) s).gone q := by
    induction ps with
    | nil => exact fun s h => ⟨h, rfl, fun q hq => by simpa using hq⟩
    | cons p rest ih =>
      intro s h
      obtain ⟨hwaiting, -, hlength⟩ := s.processExit_queues p (.keyword "shutdown")
      obtain ⟨hmails, hwaits, hgone⟩ := ih _ (h.act fun pid => .exit s p (.keyword "shutdown"))
      refine ⟨hmails, hwaits.trans hwaiting, fun q hq => hgone q ?_⟩
      rw [hlength]
      rcases hq with hq | ⟨hmem, hlt⟩
      · exact .inl (gone_of_act (Act.exit s p _ : Act q True s _) hq)
      · rcases List.mem_cons.1 hmem with rfl | hmem
        · exact .inl (by simp [gone, hlength, hlt, isAlive_processExit_self])
        · exact .inr ⟨hmem, hlt⟩
  obtain ⟨hmails, hwaiting, hgone⟩ := hfold (List.range s.procs.length) s h
  intro q hq
  obtain ⟨b, hb⟩ := hmails q hq
  have hnot : q ∉ s.waiting := by
    intro hmem
    have hlt := hplaced.lt_of_waiting hmem
    exact Bool.eq_false_iff.1 hq (hgone q (.inr ⟨List.mem_range.2 hlt, hlt⟩))
  refine ⟨b, MailIn.aside (hb.blocked ?_) (.of_procs rfl rfl id le_rfl)⟩
  rw [hwaiting]
  simp [hnot, Core.shutdownIdle]

theorem Mails.step (h : Mails s) (hplaced : Placed s) {st : Step} (hsmooth : s.raised = false → Smooth s st) :
    Mails (s.step st) := by
  unfold Core.step
  split
  · exact h
  rename_i hraised
  have hsmooth := hsmooth (Bool.eq_false_iff.2 hraised)
  cases st with
  | tick | advanceTo | deadlock | parkSub => exact h.sched rfl rfl rfl rfl (fun _ hq => hq) le_rfl
  | fireTimers => exact h.fireTimers hsmooth
  | wakeWaiting => exact (h.wakeWaiting hplaced hsmooth).1
  | runOne pid sig =>
    dsimp only
    split
    · rename_i hpid
      exact h.turn (hplaced.not_waiting_of_ready hpid) (hplaced.ready hpid)
        ⟨rfl, rfl, rfl, rfl, fun q hne hq => (mem_erase_of_ne hne).2 hq, rfl⟩ (hsmooth hpid)
    · exact h
  | completeIo id sig =>
    dsimp only [Core.completeIo]
    split
    · rename_i pid hget
      have hrun := hplaced.ioPending hget
      exact h.turn hrun.not_waiting hrun ⟨rfl, rfl, rfl, rfl, fun q _ hq => hq, rfl⟩ (hsmooth pid hget)
    · exact h.sched rfl rfl rfl rfl (fun _ hq => hq) le_rfl
  | wake pid v =>
    dsimp only
    split
    · rename_i hpid
      exact .wake (hplaced.joining hpid) (h.sched rfl rfl rfl rfl (fun _ hq => hq) le_rfl) v
    · exact h
  | unpark key w =>
    dsimp only
    split
    · rename_i hmem
      cases w with
      | process pid =>
        exact .wake (hplaced.futexParked hmem) (h.sched rfl rfl rfl rfl (fun _ hq => hq) le_rfl) _
      | sub => exact h.sched rfl rfl rfl rfl (fun _ hq => hq) le_rfl
    · exact h
  | startIo id entry =>
    dsimp only
    split
    · exact h
    · exact h.sched rfl rfl rfl rfl (fun _ hq => hq) le_rfl
  | cancelIo id =>
    dsimp only [Core.cancelIo]
    split
    · have ha (q : Pid) : Aside q s ({ s with ioPending := s.ioPending.del id }.note (.cancelled id)) :=
        .of_proc rfl (by simp [history, note, Event.happening]) (fun hq => hq) le_rfl
      exact fun q hq => (h q hq).imp fun b hb => hb.aside (ha q)
    · exact h
  | shutdownIdle => exact h.shutdownIdle hplaced
  | inject pid msg => exact h.act fun _ => .send s pid msg
  | spawn => exact h.act fun _ => .spawn s

end Core

end Elle.Process

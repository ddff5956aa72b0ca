import Elle.Process.Places
import Elle.Process.Silence

/-!
# The inbox of a process

`history` reads the log as what happened at the inbox of one process, and `Mail` says how the table
holds the inbox that this history leaves.
-/

namespace Elle.Process

open List
open Inbox (Want Happening Box takeFirst)

/-! ## Taking a message -/

namespace Proc

variable {pred : Val → Bool} {mbox save : List Val} {m : Val}

theorem scanMbox_of_none (h : ∀ m ∈ mbox, pred m = false) :
    scanMbox pred mbox save = (.nil, [], save ++ mbox) := by
  induction mbox generalizing save with
  | nil => simp [scanMbox]
  | cons m rest ih =>
    have hrest : ∀ m ∈ rest, pred m = false := fun m hm => h m (mem_cons_of_mem _ hm)
    simp [scanMbox, h m (by simp), ih hrest]

variable {rest : List Val}

theorem scanMbox_of_some (save : List Val) (h : takeFirst pred mbox = some (m, rest)) (hm : m ≠ .nil) :
    ∃ before after, scanMbox pred mbox save = (m, after, save ++ before) ∧ rest = before ++ after := by
  induction mbox generalizing save rest with
  | nil => cases h
  | cons m' mbox ih =>
    rw [takeFirst] at h
    split at h
    · rename_i hpred
      cases h
      exact ⟨[], mbox, by simp [scanMbox, hpred, hm], rfl⟩
    · rename_i hpred
      obtain ⟨⟨v, vs⟩, hr, he⟩ := Option.map_eq_some_iff.1 h
      cases he
      obtain ⟨before, after, hscan, hrest⟩ := ih (save ++ [m']) hr
      exact ⟨m' :: before, after, by simp [scanMbox, hpred, hscan], by simp [hrest]⟩

theorem length_scanMbox (pred : Val → Bool) (mbox save : List Val) :
    (scanMbox pred mbox save).2.2.length + (scanMbox pred mbox save).2.1.length ≤
      save.length + mbox.length := by
  induction mbox generalizing save with
  | nil => simp [scanMbox]
  | cons m rest ih =>
    rw [scanMbox]
    split_ifs
    · have := ih save
      simp only [length_cons]
      omega
    · simp
    · have := ih (save ++ [m])
      simp only [length_append, length_cons, length_nil] at this ⊢
      omega

theorem length_scanMbox_of_nil (save : List Val) (h : takeFirst pred mbox = some (.nil, rest)) :
    (scanMbox pred mbox save).2.2.length + (scanMbox pred mbox save).2.1.length <
      save.length + mbox.length := by
  induction mbox generalizing save rest with
  | nil => cases h
  | cons m' mbox ih =>
    rw [takeFirst] at h
    rw [scanMbox]
    split_ifs at h with hpred
    · cases h
      rw [if_pos hpred, if_pos rfl]
      have := length_scanMbox pred mbox save
      simp only [length_cons]
      omega
    · obtain ⟨⟨v, vs⟩, hr, he⟩ := Option.map_eq_some_iff.1 h
      cases he
      rw [if_neg hpred]
      have := ih (save ++ [m']) hr
      simp only [length_append, length_cons, length_nil] at this ⊢
      omega

/-- The messages before the mailbox that the receive has already passed over. -/
def Passed (p : Proc) (pred : Option (Val → Bool)) : Prop :=
  ∀ m ∈ p.saveQueue, pred.all (· m) = false

theorem Passed.saveQueue_eq_nil {p : Proc} (h : p.Passed none) : p.saveQueue = [] := by
  rw [eq_nil_iff_forall_not_mem]
  intro m hm
  cases h m hm

variable {p : Proc} {want : Option (Val → Bool)}

theorem take_of_none (hp : p.Passed want) (h : takeFirst (fun m => want.all (· m)) p.mbox = none) :
    (p.take want).1 = .nil ∧ (p.take want).2.Passed want ∧
      (p.take want).2.saveQueue ++ (p.take want).2.mbox = p.saveQueue ++ p.mbox ∧
      ((p.take want).2.recvPred = p.recvPred) := by
  rw [Inbox.takeFirst_eq_none] at h
  cases want with
  | none =>
    have hmbox : p.mbox = [] := by
      rw [eq_nil_iff_forall_not_mem]
      intro m hm
      cases h m hm
    simp [take, hmbox, hp]
  | some pred =>
    have hmbox : ∀ m ∈ p.mbox, pred m = false := h
    simp only [take, scanMbox_of_none hmbox, if_true]
    refine ⟨trivial, fun m hm => ?_, by simp, trivial⟩
    rcases List.mem_append.1 hm with hm | hm
    · exact hp m hm
    · exact h m hm

theorem take_of_some (hp : p.Passed want) (h : takeFirst (fun m => want.all (· m)) p.mbox = some (m, rest))
    (hm : m ≠ .nil) :
    (p.take want).1 = m ∧ (p.take want).2.saveQueue = [] ∧
      (p.take want).2.mbox = p.saveQueue ++ rest ∧
      ((p.take want).2.recvPred = if want.isSome then none else p.recvPred) := by
  cases want with
  | none =>
    have hsave := hp.saveQueue_eq_nil
    cases hmbox : p.mbox with
    | nil =>
      rw [hmbox] at h
      cases h
    | cons m' mbox =>
      rw [hmbox] at h
      cases h
      simp [take, hmbox, hsave]
  | some pred =>
    have h : takeFirst pred p.mbox = some (m, rest) := h
    obtain ⟨before, after, hscan, hrest⟩ := scanMbox_of_some p.saveQueue h hm
    simp [take, hscan, hm, restoreSaveQueue, hrest]

/-- An oldest wanted `nil` is lost, or another message is taken in its place. -/
theorem take_of_nil (h : takeFirst (fun m => want.all (· m)) p.mbox = some (.nil, rest))
    (hnil : (p.take want).1 = .nil) :
    ((p.take want).2.saveQueue ++ (p.take want).2.mbox).length < (p.saveQueue ++ p.mbox).length := by
  cases want with
  | none =>
    cases hmbox : p.mbox with
    | nil =>
      rw [hmbox] at h
      cases h
    | cons m' mbox => simp [take, hmbox]
  | some pred =>
    have h : takeFirst pred p.mbox = some (.nil, rest) := h
    have hlen := length_scanMbox_of_nil p.saveQueue h
    simp only [take] at hnil ⊢
    split at hnil
    · rename_i hfound
      simpa [hfound] using hlen
    · rename_i hfound
      exact absurd hnil hfound

end Proc

/-! ## The history of an inbox -/

namespace Event

def happening (q : Pid) : Event → Option (Happening Val)
  | delivered p m made =>
    if p = q then
      some (match made with
        | .deadline now => .expires now
        | _ => .arrives m)
    else none
  | asked p w => if p = q then some (.asks w) else none
  | answered p m => if p = q then some (.answers m) else none
  | flushed p tag ref => if p = q then some (.drops fun m => !tagged tag ref m) else none
  | ran p v => if p = q then some (.resumes v) else none
  | _ => none

theorem happening_eq_none {q : Pid} {e : Event} (h : e.reaches q = false) : e.happening q = none := by
  cases e <;> simp_all [reaches, happening]

end Event

namespace Core

def history (s : Core) (q : Pid) : List (Happening Val) := s.log.filterMap (Event.happening q)

/-- What the two queues of a process show: the inbox, behind the `:timeout` of an expired receive. -/
def shown (b : Box Val) : List Val := (if b.expired then [timeoutVal] else []) ++ b.queue

/-- How the table holds the inbox `b` that the history of `q` leaves, with `waiting` the blocked
processes and `timers` the timers still to fire. -/
structure MailIn (waiting : List Pid) (timers : List Timer) (s : Core) (q : Pid) (b : Box Val) : Prop where
  replay : Inbox.replay timeoutVal (s.history q) = some b
  waiting : q ∈ waiting ↔ b.asked.isSome
  answer : ∀ v, b.answer = some v → b.asked = none ∧ q ∈ s.ready ∧ (s.proc q).resume = v
  content : (s.proc q).saveQueue ++ (s.proc q).mbox = shown b
  pred : (s.proc q).recvPred = b.asked.bind Want.pred
  passed : (s.proc q).Passed (s.proc q).recvPred
  /-- The timer of the blocked receive is the one it armed, with its deadline. -/
  timer : ∀ ref, (s.proc q).timerRef = some ref → ref < s.nextRef ∧
    ∀ t ∈ timers, t.ref = ref → b.asked = some (.within t.fireAt)
  dated : ∀ t ∈ timers, t.ref < s.nextRef
  armed : (s.proc q).timerRef.isSome ↔ b.expired = false ∧ ∃ d, b.asked = some (.within d)
  expired : b.expired → ∃ d, b.asked = some (.within d)

abbrev Mail (s : Core) : Pid → Box Val → Prop := MailIn s.waiting s.timers s

/-- `q` has been spawned and has exited. -/
def gone (s : Core) (q : Pid) : Bool := decide (q < s.procs.length) && !s.isAlive q

/-- From `s` to `s'` nothing has happened at the inbox of `q`. -/
structure Aside (q : Pid) (s s' : Core) : Prop where
  mbox : (s'.proc q).mbox = (s.proc q).mbox
  saveQueue : (s'.proc q).saveQueue = (s.proc q).saveQueue
  recvPred : (s'.proc q).recvPred = (s.proc q).recvPred
  timerRef : (s'.proc q).timerRef = (s.proc q).timerRef
  resume : (s'.proc q).resume = (s.proc q).resume
  history : s'.history q = s.history q
  ready : q ∈ s.ready → q ∈ s'.ready
  nextRef : s.nextRef ≤ s'.nextRef

variable {q pid : Pid} {s s' : Core} {b : Box Val} {waiting : List Pid} {timers : List Timer}

theorem replay_history (h : Inbox.replay timeoutVal (s.history q) = some b) {e : Event}
    {x : Happening Val} (hlog : s'.log = s.log ++ [e]) (he : e.happening q = some x) :
    Inbox.replay timeoutVal (s'.history q) = b.step timeoutVal x := by
  rw [← Inbox.replay_append_one h, history, hlog, filterMap_append]
  simp [he, history]

namespace Aside

theorem trans {s₁ s₂ s₃ : Core} (h : Aside q s₁ s₂) (h' : Aside q s₂ s₃) : Aside q s₁ s₃ :=
  ⟨h'.mbox.trans h.mbox, h'.saveQueue.trans h.saveQueue, h'.recvPred.trans h.recvPred,
    h'.timerRef.trans h.timerRef, h'.resume.trans h.resume, h'.history.trans h.history,
    fun hq => h'.ready (h.ready hq), h.nextRef.trans h'.nextRef⟩

theorem of_proc (hproc : s'.proc q = s.proc q) (hhistory : s'.history q = s.history q)
    (hready : q ∈ s.ready → q ∈ s'.ready) (hnext : s.nextRef ≤ s'.nextRef) : Aside q s s' :=
  ⟨by rw [hproc], by rw [hproc], by rw [hproc], by rw [hproc], by rw [hproc], hhistory, hready, hnext⟩

theorem of_procs (hprocs : s'.procs = s.procs) (hlog : s'.log = s.log)
    (hready : q ∈ s.ready → q ∈ s'.ready) (hnext : s.nextRef ≤ s'.nextRef) : Aside q s s' :=
  of_proc (by simp [proc, hprocs]) (by simp [Core.history, hlog]) hready hnext

theorem refl (q : Pid) (s : Core) : Aside q s s := of_procs rfl rfl id le_rfl

theorem update (s : Core) (p : Pid) {f : Proc → Proc}
    (hf : ∀ x, (f x).mbox = x.mbox ∧ (f x).saveQueue = x.saveQueue ∧ (f x).recvPred = x.recvPred ∧
      (f x).timerRef = x.timerRef ∧ (f x).resume = x.resume) : Aside q s (s.update p f) :=
  ⟨mbox_update _ _ _ fun x => (hf x).1, saveQueue_update _ _ _ fun x => (hf x).2.1,
    recvPred_update _ _ _ fun x => (hf x).2.2.1, timerRef_update _ _ _ fun x => (hf x).2.2.2.1,
    resume_update _ _ _ fun x => (hf x).2.2.2.2, rfl, id, le_rfl⟩

variable {p : Pid}

theorem update_ne (hne : q ≠ p) (s : Core) (f : Proc → Proc) : Aside q s (s.update p f) :=
  of_proc (proc_update_ne hne) rfl id le_rfl

theorem note (s : Core) {e : Event} (he : e.reaches q = false) : Aside q s (s.note e) :=
  of_proc rfl (by simp [Core.history, Core.note, Event.happening_eq_none he]) id le_rfl

theorem deliver_ne (hne : q ≠ p) (s : Core) (m : Val) (made : Maker) : Aside q s (s.deliver p m made) := by
  unfold Core.deliver
  split
  · exact (update_ne hne s _).trans (note _ (by simp [Event.reaches, hne.symm]))
  · exact refl q s

theorem resume_ne (hne : q ≠ p) (s : Core) (v : Val) : Aside q s (s.resume p v) := by
  unfold Core.resume
  split
  · exact of_proc (proc_update_ne hne) rfl (fun h => mem_append_left _ h) le_rfl
  · exact refl q s

theorem kill (hne : q ≠ p) (s : Core) (r : Val) : Aside q s (s.kill p r) := by
  obtain ⟨ids, hlog⟩ := s.kill_log p r
  have hrest := s.sameRest_deed (.kill p r)
  refine of_proc ?_ ?_ (fun hq => ?_) hrest.nextRef.ge
  · rw [proc_kill, proc_update_ne hne]
  · have hnil : (Event.died p r :: ids.map Event.cancelled).filterMap (Event.happening q) = [] := by
      simp [Event.happening]
    rw [Core.history, hlog, filterMap_append, hnil, append_nil, Core.history]
  · exact hrest.ready ▸ hq

theorem calm (h : Calm s s') : Aside q s s' :=
  ⟨h.mbox q, h.saveQueue q, h.recvPred q, h.timerRef q, h.resume q, by simp [Core.history, h.log],
    fun hq => h.ready ▸ hq, h.nextRef.ge⟩

end Aside

theorem processExit_queues (s : Core) (p : Pid) (r : Val) :
    (s.processExit p r).waiting = s.waiting ∧ (s.processExit p r).timers = s.timers ∧
      (s.processExit p r).procs.length = s.procs.length :=
  s.processExit_cases p r
    (P := fun s' => s'.waiting = s.waiting ∧ s'.timers = s.timers ∧ s'.procs.length = s.procs.length)
    (fun _ => ⟨rfl, rfl, rfl⟩) (fun _ _ => ⟨rfl, rfl, length_update⟩) fun ds _ _ _ =>
      have hrest := s.sameRest_deeds ds
      ⟨hrest.waiting, hrest.timers, hrest.length⟩

namespace MailIn

section

variable (h : MailIn waiting timers s q b)
include h

theorem aside (ha : Aside q s s') : MailIn waiting timers s' q b where
  replay := ha.history ▸ h.replay
  waiting := h.waiting
  answer v hv := ⟨(h.answer v hv).1, ha.ready (h.answer v hv).2.1, ha.resume.trans (h.answer v hv).2.2⟩
  content := by rw [ha.saveQueue, ha.mbox, h.content]
  pred := ha.recvPred.trans h.pred
  passed := by
    rw [Proc.Passed, ha.saveQueue, ha.recvPred]
    exact h.passed
  timer ref href := by
    rw [ha.timerRef] at href
    exact ⟨Nat.lt_of_lt_of_le (h.timer ref href).1 ha.nextRef, (h.timer ref href).2⟩
  dated t ht := Nat.lt_of_lt_of_le (h.dated t ht) ha.nextRef
  armed := by
    rw [ha.timerRef]
    exact h.armed
  expired := h.expired

theorem blocked {waiting' : List Pid} (hq : q ∈ waiting' ↔ q ∈ waiting) :
    MailIn waiting' timers s q b :=
  { h with waiting := hq.trans h.waiting }

theorem retime (ha : Aside q s s') {timers' : List Timer}
    (ht : ∀ t ∈ timers', t ∈ timers ∨ s.nextRef ≤ t.ref ∧ t.ref < s'.nextRef) :
    MailIn waiting timers' s' q b := by
  refine { h.aside ha with
    timer := fun ref href => ⟨((h.aside ha).timer ref href).1, fun t hmem heq => ?_⟩
    dated := fun t hmem => ?_ }
  · rcases ht t hmem with hold | ⟨hnew, -⟩
    · exact ((h.aside ha).timer ref href).2 t hold heq
    · have hlt := (h.timer ref (ha.timerRef ▸ href)).1
      exact absurd hlt (Nat.not_lt.2 (heq ▸ hnew))
  · rcases ht t hmem with hold | ⟨-, hnew⟩
    · exact (h.aside ha).dated t hold
    · exact hnew

theorem replay_log {e : Event} {x : Happening Val}
    (hlog : s'.log = s.log ++ [e]) (he : e.happening q = some x) :
    Inbox.replay timeoutVal (s'.history q) = b.step timeoutVal x :=
  replay_history h.replay hlog he

theorem deliver (p : Pid) (m : Val) {made : Maker}
    (hmade : ∀ now, made ≠ .deadline now) :
    ∃ queue, MailIn waiting timers (s.deliver p m made) q { b with queue } := by
  by_cases hne : q = p
  · subst hne
    unfold Core.deliver
    split
    · rename_i halive
      refine ⟨b.queue ++ [m], ?_⟩
      have hproc : ((s.update q fun p => { p with mbox := p.mbox ++ [m] }).note
          (.delivered q m made)).proc q = { s.proc q with mbox := (s.proc q).mbox ++ [m] } :=
        proc_update_self (lt_of_isAlive halive)
      have hhappening : (Event.delivered q m made).happening q = some (.arrives m) := by
        cases made <;> simp_all [Event.happening]
      constructor <;> try rw [hproc]
      · exact h.replay_log rfl hhappening
      · exact h.waiting
      · exact h.answer
      · rw [← append_assoc, h.content, shown, shown, append_assoc]
      · exact h.pred
      · exact h.passed
      · exact h.timer
      · exact h.dated
      · exact h.armed
      · exact h.expired
    · exact ⟨b.queue, h⟩
  · exact ⟨b.queue, h.aside (.deliver_ne hne s m made)⟩

end

theorem delivered (h : Mail s q b) (p : Pid) (m : Val) {made : Maker} (hmade : ∀ now, made ≠ .deadline now) :
    ∃ queue, Mail (s.deliver p m made) q { b with queue } := by
  obtain ⟨queue, hd⟩ := h.deliver p m hmade
  exact ⟨queue, by rwa [Mail, (sameRest_deliver ..).waiting, (sameRest_deliver ..).timers]⟩

section

variable (h : MailIn waiting timers s q b)
include h

theorem deed (d : Deed) (hkill : ∀ r, d ≠ .kill q r)
    (htell : ∀ p m now, d ≠ .tell p m (.deadline now)) :
    ∃ queue, MailIn waiting timers (s.deed d) q { b with queue } := by
  cases d with
  | kill p r =>
    have hne : q ≠ p := fun he => hkill r (he ▸ rfl)
    exact ⟨b.queue, h.aside (.kill hne s r)⟩
  | tell p m made =>
    obtain ⟨queue, hq⟩ := h.deliver p m fun now he => htell p m now (he ▸ rfl)
    cases made with
    | monitor ref => exact ⟨queue, hq.aside (.update _ _ (by simp))⟩
    | _ => exact ⟨queue, hq⟩

theorem deeds {ds : List Deed} (hkill : ∀ r, .kill q r ∉ ds)
    (htell : ∀ p m now, .tell p m (.deadline now) ∉ ds) :
    ∃ queue, MailIn waiting timers (ds.foldl Core.deed s) q { b with queue } := by
  induction ds generalizing s b with
  | nil => exact ⟨b.queue, h⟩
  | cons d rest ih =>
    obtain ⟨queue, hd⟩ := h.deed d (fun r he => hkill r (by simp [he]))
      fun p m now he => htell p m now (by simp [he])
    obtain ⟨queue', hrest⟩ := ih hd (fun r hmem => hkill r (mem_cons_of_mem _ hmem))
      fun p m now hmem => htell p m now (mem_cons_of_mem _ hmem)
    exact ⟨queue', hrest⟩

theorem processExit {p : Pid} {r : Val}
    (hq : (s.processExit p r).gone q = false) :
    ∃ queue, MailIn waiting timers (s.processExit p r) q { b with queue } := by
  revert hq
  refine s.processExit_cases (P := fun s' => s'.gone q = false → ∃ queue, MailIn _ _ s' q { b with queue }) p r
    (fun _ _ => ⟨b.queue, h⟩) (fun _ _ _ => ⟨b.queue, h.aside ?_⟩)
    fun ds _ _ hds hq => h.deeds (fun r' hkill => ?_) fun p' m now hmem => ?_
  · exact ((Aside.update s p (by simp)).trans (.note _ rfl)).trans (.of_procs rfl rfl id le_rfl)
  · have hmem : q ∈ kills ds := mem_kills.2 ⟨r', hkill⟩
    have hlt := lt_of_isAlive (hds.alive q hmem)
    have hdead : (ds.foldl Core.deed s).isAlive q = false := by simp [isAlive_deeds, hmem]
    simp [gone, (s.sameRest_deeds ds).length, hlt, hdead] at hq
  · obtain ⟨-, d, r', -, ⟨hmade, -⟩ | ⟨ref, hmade, -⟩⟩ := hds.only hmem <;> cases hmade

theorem expired_of_free (hfree : b.free) : b.expired = false := by
  by_contra hexp
  obtain ⟨d, hd⟩ := h.expired (by simpa using hexp)
  simp [Box.free, hd] at hfree

theorem of_free (hfree : b.free) : (s.proc q).saveQueue = [] ∧ (s.proc q).mbox = b.queue := by
  have hasked : b.asked = none := by simp_all [Box.free]
  have hpassed := h.passed
  rw [h.pred, hasked] at hpassed
  have hcontent := h.content
  rw [hpassed.saveQueue_eq_nil, shown, h.expired_of_free hfree] at hcontent
  exact ⟨hpassed.saveQueue_eq_nil, by simpa using hcontent⟩

end

theorem flush (h : Mail s pid b) (hfree : b.free) (hp : s.isAlive pid) (tag : String) (ref : Ref) :
    ∃ queue, Mail (s.flushTagged pid tag ref) pid { b with queue } := by
  obtain ⟨hsave, hmbox⟩ := h.of_free hfree
  have hproc : (s.flushTagged pid tag ref).proc pid = { s.proc pid with
      mbox := b.queue.filter fun m => !tagged tag ref m, saveQueue := [] } := by
    refine (proc_update_self (lt_of_isAlive hp)).trans ?_
    rw [hsave, hmbox]
    rfl
  refine ⟨b.queue.filter fun m => !tagged tag ref m, ?_⟩
  constructor <;> try rw [hproc]
  · rw [h.replay_log rfl (x := .drops fun m => !tagged tag ref m) (by simp [Event.happening])]
    simp [Box.step, hfree]
  · exact h.waiting
  · exact h.answer
  · simp [shown, h.expired_of_free hfree]
  · exact h.pred
  · exact fun m hm => by cases hm
  · exact h.timer
  · exact h.dated
  · exact h.armed
  · exact h.expired

theorem act (ha : Act pid True s s') (h : Mail s q b) (hq : s'.gone q = false)
    (hfree : q = pid → b.free) : ∃ queue, Mail s' q { b with queue } := by
  have hfresh : Mail { s with nextRef := s.nextRef + 1 } q b :=
    h.aside (.of_procs rfl rfl id (Nat.le_succ _))
  cases ha with
  | calm hc =>
    rw [Mail, hc.waiting, hc.timers]
    exact ⟨b.queue, h.aside (.calm hc)⟩
  | addLink | removeLink => exact ⟨b.queue, h.aside ((Aside.update s _ (by simp)).trans (.update _ _ (by simp)))⟩
  | send target msg => exact h.delivered target msg (by simp)
  | signal target dead reason => exact h.delivered target _ (by simp)
  | reply target ref value =>
    unfold Core.reply
    split
    · exact h.delivered target _ (by simp)
    · exact ⟨b.queue, h⟩
  | freshRef => exact ⟨b.queue, hfresh⟩
  | addAlias => exact ⟨b.queue, hfresh.aside (.update _ _ (by simp))⟩
  | dropAlias => exact ⟨b.queue, h.aside (.update s _ (by simp))⟩
  | flush hp tag ref =>
    by_cases hne : q = pid
    · subst hne
      exact h.flush (hfree rfl) hp tag ref
    · exact ⟨b.queue, h.aside ((Aside.update_ne hne s _).trans
        (.note _ (by simp [Event.reaches, Ne.symm hne])))⟩
  | monitor hp target =>
    have h₀ : Mail ({ s with nextRef := s.nextRef + 1 }.note (.monitored s.nextRef pid target)) q b :=
      hfresh.aside (.note _ rfl)
    unfold addMonitor
    dsimp only
    split
    · exact ⟨b.queue, h₀.aside ((Aside.update _ _ (by simp)).trans (.update _ _ (by simp)))⟩
    · exact h₀.delivered _ _ (by simp)
  | demonitor hp ref =>
    unfold removeMonitor
    split
    · exact ⟨b.queue, h⟩
    · have h₁ := (Aside.update (q := q) s pid (f := fun p => { p with monitors := p.monitors.del ref }) (by simp)).trans
        (.note _ (e := .demonitored ref) rfl)
      dsimp only
      split
      · exact ⟨b.queue, h.aside (h₁.trans (.update _ _ (by simp)))⟩
      · exact ⟨b.queue, h.aside h₁⟩
  | spawn =>
    refine ⟨b.queue, h.aside ?_⟩
    by_cases hnew : q = s.procs.length
    · subst hnew
      have hold := proc_of_le (s := s) le_rfl
      have hnew := proc_spawn_self (s := s)
      exact ⟨by rw [hnew, hold], by rw [hnew, hold], by rw [hnew, hold], by rw [hnew, hold],
        by rw [hnew, hold], rfl, fun h => mem_append_left _ h, le_rfl⟩
    · exact .of_proc (proc_spawn_ne hnew) rfl (fun h => mem_append_left _ h) le_rfl
  | exit target reason =>
    obtain ⟨queue, hexit⟩ := h.processExit hq
    obtain ⟨hwaiting, htimers, -⟩ := s.processExit_queues target reason
    exact ⟨queue, by rwa [Mail, hwaiting, htimers]⟩
  | timer ticks target msg =>
    have ha : Aside q s (s.addTimer ticks target msg).1 := .of_procs rfl rfl id (Nat.le_succ _)
    refine ⟨b.queue, h.retime ha fun t ht => ?_⟩
    rcases List.mem_append.1 ht with ht | ht
    · exact .inl ht
    · obtain rfl := List.mem_singleton.1 ht
      exact .inr ⟨le_rfl, Nat.lt_succ_self _⟩
  | dropTimer ref =>
    have ha : Aside q s (s.cancelTimer ref).1 := .of_procs rfl rfl id le_rfl
    exact ⟨b.queue, h.retime ha fun t ht => .inl (List.mem_filter.1 ht).1⟩

theorem free_timerRef (h : MailIn waiting timers s q b) (hfree : b.free) : (s.proc q).timerRef = none := by
  by_contra hne
  obtain ⟨-, d, hd⟩ := h.armed.1 (Option.ne_none_iff_isSome.1 hne)
  simp [Box.free, hd] at hfree

theorem free_recvPred (h : MailIn waiting timers s q b) (hfree : b.free) : (s.proc q).recvPred = none := by
  have hasked : b.asked = none := by simp_all [Box.free]
  rw [h.pred, hasked]
  rfl

theorem ran (h : Mail s pid b) (hasked : b.asked = none)
    (hlog : s'.log = s.log ++ [Event.ran pid (s.proc pid).resume])
    (hproc : s'.proc pid = { s.proc pid with resume := .nil }) (hwaiting : s'.waiting = s.waiting)
    (htimers : s'.timers = s.timers) (hnext : s'.nextRef = s.nextRef) :
    ∃ b, Mail s' pid b ∧ b.free := by
  refine ⟨{ b with answer := none }, ?_, by simp [Box.free, hasked]⟩
  constructor <;> try rw [hproc]
  · rw [h.replay_log hlog (x := .resumes (s.proc pid).resume) (by simp [Event.happening])]
    have hall : b.answer.all (· = (s.proc pid).resume) := by
      cases hv : b.answer with
      | none => rfl
      | some v => simpa using (h.answer v hv).2.2.symm
    simp [Box.step, hasked, hall]
  · rw [hwaiting]
    exact h.waiting
  · exact nofun
  · exact h.content
  · exact h.pred
  · exact h.passed
  · rw [htimers, hnext]
    exact h.timer
  · rw [htimers, hnext]
    exact h.dated
  · exact h.armed
  · exact h.expired

theorem resume (h : Mail s pid b) (hfree : b.free) (v : Val) : Mail (s.resume pid v) pid b := by
  unfold Core.resume
  split
  · rename_i hp
    have hproc : (s.update pid fun p => { p with resume := v }).proc pid =
        { s.proc pid with resume := v } := proc_update_self (lt_of_isAlive hp)
    have hanswer : b.answer = none := by simp_all [Box.free]
    constructor
    · exact h.replay
    · exact h.waiting
    · simp [hanswer]
    · exact (congrArg (fun p => Proc.saveQueue p ++ p.mbox) hproc).trans h.content
    · exact (congrArg Proc.recvPred hproc).trans h.pred
    · exact (congrArg (fun p => Proc.Passed p p.recvPred) hproc).mpr h.passed
    · exact fun ref href => h.timer ref ((congrArg Proc.timerRef hproc).symm.trans href)
    · exact h.dated
    · exact (congrArg (fun p => Option.isSome (Proc.timerRef p)) hproc) ▸ h.armed
    · exact h.expired
  · exact h

/-- What a receive of a process that is in none looks at is its whole inbox. -/
theorem ready_to_take (h : MailIn waiting timers s q b) (hfree : b.free) (w : Want Val) :
    (s.proc q).Passed w.pred ∧
      takeFirst (fun m => w.pred.all (· m)) (s.proc q).mbox = takeFirst w.takes b.queue := by
  obtain ⟨hsave, hmbox⟩ := h.of_free hfree
  refine ⟨by simp [Proc.Passed, hsave], ?_⟩
  rw [hmbox]
  exact congrArg (takeFirst · b.queue) (funext fun m => (w.takes_eq m).symm)

variable {w : Want Val}

theorem blocks (h : Mail s pid b) (hfree : b.free) (hnone : takeFirst w.takes b.queue = none)
    {r : Option Ref} (hlog : s'.log = s.log ++ [Event.asked pid w])
    (hproc : s'.proc pid = { ((s.proc pid).take w.pred).2 with recvPred := w.pred, timerRef := r })
    (hwaiting : pid ∈ s'.waiting) (htimed : r.isSome ↔ w.timed)
    (htimer : ∀ ref, r = some ref → ref < s'.nextRef ∧ ∀ t ∈ s'.timers, t.ref = ref → w = .within t.fireAt)
    (hdated : ∀ t ∈ s'.timers, t.ref < s'.nextRef) : Mail s' pid { b with asked := some w } := by
  obtain ⟨hpassed, hfirst⟩ := h.ready_to_take hfree w
  obtain ⟨-, hpass, hcontent, -⟩ := Proc.take_of_none hpassed (hfirst.trans hnone)
  have hexpired := h.expired_of_free hfree
  constructor <;> try rw [hproc]
  · rw [h.replay_log hlog (x := .asks w) (by simp [Event.happening])]
    simp [Box.step, hfree]
  · simpa using hwaiting
  · have hanswer : b.answer = none := by simp_all [Box.free]
    simp [hanswer]
  · exact hcontent.trans h.content
  · rfl
  · exact hpass
  · exact fun ref href => ⟨(htimer ref href).1, fun t ht he => by rw [(htimer ref href).2 t ht he]⟩
  · exact hdated
  · refine htimed.trans ?_
    cases w <;> simp [Want.timed, hexpired]
  · simp [hexpired]

theorem takes (h : Mail s pid b) (hfree : b.free) {m : Val} {rest : List Val}
    (hsome : takeFirst w.takes b.queue = some (m, rest)) (hm : m ≠ .nil)
    (hlate : ¬(w.timed ∧ m = timeoutVal)) (hlog : s'.log = s.log ++ [Event.asked pid w, .answered pid m])
    (hproc : s'.proc pid = { ((s.proc pid).take w.pred).2 with resume := m }) (hready : pid ∈ s'.ready)
    (hwaiting : s'.waiting = s.waiting) (htimers : s'.timers = s.timers) (hnext : s'.nextRef = s.nextRef) :
    Mail s' pid { queue := rest, answer := some m } := by
  obtain ⟨hpassed, hfirst⟩ := h.ready_to_take hfree w
  obtain ⟨-, hsave, hmbox, hpred⟩ := Proc.take_of_some hpassed (hfirst.trans hsome) hm
  have hrecv : ((s.proc pid).take w.pred).2.recvPred = none := by
    rw [hpred, h.free_recvPred hfree, ite_self]
  constructor <;> try rw [hproc]
  · have hlog' : s'.log = (s.note (.asked pid w)).log ++ [Event.answered pid m] := by
      rw [hlog, Core.note, append_assoc, singleton_append]
    have hasked : Inbox.replay timeoutVal ((s.note (.asked pid w)).history pid) =
        some { b with asked := some w } := by
      rw [h.replay_log rfl (x := .asks w) (by simp [Event.happening])]
      simp [Box.step, hfree]
    rw [replay_history hasked hlog' (x := .answers m) (by simp [Event.happening])]
    simp [Box.step, h.expired_of_free hfree, hsome, hlate]
  · rw [hwaiting, h.waiting]
    simp_all [Box.free]
  · rintro v ⟨⟩
    exact ⟨rfl, hready, rfl⟩
  · rw [hsave, hmbox, (h.of_free hfree).1]
    simp [shown]
  · exact hrecv
  · simp [Proc.Passed, hsave]
  · simp [h.free_timerRef hfree]
  · rw [htimers, hnext]
    exact h.dated
  · simp [h.free_timerRef hfree]
  · simp

section

variable (h : MailIn waiting timers s q b)
include h

theorem stays_blocked (hq : s.isAlive q)
    (hnone : takeFirst (fun m => (s.proc q).recvPred.all (· m)) (s.proc q).mbox = none) :
    MailIn waiting timers (s.update q fun p => p.takeMessage.2) q b := by
  obtain ⟨-, hpassed, hcontent, hpred⟩ := Proc.take_of_none h.passed hnone
  have hproc : (s.update q fun p => p.takeMessage.2).proc q =
      ((s.proc q).take (s.proc q).recvPred).2 := proc_update_self (lt_of_isAlive hq)
  constructor <;> try rw [hproc]
  · exact h.replay
  · exact h.waiting
  · rw [Proc.take_resume]
    exact h.answer
  · rw [hcontent, h.content]
  · rw [hpred, h.pred]
  · rw [hpred]
    exact hpassed
  · rw [Proc.take_timerRef]
    exact h.timer
  · exact h.dated
  · rw [Proc.take_timerRef]
    exact h.armed
  · exact h.expired

theorem takes_of_asked (hw : b.asked = some w) : (fun m => (s.proc q).recvPred.all (· m)) = w.takes := by
  funext m
  rw [h.pred, hw, w.takes_eq]
  rfl

/-- What a blocked receive looks at, behind what it has passed over, is its whole inbox. -/
theorem takeFirst_queue (hw : b.asked = some w) (hexp : b.expired = false) :
    takeFirst w.takes b.queue =
      (takeFirst (fun m => (s.proc q).recvPred.all (· m)) (s.proc q).mbox).map
        fun r => (r.1, (s.proc q).saveQueue ++ r.2) := by
  have hcontent := h.content
  rw [shown, hexp] at hcontent
  have hcontent : (s.proc q).saveQueue ++ (s.proc q).mbox = b.queue := hcontent
  rw [← hcontent, ← h.takes_of_asked hw, Inbox.takeFirst_append h.passed]

theorem timed_of_armed (hw : b.asked = some w) (hexp : b.expired = false) :
    w.timed ↔ (s.proc q).timerRef.isSome := by
  rw [h.armed, hw]
  cases w <;> simp [Want.timed, hexp]

theorem of_expired (hexp : b.expired) :
    (s.proc q).recvPred = none ∧ (s.proc q).saveQueue = [] ∧ (s.proc q).mbox = timeoutVal :: b.queue := by
  obtain ⟨d, hd⟩ := h.expired hexp
  have hrecv : (s.proc q).recvPred = none := by
    rw [h.pred, hd]
    rfl
  have hpassed := h.passed
  rw [hrecv] at hpassed
  have hcontent := h.content
  rw [hpassed.saveQueue_eq_nil, shown, hexp] at hcontent
  exact ⟨hrecv, hpassed.saveQueue_eq_nil, hcontent⟩

/-- A blocked receive takes the oldest message it wants, or its `:timeout`. -/
theorem wakes (hq : q ∈ waiting) {m : Val} {rest : List Val}
    (hsome : takeFirst (fun m => (s.proc q).recvPred.all (· m)) (s.proc q).mbox = some (m, rest))
    (hm : m ≠ .nil) (hlate : ¬((s.proc q).timerRef.isSome ∧ m = timeoutVal))
    (hlog : s'.log = s.log ++ [Event.answered q m])
    (hproc : s'.proc q = { (s.proc q).takeMessage.2 with timerRef := none, resume := m })
    (hready : q ∈ s'.ready) (hnext : s'.nextRef = s.nextRef) {waiting' : List Pid} (hq' : q ∉ waiting') :
    ∃ b', MailIn waiting' timers s' q b' := by
  obtain ⟨w, hw⟩ := Option.isSome_iff_exists.1 (h.waiting.1 hq)
  obtain ⟨-, hsave, hmbox, hpred⟩ := Proc.take_of_some h.passed hsome hm
  have hstep : b.step timeoutVal (.answers m) =
      some { queue := (s.proc q).saveQueue ++ rest, answer := some m } := by
    cases hexp : b.expired with
    | true =>
      obtain ⟨hrecv, hnil, hqueue⟩ := h.of_expired hexp
      rw [hrecv, hqueue] at hsome
      cases hsome
      simp [Box.step, hw, hexp, hnil]
    | false =>
      have hfirst := h.takeFirst_queue hw hexp
      rw [hsome] at hfirst
      have hnot : ¬(w.timed ∧ m = timeoutVal) := by rwa [h.timed_of_armed hw hexp]
      simp [Box.step, hw, hexp, hfirst, hnot]
  refine ⟨{ queue := (s.proc q).saveQueue ++ rest, answer := some m }, ?_⟩
  constructor <;> try rw [hproc]
  · rw [h.replay_log hlog (x := .answers m) (by simp [Event.happening]), hstep]
  · simpa using hq'
  · rintro v ⟨⟩
    exact ⟨rfl, hready, rfl⟩
  · simp [shown, Proc.takeMessage, hsave, hmbox]
  · refine hpred.trans ?_
    cases hr : (s.proc q).recvPred <;> simp
  · simp [Proc.Passed, Proc.takeMessage, hsave]
  · simp
  · rw [hnext]
    exact h.dated
  · simp
  · exact nofun

theorem asked_of_timer {t : Timer} (ht : t ∈ timers)
    (href : (s.proc q).timerRef = some t.ref) :
    b.asked = some (.within t.fireAt) ∧ b.expired = false ∧ (s.proc q).saveQueue = [] ∧
      (s.proc q).mbox = b.queue := by
  have hasked := (h.timer t.ref href).2 t ht rfl
  have hexp : b.expired = false := (h.armed.1 (by simp [href])).1
  have hpassed := h.passed
  rw [h.pred, hasked] at hpassed
  have hcontent := h.content
  rw [hpassed.saveQueue_eq_nil, shown, hexp] at hcontent
  exact ⟨hasked, hexp, hpassed.saveQueue_eq_nil, by simpa using hcontent⟩

theorem expires (hq : s.isAlive q) {t : Timer} (ht : t ∈ timers)
    (href : (s.proc q).timerRef = some t.ref) (hdue : t.fireAt ≤ s.clock) (hmbox : (s.proc q).mbox = []) :
    MailIn waiting timers ((s.update q fun p => { p with timerRef := none }).deliver q timeoutVal
      (.deadline s.clock)) q { b with expired := true } := by
  obtain ⟨hasked, hexp, hsave, hqueue⟩ := h.asked_of_timer ht href
  have hlive : (s.update q fun p => { p with timerRef := none }).isAlive q := by simpa using hq
  rw [hmbox] at hqueue
  rw [Core.deliver, if_pos hlive]
  generalize hs' : ((s.update q fun p => { p with timerRef := none }).update q fun p =>
    { p with mbox := p.mbox ++ [timeoutVal] }).note _ = s'
  have hproc : s'.proc q = { s.proc q with timerRef := none, mbox := [timeoutVal] } := by
    rw [← hs', update_update]
    refine (proc_update_self (lt_of_isAlive hq)).trans ?_
    simp [hmbox]
  constructor <;> try rw [hproc]
  · rw [h.replay_log (e := .delivered q timeoutVal (.deadline s.clock)) (x := .expires s.clock)
      (by rw [← hs']; rfl) (by simp [Event.happening])]
    simp [Box.step, hasked, hexp, hdue, ← hqueue]
  · exact h.waiting
  · intro v hv
    have := (h.answer v hv).1
    rw [hasked] at this
    cases this
  · simp [shown, hsave, ← hqueue]
  · exact h.pred
  · exact h.passed
  · simp
  · rw [← hs']
    exact h.dated
  · simp
  · exact fun _ => ⟨_, hasked⟩

end

end MailIn

end Core

end Elle.Process

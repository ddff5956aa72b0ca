import Elle.Process.Mailbox

/-!
# When mailboxes lose nothing

The conditions of `Smooth` are needed: a step that breaks one leaves a live process with a history
no inbox has, or with fewer messages than its inbox. So mailboxes are faithful along a run exactly
when every step of it is smooth.
-/

namespace Elle.Process

open List
open Inbox (Want Happening Box takeFirst)

namespace Core

variable {s s' : Core} {pid q : Pid} {b : Box Val} {waiting : List Pid} {timers : List Timer}

/-- The queues of `q` are not what its history leaves. -/
def Bad (s : Core) (q : Pid) : Prop :=
  ∀ b, Inbox.replay timeoutVal (s.history q) = some b → (s.proc q).saveQueue ++ (s.proc q).mbox ≠ shown b

theorem Bad.aside (h : Bad s q) (ha : Aside q s s') : Bad s' q := by
  intro b hb
  rw [ha.saveQueue, ha.mbox]
  exact h b (ha.history ▸ hb)

theorem Bad.not_faithful (h : Bad s q) (hq : s.isAlive q) : ¬Faithful s := by
  intro hf
  obtain ⟨b, hreplay, hcontent, -⟩ := hf q hq
  exact h b hreplay hcontent

theorem bad_of_replay {es : List Event} (hlog : s'.log = s.log ++ es)
    (h : Inbox.replay timeoutVal (s.history q) = none) : Bad s' q := by
  intro b hb
  rw [history, hlog, filterMap_append, Inbox.replay_append, ← history, h] at hb
  cases hb

theorem step_answers_eq_none {w : Want Val} {m v : Val} {rest : List Val}
    (hasked : b.asked = some w) (hexp : b.expired = false)
    (hsome : takeFirst w.takes b.queue = some (m, rest)) (hwrong : v ≠ m ∨ w.timed ∧ v = timeoutVal) :
    b.step timeoutVal (.answers v) = none := by
  have hnot : ¬(v = m ∧ ¬(w.timed ∧ v = timeoutVal)) := by tauto
  simp only [Box.step, hasked, hexp, hsome, Bool.false_eq_true, if_false, if_neg hnot]

theorem not_clear {p : Proc} {pred : Option (Val → Bool)} {timed : Bool} (h : p.clear pred timed = false) :
    ∃ m rest, takeFirst (fun m => pred.all (· m)) p.mbox = some (m, rest) ∧
      (m = .nil ∨ timed ∧ m = timeoutVal) := by
  unfold Proc.clear at h
  split at h
  · cases h
  · rename_i m rest htake
    refine ⟨m, rest, htake, ?_⟩
    simp only [decide_eq_false_iff_not] at h
    tauto

/-- What a take gives whose oldest wanted message is not clear: it loses a `nil`, or it takes another
message than that or a foreign `:timeout`. -/
theorem take_not_clear {p : Proc} {pred : Option (Val → Bool)} {timed : Bool} (hpassed : p.Passed pred)
    {m : Val} {rest : List Val} (htake : takeFirst (fun m => pred.all (· m)) p.mbox = some (m, rest))
    (hm : m = .nil ∨ timed ∧ m = timeoutVal) :
    (p.take pred).1 = .nil ∧
      ((p.take pred).2.saveQueue ++ (p.take pred).2.mbox).length < (p.saveQueue ++ p.mbox).length ∨
    (p.take pred).1 ≠ .nil ∧ ((p.take pred).1 ≠ m ∨ timed ∧ (p.take pred).1 = timeoutVal) := by
  by_cases hnil : (p.take pred).1 = .nil
  · have hm' : m = .nil := by
      by_contra hne
      rw [(Proc.take_of_some hpassed htake hne).1] at hnil
      exact hne hnil
    rw [hm'] at htake
    exact .inl ⟨hnil, Proc.take_of_nil htake hnil⟩
  · refine .inr ⟨hnil, ?_⟩
    rcases hm with rfl | ⟨ht, rfl⟩
    · exact .inl hnil
    · exact .inr ⟨ht, (Proc.take_of_some hpassed htake (by decide)).1⟩

theorem bad_of_receive (hb : Mail s pid b) (hfree : b.free) (hp : s.isAlive pid) {w : Want Val}
    (hclear : (s.proc pid).clear w.pred w.timed = false) :
    ((s.proc pid).take w.pred).1 = .nil ∧ (∀ s' : Core, Faithful s' → ∀ g : Proc → Proc,
      s'.log = s.log ++ [Event.asked pid w] → s'.procs = (s.update pid g).procs →
      ¬∀ x, (g x).saveQueue = (x.take w.pred).2.saveQueue ∧ (g x).mbox = (x.take w.pred).2.mbox ∧
        (g x).alive = x.alive) ∨
    ((s.proc pid).take w.pred).1 ≠ .nil ∧ ∀ s' : Core,
      s'.log = s.log ++ [Event.asked pid w, .answered pid ((s.proc pid).take w.pred).1] →
      s'.isAlive pid → ¬Faithful s' := by
  obtain ⟨m, rest, htake, hm⟩ := not_clear hclear
  obtain ⟨hpassed, hfirst⟩ := hb.ready_to_take hfree w
  have hasked (s' : Core) (hlog : s'.log = s.log ++ [Event.asked pid w]) :
      Inbox.replay timeoutVal (s'.history pid) = some { b with asked := some w } := by
    rw [hb.replay_log hlog (x := .asks w) (by simp [Event.happening])]
    simp [Box.step, hfree]
  rcases take_not_clear hpassed htake hm with ⟨hnil, hlen⟩ | ⟨hnil, hwrong⟩
  · refine .inl ⟨hnil, fun s' hf g hlog hprocs hg => ?_⟩
    have hproc : s'.proc pid = g (s.proc pid) := by
      rw [proc, hprocs]
      exact proc_update_self (lt_of_isAlive hp)
    refine Bad.not_faithful (q := pid) (fun b' hb' hcontent => ?_) ?_ hf
    · rw [hasked s' hlog] at hb'
      cases hb'
      rw [hproc, (hg _).1, (hg _).2.1] at hcontent
      rw [hb.content, hcontent] at hlen
      exact Nat.lt_irrefl _ hlen
    · rw [isAlive, hproc, (hg _).2.2]
      exact hp
  · refine .inr ⟨hnil, fun s' hlog => Bad.not_faithful fun b' hb' => ?_⟩
    have hnone := step_answers_eq_none (b := { b with asked := some w }) rfl
      (hb.expired_of_free hfree) (hfirst.symm.trans htake) hwrong
    have hlog' : s'.log = (s.note (.asked pid w)).log ++ [Event.answered pid ((s.proc pid).take w.pred).1] := by
      rw [hlog, note, append_assoc, singleton_append]
    rw [replay_history (hasked (s.note (.asked pid w)) rfl) hlog'
      (x := .answers ((s.proc pid).take w.pred).1) (by simp [Event.happening]), hnone] at hb'
    cases hb'

theorem log_answer (s : Core) (p : Pid) (v : Val) : (s.answer p v).log = s.log ++ [Event.answered p v] := by
  unfold answer resume
  split <;> rfl

theorem isAlive_answer (s : Core) (p q : Pid) (v : Val) : (s.answer p v).isAlive q = s.isAlive q := by
  simp [answer]

theorem clear_of_faithful (hb : Mail s pid b) (hfree : b.free) (hp : s.isAlive pid) {cmd : Command}
    (hf : Faithful (s.handleCmd pid cmd)) : cmd.clear (s.proc pid) := by
  have hanswer (w : Want Val) (hne : ((s.proc pid).take w.pred).1 ≠ .nil) :
      (s.note (.asked pid w)).waitForMessage pid w.pred =
        (((s.note (.asked pid w)).update pid fun p => (p.take w.pred).2).answer pid
          ((s.proc pid).take w.pred).1, true) := waitForMessage_of_ne hne
  have hlog (w : Want Val) (v : Val) :
      (((s.note (.asked pid w)).update pid fun p => (p.take w.pred).2).answer pid v).log =
        s.log ++ [Event.asked pid w, .answered pid v] := by
    rw [log_answer]
    simp [update, note]
  have hlive (w : Want Val) (v : Val) :
      (((s.note (.asked pid w)).update pid fun p => (p.take w.pred).2).answer pid v).isAlive pid := by
    rw [isAlive_answer, isAlive_update _ _ _ fun x => by simp]
    exact hp
  have hplain (w : Want Val) (hf : Faithful ((s.note (.asked pid w)).waitForMessage pid w.pred).1) :
      (s.proc pid).clear w.pred w.timed := by
    by_contra hclear
    rcases bad_of_receive hb hfree hp (Bool.eq_false_iff.2 hclear) with ⟨hnil, hbad⟩ | ⟨hne, hbad⟩
    · rw [waitForMessage_of_nil (s := s.note (.asked pid w)) hnil] at hf
      exact hbad _ hf (fun p => { (p.take w.pred).2 with recvPred := w.pred }) rfl rfl (by simp)
    · rw [hanswer w hne] at hf
      exact hbad _ (hlog w _) (hlive w _) hf
  cases cmd with
  | recv => exact hplain .any hf
  | recvMatch pred => exact hplain (.pick pred) hf
  | recvTimeout ticks =>
    by_contra hclear
    simp only [handleCmd] at hf
    rcases bad_of_receive (w := .within (s.clock + ticks)) hb hfree hp (Bool.eq_false_iff.2 hclear) with
      ⟨hnil, hbad⟩ | ⟨hne, hbad⟩
    · have hblocked := waitForMessage_of_nil (s := s.note (.asked pid (.within (s.clock + ticks)))) hnil
      rw [show Want.pred (.within (s.clock + ticks)) = none from rfl] at hblocked
      rw [hblocked, if_neg Bool.false_ne_true] at hf
      exact hbad _ hf (fun p => { (p.take none).2 with recvPred := none, timerRef := some s.nextRef }) rfl
        (MailsAt.procs_armed s pid) (by simp [Want.pred])
    · have htaken := hanswer (.within (s.clock + ticks)) hne
      rw [show Want.pred (.within (s.clock + ticks)) = none from rfl] at htaken
      rw [htaken, if_pos rfl] at hf
      exact hbad _ (hlog _ _) (hlive _ _) hf
  | _ => rfl

theorem clear_of_turn (h : Mails s) (hpid : pid ∉ s.waiting) (hp : s.isAlive pid) {s₀ : Core}
    {sig : Signal} (hf : Faithful (s₀.turn pid sig)) (hpop : Popped pid s s₀) : sig.clear (s.proc pid) := by
  have hp₀ : s₀.isAlive pid := by rwa [isAlive, proc, hpop.procs]
  have hmails := h.begin hp hpid hpop
  unfold turn at hf
  rw [if_pos hp₀] at hf
  cases sig with
  | command cmd =>
    generalize hs₁ : (s₀.note (.ran pid (s₀.proc pid).resume)).update pid _ = s₁ at hmails hf
    have hproc : s₁.proc pid = { s.proc pid with resume := .nil } := by
      rw [← hs₁, ← proc_congr hpop.procs]
      exact proc_update_self (lt_of_isAlive hp₀)
    have hp₁ : s₁.isAlive pid := by
      rw [isAlive, hproc]
      exact hp
    obtain ⟨b, hb, hfree⟩ := hmails pid (gone_of_isAlive hp₁)
    have hclear := clear_of_faithful hb (hfree rfl) hp₁ hf
    rw [hproc] at hclear
    cases cmd <;> exact hclear
  | _ => rfl

/-! ## Waking -/

theorem aside_wakeOne {acc : Core × List Pid} {p : Pid} (hne : q ≠ p) :
    Aside q acc.1 (wakeOne acc p).1 := by
  unfold wakeOne
  dsimp only
  split_ifs
  · exact .update_ne hne _ _
  · exact (Aside.update_ne hne _ _).trans
      ((Aside.note _ (by simp [Event.reaches, Ne.symm hne])).trans (.resume_ne hne _ _))
  · exact .refl q _

theorem aside_wakeAll {ps : List Pid} (hq : q ∉ ps) (acc : Core × List Pid) :
    Aside q acc.1 (ps.foldl wakeOne acc).1 := by
  induction ps generalizing acc with
  | nil => exact .refl q _
  | cons p rest ih =>
    rw [mem_cons, not_or] at hq
    exact (aside_wakeOne hq.1).trans (ih hq.2 _)

theorem isAlive_wakeAll (ps : List Pid) (acc : Core × List Pid) (q : Pid) :
    (ps.foldl wakeOne acc).1.isAlive q = acc.1.isAlive q := by
  induction ps generalizing acc with
  | nil => rfl
  | cons p rest ih =>
    rw [foldl_cons, ih]
    unfold wakeOne
    dsimp only
    split_ifs
    · exact isAlive_update _ _ _ fun x => by simp [Proc.takeMessage]
    · rw [isAlive_answer]
      exact isAlive_update _ _ _ fun x => by simp [Proc.takeMessage]
    · rfl

theorem bad_of_wakeOne {acc : Core × List Pid} (hb : MailIn waiting timers acc.1 q b) (hq : q ∈ waiting)
    (hlive : acc.1.isAlive q)
    (hclear : (acc.1.proc q).clear (acc.1.proc q).recvPred (acc.1.proc q).timerRef.isSome = false) :
    Bad (wakeOne acc q).1 q := by
  obtain ⟨m, rest, htake, hm⟩ := not_clear hclear
  obtain ⟨w, hw⟩ := Option.isSome_iff_exists.1 (hb.waiting.1 hq)
  have hexp : b.expired = false := by
    by_contra hexp
    rw [Bool.not_eq_false] at hexp
    obtain ⟨hrecv, -, hmbox⟩ := hb.of_expired hexp
    rw [hrecv, hmbox] at htake
    cases htake
    rcases hm with hm | ⟨hm, -⟩
    · cases hm
    · rw [(hb.armed.1 hm).1] at hexp
      cases hexp
  unfold wakeOne
  rw [if_pos hlive]
  rcases take_not_clear hb.passed htake hm with ⟨hnil, hlen⟩ | ⟨hne, hwrong⟩
  · have hnil : (acc.1.proc q).takeMessage.1 = .nil := hnil
    have hproc : (acc.1.update q fun p => p.takeMessage.2).proc q =
        ((acc.1.proc q).take (acc.1.proc q).recvPred).2 := proc_update_self (lt_of_isAlive hlive)
    rw [if_pos hnil]
    intro b' hb' hcontent
    cases hb.replay.symm.trans hb'
    rw [hproc] at hcontent
    rw [hb.content, hcontent] at hlen
    exact Nat.lt_irrefl _ hlen
  · have hne : (acc.1.proc q).takeMessage.1 ≠ .nil := hne
    have hfirst := hb.takeFirst_queue hw hexp
    rw [htake] at hfirst
    rw [← hb.timed_of_armed hw hexp] at hwrong
    have hlog : ((acc.1.update q fun p => { p.takeMessage.2 with timerRef := none }).answer q
        (acc.1.proc q).takeMessage.1).log = acc.1.log ++ [Event.answered q (acc.1.proc q).takeMessage.1] :=
      log_answer ..
    have hreplay := hb.replay_log hlog (x := .answers (acc.1.proc q).takeMessage.1)
      (by simp [Event.happening])
    rw [if_neg hne]
    intro b' hb'
    cases (hb'.symm.trans hreplay).trans (step_answers_eq_none hw hexp hfirst hwrong)

theorem smooth_wakeWaiting (h : Mails s) (hplaced : Placed s) (hf : Faithful s.wakeWaiting) :
    Smooth s .wakeWaiting := by
  intro q hq hlive
  by_contra hclear
  obtain ⟨b, hb⟩ := h q (gone_of_isAlive hlive)
  obtain ⟨before, after, hsplit⟩ := append_of_mem hq
  have hnodup := hplaced.nodup_waiting
  rw [hsplit, nodup_middle, nodup_cons, mem_append, not_or] at hnodup
  have hbefore := aside_wakeAll hnodup.1.1 (s, [])
  set acc := before.foldl wakeOne (s, []) with hacc
  have hlive' : acc.1.isAlive q := by
    rw [hacc, isAlive_wakeAll]
    exact hlive
  have hbad : Bad (wakeOne acc q).1 q := by
    refine bad_of_wakeOne (hb.aside hbefore) hq hlive' ?_
    rw [hbefore.recvPred, hbefore.timerRef, Proc.clear, hbefore.mbox]
    exact Bool.eq_false_iff.2 hclear
  have hend := hbad.aside (aside_wakeAll hnodup.1.2 (wakeOne acc q))
  refine Bad.not_faithful (q := q) ?_ ?_ hf
  · unfold wakeWaiting
    rw [hsplit, foldl_append, foldl_cons]
    exact hend.aside (.of_procs rfl rfl id le_rfl)
  · exact (isAlive_wakeAll s.waiting (s, []) q).trans hlive

/-! ## Timers -/

theorem log_fireTimer (s : Core) (t : Timer) : ∃ es, (s.fireTimer t).log = s.log ++ es := by
  have hsame : ∃ es, s.log = s.log ++ es := ⟨[], (append_nil _).symm⟩
  refine s.fireTimer_cases (P := fun s' => ∃ es, s'.log = s.log ++ es) hsame hsame ?_ ?_ <;>
    exact deliver_cases (P := fun s' => ∃ es, s'.log = s.log ++ es) _ (fun _ => ⟨_, rfl⟩) hsame

theorem fireAll (due : List Timer) (s : Core) :
    (∃ es, (due.foldl (fun s t => if s.raised then s else s.fireTimer t) s).log = s.log ++ es) ∧
    ∀ q, (due.foldl (fun s t => if s.raised then s else s.fireTimer t) s).isAlive q = s.isAlive q := by
  induction due generalizing s with
  | nil => exact ⟨⟨[], (append_nil _).symm⟩, fun q => rfl⟩
  | cons t rest ih =>
    rw [foldl_cons]
    obtain ⟨⟨es, hes⟩, hlive⟩ := ih (if s.raised then s else s.fireTimer t)
    split at hes <;> rename_i hr
    · simp only [hr, if_true] at hlive ⊢
      exact ⟨⟨es, hes⟩, hlive⟩
    · simp only [hr] at hlive ⊢
      obtain ⟨es', hes'⟩ := s.log_fireTimer t
      refine ⟨⟨es' ++ es, ?_⟩, fun q => (hlive q).trans (s.isAlive_fireTimer t)⟩
      rw [← append_assoc, ← hes']
      exact hes

theorem replay_of_late {t : Timer} (hb : MailIn waiting timers s t.pid b) (ht : t ∈ timers)
    (hlive : s.isAlive t.pid) (hmsg : t.msg = timeoutVal)
    (href : (s.proc t.pid).timerRef = some t.ref) (hmbox : (s.proc t.pid).mbox ≠ []) :
    Inbox.replay timeoutVal ((s.fireTimer t).history t.pid) = none := by
  obtain ⟨hasked, hexp, -, hqueue⟩ := hb.asked_of_timer ht href
  have hlog : (s.fireTimer t).log = s.log ++ [Event.delivered t.pid timeoutVal (.deadline s.clock)] := by
    have hlive' : (s.update t.pid fun p => { p with timerRef := none }).isAlive t.pid := by simpa using hlive
    rw [fireTimer, if_pos hmsg, if_neg (Nat.not_le.2 (lt_of_isAlive hlive)), if_pos href, deliver,
      if_pos hlive']
    rfl
  rw [hb.replay_log hlog (x := .expires s.clock) (by simp [Event.happening])]
  rw [hqueue] at hmbox
  simp [Box.step, hasked, hmbox]

theorem punctual_of_faithful {due : List Timer} (h : Firing s due)
    (hf : Faithful (due.foldl (fun s t => if s.raised then s else s.fireTimer t) s)) : Punctual s due := by
  induction due generalizing s with
  | nil => exact trivial
  | cons t rest ih =>
    have hhead : s.raised = false → s.isAlive t.pid → t.msg = timeoutVal →
        (s.proc t.pid).timerRef = some t.ref → (s.proc t.pid).mbox = [] := by
      intro hr hlive hmsg href
      by_contra hmbox
      obtain ⟨b, hb⟩ := h.mails t.pid (gone_of_isAlive hlive)
      have hnone := replay_of_late hb (by simp) hlive hmsg href hmbox
      rw [foldl_cons, if_neg (by simp [hr])] at hf
      obtain ⟨⟨es, hes⟩, hlives⟩ := fireAll rest (s.fireTimer t)
      refine (bad_of_replay hes hnone).not_faithful ?_ hf
      rw [hlives, isAlive_fireTimer]
      exact hlive
    refine ⟨hhead, ih ?_ hf⟩
    split
    · exact h.drop
    · rename_i hr
      exact h.fireTimer (hhead (Bool.eq_false_iff.2 hr))

/-! ## Runs -/

theorem smooth_of_faithful (h : Mails s) (hplaced : Placed s) {st : Step} (hr : s.raised = false)
    (hf : Faithful (s.step st)) : Smooth s st := by
  unfold step at hf
  rw [if_neg (by simp [hr])] at hf
  cases st with
  | runOne pid sig =>
    intro hpid hp
    dsimp only at hf
    rw [if_pos hpid] at hf
    exact clear_of_turn h (hplaced.not_waiting_of_ready hpid) hp hf
      ⟨rfl, rfl, rfl, rfl, fun q hne hq => (mem_erase_of_ne hne).2 hq, rfl⟩
  | completeIo id sig =>
    intro pid hget hp
    dsimp only [completeIo] at hf
    rw [hget] at hf
    exact clear_of_turn h (hplaced.ioPending hget).not_waiting hp hf ⟨rfl, rfl, rfl, rfl, fun q _ hq => hq, rfl⟩
  | wakeWaiting => exact smooth_wakeWaiting h hplaced hf
  | fireTimers => exact punctual_of_faithful h.firing hf
  | _ => exact trivial

theorem placed_start : Placed {} := fun _ => Nat.zero_le _

theorem mails_start : Mails {} := by
  intro q _
  refine ⟨{}, ?_⟩
  have hproc : ({} : Core).proc q = { alive := false } := proc_of_le (Nat.zero_le q)
  constructor
  · rfl
  · exact ⟨nofun, nofun⟩
  · exact nofun
  · rfl
  · rfl
  · exact nofun
  · exact nofun
  · exact nofun
  · rw [hproc]
    simp
  · exact nofun

theorem mails_run {steps : List Step} (h : ∀ before st after, steps = before ++ st :: after →
      Mails (({} : Core).run before) → (({} : Core).run before).raised = false → Smooth (({} : Core).run before) st) :
    ∀ before after, steps = before ++ after → Mails (({} : Core).run before) := by
  intro before
  induction before using List.reverseRecOn with
  | nil => exact fun _ _ => mails_start
  | append_singleton before st ih =>
    intro after hsteps
    have hsteps' : steps = before ++ st :: after := by simpa using hsteps
    rw [run_concat]
    exact (ih _ hsteps').step (placed_start.run before) (h before st after hsteps' (ih _ hsteps'))

-- A deadline and a message of one round: the receive is answered by the message, and the `:timeout`
-- waits for the next one.
example :
    ((({} : Core).run [.spawn, .spawn, .tick, .runOne 0 (.command (.recvTimeout 1)),
      .runOne 1 (.command (.send 0 (.int 7))), .tick, .fireTimers, .wakeWaiting]).proc 0).mbox =
        [timeoutVal] := by
  decide

end Core

end Elle.Process

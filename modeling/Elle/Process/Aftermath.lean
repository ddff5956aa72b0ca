import Elle.Process.Exit

/-!
# The table after an exit

What the deeds of an exit leave in the mailboxes, the log, the names and the tables of I/O and parks.
-/

namespace Elle.Process

open List

namespace Core

variable {s : Core} {p q : Pid} {r : Val}

theorem kill_log (s : Core) (p : Pid) (r : Val) :
    ∃ ids : List Nat, (s.kill p r).log = s.log ++ .died p r :: ids.map .cancelled := by
  obtain ⟨ids, h⟩ := s.kill_eq p r
  exact ⟨ids, h ▸ rfl⟩

theorem tell_log (s : Core) (p : Pid) (m : Val) (made : Maker) :
    (s.tell p m made).log = if s.isAlive p then s.log ++ [Event.delivered p m made] else s.log := by
  have hdeliver : (s.deliver p m made).log =
      if s.isAlive p then s.log ++ [Event.delivered p m made] else s.log := by
    unfold deliver
    split <;> rfl
  cases made <;> exact hdeliver

theorem log_append_deeds (s : Core) (ds : List Deed) :
    ∃ es, (ds.foldl deed s).log = s.log ++ es ∧ ∀ e ∈ es, (∃ p r, e = .died p r) ∨
      (∃ id, e = .cancelled id) ∨ ∃ p m made, e = .delivered p m made ∧ .tell p m made ∈ ds := by
  induction ds generalizing s with
  | nil => exact ⟨[], by simp⟩
  | cons d rest ih =>
    obtain ⟨es, hes, hmem⟩ := ih (s.deed d)
    have hrest : ∀ e ∈ es, (∃ p r, e = .died p r) ∨ (∃ id, e = .cancelled id) ∨
        ∃ p m made, e = .delivered p m made ∧ .tell p m made ∈ d :: rest := by
      intro e he
      rcases hmem e he with h | h | ⟨p, m, made, h, htell⟩
      · exact .inl h
      · exact .inr (.inl h)
      · exact .inr (.inr ⟨p, m, made, h, mem_cons_of_mem _ htell⟩)
    cases d with
    | kill p r =>
      obtain ⟨ids, hids⟩ := s.kill_log p r
      refine ⟨.died p r :: ids.map .cancelled ++ es, ?_, ?_⟩
      · rw [foldl_cons, hes, deed, hids, append_assoc]
      · intro e he
        simp only [cons_append, mem_cons, mem_append, mem_map] at he
        rcases he with rfl | ⟨id, -, rfl⟩ | he
        · exact .inl ⟨p, r, rfl⟩
        · exact .inr (.inl ⟨id, rfl⟩)
        · exact hrest e he
    | tell p m made =>
      rw [foldl_cons, hes, deed, tell_log]
      split
      · refine ⟨.delivered p m made :: es, by simp, ?_⟩
        rintro e (_ | ⟨_, he⟩)
        · exact .inr (.inr ⟨p, m, made, rfl, by simp⟩)
        · exact hrest e he
      · exact ⟨es, rfl, hrest⟩

theorem deaths_deeds (s : Core) (ds : List Deed) :
    (ds.foldl deed s).deaths = s.deaths ++ ds.filterMap Deed.death := by
  induction ds generalizing s with
  | nil => simp
  | cons d rest ih =>
    rw [foldl_cons, ih]
    cases d with
    | kill p r =>
      obtain ⟨ids, h⟩ := s.kill_log p r
      have hids : (ids.map Event.cancelled).filterMap Event.death = [] := by
        simp [filterMap_eq_nil_iff, Event.death]
      simp [deed, deaths, h, hids, Event.death, Deed.death]
    | tell p m made =>
      rw [deed, deaths, tell_log]
      split <;> simp [deaths, filterMap_cons, Event.death, Deed.death]

theorem log_deeds {β : Type*} {g : Event → Option β} (hdied : ∀ p r, g (.died p r) = none)
    (hcancelled : ∀ id, g (.cancelled id) = none)
    (hother : ∀ p m made, p ≠ q → g (.delivered p m made) = none) {ds : List Deed}
    (h : (ds.foldl deed s).isAlive q) :
    (ds.foldl deed s).log.filterMap g =
      s.log.filterMap g ++ (told q ds).filterMap fun e => g (.delivered q e.1 e.2) := by
  induction ds generalizing s with
  | nil => simp
  | cons d rest ih =>
    have halive : s.isAlive q := (isAlive_deeds_iff.1 h).1
    rw [foldl_cons] at h ⊢
    rw [ih h]
    cases d with
    | kill p r =>
      obtain ⟨ids, hlog⟩ := s.kill_log p r
      have hids : (ids.map Event.cancelled).filterMap g = [] := by simp [hcancelled]
      rw [deed, told_kill, hlog, filterMap_append, filterMap_cons, hdied, hids, append_nil]
    | tell p m made =>
      rw [deed, tell_log]
      by_cases hq : p = q
      · subst hq
        rw [if_pos halive, filterMap_append, append_assoc, told_self]
        cases hg : g (.delivered p m made) <;> simp [hg]
      · rw [told_ne hq]
        split
        · simp [hother p m made hq]
        · rfl

theorem deliveries_deeds {ds : List Deed} (h : (ds.foldl deed s).isAlive q) :
    (ds.foldl deed s).deliveries q = s.deliveries q ++ told q ds := by
  refine (log_deeds (fun _ _ => rfl) (fun _ => rfl) (fun p m made hp => if_neg hp) h).trans ?_
  simp [deliveries, Event.deliveredTo]

theorem mbox_deeds {ds : List Deed} (h : (ds.foldl deed s).isAlive q) :
    ((ds.foldl deed s).proc q).mbox = (s.proc q).mbox ++ (told q ds).map Prod.fst := by
  induction ds generalizing s with
  | nil => simp
  | cons d rest ih =>
    have halive : s.isAlive q := (isAlive_deeds_iff.1 h).1
    rw [foldl_cons] at h ⊢
    rw [ih h]
    cases d with
    | kill p r =>
      have : ((s.kill p r).proc q).mbox = (s.proc q).mbox := by
        rw [proc_kill]
        exact proc_update_eq fun _ => rfl
      rw [deed, this, told_kill]
    | tell p m made =>
      have hdeliver : ((s.tell p m made).proc q).mbox = ((s.deliver p m made).proc q).mbox := by
        cases made <;> simp [tell]
      rw [deed, hdeliver, deliver]
      by_cases hq : p = q
      · subst hq
        simp [halive, proc_update_self (lt_of_isAlive halive)]
      · rw [told_ne hq]
        split <;> simp [Ne.symm hq]

section

variable (s : Core)

theorem monitors_tell (p w : Pid) (m : Val) (made : Maker) {ref : Ref} {t : Pid} :
    ((s.tell p m made).proc w).monitors.get? ref = some t ↔
      (s.proc w).monitors.get? ref = some t ∧ ¬(p = w ∧ made = .monitor ref) := by
  have hdeliver : ((s.deliver p m made).proc w).monitors = (s.proc w).monitors := by
    unfold deliver
    split <;> simp
  cases made with
  | monitor ref' =>
    rw [tell, proc_update]
    by_cases hw : w = p
    · subst hw
      by_cases hlt : w < (s.deliver w m (.monitor ref')).procs.length
      · simp [hlt, hdeliver, and_comm, eq_comm]
      · have hnone : (s.proc w).monitors.get? ref = none := by
          rw [← hdeliver, proc_of_le (Nat.not_lt.1 hlt)]
          rfl
        simp [hlt, hdeliver, hnone]
    · simp [hw, Ne.symm hw, hdeliver]
  | _ => simp [tell, hdeliver]

theorem monitors_deeds (ds : List Deed) (w : Pid) {ref : Ref} {t : Pid} :
    ((ds.foldl deed s).proc w).monitors.get? ref = some t ↔
      (s.proc w).monitors.get? ref = some t ∧ ∀ m, .tell w m (.monitor ref) ∉ ds := by
  induction ds generalizing s with
  | nil => simp
  | cons d rest ih =>
    rw [foldl_cons, ih]
    cases d with
    | kill p r =>
      have : ((s.kill p r).proc w).monitors = (s.proc w).monitors := by
        rw [proc_kill]
        exact proc_update_eq fun _ => rfl
      simp [deed, this]
    | tell p m made =>
      rw [deed, monitors_tell]
      simp only [mem_cons, Deed.tell.injEq, not_or, not_and, and_assoc, and_congr_right_iff]
      intro _
      constructor
      · rintro ⟨hne, hrest⟩ m'
        exact ⟨fun hw _ hmade => hne hw.symm hmade.symm, hrest m'⟩
      · intro hall
        exact ⟨fun hp hmade => (hall m).1 hp.symm rfl hmade.symm, fun m' => (hall m').2⟩

theorem tell_parked (s : Core) (p : Pid) (m : Val) (made : Maker) :
    (s.tell p m made).ioPending = s.ioPending ∧ (s.tell p m made).futexParked = s.futexParked := by
  have : (s.deliver p m made).ioPending = s.ioPending ∧ (s.deliver p m made).futexParked = s.futexParked := by
    unfold deliver
    split <;> exact ⟨rfl, rfl⟩
  cases made <;> exact this

theorem ioPending_deeds (ds : List Deed) :
    (ds.foldl deed s).ioPending = s.ioPending.filter fun e => ∀ d ∈ kills ds, e.2.pid ≠ some d := by
  induction ds generalizing s with
  | nil => simp [kills, KeyMap.filter]
  | cons d rest ih =>
    rw [foldl_cons, ih]
    cases d with
    | kill p r =>
      obtain ⟨ids, h⟩ := s.kill_eq p r
      rw [deed, h]
      rw [KeyMap.filter_filter]
      refine KeyMap.filter_congr _ fun e _ => ?_
      rw [Bool.eq_iff_iff]
      simp [show kills (.kill p r :: rest) = p :: kills rest from rfl]
    | tell p m made =>
      rw [deed, (s.tell_parked p m made).1]
      rfl

theorem futexParked_deeds (ds : List Deed) :
    (ds.foldl deed s).futexParked = s.futexParked.filter fun e => e.2.owner ∉ kills ds := by
  induction ds generalizing s with
  | nil => simp [kills]
  | cons d rest ih =>
    rw [foldl_cons, ih]
    cases d with
    | kill p r =>
      obtain ⟨ids, h⟩ := s.kill_eq p r
      rw [deed, h]
      rw [List.filter_filter]
      refine List.filter_congr fun e _ => ?_
      rw [Bool.eq_iff_iff]
      simp [show kills (.kill p r :: rest) = p :: kills rest from rfl, and_comm]
    | tell p m made =>
      rw [deed, (s.tell_parked p m made).2]
      rfl

theorem name_kill (p d : Pid) (r : Val) :
    ((s.kill p r).proc d).name =
      if d = p ∧ (s.proc d).name.truthy then .nil else (s.proc d).name := by
  rw [proc_kill, proc_update]
  by_cases hd : d = p
  · subst hd
    by_cases hlt : d < s.procs.length
    · simp [hlt, Proc.buried]
    · have : (s.proc d).name = .nil := by rw [proc_of_le (Nat.not_lt.1 hlt)]
      simp [hlt, this, Val.truthy]
  · simp [hd]

theorem names_kill (p : Pid) (r : Val) {n : Val} {q : Pid} :
    (s.kill p r).names n = some q ↔ s.names n = some q ∧ ¬(n.truthy ∧ (s.proc p).name = n) := by
  obtain ⟨ids, h⟩ := s.kill_eq p r
  rw [h]
  by_cases hname : (s.proc p).name = n
  · subst hname
    split <;> simp [*]
  · split <;> simp [Function.update_of_ne (Ne.symm hname), hname]

theorem tell_name (p : Pid) (m : Val) (made : Maker) :
    (s.tell p m made).names = s.names ∧ ∀ d, ((s.tell p m made).proc d).name = (s.proc d).name := by
  have hdeliver : (s.deliver p m made).names = s.names ∧
      ∀ d, ((s.deliver p m made).proc d).name = (s.proc d).name := by
    unfold deliver
    split <;> exact ⟨rfl, by simp⟩
  cases made with
  | monitor ref => exact ⟨hdeliver.1, fun d => by simpa [tell] using hdeliver.2 d⟩
  | _ => exact hdeliver

theorem names_deeds (ds : List Deed) {n : Val} {q : Pid} :
    (ds.foldl deed s).names n = some q ↔
      s.names n = some q ∧ ∀ d ∈ kills ds, ¬(n.truthy ∧ (s.proc d).name = n) := by
  induction ds generalizing s with
  | nil => simp [kills]
  | cons d rest ih =>
    rw [foldl_cons, ih]
    cases d with
    | kill p r =>
      rw [deed, names_kill, kills_kill, forall_mem_cons, and_assoc]
      refine and_congr_right fun _ => and_congr_right fun hp => forall₂_congr fun d _ => ?_
      rw [name_kill]
      by_cases hd : d = p ∧ (s.proc d).name.truthy
      · obtain ⟨rfl, htruthy⟩ := hd
        have hne : (s.proc d).name ≠ n := fun he => hp ⟨he ▸ htruthy, he⟩
        have hnil : n.truthy → Val.nil ≠ n := fun hn he => by
          rw [← he] at hn
          cases hn
        simp only [true_and, htruthy, if_true, hne, and_false, not_false_iff, iff_true, not_and]
        exact hnil
      · rw [if_neg hd]
    | tell p m made => simp only [deed, tell_name, kills_tell]

end

end Core

end Elle.Process

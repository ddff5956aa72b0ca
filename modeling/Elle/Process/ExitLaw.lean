import Elle.Process.Silence

/-!
# Whom an exit reaches

`ExitExact` is what an exit owes: the right processes die, each once, the right ones are told, and
nothing of the dead is left. It holds of every exit in every table, but for two things. The reason
`[]` raises in `imposed?`, after the process is marked dead and before anyone is told. And a process
that registered twice leaves its first name behind.
-/

namespace Elle.Process

namespace Core

variable {s : Core} {pid q : Pid} {reason : Val}

/-- The exit of `a` takes `b` with it, when its reason is abnormal. -/
def Drags (s : Core) (a b : Pid) : Prop :=
  b ∈ (s.proc a).links ∧ s.isAlive b ∧ (s.proc b).trapping = false

/-- Who has to die when `pid` exits: `pid`, and for an abnormal reason those reachable from it over
links through live processes that do not trap exits. -/
def Doomed (s : Core) (pid : Pid) (reason : Val) (q : Pid) : Prop :=
  q = pid ∨ normal reason = false ∧ Relation.TransGen s.Drags pid q

/-- What the exit of `pid` owes, with the deaths `died` it causes. -/
structure ExitExact (s : Core) (pid : Pid) (reason : Val) (died : List (Pid × Val)) : Prop where
  completes : (s.processExit pid reason).raised = false
  deaths : (s.processExit pid reason).deaths = s.deaths ++ died
  once : (died.map Prod.fst).Nodup
  root : (pid, reason) ∈ died
  doomed : ∀ q, s.isAlive q → (q ∈ died.map Prod.fst ↔ s.Doomed pid reason q)
  dead : ∀ q, (s.processExit pid reason).isAlive q ↔ s.isAlive q ∧ q ∉ died.map Prod.fst
  /-- What each survivor is told, and in its mailbox. -/
  told : ∀ q, (s.processExit pid reason).isAlive q → ∃ told,
    (s.processExit pid reason).deliveries q = s.deliveries q ++ told ∧
    ((s.processExit pid reason).proc q).mbox = (s.proc q).mbox ++ told.map Prod.fst ∧
    -- of each dead process it is linked to, once, if it traps exits
    (∀ d r, (d, r) ∈ died → q ∈ (s.proc d).links → (s.proc q).trapping →
      told.filter (fun e => e.2 = .exit d) = [(exitMsg d r, .exit d)]) ∧
    -- of each dead process it monitors, once
    (∀ d r ref, (d, r) ∈ died → (s.proc d).monitoredBy.get? ref = some q →
      told.count (downMsg ref d r, .monitor ref) = 1) ∧
    -- and of nothing else
    ∀ e ∈ told, ∃ d r, (d, r) ∈ died ∧
      (e = (exitMsg d r, .exit d) ∧ q ∈ (s.proc d).links ∧ (s.proc q).trapping ∨
        ∃ ref, e = (downMsg ref d r, .monitor ref) ∧ (s.proc d).monitoredBy.get? ref = some q)
  io : ∀ e ∈ (s.processExit pid reason).ioPending.entries, ∀ d ∈ died.map Prod.fst, e.2.pid ≠ some d
  futex : ∀ e ∈ (s.processExit pid reason).futexParked, e.2.owner ∉ died.map Prod.fst
  names : ∀ n d, (s.processExit pid reason).names n = some d → d ∉ died.map Prod.fst

/-- Every name of a process that has to die is the `:name` of one that has to die. -/
def NamesKnown (s : Core) (pid : Pid) (reason : Val) : Prop :=
  ∀ n q, s.names n = some q → s.Doomed pid reason q → s.isAlive q →
    n.truthy ∧ ∃ d, s.isAlive d ∧ s.Doomed pid reason d ∧ (s.proc d).name = n

theorem of_falls {r' : Val} (h : Falls s pid reason q r') :
    q = pid ∧ r' = reason ∨ normal reason = false ∧ Relation.TransGen s.Drags pid q := by
  induction h with
  | root => exact .inl ⟨rfl, rfl⟩
  | link _ hr hq halive htrap ih =>
    rcases ih with ⟨rfl, rfl⟩ | ⟨hnormal, hpath⟩
    · exact .inr ⟨hr, .single ⟨hq, halive, htrap⟩⟩
    · exact .inr ⟨hnormal, hpath.tail ⟨hq, halive, htrap⟩⟩

theorem normal_of_falls {r' : Val} (h : Falls s pid reason q r') (hr : normal reason = false) :
    normal r' = false := by
  cases h with
  | root => exact hr
  | link => rfl

theorem mem_kills_iff {ds : List Deed} (h : Exits s pid reason ds) :
    q ∈ kills ds ↔ s.Doomed pid reason q := by
  constructor
  · intro hq
    obtain ⟨r', hkill⟩ := mem_kills.1 hq
    exact (of_falls (h.falls hkill)).imp And.left id
  · rintro (rfl | ⟨hr, hpath⟩)
    · exact mem_kills.2 ⟨_, h.root⟩
    · induction hpath with
      | single hdrag => exact h.closed h.root hr _ hdrag.1 hdrag.2.1 hdrag.2.2
      | tail _ hdrag ih =>
        obtain ⟨r', hkill⟩ := mem_kills.1 ih
        exact h.closed hkill (normal_of_falls (h.falls hkill) hr) _ hdrag.1 hdrag.2.1 hdrag.2.2

theorem map_death (ds : List Deed) : (ds.filterMap Deed.death).map Prod.fst = kills ds := by
  rw [List.map_filterMap, kills]
  congr 1
  funext d
  cases d <;> rfl

theorem mem_death {ds : List Deed} {d : Pid} {r : Val} :
    (d, r) ∈ ds.filterMap Deed.death ↔ .kill d r ∈ ds := by
  simp only [List.mem_filterMap]
  constructor
  · rintro ⟨_ | _, hmem, he⟩
    · cases he
      exact hmem
    · cases he
  · exact fun hmem => ⟨_, hmem, rfl⟩

theorem exists_told {ds : List Deed} (h : Exits s pid reason ds) (hq : (ds.foldl deed s).isAlive q) :
    (∀ d r, .kill d r ∈ ds → q ∈ (s.proc d).links → (s.proc q).trapping →
      (told q ds).filter (fun e => e.2 = .exit d) = [(exitMsg d r, .exit d)]) ∧
    (∀ d r ref, .kill d r ∈ ds → (s.proc d).monitoredBy.get? ref = some q →
      (told q ds).count (downMsg ref d r, .monitor ref) = 1) ∧
    ∀ e ∈ told q ds, ∃ d r, .kill d r ∈ ds ∧
      (e = (exitMsg d r, .exit d) ∧ q ∈ (s.proc d).links ∧ (s.proc q).trapping ∨
        ∃ ref, e = (downMsg ref d r, .monitor ref) ∧ (s.proc d).monitoredBy.get? ref = some q) := by
  obtain ⟨halive, hnot⟩ : s.isAlive q ∧ q ∉ kills ds := by simpa [isAlive_deeds] using hq
  have hne : q ≠ pid := fun he => hnot (he ▸ mem_kills.2 ⟨_, h.root⟩)
  refine ⟨fun d r hkill hlink htrap => ?_, fun d r ref hkill hget => ?_, fun e he => ?_⟩
  · have hmsg : ∀ m, .tell q m (.exit d) ∈ ds → m = exitMsg d r := by
      intro m htell
      obtain ⟨-, d', r', hkill', ⟨hmade, rfl, -⟩ | ⟨ref, hmade, -⟩⟩ := h.only htell
      · cases hmade
        rw [reason_unique h.nodup hkill hkill']
      · cases hmade
    rw [filter_told hmsg, h.exits hkill q hlink halive htrap hne]
    rfl
  · rw [count_told]
    exact h.downs hkill ref q ((s.proc d).monitoredBy.get?_eq_some.1 hget) halive hnot
  · obtain ⟨-, d, r, hkill, ⟨hmade, hm, hlink, htrap⟩ | ⟨ref, hmade, hm, hwatch⟩⟩ :=
      h.only (mem_told.1 (show (e.1, e.2) ∈ told q ds from he))
    · exact ⟨d, r, hkill, .inl ⟨Prod.ext hm hmade, hlink, htrap⟩⟩
    · exact ⟨d, r, hkill, .inr ⟨ref, Prod.ext hm hmade, (s.proc d).monitoredBy.get?_eq_some.2 hwatch⟩⟩

theorem names_released_iff {ds : List Deed} (h : Exits s pid reason ds) :
    (∀ n d, (ds.foldl deed s).names n = some d → d ∉ kills ds) ↔ s.NamesKnown pid reason := by
  constructor
  · intro hnames n q hn hdoomed _
    have hq : q ∈ kills ds := (mem_kills_iff h).2 hdoomed
    have hgone : ¬(ds.foldl deed s).names n = some q := fun he => hnames n q he hq
    rw [names_deeds] at hgone
    push Not at hgone
    obtain ⟨d, hd, htruthy, hname⟩ := hgone hn
    exact ⟨htruthy, d, h.alive d hd, (mem_kills_iff h).1 hd, hname⟩
  · intro hknown n d hn hd
    obtain ⟨hn, hnot⟩ := (names_deeds s ds).1 hn
    obtain ⟨htruthy, d', -, hdoomed, hname⟩ := hknown n d hn ((mem_kills_iff h).1 hd) (h.alive d hd)
    exact hnot d' ((mem_kills_iff h).2 hdoomed) ⟨htruthy, hname⟩

/-- An exit is exact when its reason is not the empty array and the names of the dead are known. -/
theorem exitExact_iff (hp : s.isAlive pid) (hr : s.raised = false) :
    (∃ died, ExitExact s pid reason died) ↔ reason ≠ .array [] ∧ s.NamesKnown pid reason := by
  constructor
  · rintro ⟨died, h⟩
    have hreason : imposed reason ≠ none := by
      intro hnone
      have := h.completes
      simp [raised_processExit, hp, hnone] at this
    refine ⟨fun he => hreason (imposed_eq_none.2 he), ?_⟩
    obtain ⟨ds, heq, hds⟩ := processExit_eq hp hreason
    refine (names_released_iff hds).1 fun n d hn hd => h.names n d (heq ▸ hn) ?_
    exact (h.doomed d (hds.alive d hd)).2 ((mem_kills_iff hds).1 hd)
  · rintro ⟨hreason, hknown⟩
    have himposed : imposed reason ≠ none := fun hnone => hreason (imposed_eq_none.1 hnone)
    obtain ⟨ds, heq, hds⟩ := processExit_eq hp himposed
    have hmap := map_death ds
    refine ⟨ds.filterMap Deed.death, ?_⟩
    constructor
    · rw [heq, (s.sameRest_deeds ds).raised, hr]
    · rw [heq, deaths_deeds]
    · rw [hmap]
      exact hds.nodup
    · exact mem_death.2 hds.root
    · intro q _
      rw [hmap]
      exact mem_kills_iff hds
    · intro q
      rw [heq, hmap]
      simp [isAlive_deeds]
    · intro q hq
      rw [heq] at hq ⊢
      simp only [mem_death]
      exact ⟨told q ds, deliveries_deeds hq, mbox_deeds hq, exists_told hds hq⟩
    · rw [heq, hmap, ioPending_deeds]
      intro e he
      simpa using (List.mem_filter.1 he).2
    · rw [heq, hmap, futexParked_deeds]
      intro e he
      simpa using (List.mem_filter.1 he).2
    · rw [heq, hmap]
      exact (names_released_iff hds).2 hknown

end Core

end Elle.Process

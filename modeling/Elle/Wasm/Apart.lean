import Elle.Wasm.Locals

/-!
# Registers and local slots stay apart

A closure always reads what it last wrote to a register or a local slot. The entry function does so when its
local slots, which are registers of the same number, do not disturb the registers and one another.
-/

namespace Elle.Wasm

open Cells List

/-! ## Ranges -/

namespace Frame

variable {fr : Frame}

/-- The slot of the name is below the number of slots of its kind. -/
def InRange (fr : Frame) : Name → Prop
  | .reg r => fr.slotOf r < fr.numRegs
  | .slot k => if fr.isClosure then k < fr.numStackLocals else fr.slotOf k < fr.numRegs

theorem InRange.inDeclared {x : Name} (h : fr.InRange x) : fr.InDeclared x := by
  cases x with
  | reg r =>
    simp only [InRange, InDeclared, tag, pay, tagLocal, payLocal, declared] at h ⊢
    omega
  | slot k =>
    simp only [InRange, InDeclared, tag, pay, tagLocal, payLocal, localSlotTag, localSlotPay,
      declared] at h ⊢
    split at h <;> simp_all <;> omega

theorem InRange.apart {x y : Name} (hx : fr.InRange x) (hy : fr.InRange y) :
    fr.tag x ≠ fr.pay y ∧ (fr.tag x = fr.tag y ↔ fr.pay x = fr.pay y) := by
  cases hc : fr.isClosure <;> cases x <;> cases y <;>
    simp only [InRange, tag, pay, tagLocal, payLocal, localSlotTag, localSlotPay, hc,
      Bool.false_eq_true, if_false, if_true] at hx hy ⊢ <;> omega

end Frame

section

variable {W : Type} {fr : Frame} {m : Nat → W}

theorem get_set_same {x y : Name} (hx : fr.InRange x) (hy : fr.InRange y) (h : fr.tag x = fr.tag y)
    (v : W × W) : get fr (set fr m y v) x = v := by
  have hxy := hx.apart hy
  have hpay := hxy.2.mp h
  simp [get, set, localSet, hpay, h, (hy.apart hy).1]

theorem get_set_other {x y : Name} (hx : fr.InRange x) (hy : fr.InRange y) (h : fr.tag x ≠ fr.tag y)
    (v : W × W) : get fr (set fr m y v) x = get fr m x := by
  have hxy := hx.apart hy
  have hpay : fr.pay x ≠ fr.pay y := fun heq => h (hxy.2.mpr heq)
  simp [get, set, localSet, hpay, h, hxy.1, (hy.apart hx).1.symm]

theorem copy_eq {src dst : Name} (hsrc : fr.InRange src) (hdst : fr.InRange dst) :
    copy fr m src dst =
      (set fr m dst (get fr m src), [.write dst (get fr m src), .read src (get fr m src)]) := by
  have hpay : localSet m (fr.tag dst) (m (fr.tag src)) (fr.pay src) = m (fr.pay src) :=
    if_neg (hdst.apart hsrc).1.symm
  simp only [copy, hpay]
  rfl

theorem exec_eq {i : Instr} (hreads : ∀ x ∈ i.reads, fr.InRange x)
    (hwrites : ∀ x, i.writes = some x → fr.InRange x) (out : W × W) :
    ∃ v, (exec fr m out i).1 = (i.writes.elim m fun x => set fr m x v) ∧
      (exec fr m out i).2 = (i.writes.elim [] fun x => [Event.write x v]) ++
        i.reads.map fun x => .read x (get fr m x) := by
  cases i with
  | loadLocal dst slot | storeLocal slot src =>
    rw [exec, copy_eq (hreads _ mem_cons_self) (hwrites _ rfl)]
    exact ⟨_, rfl, rfl⟩
  | other dst args =>
    have hmap : (args.map fun r => Event.read (Name.reg r) (get fr m (.reg r))) =
        (args.map Name.reg).map fun x => .read x (get fr m x) := by
      rw [List.map_map]
      rfl
    cases dst with
    | none => exact ⟨out, rfl, hmap⟩
    | some r => exact ⟨out, rfl, congrArg _ hmap⟩

theorem eq_read_of_mem {xs : List Name} {e : Event Name (W × W)}
    (h : e ∈ xs.map fun x => Event.read x (get fr m x)) : ∃ x v, e = .read x v := by
  obtain ⟨x, _, rfl⟩ := List.mem_map.mp h
  exact ⟨x, _, rfl⟩

end

/-! ## Runs -/

def AllInRange (f : Func) (role : Role) : Prop :=
  ∀ p i, f.instrAt p = some i → ∀ x, x ∈ i.reads ∨ i.writes = some x → (role.frame f).InRange x

theorem Instr.writes_reg {i : Instr} {r : Reg} : i.writes = some (.reg r) ↔ i.dst = some r := by
  cases i <;> simp [Instr.writes, Instr.dst]

theorem Instr.reads_reg {i : Instr} {r : Reg} : .reg r ∈ i.reads ↔ r ∈ i.uses := by
  cases i <;> simp [Instr.reads, Instr.uses]

theorem Role.successors_subset {f : Func} (role : Role) (t : Terminator) :
    ∀ l ∈ role.successors f t, l ∈ t.successors := by
  unfold Role.successors
  split
  · rintro _ ⟨⟩
  · split
    · split
      · exact fun _ h => h
      · rintro _ ⟨⟩
    · exact fun _ h => h

namespace Run

variable {W : Type} {f : Func} {role : Role} {ps : List Pos} {m : Nat → W} {h : History Name (W × W)}

theorem step_eq (hrange : AllInRange f role) {q : Pos} {i : Instr} (hi : f.instrAt q = some i)
    (out : W × W) :
    ∃ v, (exec (role.frame f) m out i).1 = (i.writes.elim m fun x => set (role.frame f) m x v) ∧
      (exec (role.frame f) m out i).2 = (i.writes.elim [] fun x => [Event.write x v]) ++
        i.reads.map fun x => .read x (get (role.frame f) m x) :=
  exec_eq (fun x hx => hrange q i hi x (.inl hx)) (fun x hx => hrange q i hi x (.inr hx)) out

theorem holds (hrange : AllInRange f role) (run : Run f role ps m h) {x : Name}
    (hx : (role.frame f).InRange x) {y : Name} {v : W × W}
    (hlast : last (fun y => (role.frame f).tag y = (role.frame f).tag x) h = some (y, v)) :
    get (role.frame f) m x = v := by
  induction run with
  | start => cases hlast
  | @step ps m h run q hw i hi out ih =>
    obtain ⟨w, hm, hh⟩ := step_eq (m := m) hrange hi out
    rw [hh, append_assoc] at hlast
    rw [hm]
    cases hwrites : i.writes with
    | none =>
      rw [hwrites] at hlast
      rw [Option.elim_none, nil_append, last_append_reads fun _ => eq_read_of_mem] at hlast
      exact ih hlast
    | some z =>
      rw [hwrites] at hlast
      rw [Option.elim_some, singleton_append, last, last_append_reads fun _ => eq_read_of_mem] at hlast
      have hz := hrange q i hi z (.inr hwrites)
      split at hlast
      · next htag =>
        cases hlast
        exact get_set_same hx hz htag.symm _
      · next htag =>
        rw [Option.elim_some, get_set_other hx hz fun heq => htag heq.symm]
        exact ih hlast

/-- A read was made by an instruction of the run, on the locals of the run up to it. -/
theorem origin (hrange : AllInRange f role) (run : Run f role ps m h) :
    ∀ {newer x v older}, h = newer ++ .read x v :: older →
      ∃ (q : Pos) (i : Instr) (ps' : List Pos) (m' : Nat → W) (h' : History Name (W × W)),
        Run f role ps' m' h' ∧ f.Walk (role.successors f) (q :: ps') ∧ f.instrAt q = some i ∧ x ∈ i.reads ∧
        v = get (role.frame f) m' x ∧
        ∀ (p : Name → Prop) [DecidablePred p], last p older = last p h' := by
  induction run with
  | start =>
    intro newer x v older hsplit
    exact absurd hsplit (by simp)
  | @step ps m h run q hw i hi out ih =>
    intro newer x v older hsplit
    obtain ⟨w, _, hh⟩ := step_eq (m := m) hrange hi out
    rcases List.append_eq_append_iff.mp hsplit with ⟨mid, _, hmid⟩ | ⟨mid, hmid, hrest⟩
    · exact ih hmid
    · cases mid with
      | nil =>
        exact @ih [] x v older hrest.symm
      | cons e mid =>
        obtain ⟨rfl, rfl⟩ := List.cons.inj hrest
        -- the read is one of the instruction's, and after it only reads
        have hreads : ∃ newer', (i.reads.map fun x => Event.read x (get (role.frame f) m x)) =
            newer' ++ .read x v :: mid := by
          rw [hh] at hmid
          cases hwrites : i.writes with
          | none =>
            rw [hwrites] at hmid
            exact ⟨newer, hmid⟩
          | some z =>
            rw [hwrites] at hmid
            cases newer with
            | nil => cases (List.cons.inj hmid).1
            | cons e newer => exact ⟨newer, (List.cons.inj hmid).2⟩
        obtain ⟨newer', hreads⟩ := hreads
        have hmem : Event.read x v ∈ i.reads.map fun x => Event.read x (get (role.frame f) m x) := by
          rw [hreads]
          exact mem_append_right _ mem_cons_self
        obtain ⟨x', hx', heq⟩ := List.mem_map.mp hmem
        cases heq
        have htail : ∀ e ∈ mid, e ∈ i.reads.map fun x => Event.read x (get (role.frame f) m x) := by
          intro e he
          rw [hreads]
          exact mem_append_right _ (mem_cons_of_mem _ he)
        exact ⟨q, i, ps, m, h, run, hw, hi, hx', rfl, fun p _ =>
          last_append_reads fun e he => eq_read_of_mem (htail e he)⟩

theorem last_reg (hrange : AllInRange f role) {r : Reg} {p : Pos} (hp : f.Defines p r) {older : List Pos} :
    ∀ (newer : List Pos), (∀ p' ∈ newer, ∀ r', f.Defines p' r' →
        (role.frame f).slotOf r' ≠ (role.frame f).slotOf r) →
      ∀ {m : Nat → W} {h : History Name (W × W)}, Run f role (newer ++ p :: older) m h →
        last (fun y => (role.frame f).tag y = (role.frame f).tag (.reg r)) h =
          last (fun y => y = .reg r ∨ (role.frame f).Shares (.reg r) y) h
  | [], _, _, _, .step (m := m) (i := i) run hw hi out => by
    obtain ⟨v, _, hh⟩ := step_eq (m := m) hrange hi out
    obtain ⟨i', hi', hdst⟩ := hp
    cases hi.symm.trans hi'
    rw [hh, Instr.writes_reg.mpr hdst, append_assoc, Option.elim_some, singleton_append,
      last, last, if_pos rfl, if_pos (.inl rfl)]
  | p' :: newer, hnewer, _, _, .step (m := m) (i := i) run hw hi out => by
    obtain ⟨v, _, hh⟩ := step_eq (m := m) hrange hi out
    have htail := last_reg hrange hp newer (fun p'' hp'' => hnewer p'' (mem_cons_of_mem _ hp'')) run
    rw [hh, append_assoc]
    cases hwrites : i.writes with
    | none =>
      rw [Option.elim_none, nil_append, last_append_reads fun _ => eq_read_of_mem,
        last_append_reads fun _ => eq_read_of_mem, htail]
    | some z =>
      rw [Option.elim_some, singleton_append, last, last,
        last_append_reads fun _ => eq_read_of_mem, last_append_reads fun _ => eq_read_of_mem, htail]
      cases z with
      | slot k =>
        have hiff : (role.frame f).tag (.slot k) = (role.frame f).tag (.reg r) ↔
            (Name.slot k = .reg r ∨ (role.frame f).Shares (.reg r) (.slot k)) :=
          ⟨fun h => .inr h.symm, fun h => h.elim (fun h => by cases h) Eq.symm⟩
        simp only [hiff]
      | reg r' =>
        have hne := hnewer p' mem_cons_self r' ⟨i, hi, Instr.writes_reg.mp hwrites⟩
        have htag : (role.frame f).tag (.reg r') ≠ (role.frame f).tag (.reg r) :=
          fun htag => hne (Nat.add_left_cancel htag)
        rw [if_neg htag, if_neg]
        rintro (heq | hshares)
        · cases heq
          exact hne rfl
        · exact hshares

/-- At a read the last write to the locals of a name is one to it or to a name that shares with it. -/
theorem last_shared (hrange : AllInRange f role) {a : RegAlloc} (ha : Allocated f a)
    (hslots : (role.frame f).regToSlot = a.regToSlot) (hf : f.DefinedFirst) (run : Run f role ps m h)
    {q : Pos} (hw : f.Walk (role.successors f) (q :: ps)) {i : Instr} (hi : f.instrAt q = some i) {x : Name}
    (hx : x ∈ i.reads) :
    last (fun y => (role.frame f).tag y = (role.frame f).tag x) h =
      last (fun y => y = x ∨ (role.frame f).Shares x y) h := by
  cases x with
  | slot k =>
    refine last_congr fun y _ _ => ?_
    cases y with
    | reg r => exact ⟨fun h => .inr h.symm, fun h => h.elim (fun h => by cases h) Eq.symm⟩
    | slot k' =>
      refine ⟨fun h => ?_, fun h => h.elim (fun h => by rw [h]) fun h => h.2.symm⟩
      by_cases hk : k' = k
      · exact .inl (congrArg Name.slot hk)
      · exact .inr ⟨fun h => hk h.symm, h.symm⟩
  | reg r =>
    have huse : f.Uses q r := ⟨i, hi, Instr.reads_reg.mp hx⟩
    obtain ⟨slot, hslot⟩ := ha.named q r (.inr huse)
    obtain ⟨newer, p, older, rfl, hp, hnewer⟩ := ha.walk hf (hw.mono role.successors_subset) huse hslot
    refine last_reg hrange hp newer (fun p' hp' r' hdef heq => ?_) run
    obtain ⟨slot', hslot'⟩ := ha.named p' r' (.inl hdef)
    rw [Frame.slotOf, Frame.slotOf, hslots, hslot, hslot', Option.getD_some, Option.getD_some] at heq
    exact hnewer p' hp' r' hdef (heq ▸ hslot')

/-- A run reads what was last written when the names that share locals do not disturb one another. -/
theorem faithful_iff (hrange : AllInRange f role) {a : RegAlloc} (ha : Allocated f a)
    (hslots : (role.frame f).regToSlot = a.regToSlot) (hf : f.DefinedFirst) (run : Run f role ps m h) :
    Faithful h ↔ Undisturbed (role.frame f).Shares h := by
  -- what a read gives is the last write to the name and to those that share with it
  have hread : ∀ {newer x v older}, h = newer ++ .read x v :: older →
      ∀ {z u}, last (fun z => z = x ∨ (role.frame f).Shares x z) older = some (z, u) → v = u := by
    intro newer x v older hsplit z u hlast
    obtain ⟨q, i, ps', m', h', run', hw, hi, hx, rfl, holder⟩ := run.origin hrange hsplit
    rw [holder, ← last_shared hrange ha hslots hf run' hw hi hx] at hlast
    exact run'.holds hrange (hrange q i hi x (.inl hx)) hlast
  constructor
  · intro hfaithful newer x v older hsplit y w hown z u hshared
    rw [← hread hsplit hshared, hfaithful newer x v older hsplit y w hown]
  · intro hundisturbed newer x v older hsplit y w hown
    have hwider := last_isSome_of_imp (q := fun z => z = x ∨ (role.frame f).Shares x z)
      (fun _ => Or.inl) (Option.isSome_iff_exists.mpr ⟨_, hown⟩)
    obtain ⟨⟨z, u⟩, hshared⟩ := Option.isSome_iff_exists.mp hwider
    rw [hread hsplit hshared, hundisturbed newer x v older hsplit y w hown z u hshared]

theorem write_inRange (hrange : AllInRange f role) (run : Run f role ps m h) {x : Name} {v : W × W}
    (hmem : .write x v ∈ h) : (role.frame f).InRange x := by
  induction run with
  | start => cases hmem
  | @step ps m h run q hw i hi out ih =>
    obtain ⟨w, _, hh⟩ := step_eq (m := m) hrange hi out
    rw [hh] at hmem
    rcases List.mem_append.mp hmem with hmem | hmem
    · rcases List.mem_append.mp hmem with hmem | hmem
      · cases hwrites : i.writes with
        | none =>
          rw [hwrites] at hmem
          cases hmem
        | some z =>
          rw [hwrites] at hmem
          cases List.mem_singleton.mp hmem
          exact hrange q i hi x (.inr hwrites)
      · obtain ⟨y, w', heq⟩ := eq_read_of_mem hmem
        cases heq
    · exact ih hmem

end Run

/-! ## Closures and the entry function -/

section

variable {f : Func} {role : Role}

theorem allInRange {a : RegAlloc} (ha : Allocated f a)
    (hslots : (role.frame f).regToSlot = a.regToSlot) (hnum : (role.frame f).numRegs = a.maxSlots)
    (hslot : ∀ p i k, f.instrAt p = some i → i.slot = some k → (role.frame f).InRange (.slot k)) :
    AllInRange f role := by
  have hreg : ∀ p r, f.Defines p r ∨ f.Uses p r → (role.frame f).InRange (.reg r) := by
    intro p r h
    obtain ⟨s, hs⟩ := ha.named p r h
    rw [Frame.InRange, Frame.slotOf, hslots, hs, hnum]
    exact ha.lt r s hs
  intro p i hi x hx
  cases x with
  | reg r =>
    refine hreg p r ?_
    rcases hx with hx | hx
    · exact .inr ⟨i, hi, Instr.reads_reg.mp hx⟩
    · exact .inl ⟨i, hi, Instr.writes_reg.mp hx⟩
  | slot k =>
    refine hslot p i k hi ?_
    cases i <;> simp_all [Instr.reads, Instr.writes, Instr.slot]

theorem not_shares {fr : Frame} (hc : fr.isClosure) {x y : Name} (hx : fr.InRange x)
    (hy : fr.InRange y) : ¬fr.Shares x y := by
  cases x <;> cases y <;>
    simp only [Frame.Shares, Frame.InRange, Frame.tag, Frame.tagLocal, Frame.localSlotTag, hc,
      if_true, not_false_eq_true] at hx hy ⊢ <;> omega

theorem closure_undisturbed {W : Type} {ps : List Pos} {m : Nat → W} {h : History Name (W × W)}
    {maySuspend : Bool} (hrange : AllInRange f (.closure maySuspend))
    (run : Run f (.closure maySuspend) ps m h) :
    Undisturbed ((Role.closure maySuspend).frame f).Shares h := by
  intro newer x v older hsplit y w hown z u hshared
  obtain ⟨q, i, _, _, _, _, _, hi, hx, _, _⟩ := run.origin hrange hsplit
  have hrx := hrange q i hi x (.inl hx)
  have hsame : last (fun z => z = x ∨ ((Role.closure maySuspend).frame f).Shares x z) older =
      last (· = x) older := by
    refine last_congr fun z w hz => ⟨fun h => h.resolve_right (not_shares rfl hrx ?_), .inl⟩
    refine run.write_inRange hrange (v := w) ?_
    rw [hsplit]
    exact mem_append_right _ (mem_cons_of_mem _ hz)
  rw [hsame, hown] at hshared
  cases hshared
  rfl

end

/-! ## Straight-line functions -/

/-- A function of one block that returns a register. -/
def straight (instrs : List Instr) (result : Reg) (numRegs numLocals : Nat) : Func :=
  ⟨[⟨0, instrs, .ret result⟩], 0, numRegs, numLocals⟩

/-- The instructions of its block, the return among them. -/
abbrev straightBody (instrs : List Instr) (result : Reg) : List Instr := instrs ++ [Instr.other none [result]]

section

variable {instrs : List Instr} {result : Reg} {numRegs numLocals : Nat}

theorem straight_instrAt {p : Pos} {i : Instr}
    (h : (straight instrs result numRegs numLocals).instrAt p = some i) :
    p.block = 0 ∧ (straightBody instrs result)[p.instr]? = some i := by
  obtain ⟨_ | b, j⟩ := p
  · exact ⟨rfl, h⟩
  · cases h

theorem straight_wellFormed
    (h : ∀ i ∈ straightBody instrs result, (∀ r ∈ i.dst, r < numRegs) ∧ (∀ r ∈ i.uses, r < numRegs) ∧
      ∀ k ∈ i.slot, k < numLocals) : (straight instrs result numRegs numLocals).WellFormed where
  labels := nodup_singleton 0
  defines_lt := by
    rintro p r ⟨i, hi, hr⟩
    exact (h i (mem_of_getElem? (straight_instrAt hi).2)).1 r hr
  uses_lt := by
    rintro p r ⟨i, hi, hr⟩
    exact (h i (mem_of_getElem? (straight_instrAt hi).2)).2.1 r hr
  slot_lt p i k hi hk := (h i (mem_of_getElem? (straight_instrAt hi).2)).2.2 k hk

theorem straight_definedFirst
    (hone : ∀ d < instrs.length + 1, ∀ d' < instrs.length + 1,
      ((straightBody instrs result)[d]?.bind Instr.dst).isSome →
      (straightBody instrs result)[d]?.bind Instr.dst =
        (straightBody instrs result)[d']?.bind Instr.dst → d = d')
    (hfirst : ∀ j < instrs.length + 1, ∀ r ∈ ((straightBody instrs result)[j]?.map Instr.uses).getD [],
      ∃ d < j, (straightBody instrs result)[d]?.bind Instr.dst = some r) :
    (straight instrs result numRegs numLocals).DefinedFirst := by
  have hlt : ∀ {j i}, (straightBody instrs result)[j]? = some i → j < instrs.length + 1 := by
    intro j i hi
    have := (List.getElem?_eq_some_iff.mp hi).1
    simpa using this
  constructor
  · rintro ⟨b, d⟩ ⟨b', d'⟩ r ⟨i, hi, hdst⟩ ⟨i', hi', hdst'⟩
    obtain ⟨rfl, hi⟩ := straight_instrAt hi
    obtain ⟨rfl, hi'⟩ := straight_instrAt hi'
    have heq := hone d (hlt hi) d' (hlt hi') (by simp [hi, hdst]) (by simp [hi, hi', hdst, hdst'])
    rw [heq]
  · rintro ⟨b, j⟩ ps r hw ⟨i, hi, hr⟩
    obtain ⟨rfl, hi⟩ := straight_instrAt hi
    obtain ⟨d, hd, hdef⟩ := hfirst j (hlt hi) r (by simpa [hi] using hr)
    obtain ⟨newer, older, rfl, _⟩ := hw.through hd
    refine ⟨⟨0, d⟩, mem_append_right _ mem_cons_self, ?_⟩
    obtain ⟨i', hi', hdst⟩ := Option.bind_eq_some_iff.mp hdef
    exact ⟨i', hi', hdst⟩

/-- The locals and the history after the first `n` instructions, the `j`th giving `outs j`. -/
def straightState (fr : Frame) (body : List Instr) (outs : Nat → Nat × Nat) :
    Nat → (Nat → Nat) × History Name (Nat × Nat)
  | 0 => (fun _ => 0, [])
  | n + 1 =>
    let s := straightState fr body outs n
    match body[n]? with
    | some i => ((exec fr s.1 (outs n) i).1, (exec fr s.1 (outs n) i).2 ++ s.2)
    | none => s

variable (instrs result numRegs numLocals)

theorem straight_walk (successors : Terminator → List Label) :
    ∀ n, n ≤ instrs.length → (straight instrs result numRegs numLocals).Walk successors
      ((List.range (n + 1)).reverse.map fun j => ⟨0, j⟩)
  | 0, _ => @Func.Walk.start _ _ 0 ⟨0, instrs, .ret result⟩ rfl rfl
  | n + 1, hn => by
    have hwalk := straight_walk successors n (Nat.le_of_succ_le hn)
    rw [range_succ, reverse_concat, map_cons] at hwalk ⊢
    rw [range_succ, reverse_concat, map_cons]
    exact .next hwalk (@Func.Next.step _ _ 0 ⟨0, instrs, .ret result⟩ n rfl hn)

theorem straight_run (role : Role) (outs : Nat → Nat × Nat) :
    ∀ n, n ≤ instrs.length + 1 →
      Run (straight instrs result numRegs numLocals) role ((List.range n).reverse.map fun j => ⟨0, j⟩)
        (straightState (role.frame (straight instrs result numRegs numLocals)) (straightBody instrs result) outs n).1
        (straightState (role.frame (straight instrs result numRegs numLocals)) (straightBody instrs result) outs n).2
  | 0, _ => .start _
  | n + 1, hn => by
    have hrun := straight_run role outs n (Nat.le_of_succ_le hn)
    have hwalk := straight_walk instrs result numRegs numLocals
      (role.successors (straight instrs result numRegs numLocals)) n (Nat.le_of_succ_le_succ hn)
    obtain ⟨i, hi⟩ : ∃ i, (straightBody instrs result)[n]? = some i :=
      ⟨_, getElem?_eq_getElem (by rw [length_append]; exact hn)⟩
    rw [range_succ, reverse_concat, map_cons] at hwalk ⊢
    rw [straightState, hi]
    exact .step hrun hwalk hi (outs n)

end

/-- The local slot 0 is the register 0, which the function does not have: it has the locals of register 1. -/
def unnamedSlot : Func := straight [.other (some 1) [], .other (some 2) [], .storeLocal 0 2] 1 3 1

/-- The local slot 0 is the register 0. -/
def sharedSlot : Func := straight [.other (some 0) [], .other (some 1) [], .storeLocal 0 1] 0 2 1

/-- On every walk to a use, what the register was given last is still in its slot, and the instruction that uses it
gives its own result another one. -/
theorem allocate_sound (f : Func) (hwf : f.WellFormed) (hf : f.DefinedFirst) (pinnedRegs : Nat) {q : Pos} {ps : List Pos}
    (hw : f.Walk Terminator.successors (q :: ps)) {r : Reg} (hu : f.Uses q r) :
    ∃ slot, (f.allocate pinnedRegs).regToSlot.lookup r = some slot ∧ slot < (f.allocate pinnedRegs).maxSlots ∧
      (∃ newer p older, ps = newer ++ p :: older ∧ f.Defines p r ∧
        ∀ p' ∈ newer, ∀ r', f.Defines p' r' → (f.allocate pinnedRegs).regToSlot.lookup r' ≠ some slot) ∧
      ∀ r', f.Defines q r' → (f.allocate pinnedRegs).regToSlot.lookup r' ≠ some slot := by
  have ha := allocate_allocated hwf hf pinnedRegs
  obtain ⟨slot, hslot⟩ := ha.named q r (.inr hu)
  refine ⟨slot, hslot, ha.lt r slot hslot, ha.walk hf hw hu hslot, fun r' hd hslot' => ?_⟩
  exact ha.result_apart hf hw hu hd (hslot.trans hslot'.symm)

theorem allocate_sound_straight : ∃ slot, (unnamedSlot.allocate 0).regToSlot.lookup 2 = some slot ∧
    slot < (unnamedSlot.allocate 0).maxSlots := by
  obtain ⟨slot, hslot, hlt, -⟩ := allocate_sound unnamedSlot (straight_wellFormed (by decide))
    (straight_definedFirst (by decide) (by decide)) 0 (straight_walk _ _ _ _ _ 2 (by decide)) (r := 2) ⟨_, rfl, by decide⟩
  exact ⟨slot, hslot, hlt⟩

end Elle.Wasm

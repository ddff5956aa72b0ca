import Elle.Wasm.Regalloc

/-!
# The pool within a block

While a block is scanned, the free slots and those of the active registers are apart, a register that is
still to be used is active, and a slot taken twice was given back by the last use of its first register before
its second was defined.
-/

namespace Elle.Wasm

open List

def DefinedAt (instrs : List Instr) (d : Nat) (r : Reg) : Prop := ∃ i, instrs[d]? = some i ∧ i.dst = some r

section

variable (crossBlockCount : Nat) (locals : List Reg) (body instrs : List Instr) (base : Nat)
  (before : List (Reg × Nat))

/-- The scan has passed the definitions below `n` and freed what is used last below `u`. -/
structure ScanInv (n u : Nat) (s : Scan) : Prop where
  base_le : base ≤ s.poolHighWater
  nodup : (s.freePool ++ s.active.map Prod.snd).Nodup
  range : ∀ slot ∈ s.freePool ++ s.active.map Prod.snd, base ≤ slot ∧ slot < s.poolHighWater
  kept : ∀ r, (∀ d < n, DefinedAt instrs d r → r ∉ locals) → s.regToSlot.lookup r = before.lookup r
  assigned : ∀ r d, r ∈ locals → d < n → DefinedAt instrs d r →
    ∃ slot, s.regToSlot.lookup r = some (crossBlockCount + slot) ∧ base ≤ slot ∧ slot < s.poolHighWater
  active_defined : ∀ e ∈ s.active, ∃ d < n, DefinedAt instrs d e.1
  live : ∀ r d slot, r ∈ locals → d < n → DefinedAt instrs d r →
    s.regToSlot.lookup r = some (crossBlockCount + slot) →
    (∀ l, lastUse body r = some l → u ≤ l) → (r, slot) ∈ s.active
  apart : ∀ r r' d d' slot, r ∈ locals → r' ∈ locals → d < d' → d' < n → DefinedAt instrs d r →
    DefinedAt instrs d' r' → s.regToSlot.lookup r = some slot → s.regToSlot.lookup r' = some slot →
    ∃ l, lastUse body r = some l ∧ l < d'

end

namespace ScanInv

variable {crossBlockCount : Nat} {locals : List Reg} {body instrs : List Instr} {base : Nat}
  {before : List (Reg × Nat)} {n u : Nat} {s : Scan}

theorem start (before : List (Reg × Nat)) (base : Nat) :
    ScanInv crossBlockCount locals body instrs base before 0 0 ⟨before, base, [], []⟩ where
  base_le := Nat.le_refl _
  nodup := nodup_nil
  range := by rintro _ ⟨⟩
  kept _ _ := rfl
  assigned _ _ _ hd := absurd hd (Nat.not_lt_zero _)
  active_defined := by rintro _ ⟨⟩
  live _ _ _ _ hd := absurd hd (Nat.not_lt_zero _)
  apart _ _ _ _ _ _ _ _ hd := absurd hd (Nat.not_lt_zero _)

theorem skip (h : ScanInv crossBlockCount locals body instrs base before n u s)
    (hn : ∀ r, DefinedAt instrs n r → r ∉ locals) :
    ScanInv crossBlockCount locals body instrs base before (n + 1) u s := by
  have hlt : ∀ {d r}, d < n + 1 → DefinedAt instrs d r → r ∈ locals → d < n := by
    intro d r hd hdef hr
    refine Nat.lt_of_le_of_ne (Nat.le_of_lt_succ hd) ?_
    rintro rfl
    exact hn r hdef hr
  refine ⟨h.base_le, h.nodup, h.range, fun r hr => h.kept r fun d hd => hr d (Nat.lt_succ_of_lt hd),
    fun r d hr hd hdef => h.assigned r d hr (hlt hd hdef hr) hdef, fun e he => ?_,
    fun r d slot hr hd hdef => h.live r d slot hr (hlt hd hdef hr) hdef,
    fun r r' d d' slot hr hr' hdd hd' hdef hdef' =>
      h.apart r r' d d' slot hr hr' hdd (hlt hd' hdef' hr') hdef hdef'⟩
  obtain ⟨d, hd, hdef⟩ := h.active_defined e he
  exact ⟨d, Nat.lt_succ_of_lt hd, hdef⟩

theorem weaken (h : ScanInv crossBlockCount locals body instrs base before n u s) (pool : List Nat)
    {highWater : Nat} (hpool : pool.Sublist s.freePool) (hhigh : s.poolHighWater ≤ highWater) :
    ScanInv crossBlockCount locals body instrs base before n u
      { s with freePool := pool, poolHighWater := highWater } := by
  have hsub : (pool ++ s.active.map Prod.snd).Sublist (s.freePool ++ s.active.map Prod.snd) :=
    hpool.append_right _
  refine ⟨Nat.le_trans h.base_le hhigh, h.nodup.sublist hsub, fun slot hslot => ?_, h.kept,
    fun r d hr hd hdef => ?_, h.active_defined, h.live, h.apart⟩
  · obtain ⟨hlow, hlt⟩ := h.range slot (hsub.subset hslot)
    exact ⟨hlow, Nat.lt_of_lt_of_le hlt hhigh⟩
  · obtain ⟨slot, hlookup, hlow, hlt⟩ := h.assigned r d hr hd hdef
    exact ⟨slot, hlookup, hlow, Nat.lt_of_lt_of_le hlt hhigh⟩

theorem lookup_take (s : Scan) {r r' : Reg} (slot : Nat) (hne : r' ≠ r) :
    (s.take crossBlockCount r slot).regToSlot.lookup r' = s.regToSlot.lookup r' := by
  have hbeq : (r' == r) = false := by simpa using hne
  simp only [Scan.take, lookup_cons, hbeq]

theorem lookup_take_self (s : Scan) (r slot : Nat) :
    (s.take crossBlockCount r slot).regToSlot.lookup r = some (crossBlockCount + slot) := by
  simp [Scan.take]

section

variable (h : ScanInv crossBlockCount locals body instrs base before n u s)
include h

theorem take {r : Reg} {slot : Nat}
    (hone : ∀ d d' r, DefinedAt instrs d r → DefinedAt instrs d' r → d = d')
    (hun : u ≤ n) (hr : r ∈ locals) (hdef : DefinedAt instrs n r)
    (hfresh : slot ∉ s.freePool ++ s.active.map Prod.snd) (hbase : base ≤ slot)
    (hhigh : slot < s.poolHighWater) :
    ScanInv crossBlockCount locals body instrs base before (n + 1) u (s.take crossBlockCount r slot) := by
  have hother : ∀ {d r'}, d < n → DefinedAt instrs d r' → r' ≠ r := by
    rintro d r' hd hdef' rfl
    exact Nat.lt_irrefl n (hone _ _ _ hdef' hdef ▸ hd)
  have hsplit : ∀ {d r'}, d < n + 1 → DefinedAt instrs d r' → d < n ∨ (d = n ∧ r' = r) := by
    intro d r' hd hdef'
    rcases Nat.eq_or_lt_of_le (Nat.le_of_lt_succ hd) with rfl | hlt
    · obtain ⟨i, hi, hdst⟩ := hdef
      obtain ⟨i', hi', hdst'⟩ := hdef'
      cases hi.symm.trans hi'
      exact .inr ⟨rfl, Option.some.inj (hdst'.symm.trans hdst)⟩
    · exact .inl hlt
  have hsub : ((s.active.filter fun e => e.1 ≠ r).map Prod.snd).Sublist (s.active.map Prod.snd) :=
    List.filter_sublist.map Prod.snd
  refine ⟨h.base_le, ?_, ?_, ?_, ?_, ?_, ?_, ?_⟩
  · refine List.nodup_middle.mpr (List.nodup_cons.mpr ⟨fun hmem => hfresh ?_, ?_⟩)
    · exact (hsub.append_left s.freePool).subset hmem
    · exact h.nodup.sublist (hsub.append_left s.freePool)
  · intro x hx
    rcases List.mem_append.mp hx with hx | hx
    · exact h.range x (mem_append_left _ hx)
    · rcases List.mem_cons.mp hx with rfl | hx
      · exact ⟨hbase, hhigh⟩
      · exact h.range x (mem_append_right _ (hsub.subset hx))
  · intro r' hr'
    have hne : r' ≠ r := by
      rintro rfl
      exact hr' n (Nat.lt_succ_self n) hdef hr
    rw [lookup_take s slot hne]
    exact h.kept r' fun d hd => hr' d (Nat.lt_succ_of_lt hd)
  · intro r' d hr' hd hdef'
    rcases hsplit hd hdef' with hlt | ⟨rfl, rfl⟩
    · rw [lookup_take s slot (hother hlt hdef')]
      exact h.assigned r' d hr' hlt hdef'
    · exact ⟨slot, lookup_take_self s r' slot, hbase, hhigh⟩
  · intro e he
    rcases List.mem_cons.mp he with rfl | he
    · exact ⟨n, Nat.lt_succ_self n, hdef⟩
    · obtain ⟨d, hd, hdef'⟩ := h.active_defined e (List.mem_filter.mp he).1
      exact ⟨d, Nat.lt_succ_of_lt hd, hdef'⟩
  · intro r' d x hr' hd hdef' hlookup hlive
    rcases hsplit hd hdef' with hlt | ⟨rfl, rfl⟩
    · rw [lookup_take s slot (hother hlt hdef')] at hlookup
      refine mem_cons_of_mem _ (List.mem_filter.mpr ⟨h.live r' d x hr' hlt hdef' hlookup hlive, ?_⟩)
      simpa using hother hlt hdef'
    · rw [lookup_take_self] at hlookup
      have hx : slot = x := Nat.add_left_cancel (Option.some.inj hlookup)
      exact hx ▸ mem_cons_self
  · intro r₁ r₂ d₁ d₂ x hr₁ hr₂ hdd hd₂ hdef₁ hdef₂ hlookup₁ hlookup₂
    rcases hsplit hd₂ hdef₂ with hlt | ⟨rfl, rfl⟩
    · rw [lookup_take s slot (hother (Nat.lt_trans hdd hlt) hdef₁)] at hlookup₁
      rw [lookup_take s slot (hother hlt hdef₂)] at hlookup₂
      exact h.apart r₁ r₂ d₁ d₂ x hr₁ hr₂ hdd hlt hdef₁ hdef₂ hlookup₁ hlookup₂
    · -- were the first register still to be used, it would be active with this slot
      rw [lookup_take s slot (hother hdd hdef₁)] at hlookup₁
      rw [lookup_take_self] at hlookup₂
      rw [← Option.some.inj hlookup₂] at hlookup₁
      by_contra hnone
      refine hfresh (mem_append_right _ (mem_map_of_mem (f := Prod.snd)
        (h.live r₁ d₁ slot hr₁ hdd hdef₁ hlookup₁ fun l hl => ?_)))
      by_contra hlt
      exact hnone ⟨l, hl, by omega⟩

theorem define
    (hone : ∀ d d' r, DefinedAt instrs d r → DefinedAt instrs d' r → d = d') (hun : u ≤ n) {i : Instr}
    (hi : instrs[n]? = some i) :
    ScanInv crossBlockCount locals body instrs base before (n + 1) u
      (s.define crossBlockCount locals i.dst) := by
  have hnone : ∀ r, DefinedAt instrs n r → i.dst = some r := by
    rintro r ⟨i', hi', hdst⟩
    cases hi.symm.trans hi'
    exact hdst
  unfold Scan.define
  split
  · next hdst =>
    refine h.skip fun r hr => ?_
    rw [hdst] at hnone
    cases hnone r hr
  · next r hdst =>
    have hdef : DefinedAt instrs n r := ⟨i, hi, hdst⟩
    split
    · next hr =>
      split
      · next slot pool hpool =>
        have hnodup := h.nodup
        rw [hpool, cons_append] at hnodup
        obtain ⟨hlow, hlt⟩ := h.range slot (by rw [hpool]; exact mem_cons_self)
        refine (h.weaken pool ?_ (Nat.le_refl _)).take hone hun hr hdef
          (List.nodup_cons.mp hnodup).1 hlow hlt
        rw [hpool]
        exact sublist_cons_self slot pool
      · refine (h.weaken _ (List.Sublist.refl _) (Nat.le_succ _)).take hone hun hr hdef (fun hmem => ?_)
          h.base_le (Nat.lt_succ_self _)
        exact Nat.lt_irrefl _ (h.range _ hmem).2
    · next hr =>
      refine h.skip fun r' hr' => ?_
      cases hdst.symm.trans (hnone r' hr')
      exact hr

theorem free : ScanInv crossBlockCount locals body instrs base before n (u + 1) (s.free body u) := by
  have hperm : ((s.free body u).freePool ++ (s.free body u).active.map Prod.snd).Perm
      (s.freePool ++ s.active.map Prod.snd) := by
    have hsorted := ((mergeSort_perm (s.active.filter fun e => lastUse body e.1 = some u)
      fun a b => a.2 ≤ b.2).map Prod.snd)
    have hparts := (filter_append_perm (fun e => decide (lastUse body e.1 = some u)) s.active).map
      Prod.snd
    rw [map_append] at hparts
    have hnot : (s.active.filter fun e => ¬lastUse body e.1 = some u) =
        s.active.filter fun e => !decide (lastUse body e.1 = some u) :=
      List.filter_congr fun e _ => by simp
    unfold Scan.free
    rw [hnot]
    refine (List.perm_append_comm.append_right _).trans ?_
    rw [append_assoc]
    exact ((((reverse_perm _).trans hsorted).append_right _).trans hparts).append_left _
  refine ⟨h.base_le, hperm.nodup_iff.mpr h.nodup, fun slot hslot => h.range slot (hperm.mem_iff.mp hslot),
    h.kept, h.assigned, fun e he => h.active_defined e (List.mem_filter.mp he).1, ?_, h.apart⟩
  intro r d slot hr hd hdef hlookup hlive
  have hmem := h.live r d slot hr hd hdef hlookup fun l hl => Nat.le_of_succ_le (hlive l hl)
  refine List.mem_filter.mpr ⟨hmem, ?_⟩
  rw [decide_eq_true_iff]
  exact fun heq => Nat.lt_irrefl u (hlive u heq)

end

theorem instr (h : ScanInv crossBlockCount locals body instrs base before n n s)
    (hone : ∀ d d' r, DefinedAt instrs d r → DefinedAt instrs d' r → d = d') {i : Instr}
    (hi : instrs[n]? = some i) :
    ScanInv crossBlockCount locals body instrs base before (n + 1) (n + 1)
      (s.instr crossBlockCount locals body n i) :=
  (h.define hone (Nat.le_refl n) hi).free

theorem instrs_drop (hone : ∀ d d' r, DefinedAt instrs d r → DefinedAt instrs d' r → d = d') :
    ∀ {rest : List Instr} {n : Nat} {s : Scan}, instrs.drop n = rest →
      ScanInv crossBlockCount locals body instrs base before n n s →
      ScanInv crossBlockCount locals body instrs base before (n + rest.length) (n + rest.length)
        (s.instrs crossBlockCount locals body n rest)
  | [], _, _, _, h => h
  | i :: rest, n, s, hdrop, h => by
    have hi : instrs[n]? = some i := by
      rw [← head?_drop, hdrop]
      rfl
    have hrest : instrs.drop (n + 1) = rest := by
      rw [← tail_drop, hdrop]
      rfl
    have hnext := instrs_drop hone hrest (h.instr hone hi)
    rw [length_cons, Nat.add_comm rest.length 1, ← Nat.add_assoc]
    exact hnext

end ScanInv

end Elle.Wasm

import Elle.Wasm.Pool

/-!
# What the allocation guarantees

Every register of a function has a slot below the number of slots, and two registers of one slot are defined
in one block, are used in that block only, and one is used for the last time before the other is defined.
-/

namespace Elle.Wasm

open List

variable {f : Func}
variable {b d pinnedRegs highWater slot : Nat} {blk : Block} {r : Reg} {regToSlot : List (Reg × Nat)}

/-! ## Places -/

theorem instrAt_eq (hb : f.blocks[b]? = some blk) (i : Nat) : f.instrAt ⟨b, i⟩ = blk.body[i]? := by
  rw [Func.instrAt, hb]
  rfl

theorem Func.Defines.block (h : f.Defines ⟨b, d⟩ r) :
    ∃ blk, f.blocks[b]? = some blk ∧ DefinedAt blk.instrs d r := by
  obtain ⟨i, hi, hdst⟩ := h
  obtain ⟨blk, hb, hbody⟩ := Option.bind_eq_some_iff.mp hi
  refine ⟨blk, hb, i, ?_, hdst⟩
  -- the terminator at the end of the body defines nothing
  have hlt : d < blk.instrs.length := by
    by_contra hge
    rw [Block.body, getElem?_append_right (Nat.le_of_not_lt hge)] at hbody
    have hmem := mem_of_getElem? hbody
    rw [mem_singleton] at hmem
    subst hmem
    cases hdst
  rwa [Block.body, getElem?_append_left hlt] at hbody

theorem DefinedAt.defines (hb : f.blocks[b]? = some blk) (h : DefinedAt blk.instrs d r) :
    f.Defines ⟨b, d⟩ r := by
  obtain ⟨i, hi, hdst⟩ := h
  refine ⟨i, ?_, hdst⟩
  have hlt : d < blk.instrs.length := (List.getElem?_eq_some_iff.mp hi).1
  rw [instrAt_eq hb, Block.body, getElem?_append_left hlt, hi]

theorem Block.defines_iff : blk.defines r ↔ ∃ d, DefinedAt blk.instrs d r := by
  simp only [Block.defines, any_eq_true, beq_iff_eq, DefinedAt]
  constructor
  · rintro ⟨i, hi, hdst⟩
    obtain ⟨d, hd⟩ := getElem?_of_mem hi
    exact ⟨d, i, hd, hdst⟩
  · rintro ⟨d, i, hi, hdst⟩
    exact ⟨i, mem_of_getElem? hi, hdst⟩

theorem Block.usesReg_iff :
    blk.usesReg r ↔ ∃ (j : Nat) (i : Instr), blk.body[j]? = some i ∧ r ∈ i.uses := by
  simp only [Block.usesReg, any_eq_true, contains_iff_mem]
  constructor
  · rintro ⟨i, hi, hr⟩
    obtain ⟨j, hj⟩ := getElem?_of_mem hi
    exact ⟨j, i, hj, hr⟩
  · rintro ⟨j, i, hi, hr⟩
    exact ⟨i, mem_of_getElem? hi, hr⟩

theorem le_of_lastUse {body : List Instr} {l : Nat} (h : lastUse body r = some l) {j : Nat} {i : Instr}
    (hi : body[j]? = some i) (hr : r ∈ i.uses) : j ≤ l := by
  obtain ⟨_, later, earlier, hsplit, hlater⟩ := List.find?_eq_some_iff_append.mp h
  have hdecreasing : (later ++ l :: earlier).Pairwise (· > ·) := by
    rw [← hsplit, pairwise_reverse]
    exact pairwise_lt_range
  have hj : j ∈ later ++ l :: earlier := by
    rw [← hsplit, mem_reverse, mem_range]
    exact (List.getElem?_eq_some_iff.mp hi).1
  rcases List.mem_append.mp hj with hj | hj
  · have hnot := hlater j hj
    simp [hi, hr] at hnot
  · rcases List.mem_cons.mp hj with rfl | hj
    · exact Nat.le_refl _
    · exact Nat.le_of_lt ((List.pairwise_cons.mp (List.pairwise_append.mp hdecreasing).2.1).1 j hj)

theorem Func.Uses.le_lastUse {j : Nat} (h : f.Uses ⟨b, j⟩ r) (hb : f.blocks[b]? = some blk) {l : Nat}
    (hl : lastUse blk.body r = some l) : j ≤ l := by
  obtain ⟨i, hi, hr⟩ := h
  rw [instrAt_eq hb] at hi
  exact le_of_lastUse hl hi hr

/-! ## Classes -/

theorem Func.DefinedFirst.defBlock_eq (hf : f.DefinedFirst) (hb : f.blocks[b]? = some blk)
    (hd : f.Defines ⟨b, d⟩ r) : f.defBlock r = some blk.label := by
  obtain ⟨blk', hb', hdef⟩ := hd.block
  cases hb.symm.trans hb'
  have hsome : (f.blocks.reverse.find? fun b => b.defines r).isSome := by
    rw [find?_isSome]
    exact ⟨blk, List.mem_reverse.mpr (mem_of_getElem? hb), Block.defines_iff.mpr ⟨d, hdef⟩⟩
  obtain ⟨found, hfound⟩ := Option.isSome_iff_exists.mp hsome
  obtain ⟨b', hb'⟩ := getElem?_of_mem (List.mem_reverse.mp (mem_of_find?_eq_some hfound))
  have hdefines : found.defines r :=
    find?_some (p := fun b : Block => b.defines r) hfound
  obtain ⟨d', hdef'⟩ := Block.defines_iff.mp hdefines
  cases hf.one _ _ r hd (hdef'.defines hb')
  cases hb.symm.trans hb'
  rw [Func.defBlock, hfound]
  rfl

theorem Func.Uses.block {j : Nat} (h : f.Uses ⟨b, j⟩ r) :
    ∃ blk, f.blocks[b]? = some blk ∧ blk.usesReg r := by
  obtain ⟨i, hi, hr⟩ := h
  obtain ⟨blk, hb, hbody⟩ := Option.bind_eq_some_iff.mp hi
  exact ⟨blk, hb, Block.usesReg_iff.mpr ⟨j, i, hbody, hr⟩⟩

theorem Func.Uses.mem_useBlocks {j : Nat} (hb : f.blocks[b]? = some blk) (h : f.Uses ⟨b, j⟩ r) :
    blk.label ∈ f.useBlocks r := by
  obtain ⟨blk', hb', huses⟩ := h.block
  cases hb.symm.trans hb'
  exact mem_map_of_mem (List.mem_filter.mpr ⟨mem_of_getElem? hb, huses⟩)

theorem Func.WellFormed.index_eq (hf : f.WellFormed) {b' : Nat} {blk' : Block}
    (hb : f.blocks[b]? = some blk) (hb' : f.blocks[b']? = some blk') (hl : blk.label = blk'.label) :
    b = b' := by
  refine (getElem?_inj ?_ hf.labels).mp ?_
  · rw [length_map]
    exact (List.getElem?_eq_some_iff.mp hb).1
  · rw [getElem?_map, getElem?_map, hb, hb', Option.map_some, Option.map_some, hl]

theorem Func.WellFormed.within (hf : f.WellFormed) (hb : f.blocks[b]? = some blk)
    (h : f.classify pinnedRegs r = .withinBlock blk.label) :
    (∃ d, f.Defines ⟨b, d⟩ r) ∧ ∀ p, f.Uses p r → p.block = b := by
  unfold Func.classify at h
  split at h
  · split at h <;> cases h
  · next l hdef =>
    split at h
    · cases h
    · next hcross =>
      cases h
      constructor
      · obtain ⟨found, hfound, hlabel⟩ := Option.map_eq_some_iff.mp hdef
        have hmem := List.mem_reverse.mp (mem_of_find?_eq_some hfound)
        have hdefines : found.defines r :=
          find?_some (p := fun b : Block => b.defines r) hfound
        obtain ⟨b', hb'⟩ := getElem?_of_mem hmem
        obtain ⟨d, hd⟩ := Block.defines_iff.mp hdefines
        obtain rfl := hf.index_eq hb' hb hlabel
        exact ⟨d, hd.defines hb'⟩
      · rintro ⟨b', j⟩ huse
        obtain ⟨blk', hb', _⟩ := huse.block
        refine hf.index_eq hb' hb ?_
        by_contra hne
        exact hcross (.inr (List.any_eq_true.mpr ⟨_, huse.mem_useBlocks hb', by simpa using hne⟩))

theorem Func.DefinedFirst.not_skipped (hf : f.DefinedFirst) {p : Pos} (h : f.Defines p r ∨ f.Uses p r) :
    f.classify pinnedRegs r ≠ .skipped := by
  unfold Func.classify
  split
  · next hdef =>
    split
    · next huses =>
      rcases h with h | h
      · obtain ⟨blk, hb, _⟩ := h.block
        rw [hf.defBlock_eq hb h] at hdef
        cases hdef
      · obtain ⟨blk, hb, _⟩ := h.block
        have hmem := h.mem_useBlocks hb
        rw [huses] at hmem
        cases hmem
    · exact Func.Class.noConfusion
  · split <;> exact Func.Class.noConfusion

/-! ## All blocks -/

section

variable (f) (pinnedRegs : Nat)

/-- The blocks scanned so far have given slots of the pool to their registers. -/
structure BlocksInv (scanned : List Block) (regToSlot : List (Reg × Nat)) (highWater : Nat) : Prop where
  kept : ∀ r, (∀ blk ∈ scanned, ∀ d, DefinedAt blk.instrs d r → r ∉ f.blockLocalRegs pinnedRegs blk.label) →
    regToSlot.lookup r = (f.crossBlockRegs pinnedRegs).zipIdx.lookup r
  assigned : ∀ blk ∈ scanned, ∀ d r, r ∈ f.blockLocalRegs pinnedRegs blk.label →
    DefinedAt blk.instrs d r →
    ∃ slot, regToSlot.lookup r = some ((f.crossBlockRegs pinnedRegs).length + slot) ∧ slot < highWater
  apart : ∀ blk ∈ scanned, ∀ blk' ∈ scanned, ∀ d d' r r' slot,
    r ∈ f.blockLocalRegs pinnedRegs blk.label → r' ∈ f.blockLocalRegs pinnedRegs blk'.label →
    DefinedAt blk.instrs d r → DefinedAt blk'.instrs d' r' → r ≠ r' →
    regToSlot.lookup r = some slot → regToSlot.lookup r' = some slot →
    blk = blk' ∧ ((∃ l, lastUse blk.body r = some l ∧ l < d') ∨ ∃ l, lastUse blk.body r' = some l ∧ l < d)

end

theorem mem_blockLocalRegs {l : Label} :
    r ∈ f.blockLocalRegs pinnedRegs l ↔ r < f.numRegs ∧ f.classify pinnedRegs r = .withinBlock l := by
  simp [Func.blockLocalRegs]

theorem Func.DefinedFirst.definedAt_eq (hf : f.DefinedFirst) (hb : blk ∈ f.blocks) {d' : Nat}
    (hd : DefinedAt blk.instrs d r) (hd' : DefinedAt blk.instrs d' r) : d = d' := by
  obtain ⟨b, hb⟩ := getElem?_of_mem hb
  exact congrArg Pos.instr (hf.one _ _ r (hd.defines hb) (hd'.defines hb))

theorem BlocksInv.scan (hf : f.DefinedFirst) {scanned : List Block}
    (h : BlocksInv f pinnedRegs scanned regToSlot highWater) (hb : blk ∈ f.blocks)
    (hnew : ∀ blk' ∈ scanned, blk'.label ≠ blk.label) :
    BlocksInv f pinnedRegs (scanned ++ [blk]) (f.scanBlock pinnedRegs regToSlot highWater blk).regToSlot
      (f.scanBlock pinnedRegs regToSlot highWater blk).poolHighWater := by
  have hscan : ScanInv (f.crossBlockRegs pinnedRegs).length (f.blockLocalRegs pinnedRegs blk.label) blk.body
      blk.instrs highWater regToSlot (0 + blk.instrs.length) (0 + blk.instrs.length)
      (f.scanBlock pinnedRegs regToSlot highWater blk) :=
    ScanInv.instrs_drop (fun d d' r => hf.definedAt_eq hb) drop_zero (.start regToSlot highWater)
  have hlt : ∀ {d r}, DefinedAt blk.instrs d r → d < 0 + blk.instrs.length := by
    rintro d r ⟨i, hi, _⟩
    rw [Nat.zero_add]
    exact (List.getElem?_eq_some_iff.mp hi).1
  -- a register of a block scanned before is none of this block's
  have hold : ∀ blk' ∈ scanned, ∀ r, r ∈ f.blockLocalRegs pinnedRegs blk'.label →
      (f.scanBlock pinnedRegs regToSlot highWater blk).regToSlot.lookup r = regToSlot.lookup r := by
    intro blk' hblk' r hr
    refine hscan.kept r fun d _ _ hr' => hnew blk' hblk' ?_
    exact Func.Class.withinBlock.inj ((mem_blockLocalRegs.mp hr).2.symm.trans (mem_blockLocalRegs.mp hr').2)
  generalize f.scanBlock pinnedRegs regToSlot highWater blk = s at hscan hold ⊢
  have hmixed : ∀ blk' ∈ scanned, ∀ d d' r r' slot, r ∈ f.blockLocalRegs pinnedRegs blk'.label →
      r' ∈ f.blockLocalRegs pinnedRegs blk.label → DefinedAt blk'.instrs d r →
      DefinedAt blk.instrs d' r' → s.regToSlot.lookup r = some slot →
      s.regToSlot.lookup r' ≠ some slot := by
    intro blk' hblk' d d' r r' slot hr hr' hd hd' hlookup hlookup'
    obtain ⟨x, hx, hlow⟩ := h.assigned blk' hblk' d r hr hd
    obtain ⟨y, hy, hhigh, _⟩ := hscan.assigned r' d' hr' (hlt hd') hd'
    rw [hold blk' hblk' r hr, hx] at hlookup
    rw [hy] at hlookup'
    cases hlookup
    have := Option.some.inj hlookup'
    omega
  refine ⟨?_, ?_, ?_⟩
  · intro r hr
    rw [hscan.kept r fun d _ hd => hr blk (by simp) d hd]
    exact h.kept r fun blk' hblk' => hr blk' (mem_append_left _ hblk')
  · intro blk' hblk' d r hr hd
    rcases List.mem_append.mp hblk' with hblk' | hblk'
    · obtain ⟨slot, hlookup, hslot⟩ := h.assigned blk' hblk' d r hr hd
      exact ⟨slot, (hold blk' hblk' r hr).trans hlookup, Nat.lt_of_lt_of_le hslot hscan.base_le⟩
    · obtain rfl := List.mem_singleton.mp hblk'
      obtain ⟨slot, hlookup, _, hslot⟩ := hscan.assigned r d hr (hlt hd) hd
      exact ⟨slot, hlookup, hslot⟩
  · intro blk₁ hblk₁ blk₂ hblk₂ d d' r r' slot hr hr' hd hd' hne hlookup hlookup'
    rcases List.mem_append.mp hblk₁ with hold₁ | hnew₁ <;>
      rcases List.mem_append.mp hblk₂ with hold₂ | hnew₂
    · rw [hold blk₁ hold₁ r hr] at hlookup
      rw [hold blk₂ hold₂ r' hr'] at hlookup'
      exact h.apart blk₁ hold₁ blk₂ hold₂ d d' r r' slot hr hr' hd hd' hne hlookup hlookup'
    · obtain rfl := List.mem_singleton.mp hnew₂
      exact absurd hlookup' (hmixed blk₁ hold₁ d d' r r' slot hr hr' hd hd' hlookup)
    · obtain rfl := List.mem_singleton.mp hnew₁
      exact absurd hlookup (hmixed blk₂ hold₂ d' d r' r slot hr' hr hd' hd hlookup')
    · obtain rfl := List.mem_singleton.mp hnew₁
      obtain rfl := List.mem_singleton.mp hnew₂
      refine ⟨rfl, ?_⟩
      rcases Nat.lt_trichotomy d d' with hlt' | rfl | hlt'
      · exact .inl (hscan.apart r r' d d' slot hr hr' hlt' (hlt hd') hd hd' hlookup hlookup')
      · obtain ⟨i, hi, hdst⟩ := hd
        obtain ⟨i', hi', hdst'⟩ := hd'
        cases hi.symm.trans hi'
        exact absurd (Option.some.inj (hdst.symm.trans hdst')) hne
      · exact .inr (hscan.apart r' r d' d slot hr' hr hlt' (hlt hd) hd' hd hlookup' hlookup)

theorem scanBlocks_inv (hf : f.DefinedFirst) (hlabels : (f.blocks.map Block.label).Nodup) :
    ∀ (rest scanned : List Block) {regToSlot : List (Reg × Nat)} {highWater : Nat},
      f.blocks = scanned ++ rest → BlocksInv f pinnedRegs scanned regToSlot highWater →
      BlocksInv f pinnedRegs f.blocks (f.scanBlocks pinnedRegs regToSlot highWater rest).1
        (f.scanBlocks pinnedRegs regToSlot highWater rest).2
  | [], scanned, _, _, hall, h => by
    rw [append_nil] at hall
    rw [hall]
    exact h
  | blk :: rest, scanned, regToSlot, highWater, hall, h => by
    have hmem : blk ∈ f.blocks := by simp [hall]
    have hall' : f.blocks = (scanned ++ [blk]) ++ rest := by simp [hall]
    have hnew : ∀ blk' ∈ scanned, blk'.label ≠ blk.label := by
      intro blk' hblk'
      rw [hall, map_append, map_cons] at hlabels
      exact (List.nodup_append.mp hlabels).2.2 _ (mem_map_of_mem hblk') _ mem_cons_self
    have hscan := h.scan hf hmem hnew
    exact scanBlocks_inv hf hlabels rest (scanned ++ [blk]) hall' hscan

/-! ## The allocation -/

theorem lookup_zipIdx {rs : List Reg} (h : rs.zipIdx.lookup r = some slot) : rs[slot]? = some r := by
  obtain ⟨l₁, l₂, hsplit, _⟩ := List.lookup_eq_some_iff.mp h
  rw [← mk_mem_zipIdx_iff_getElem?, hsplit]
  exact mem_append_right _ mem_cons_self

theorem exists_lookup_zipIdx {rs : List Reg} (h : r ∈ rs) : ∃ slot, rs.zipIdx.lookup r = some slot := by
  obtain ⟨i, hi⟩ := getElem?_of_mem h
  refine Option.isSome_iff_exists.mp (List.lookup_isSome_iff.mpr ⟨(r, i), ?_, by simp⟩)
  exact mk_mem_zipIdx_iff_getElem?.mpr hi

theorem exists_block_of_within {l : Label} (h : f.classify pinnedRegs r = .withinBlock l) :
    ∃ (b : Nat) (blk : Block), f.blocks[b]? = some blk ∧ blk.label = l := by
  unfold Func.classify at h
  split at h
  · split at h <;> cases h
  · next l' hdef =>
    obtain ⟨blk, hfound, hlabel⟩ := Option.map_eq_some_iff.mp hdef
    obtain ⟨b, hb⟩ := getElem?_of_mem (List.mem_reverse.mp (mem_of_find?_eq_some hfound))
    split at h
    · cases h
    · cases h
      exact ⟨b, blk, hb, hlabel⟩

/-- The last use of a register in a block is before an instruction of it. -/
def LastUsedBefore (f : Func) (b d : Nat) (r : Reg) : Prop :=
  ∃ l < d, f.Uses ⟨b, l⟩ r ∧ ∀ j, f.Uses ⟨b, j⟩ r → j ≤ l

theorem LastUsedBefore.of_lastUse (hb : f.blocks[b]? = some blk) {l : Nat}
    (hl : lastUse blk.body r = some l) (hlt : l < d) : LastUsedBefore f b d r := by
  refine ⟨l, hlt, ?_, fun j hj => hj.le_lastUse hb hl⟩
  have hfound := find?_some hl
  obtain ⟨i, hi, hr⟩ := (Option.any_eq_true _ _).mp hfound
  exact ⟨i, (instrAt_eq hb l).trans hi, List.contains_iff_mem.mp hr⟩

/-- What the emitter relies on. -/
structure Allocated (f : Func) (a : RegAlloc) : Prop where
  named : ∀ p r, f.Defines p r ∨ f.Uses p r → ∃ slot, a.regToSlot.lookup r = some slot
  lt : ∀ r slot, a.regToSlot.lookup r = some slot → slot < a.maxSlots
  apart : ∀ r r' slot, r ≠ r' → a.regToSlot.lookup r = some slot → a.regToSlot.lookup r' = some slot →
    ∃ b d d', f.Defines ⟨b, d⟩ r ∧ f.Defines ⟨b, d'⟩ r' ∧ (∀ p, f.Uses p r → p.block = b) ∧
      (∀ p, f.Uses p r' → p.block = b) ∧
      (LastUsedBefore f b d' r ∨ LastUsedBefore f b d r')

theorem BlocksInv.cases (h : BlocksInv f pinnedRegs f.blocks regToSlot highWater)
    (hlookup : regToSlot.lookup r = some slot) :
    (f.crossBlockRegs pinnedRegs)[slot]? = some r ∨
    ∃ blk ∈ f.blocks, ∃ d, DefinedAt blk.instrs d r ∧ r ∈ f.blockLocalRegs pinnedRegs blk.label := by
  by_cases hlocal : ∃ blk ∈ f.blocks, ∃ d, DefinedAt blk.instrs d r ∧
      r ∈ f.blockLocalRegs pinnedRegs blk.label
  · exact .inr hlocal
  · rw [h.kept r fun blk hblk d hd hr => hlocal ⟨blk, hblk, d, hd, hr⟩] at hlookup
    exact .inl (lookup_zipIdx hlookup)

theorem BlocksInv.allocated (h : BlocksInv f pinnedRegs f.blocks regToSlot highWater) (hwf : f.WellFormed)
    (hf : f.DefinedFirst) : Allocated f ⟨regToSlot, (f.crossBlockRegs pinnedRegs).length + highWater⟩ := by
  have hpool : ∀ {blk d r slot}, blk ∈ f.blocks → DefinedAt blk.instrs d r →
      r ∈ f.blockLocalRegs pinnedRegs blk.label → regToSlot.lookup r = some slot →
      (f.crossBlockRegs pinnedRegs).length ≤ slot ∧
        slot < (f.crossBlockRegs pinnedRegs).length + highWater := by
    intro blk d r slot hblk hd hr hlookup
    obtain ⟨x, hx, hlt⟩ := h.assigned blk hblk d r hr hd
    cases hlookup.symm.trans hx
    omega
  have hown : ∀ {r slot}, (f.crossBlockRegs pinnedRegs)[slot]? = some r →
      slot < (f.crossBlockRegs pinnedRegs).length := fun hr => (List.getElem?_eq_some_iff.mp hr).1
  refine ⟨?_, ?_, ?_⟩
  · intro p r hreg
    have hlt : r < f.numRegs := hreg.elim (hwf.defines_lt p r) (hwf.uses_lt p r)
    cases hclass : f.classify pinnedRegs r with
    | skipped => exact absurd hclass (hf.not_skipped hreg)
    | crossBlock =>
      have hkept := h.kept r fun blk _ d _ hr => by
        rw [(mem_blockLocalRegs.mp hr).2] at hclass
        cases hclass
      have hmem : r ∈ f.crossBlockRegs pinnedRegs := by simp [Func.crossBlockRegs, hlt, hclass]
      obtain ⟨slot, hslot⟩ := exists_lookup_zipIdx hmem
      exact ⟨slot, hkept.trans hslot⟩
    | withinBlock l =>
      obtain ⟨b, blk, hb, rfl⟩ := exists_block_of_within hclass
      obtain ⟨d, hd⟩ := (hwf.within hb hclass).1
      obtain ⟨blk', hb', hdef⟩ := hd.block
      cases hb.symm.trans hb'
      obtain ⟨slot, hslot, _⟩ := h.assigned blk (mem_of_getElem? hb) d r
        (mem_blockLocalRegs.mpr ⟨hlt, hclass⟩) hdef
      exact ⟨_, hslot⟩
  · intro r slot hlookup
    rcases h.cases hlookup with hr | ⟨blk, hblk, d, hd, hr⟩
    · exact Nat.lt_of_lt_of_le (hown hr) (Nat.le_add_right _ _)
    · exact (hpool hblk hd hr hlookup).2
  · intro r r' slot hne hlookup hlookup'
    rcases h.cases hlookup with hr | ⟨blk, hblk, d, hd, hr⟩ <;>
      rcases h.cases hlookup' with hr' | ⟨blk', hblk', d', hd', hr'⟩
    · exact absurd (Option.some.inj (hr.symm.trans hr')) hne
    · exact absurd (hown hr) (Nat.not_lt_of_le (hpool hblk' hd' hr' hlookup').1)
    · exact absurd (hown hr') (Nat.not_lt_of_le (hpool hblk hd hr hlookup).1)
    · obtain ⟨rfl, hlast⟩ := h.apart blk hblk blk' hblk' d d' r r' slot hr hr' hd hd' hne hlookup hlookup'
      obtain ⟨b, hb⟩ := getElem?_of_mem hblk
      have huses := (hwf.within hb (mem_blockLocalRegs.mp hr).2).2
      have huses' := (hwf.within hb (mem_blockLocalRegs.mp hr').2).2
      refine ⟨b, d, d', hd.defines hb, hd'.defines hb, huses, huses', ?_⟩
      rcases hlast with ⟨l, hl, hlt⟩ | ⟨l, hl, hlt⟩
      · exact .inl (.of_lastUse hb hl hlt)
      · exact .inr (.of_lastUse hb hl hlt)

theorem allocate_allocated (hwf : f.WellFormed) (hf : f.DefinedFirst) (pinnedRegs : Nat) :
    Allocated f (f.allocate pinnedRegs) := by
  unfold Func.allocate
  split
  · next hempty =>
    refine ⟨fun p r h => absurd hempty ?_, fun _ _ h => (by cases h), fun _ _ _ _ h => (by cases h)⟩
    have hlt : r < f.numRegs := h.elim (hwf.defines_lt p r) (hwf.uses_lt p r)
    have hblock : f.blocks ≠ [] := by
      intro hnil
      rcases h with ⟨i, hi, _⟩ | ⟨i, hi, _⟩ <;> simp [Func.instrAt, hnil] at hi
    rintro (hnil | hzero)
    · exact hblock hnil
    · exact Nat.not_lt_zero r (hzero ▸ hlt)
  · have hstart : BlocksInv f pinnedRegs [] (f.crossBlockRegs pinnedRegs).zipIdx 0 :=
      ⟨fun _ _ => rfl, by rintro _ ⟨⟩, by rintro _ ⟨⟩⟩
    exact (scanBlocks_inv hf hwf.labels f.blocks [] rfl hstart).allocated hwf hf

/-! ## Registers along a walk -/

theorem append_cons_left_eq {α : Type} {a : α} : ∀ {xs xs' ys ys' : List α}, a ∉ xs → a ∉ xs' →
    xs ++ a :: ys = xs' ++ a :: ys' → xs = xs'
  | [], [], _, _, _, _, _ => rfl
  | [], x :: xs', _, _, _, hx', h => absurd (List.cons.inj h).1 (ne_of_not_mem_cons hx')
  | x :: xs, [], _, _, hx, _, h => absurd (List.cons.inj h).1.symm (ne_of_not_mem_cons hx)
  | x :: xs, x' :: xs', _, _, hx, hx', h => by
    obtain ⟨rfl, htail⟩ := List.cons.inj h
    rw [append_cons_left_eq (not_mem_of_not_mem_cons hx) (not_mem_of_not_mem_cons hx') htail]

/-- Between a definition of a register and a use no other register is given its slot. -/
theorem Allocated.walk {a : RegAlloc} (h : Allocated f a) (hf : f.DefinedFirst) {q : Pos} {ps : List Pos}
    (hw : f.Walk Terminator.successors (q :: ps)) (hu : f.Uses q r)
    (hslot : a.regToSlot.lookup r = some slot) :
    ∃ newer p older, ps = newer ++ p :: older ∧ f.Defines p r ∧
      ∀ p' ∈ newer, ∀ r', f.Defines p' r' → a.regToSlot.lookup r' ≠ some slot := by
  obtain ⟨p, hp, hpd⟩ := hf.first q ps r hw hu
  obtain ⟨newer, older, hps, hnewest⟩ := eq_append_cons_of_mem hp
  refine ⟨newer, p, older, hps, hpd, fun p' hp' r' hp'd hslot' => ?_⟩
  have hne : r ≠ r' := by
    rintro rfl
    exact hnewest (hf.one p' p r hp'd hpd ▸ hp')
  obtain ⟨b, d, d', hd, hd', huses, _, hlast⟩ := h.apart r r' slot hne hslot hslot'
  obtain rfl := hf.one _ _ r hd hpd
  obtain rfl := hf.one _ _ r' hd' hp'd
  obtain ⟨qb, j⟩ := q
  obtain rfl : qb = b := huses _ hu
  have hdj : d < j := hf.lt_use hd hu hw
  -- the walk from the definition to the use stays in the block
  obtain ⟨newer', older', hps', hbetween⟩ := hw.through hdj
  have hsame : newer = newer' := by
    refine append_cons_left_eq hnewest (fun hmem => ?_) (hps.symm.trans hps')
    exact Nat.lt_irrefl d (hbetween _ hmem).2.1
  have hlow : d < d' := (hbetween _ (hsame ▸ hp')).2.1
  have hhigh : d' < j := (hbetween _ (hsame ▸ hp')).2.2
  rcases hlast with ⟨l, hl, _, hmax⟩ | ⟨l, hl, hlu, _⟩
  · exact absurd (hmax j hu) (by omega)
  · rw [hps'] at hw
    have hwd := Func.Walk.of_append (⟨qb, j⟩ :: newer') hw
    obtain ⟨newer'', older'', hps'', _⟩ := hwd.through hl
    rw [hps''] at hwd
    have hwl := Func.Walk.of_append (⟨qb, d⟩ :: newer'') hwd
    exact absurd (hf.lt_use hd' hlu hwl) (by omega)

/-- The result of an instruction is not given the slot of an operand, so it does not matter whether the
emitted code writes it before it has read all of them. -/
theorem Allocated.result_apart {a : RegAlloc} (h : Allocated f a) (hf : f.DefinedFirst) {q : Pos}
    {ps : List Pos} (hw : f.Walk Terminator.successors (q :: ps)) {r' : Reg} (hu : f.Uses q r)
    (hd : f.Defines q r') : a.regToSlot.lookup r ≠ a.regToSlot.lookup r' := by
  obtain ⟨slot, hslot⟩ := h.named q r (.inr hu)
  rw [hslot]
  intro hslot'
  obtain ⟨b, j⟩ := q
  have hne : r ≠ r' := by
    rintro rfl
    exact Nat.lt_irrefl j (hf.lt_use hd hu hw)
  obtain ⟨b', d, d', hdef, hdef', huses, _, hlast⟩ := h.apart r r' slot hne hslot hslot'.symm
  obtain rfl : b = b' := huses _ hu
  obtain rfl : d' = j := congrArg Pos.instr (hf.one _ _ r' hdef' hd)
  have hdj : d < d' := hf.lt_use hdef hu hw
  rcases hlast with ⟨l, hl, _, hmax⟩ | ⟨l, hl, hlu, _⟩
  · exact absurd (hmax d' hu) (by omega)
  · obtain ⟨newer, older, rfl, _⟩ := hw.through (Nat.lt_trans hl hdj)
    have hwl := Func.Walk.of_append (⟨b, d'⟩ :: newer) hw
    exact absurd (hf.lt_use hdef' hlu hwl) (by omega)

end Elle.Wasm

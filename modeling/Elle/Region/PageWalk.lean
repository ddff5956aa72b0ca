import Elle.Region.Page

/-! # The walk finds the header

`PageInv` is what a page keeps while it is used.  A candidate base of the walk is the true base or a base page boundary
inside, where the page has zeros, so the first tag that fits is the page's own.
-/

namespace Elle

/-! ### One allocation -/

/-- An object slot starts at or behind the cursor; a base page boundary that it passes is left free before it, and is
zero. -/
structure SlotSpec (L : Layout) (p : RegionPage) (m : Mem) (slot : Nat) (p' : RegionPage) (m' : Mem) : Prop where
  next : p' = { p with objCursor := slot + L.objSize }
  le : p.objCursor ≤ slot
  room : slot + L.objSize ≤ p.dataCursor
  passed : ∀ b, L.basePage ∣ b → p.objCursor ≤ b → b < slot + L.objSize →
    b + headerSize ≤ slot ∧ ∀ i < headerSize, m' (p.page.base + b + i) = 0
  frame : ∀ a, a < p.page.base + p.objCursor ∨ p.page.base + slot ≤ a → m' a = m a

theorem MmapPage.len_le (p : MmapPage) : p.len ≤ 2 ^ 62 := by
  obtain ⟨l, hl⟩ := p.len_pow
  have hlt := p.len_lt
  rw [hl] at hlt ⊢
  exact Nat.pow_le_pow_right Nat.two_pos (Nat.lt_succ_iff.1 ((Nat.pow_lt_pow_iff_right Nat.one_lt_two).1 hlt))

namespace Layout

variable (L : Layout)

theorem objAlign_dvd : L.objAlign ∣ L.basePage := by
  obtain ⟨k, hk⟩ := L.basePage_pow
  obtain ⟨j, hj⟩ := L.objAlign_pow
  have hfits := L.fits
  rw [hj, hk] at hfits ⊢
  exact Nat.pow_dvd_pow 2 ((Nat.pow_le_pow_iff_right Nat.one_lt_two).1 (by omega))

theorem isCeil_objAlign {x : Nat} (hx : x + L.objAlign ≤ 2 ^ 64) :
    IsCeil x L.objAlign (maskDown (x + L.objAlign - 1) L.objAlign) := by
  obtain ⟨j, hj⟩ := L.objAlign_pow
  rw [hj] at hx ⊢
  exact isCeil_maskDown hx ((Nat.pow_le_pow_iff_right Nat.one_lt_two).1 (by omega))

theorem isCeil_basePage (x : Nat) : IsCeil x L.basePage (nextMultipleOf x L.basePage) := by
  have := L.fits
  rw [nextMultipleOf, Nat.mul_comm]
  exact isCeil_div x (by have := L.objSize_pos; omega)

end Layout

theorem slotSpec {L : Layout} {p p' : RegionPage} {m m' : Mem} {slot : Nat} (hbase : L.basePage ≤ p.page.len)
    (hcursor : p.objCursor ≤ p.page.len) (h : p.tryAllocObj L m = some (slot, p', m')) : SlotSpec L p m slot p' m' := by
  have hfits := L.fits
  have hlen := p.page.len_le
  -- the aligned cursor, and the base page boundary at or above it
  have haligned := L.isCeil_objAlign (x := p.objCursor) (by omega)
  simp only [RegionPage.tryAllocObj] at h
  generalize maskDown (p.objCursor + L.objAlign - 1) L.objAlign = aligned at h haligned
  have hboundary := L.isCeil_basePage aligned
  generalize nextMultipleOf aligned L.basePage = boundary at h hboundary
  have hfirst : ∀ b, L.basePage ∣ b → p.objCursor ≤ b → boundary ≤ b := fun b hb hle =>
    hboundary.least b hb (haligned.least b (L.objAlign_dvd.trans hb) hle)
  have ha1 := haligned.le
  have ha2 := haligned.lt
  have hb1 := hboundary.le
  by_cases hcross : boundary < aligned + L.objSize
  · simp only [hcross, if_true] at h
    -- the slot starts behind the boundary, and ends before the next one
    have hslot := L.isCeil_objAlign (x := boundary + headerSize) (by omega)
    split at h
    · simp at h
    rename_i hroom
    obtain ⟨rfl, rfl, rfl⟩ := h
    generalize maskDown (boundary + headerSize + L.objAlign - 1) L.objAlign = slot at hslot hroom
    have hs1 := hslot.le
    have hs2 := hslot.lt
    refine ⟨rfl, by omega, by omega, fun b hb hle hlt => ?_, fun a ha => Mem.fill_of_apart (by omega)⟩
    have hbb : b = boundary := by
      have h1 := hfirst b hb hle
      by_contra hne
      obtain ⟨c, hc⟩ : L.basePage ∣ b - boundary := Nat.dvd_sub hb hboundary.dvd
      have hpos : 0 < c := Nat.pos_of_ne_zero fun h0 => by rw [h0, Nat.mul_zero] at hc; omega
      have := Nat.le_mul_of_pos_right L.basePage hpos
      omega
    subst hbb
    exact ⟨hs1, fun i hi => Mem.fill_of_mem hi⟩
  · simp only [hcross, if_false] at h
    split at h
    · simp at h
    obtain ⟨rfl, rfl, rfl⟩ := h
    refine ⟨rfl, ha1, by omega, fun b hb hle hlt => ?_, fun _ _ => rfl⟩
    have := hfirst b hb hle
    omega

theorem allocData_spec {p p' : RegionPage} {size align start : Nat} (h : p.allocData size align = some (start, p')) :
    p' = { p with dataCursor := start } ∧ p.objCursor ≤ start ∧ start + size ≤ p.dataCursor := by
  simp only [RegionPage.allocData] at h
  split at h
  · simp at h
  split at h
  · simp at h
  obtain ⟨rfl, rfl⟩ := h
  have := maskDown_le (p.dataCursor - size) align
  exact ⟨rfl, by omega, by omega⟩

/-! ### A page in use -/

/-- Two pieces of a page, each an offset and a length, have no byte in common. -/
def Apart (x y : Nat × Nat) : Prop := x.1 + x.2 ≤ y.1 ∨ y.1 + y.2 ≤ x.1

/-- What a page of the given region keeps while it is used. -/
structure PageInv (L : Layout) (page : MmapPage) (regionId : UInt32) (stamp : PageStamp) (u : PageUse) : Prop where
  same : u.page.page = page
  stamped : Stamped u.mem page.base regionId stamp page.len
  header_le : headerSize ≤ u.page.objCursor
  cursors : u.page.objCursor ≤ u.page.dataCursor
  data_le : u.page.dataCursor ≤ page.len
  passed : ∀ b, L.basePage ∣ b → 0 < b → b < u.page.objCursor →
    b + headerSize ≤ u.page.objCursor ∧ ∀ i < headerSize, u.mem (page.base + b + i) = 0
  slots : ∀ a ∈ u.slots, headerSize ≤ a ∧ a + L.objSize ≤ u.page.objCursor ∧
    ∀ b, L.basePage ∣ b → 0 < b → a + L.objSize ≤ b ∨ b + headerSize ≤ a
  spans : ∀ d ∈ u.spans, u.page.dataCursor ≤ d.1 ∧ d.1 + d.2 ≤ page.len
  slots_apart : (u.slots.map fun a => (a, L.objSize)).Pairwise Apart
  spans_apart : u.spans.Pairwise Apart

variable {L : Layout} {page : MmapPage} {regionId : UInt32} {stamp : PageStamp} {u : PageUse}

theorem pageInv_new (L : Layout) (page : MmapPage) (regionId : UInt32) (stamp : PageStamp) (m : Mem)
    (hbase : L.basePage ≤ page.len) : PageInv L page regionId stamp (.new m page regionId stamp) := by
  have hfits := L.fits
  have hpos := L.objSize_pos
  refine ⟨rfl, stamped_writeHeader _ _ _ _ _, Nat.le_refl _, ?_, Nat.le_refl _, fun b hb h0 hlt => ?_, by simp [PageUse.new],
    by simp [PageUse.new], .nil, .nil⟩
  · show headerSize ≤ page.len
    omega
  · have := Nat.le_of_dvd h0 hb
    have hlt' : b < headerSize := hlt
    omega

namespace PageInv

section

variable (h : PageInv L page regionId stamp u)
include h

theorem of_mem {m : Mem} (hheader : ∀ i < headerSize, m (page.base + i) = u.mem (page.base + i))
    (hpassed : ∀ b, L.basePage ∣ b → 0 < b → b < u.page.objCursor →
      ∀ i < headerSize, m (page.base + b + i) = u.mem (page.base + b + i)) :
    PageInv L page regionId stamp { u with mem := m } :=
  ⟨h.same, h.stamped.congr hheader, h.header_le, h.cursors, h.data_le,
    fun b hb h0 hlt => ⟨(h.passed b hb h0 hlt).1, fun i hi => (hpassed b hb h0 hlt i hi).trans ((h.passed b hb h0 hlt).2 i hi)⟩,
    h.slots, h.spans, h.slots_apart, h.spans_apart⟩

/-- Overwriting bytes apart from the header and from the boundaries passed. -/
theorem fill {a n : Nat} {f : Nat → UInt8}
    (hheader : a + n ≤ page.base ∨ page.base + headerSize ≤ a)
    (hpassed : ∀ b, L.basePage ∣ b → 0 < b → b < u.page.objCursor →
      a + n ≤ page.base + b ∨ page.base + b + headerSize ≤ a) :
    PageInv L page regionId stamp { u with mem := u.mem.fill a n f } :=
  h.of_mem (fun i hi => Mem.fill_of_apart (by omega)) fun b hb h0 hlt i hi =>
    Mem.fill_of_apart (by have := hpassed b hb h0 hlt; omega)

theorem obj (hbase : L.basePage ≤ page.len) (bytes : Nat → UInt8) :
    PageInv L page regionId stamp (u.apply L (.obj bytes)) := by
  rw [PageUse.apply]
  split
  · exact h
  rename_i slot p' m' halloc
  have hsame := h.same
  have hcur := h.cursors
  have hdata := h.data_le
  have hheader := h.header_le
  obtain ⟨rfl, hle, hroom, hpassed, hframe⟩ := slotSpec (hsame ▸ hbase) (by rw [hsame]; omega) halloc
  have hpage : u.page.page.base = page.base := by rw [hsame]
  rw [hpage] at hpassed hframe
  -- every boundary is before the cursor, passed by this slot, or behind it
  have hslot : ∀ b, L.basePage ∣ b → 0 < b → slot + L.objSize ≤ b ∨ b + headerSize ≤ slot := fun b hb h0 => by
    by_cases hlt : b < u.page.objCursor
    · have := (h.passed b hb h0 hlt).1
      omega
    · by_cases hend : b < slot + L.objSize
      · exact .inr (hpassed b hb (by omega) hend).1
      · exact .inl (by omega)
  have hinv : PageInv L page regionId stamp { u with
      page := { u.page with objCursor := slot + L.objSize }, mem := m', slots := slot :: u.slots } := by
    refine ⟨hsame, h.stamped.congr fun i hi => hframe _ (by omega), ?_, hroom, hdata, fun b hb h0 hlt => ?_,
      fun a ha => ?_, h.spans, ?_, h.spans_apart⟩
    · show headerSize ≤ slot + L.objSize
      omega
    · show b + headerSize ≤ slot + L.objSize ∧ _
      by_cases hold : b < u.page.objCursor
      · obtain ⟨hend, hzero⟩ := h.passed b hb h0 hold
        exact ⟨by omega, fun i hi => (hframe _ (by omega)).trans (hzero i hi)⟩
      · obtain ⟨hend, hzero⟩ := hpassed b hb (by omega) hlt
        exact ⟨by omega, hzero⟩
    · rcases List.mem_cons.1 ha with rfl | ha
      · exact ⟨by omega, Nat.le_refl _, hslot⟩
      · obtain ⟨h1, h2, h3⟩ := h.slots a ha
        exact ⟨h1, h2.trans (by show _ ≤ slot + L.objSize; omega), h3⟩
    · refine List.pairwise_cons.2 ⟨fun x hx => .inr ?_, h.slots_apart⟩
      obtain ⟨a, ha, rfl⟩ := List.mem_map.1 hx
      have := (h.slots a ha).2.1
      show a + L.objSize ≤ slot
      omega
  refine hinv.fill (a := u.page.page.base + slot) (.inr (by omega)) fun b hb h0 hlt => ?_
  have := hslot b hb h0
  omega

theorem data (size align : Nat) (bytes : Nat → UInt8) :
    PageInv L page regionId stamp (u.apply L (.data size align bytes)) := by
  rw [PageUse.apply]
  split
  · exact h
  rename_i start p' halloc
  obtain ⟨rfl, hobj, hend⟩ := allocData_spec halloc
  have hdata := h.data_le
  have hheader := h.header_le
  have hinv : PageInv L page regionId stamp
      { u with page := { u.page with dataCursor := start }, spans := (start, size) :: u.spans } := by
    refine ⟨h.same, h.stamped, h.header_le, hobj, ?_, h.passed, h.slots, fun d hd => ?_, h.slots_apart, ?_⟩
    · show start ≤ page.len
      omega
    · show start ≤ d.1 ∧ _
      rcases List.mem_cons.1 hd with rfl | hd
      · exact ⟨Nat.le_refl _, by simp only; omega⟩
      · have := h.spans d hd
        exact ⟨by omega, this.2⟩
    · refine List.pairwise_cons.2 ⟨fun d hd => .inl ?_, h.spans_apart⟩
      have := (h.spans d hd).1
      omega
  have hbase : u.page.page.base = page.base := by rw [h.same]
  refine hinv.fill (a := u.page.page.base + start) (.inr (by omega)) fun b hb h0 hlt => ?_
  have := (h.passed b hb h0 hlt).1
  omega

theorem write {addr n : Nat} {bytes : Nat → UInt8}
    (ha : u.Allowed L (.write addr n bytes)) : PageInv L page regionId stamp (u.apply L (.write addr n bytes)) := by
  have hheader := h.header_le
  have hcur := h.cursors
  have hdata := h.data_le
  have hpassed : ∀ b, L.basePage ∣ b → 0 < b → b < u.page.objCursor → b + headerSize ≤ u.page.objCursor :=
    fun b hb h0 hlt => (h.passed b hb h0 hlt).1
  rw [PageUse.Allowed, h.same] at ha
  rcases ha with ⟨slot, hslot, h1, h2⟩ | ⟨span, hspan, h1, h2⟩ | hout | hout
  · obtain ⟨h3, -, h4⟩ := h.slots slot hslot
    exact h.fill (.inr (by omega)) fun b hb h0 _ => by have := h4 b hb h0; omega
  · have := h.spans span hspan
    exact h.fill (.inr (by omega)) fun b hb h0 hlt => by have := hpassed b hb h0 hlt; omega
  · exact h.fill (.inl hout) fun b _ _ _ => by omega
  · exact h.fill (.inr (by omega)) fun b hb h0 hlt => by have := hpassed b hb h0 hlt; omega

end

end PageInv

theorem pageInv_of_reachable {m : Mem} (hbase : L.basePage ≤ page.len)
    (h : Runs.Reachable (fun u op => u.apply L op) (fun u op => u.Allowed L op) (.new m page regionId stamp) u) :
    PageInv L page regionId stamp u := by
  refine h.inv (pageInv_new L page regionId stamp m hbase) fun u op hu ha => ?_
  cases op with
  | obj bytes => exact hu.obj hbase bytes
  | data size align bytes => exact hu.data size align bytes
  | write addr n bytes => exact hu.write ha

/-! ### The walk -/

/-- The offset of a candidate base: the offset of the pointer, rounded down. -/
theorem maskDown_page {off j l : Nat} (hl : page.len = 2 ^ l) (hj : j ≤ l) (hoff : off < page.len) :
    maskDown (page.base + off) (2 ^ j) = page.base + 2 ^ j * (off / 2 ^ j) := by
  have hl64 : l ≤ 64 := by
    have := page.len_lt
    rw [hl] at this
    exact (Nat.lt_trans ((Nat.pow_lt_pow_iff_right Nat.one_lt_two).1 this) (by omega)).le
  obtain ⟨q, hq⟩ := (Nat.pow_dvd_pow 2 hj).trans (hl ▸ page.aligned)
  have hspace := page.inSpace
  rw [maskDown_two_pow (by omega) (hj.trans hl64), hq, Nat.mul_add_div (Nat.two_pow_pos j), Nat.mul_add]

section

variable (h : PageInv L page regionId stamp u)
include h

/-- A candidate smaller than the page is the page's header with another tag, or a boundary that is zero. -/
theorem PageInv.headerIfValid_none {off j l : Nat} (hl : page.len = 2 ^ l)
    (hj : j < l) (hbase : L.basePage ∣ 2 ^ j) (hoff : off < u.page.objCursor) :
    headerIfValid u.mem (page.base + off) (2 ^ j) = none := by
  have hcur := h.cursors
  have hdata := h.data_le
  have hl64 : l < 63 := by
    have := page.len_lt
    rw [hl] at this
    exact (Nat.pow_lt_pow_iff_right Nat.one_lt_two).1 this
  rw [headerIfValid, maskDown_page hl hj.le (by omega)]
  refine if_neg fun htag => ?_
  by_cases hzero : off / 2 ^ j = 0
  · rw [hzero, Nat.mul_zero, Nat.add_zero, h.stamped.tag, hl] at htag
    exact absurd (sizeTag_inj (by omega) (by omega) htag) hj.ne'
  · have hpos : 0 < 2 ^ j * (off / 2 ^ j) := Nat.mul_pos (Nat.two_pow_pos j) (Nat.pos_of_ne_zero hzero)
    have hle := Nat.mul_div_le off (2 ^ j)
    have hbytes := (h.passed _ (hbase.trans (Nat.dvd_mul_right _ _)) hpos (by omega)).2
    have hword : u.mem.u32 (page.base + 2 ^ j * (off / 2 ^ j) + 12) = 0 := Mem.u32_eq_zero fun i hi => by
      rw [Nat.add_assoc]
      exact hbytes (12 + i) (by rw [headerSize]; omega)
    exact sizeTag_ne_zero (by omega) (htag.symm.trans hword)

theorem PageInv.headerIfValid_len {off : Nat} (hoff : off < page.len) :
    headerIfValid u.mem (page.base + off) page.len = some (regionId, stamp) := by
  obtain ⟨l, hl⟩ := page.len_pow
  have hmask : maskDown (page.base + off) page.len = page.base := by
    have := maskDown_page hl (Nat.le_refl l) hoff
    rwa [← hl, Nat.div_eq_of_lt hoff, Nat.mul_zero, Nat.add_zero] at this
  rw [headerIfValid, hmask, if_pos h.stamped.tag, h.stamped.regionId, h.stamped.generation, h.stamped.store]

/-- From any alignment between the base page and the page's length the walk comes to the length. -/
theorem PageInv.headerWalk {off l : Nat} (hl : page.len = 2 ^ l)
    (hoff : off < u.page.objCursor) {d fuel : Nat} (hd : d ≤ l) (hbase : L.basePage ∣ 2 ^ (l - d)) (hfuel : d < fuel) :
    Elle.headerWalk u.mem (page.base + off) fuel (2 ^ (l - d)) = (regionId, stamp) := by
  have hcur := h.cursors
  have hdata := h.data_le
  induction d generalizing fuel with
  | zero =>
    obtain ⟨fuel, rfl⟩ : ∃ n, fuel = n + 1 := ⟨fuel - 1, by omega⟩
    rw [Nat.sub_zero, ← hl, Elle.headerWalk, if_neg (by rw [hl]; exact (Nat.two_pow_pos l).ne'),
      h.headerIfValid_len (by omega)]
  | succ d ih =>
    obtain ⟨fuel, rfl⟩ : ∃ n, fuel = n + 1 := ⟨fuel - 1, by omega⟩
    have hlt := page.len_lt
    have hdouble : 2 ^ (l - (d + 1)) * 2 = 2 ^ (l - d) := by rw [← Nat.pow_succ]; congr 1; omega
    have hle : 2 ^ (l - d) ≤ 2 ^ l := Nat.pow_le_pow_right Nat.two_pos (by omega)
    rw [Elle.headerWalk, if_neg (Nat.two_pow_pos _).ne', h.headerIfValid_none hl (by omega) hbase hoff]
    rw [hdouble, Nat.mod_eq_of_lt (by rw [← hl] at hle; omega)]
    exact ih (by omega) (hbase.trans (Nat.pow_dvd_pow 2 (by omega))) (by omega)

end

/-- In every run of object and data allocations in a page, over stale memory and with arbitrary bytes written into what
it handed out, the walk from a slot finds the page's own region id and stamp, and the header, the slots and the data
spans lie apart. -/
theorem header_of_page_ptr_finds_own {m : Mem} {minPageSize : Nat} (hmin : ∃ k, minPageSize = L.basePage * 2 ^ k)
    (hlen : minPageSize ≤ page.len)
    (h : Runs.Reachable (fun u op => u.apply L op) (fun u op => u.Allowed L op) (.new m page regionId stamp) u) :
    (∀ slot ∈ u.slots, headerOfPagePtr u.mem (page.base + slot) minPageSize = (regionId, stamp)) ∧
    ((0, headerSize) :: (u.slots.map (fun a => (a, L.objSize)) ++ u.spans)).Pairwise Apart := by
  obtain ⟨k, hk⟩ := hmin
  obtain ⟨n, hn⟩ := L.basePage_pow
  obtain ⟨l, hl⟩ := page.len_pow
  have hbase : L.basePage ∣ minPageSize := hk ▸ Nat.dvd_mul_right _ _
  have hpow : minPageSize = 2 ^ (n + k) := by rw [hk, hn, Nat.pow_add]
  have hle : n + k ≤ l := (Nat.pow_le_pow_iff_right Nat.one_lt_two).1 (hpow ▸ hl ▸ hlen)
  have hl63 : l < 63 := by
    have := page.len_lt
    rw [hl] at this
    exact (Nat.pow_lt_pow_iff_right Nat.one_lt_two).1 this
  have hinv := pageInv_of_reachable
    ((Nat.le_of_dvd (by rw [hpow]; exact Nat.two_pow_pos _) hbase).trans hlen) h
  have hcur := hinv.cursors
  have hheader := hinv.header_le
  refine ⟨fun slot hslot => ?_, List.pairwise_cons.2 ⟨fun x hx => .inl ?_, List.pairwise_append.2
    ⟨hinv.slots_apart, hinv.spans_apart, fun x hx y hy => .inl ?_⟩⟩⟩
  · have hsub : l - (l - (n + k)) = n + k := by omega
    have hoff : slot < u.page.objCursor := by
      have := (hinv.slots slot hslot).2.1
      have := L.objSize_pos
      omega
    have := hinv.headerWalk hl hoff (d := l - (n + k)) (by omega) (by rw [hsub, ← hpow]; exact hbase)
      (show l - (n + k) < 64 by omega)
    rwa [hsub, ← hpow] at this
  · rcases List.mem_append.1 hx with hx | hx
    · obtain ⟨a, ha, rfl⟩ := List.mem_map.1 hx
      have := (hinv.slots a ha).1
      omega
    · have := (hinv.spans x hx).1
      omega
  · obtain ⟨a, ha, rfl⟩ := List.mem_map.1 hx
    have h1 := (hinv.slots a ha).2.1
    have h2 := (hinv.spans y hy).1
    omega

/-- Objects of 2000 bytes over base pages of 4096, in a page of 8192: the third slot steps over the boundary at 4096,
and from each slot the walk, which starts at 4096, finds region 7. -/
theorem header_of_page_ptr_finds_own_stepped :
    let L : Layout := ⟨4096, 2000, 16, ⟨12, rfl⟩, ⟨4, rfl⟩, by decide, by decide⟩
    let page : MmapPage := ⟨32768, 8192, ⟨13, rfl⟩, ⟨4, rfl⟩, by decide, by decide⟩
    let ops : List PageOp := [.obj fun _ => 255, .data 100 8 fun _ => 255, .obj fun _ => 255, .obj fun _ => 255]
    let u := ops.foldl (fun u op => PageUse.apply L u op) (PageUse.new (fun _ => 170) page 7 ⟨3, 1⟩)
    u.slots = [4112, 2016, 16] ∧ u.spans = [(8088, 100)] ∧
    ∀ slot ∈ u.slots, headerOfPagePtr u.mem (page.base + slot) 4096 = (7, ⟨3, 1⟩) := by
  intro L page ops u
  have h : Runs.Reachable (fun u op => u.apply L op) (fun u op => u.Allowed L op) (.new (fun _ => 170) page 7 ⟨3, 1⟩) u :=
    Runs.Reachable.start.foldl ⟨trivial, trivial, trivial, trivial, trivial⟩
  exact ⟨by decide +kernel, by decide +kernel, (header_of_page_ptr_finds_own ⟨0, rfl⟩ (by decide) h).1⟩

end Elle

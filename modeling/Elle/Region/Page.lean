import Elle.Lib.Mem
import Elle.Lib.Runs

/-! # Region pages and the walk to their header

A region page is a self-aligned mapping whose first 16 bytes say which region it belongs to (`regionpool/header.rs`).
Objects bump up behind the header and inline data bumps down from the top (`regionpool.rs`).  A pointer does not carry
the size of its page, so `header_of_page_ptr` masks it down by one power of two after the other and takes the first
candidate base whose size tag fits.
-/

namespace Elle

/-! ### The header -/

/-- Which store claimed a page, and at which generation of the region id. -/
structure PageStamp where
  generation : UInt32
  store : UInt32
  deriving DecidableEq

/-- The bytes at the base of a page that belong to the pool. -/
def headerSize : Nat := 16

/-- The magic in the high bits of a size tag. -/
def pageMagic : UInt32 := 0x00E11E5C

/-- The number of trailing zero bits of a 64-bit word. -/
def trailingZeros (n : Nat) : Nat := if n = 0 then 64 else if n % 2 = 1 then 0 else trailingZeros (n / 2) + 1
termination_by n
decreasing_by omega

def sizeTag (size : Nat) : UInt32 := pageMagic <<< 8 ||| UInt32.ofNat (trailingZeros size)

/-- Stamp a claimed page with the identity of the region that takes it. -/
def writeHeader (m : Mem) (base : Nat) (regionId : UInt32) (stamp : PageStamp) (len : Nat) : Mem :=
  (((m.putU32 base regionId).putU32 (base + 4) stamp.generation).putU32 (base + 8) stamp.store).putU32 (base + 12)
    (sizeTag len)

/-- The header at the `size`-aligned base of an address, if it is the header of a page of exactly that size. -/
def headerIfValid (m : Mem) (addr size : Nat) : Option (UInt32 × PageStamp) :=
  let base := maskDown addr size
  if m.u32 (base + 12) = sizeTag size then some (m.u32 base, ⟨m.u32 (base + 4), m.u32 (base + 8)⟩) else none

/-- Try the alignments from `size` up; a doubling past the address width gives zero and ends the walk. -/
def headerWalk (m : Mem) (addr : Nat) : Nat → Nat → UInt32 × PageStamp
  | 0, _ => (0, ⟨0, 0⟩)
  | n + 1, size =>
    if size = 0 then (0, ⟨0, 0⟩)
    else match headerIfValid m addr size with
      | some header => header
      | none => headerWalk m addr n (size * 2 % 2 ^ 64)

/-- The region id and the stamp of the page a pointer points into.  After 64 doublings every size is zero. -/
def headerOfPagePtr (m : Mem) (addr minPageSize : Nat) : UInt32 × PageStamp := headerWalk m addr 64 minPageSize

theorem trailingZeros_two_pow (k : Nat) : trailingZeros (2 ^ k) = k := by
  induction k with
  | zero => rw [trailingZeros]; rfl
  | succ k ih =>
    have hpos := Nat.two_pow_pos k
    rw [trailingZeros, if_neg (by omega), if_neg (by omega), show 2 ^ (k + 1) / 2 = 2 ^ k by omega, ih]

theorem sizeTag_two_pow {k : Nat} (hk : k < 64) : (sizeTag (2 ^ k)).toNat = 0xE11E5C00 + k := by
  rw [sizeTag, trailingZeros_two_pow]
  revert k
  decide

theorem sizeTag_inj {j k : Nat} (hj : j < 64) (hk : k < 64) (h : sizeTag (2 ^ j) = sizeTag (2 ^ k)) : j = k := by
  have := congrArg UInt32.toNat h
  rw [sizeTag_two_pow hj, sizeTag_two_pow hk] at this
  omega

theorem sizeTag_ne_zero {k : Nat} (hk : k < 64) : sizeTag (2 ^ k) ≠ 0 := fun h => by
  have := congrArg UInt32.toNat h
  rw [sizeTag_two_pow hk] at this
  exact absurd this (by simp)

structure Stamped (m : Mem) (base : Nat) (regionId : UInt32) (stamp : PageStamp) (len : Nat) : Prop where
  regionId : m.u32 base = regionId
  generation : m.u32 (base + 4) = stamp.generation
  store : m.u32 (base + 8) = stamp.store
  tag : m.u32 (base + 12) = sizeTag len

theorem stamped_writeHeader (m : Mem) (base : Nat) (regionId : UInt32) (stamp : PageStamp) (len : Nat) :
    Stamped (writeHeader m base regionId stamp len) base regionId stamp len := by
  refine ⟨?_, ?_, ?_, Mem.u32_putU32 _ _ _⟩
  · rw [writeHeader, Mem.u32_putU32_of_apart (by omega), Mem.u32_putU32_of_apart (by omega),
      Mem.u32_putU32_of_apart (by omega), Mem.u32_putU32]
  · rw [writeHeader, Mem.u32_putU32_of_apart (by omega), Mem.u32_putU32_of_apart (by omega), Mem.u32_putU32]
  · rw [writeHeader, Mem.u32_putU32_of_apart (by omega), Mem.u32_putU32]

theorem Stamped.congr {m m' : Mem} {base len : Nat} {regionId : UInt32} {stamp : PageStamp}
    (h : Stamped m base regionId stamp len) (hm : ∀ i < headerSize, m' (base + i) = m (base + i)) :
    Stamped m' base regionId stamp len := by
  have hword : ∀ d, d + 4 ≤ headerSize → m'.u32 (base + d) = m.u32 (base + d) := fun d hd =>
    Mem.u32_congr fun i hi => by rw [Nat.add_assoc]; exact hm (d + i) (by omega)
  exact ⟨(hword 0 (by decide)).trans h.regionId, (hword 4 (by decide)).trans h.generation,
    (hword 8 (by decide)).trans h.store, (hword 12 (by decide)).trans h.tag⟩

/-! ### Allocation in a page -/

/-- The host's base page and the size and alignment of a heap object, which fits between two base page boundaries. -/
structure Layout where
  basePage : Nat
  objSize : Nat
  objAlign : Nat
  basePage_pow : ∃ k, basePage = 2 ^ k
  objAlign_pow : ∃ k, objAlign = 2 ^ k
  objSize_pos : 0 < objSize
  fits : headerSize + objAlign + objSize ≤ basePage

/-- A mapping: a power of two of bytes, aligned to its own length.  No allocation is longer than `isize::MAX`. -/
structure MmapPage where
  base : Nat
  len : Nat
  len_pow : ∃ k, len = 2 ^ k
  aligned : len ∣ base
  inSpace : base + len ≤ 2 ^ 64
  len_lt : len < 2 ^ 63

structure RegionPage where
  page : MmapPage
  objCursor : Nat
  dataCursor : Nat

def nextMultipleOf (x n : Nat) : Nat := (x + n - 1) / n * n

namespace RegionPage

/-- Take a claimed page for a region: stamp it, and put the cursors behind the header and at the top. -/
def new (m : Mem) (page : MmapPage) (regionId : UInt32) (stamp : PageStamp) : RegionPage × Mem :=
  (⟨page, headerSize, page.len⟩, writeHeader m page.base regionId stamp page.len)

/-- Bump the object cursor, if there is room: the offset of the slot, the page and the memory.  A slot that would cover
the header-sized bytes at a base page boundary starts after them, and they are written zero. -/
def tryAllocObj (L : Layout) (p : RegionPage) (m : Mem) : Option (Nat × RegionPage × Mem) :=
  let aligned := maskDown (p.objCursor + L.objAlign - 1) L.objAlign
  let boundary := nextMultipleOf aligned L.basePage
  let crosses := boundary < aligned + L.objSize
  let slot := if crosses then maskDown (boundary + headerSize + L.objAlign - 1) L.objAlign else aligned
  if slot + L.objSize > p.dataCursor then none
  else some (slot, { p with objCursor := slot + L.objSize },
    if crosses then m.fill (p.page.base + boundary) headerSize fun _ => 0 else m)

/-- Bump the data cursor down, if there is room: the offset of the span, and the page. -/
def allocData (p : RegionPage) (size align : Nat) : Option (Nat × RegionPage) :=
  if size > p.dataCursor then none
  else
    let start := maskDown (p.dataCursor - size) align
    if start < p.objCursor then none else some (start, { p with dataCursor := start })

end RegionPage

/-! ### A page in use -/

/-- A page of a region with the memory it lies in, the offsets of the slots it handed out and its data spans. -/
structure PageUse where
  page : RegionPage
  mem : Mem
  slots : List Nat
  spans : List (Nat × Nat)

/-- What happens to a page: an object is written into a new slot, bytes are written into a new data span, or bytes
anywhere in memory are overwritten. -/
inductive PageOp where
  | obj (bytes : Nat → UInt8)
  | data (size align : Nat) (bytes : Nat → UInt8)
  | write (addr n : Nat) (bytes : Nat → UInt8)

namespace PageUse

/-- A page just claimed, over whatever its memory held. -/
def new (m : Mem) (page : MmapPage) (regionId : UInt32) (stamp : PageStamp) : PageUse :=
  let p := RegionPage.new m page regionId stamp
  ⟨p.1, p.2, [], []⟩

def apply (L : Layout) (u : PageUse) : PageOp → PageUse
  | .obj bytes =>
    match u.page.tryAllocObj L u.mem with
    | none => u
    | some (slot, page, m) =>
      { u with page, mem := m.fill (u.page.page.base + slot) L.objSize bytes, slots := slot :: u.slots }
  | .data size align bytes =>
    match u.page.allocData size align with
    | none => u
    | some (start, page) =>
      { u with page, mem := u.mem.fill (u.page.page.base + start) size bytes, spans := (start, size) :: u.spans }
  | .write addr n bytes => { u with mem := u.mem.fill addr n bytes }

/-- Bytes are only overwritten inside a slot or a span that was handed out, or outside the page. -/
def Allowed (L : Layout) (u : PageUse) : PageOp → Prop
  | .obj _ | .data _ _ _ => True
  | .write addr n _ =>
    (∃ slot ∈ u.slots, u.page.page.base + slot ≤ addr ∧ addr + n ≤ u.page.page.base + slot + L.objSize) ∨
    (∃ span ∈ u.spans, u.page.page.base + span.1 ≤ addr ∧ addr + n ≤ u.page.page.base + span.1 + span.2) ∨
    addr + n ≤ u.page.page.base ∨ u.page.page.base + u.page.page.len ≤ addr

end PageUse

end Elle

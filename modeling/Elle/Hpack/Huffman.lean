import Elle.Hpack.Codec
import Elle.Lib.Bits
import Elle.Lib.PrefixCode

/-!
# The HPACK Huffman codec

`lib/http2/huffman.lisp`: the code table, the decode tree and the byte-wide table built from it, the
encoder with its bit buffer, and the decoder, which reads codes of up to eight bits from the byte-wide table
and walks the tree for the others.
-/

namespace Elle.Hpack.HuffmanCode

open PrefixCode

/-- Code and bit length of every byte value, and of the end of string. -/
def table : List (Nat × Nat) :=
  [(0x1ff8, 13), (0x7fffd8, 23), (0xfffffe2, 28), (0xfffffe3, 28), (0xfffffe4, 28), (0xfffffe5, 28),
    (0xfffffe6, 28), (0xfffffe7, 28), (0xfffffe8, 28), (0xffffea, 24), (0x3ffffffc, 30),
    (0xfffffe9, 28), (0xfffffea, 28), (0x3ffffffd, 30), (0xfffffeb, 28), (0xfffffec, 28),
    (0xfffffed, 28), (0xfffffee, 28), (0xfffffef, 28), (0xffffff0, 28), (0xffffff1, 28),
    (0xffffff2, 28), (0x3ffffffe, 30), (0xffffff3, 28), (0xffffff4, 28), (0xffffff5, 28),
    (0xffffff6, 28), (0xffffff7, 28), (0xffffff8, 28), (0xffffff9, 28), (0xffffffa, 28),
    (0xffffffb, 28), (0x14, 6), (0x3f8, 10), (0x3f9, 10), (0xffa, 12), (0x1ff9, 13), (0x15, 6),
    (0xf8, 8), (0x7fa, 11), (0x3fa, 10), (0x3fb, 10), (0xf9, 8), (0x7fb, 11), (0xfa, 8), (0x16, 6),
    (0x17, 6), (0x18, 6), (0x0, 5), (0x1, 5), (0x2, 5), (0x19, 6), (0x1a, 6), (0x1b, 6), (0x1c, 6),
    (0x1d, 6), (0x1e, 6), (0x1f, 6), (0x5c, 7), (0xfb, 8), (0x7ffc, 15), (0x20, 6), (0xffb, 12),
    (0x3fc, 10), (0x1ffa, 13), (0x21, 6), (0x5d, 7), (0x5e, 7), (0x5f, 7), (0x60, 7), (0x61, 7),
    (0x62, 7), (0x63, 7), (0x64, 7), (0x65, 7), (0x66, 7), (0x67, 7), (0x68, 7), (0x69, 7),
    (0x6a, 7), (0x6b, 7), (0x6c, 7), (0x6d, 7), (0x6e, 7), (0x6f, 7), (0x70, 7), (0x71, 7),
    (0x72, 7), (0xfc, 8), (0x73, 7), (0xfd, 8), (0x1ffb, 13), (0x7fff0, 19), (0x1ffc, 13),
    (0x3ffc, 14), (0x22, 6), (0x7ffd, 15), (0x3, 5), (0x23, 6), (0x4, 5), (0x24, 6), (0x5, 5),
    (0x25, 6), (0x26, 6), (0x27, 6), (0x6, 5), (0x74, 7), (0x75, 7), (0x28, 6), (0x29, 6),
    (0x2a, 6), (0x7, 5), (0x2b, 6), (0x76, 7), (0x2c, 6), (0x8, 5), (0x9, 5), (0x2d, 6), (0x77, 7),
    (0x78, 7), (0x79, 7), (0x7a, 7), (0x7b, 7), (0x7ffe, 15), (0x7fc, 11), (0x3ffd, 14),
    (0x1ffd, 13), (0xffffffc, 28), (0xfffe6, 20), (0x3fffd2, 22), (0xfffe7, 20), (0xfffe8, 20),
    (0x3fffd3, 22), (0x3fffd4, 22), (0x3fffd5, 22), (0x7fffd9, 23), (0x3fffd6, 22), (0x7fffda, 23),
    (0x7fffdb, 23), (0x7fffdc, 23), (0x7fffdd, 23), (0x7fffde, 23), (0xffffeb, 24), (0x7fffdf, 23),
    (0xffffec, 24), (0xffffed, 24), (0x3fffd7, 22), (0x7fffe0, 23), (0xffffee, 24), (0x7fffe1, 23),
    (0x7fffe2, 23), (0x7fffe3, 23), (0x7fffe4, 23), (0x1fffdc, 21), (0x3fffd8, 22), (0x7fffe5, 23),
    (0x3fffd9, 22), (0x7fffe6, 23), (0x7fffe7, 23), (0xffffef, 24), (0x3fffda, 22), (0x1fffdd, 21),
    (0xfffe9, 20), (0x3fffdb, 22), (0x3fffdc, 22), (0x7fffe8, 23), (0x7fffe9, 23), (0x1fffde, 21),
    (0x7fffea, 23), (0x3fffdd, 22), (0x3fffde, 22), (0xfffff0, 24), (0x1fffdf, 21), (0x3fffdf, 22),
    (0x7fffeb, 23), (0x7fffec, 23), (0x1fffe0, 21), (0x1fffe1, 21), (0x3fffe0, 22), (0x1fffe2, 21),
    (0x7fffed, 23), (0x3fffe1, 22), (0x7fffee, 23), (0x7fffef, 23), (0xfffea, 20), (0x3fffe2, 22),
    (0x3fffe3, 22), (0x3fffe4, 22), (0x7ffff0, 23), (0x3fffe5, 22), (0x3fffe6, 22), (0x7ffff1, 23),
    (0x3ffffe0, 26), (0x3ffffe1, 26), (0xfffeb, 20), (0x7fff1, 19), (0x3fffe7, 22), (0x7ffff2, 23),
    (0x3fffe8, 22), (0x1ffffec, 25), (0x3ffffe2, 26), (0x3ffffe3, 26), (0x3ffffe4, 26),
    (0x7ffffde, 27), (0x7ffffdf, 27), (0x3ffffe5, 26), (0xfffff1, 24), (0x1ffffed, 25),
    (0x7fff2, 19), (0x1fffe3, 21), (0x3ffffe6, 26), (0x7ffffe0, 27), (0x7ffffe1, 27),
    (0x3ffffe7, 26), (0x7ffffe2, 27), (0xfffff2, 24), (0x1fffe4, 21), (0x1fffe5, 21),
    (0x3ffffe8, 26), (0x3ffffe9, 26), (0xffffffd, 28), (0x7ffffe3, 27), (0x7ffffe4, 27),
    (0x7ffffe5, 27), (0xfffec, 20), (0xfffff3, 24), (0xfffed, 20), (0x1fffe6, 21), (0x3fffe9, 22),
    (0x1fffe7, 21), (0x1fffe8, 21), (0x7ffff3, 23), (0x3fffea, 22), (0x3fffeb, 22), (0x1ffffee, 25),
    (0x1ffffef, 25), (0xfffff4, 24), (0xfffff5, 24), (0x3ffffea, 26), (0x7ffff4, 23),
    (0x3ffffeb, 26), (0x7ffffe6, 27), (0x3ffffec, 26), (0x3ffffed, 26), (0x7ffffe7, 27),
    (0x7ffffe8, 27), (0x7ffffe9, 27), (0x7ffffea, 27), (0x7ffffeb, 27), (0xffffffe, 28),
    (0x7ffffec, 27), (0x7ffffed, 27), (0x7ffffee, 27), (0x7ffffef, 27), (0x7fffff0, 27),
    (0x3ffffee, 26), (0x3fffffff, 30)]

/-- Code and bit length of a symbol. -/
def entry (sym : Nat) : Nat × Nat := table[sym]?.getD (0, 0)

/-- The end-of-string symbol. -/
def eos : Nat := 256

/-! ## The decode tree -/

def codeBits (entry : Nat × Nat) : List Bool := Bits.msb entry.1.testBit entry.2

/-- Every code of the table in a binary trie. -/
def decodeTree : Trie Nat :=
  table.zipIdx.foldl (fun root (entry, sym) => root.insert (codeBits entry) sym) .missing

/-! ## The byte-wide table -/

/-- The writes that build the table: every window a code of at most eight bits opens, with the symbol and
the code's length. -/
def fastWrites : List (Nat × (Nat × Nat)) :=
  (table.take 256).zipIdx.flatMap fun ((code, nbits), sym) =>
    if nbits ≤ 8 then
      (List.range (1 <<< (8 - nbits))).map fun k => ((code <<< (8 - nbits)) + k, (sym, nbits))
    else []

/-- The last write to a window. A length of 0 marks a window that opens a longer code. -/
def fastEntry (window : Nat) : Nat × Nat := (fastWrites.reverse.lookup window).getD (0, 0)

def windowBits (window : Nat) : List Bool := Bits.msb window.testBit 8

def fastNode (window : Nat) : Trie Nat := (windowBits window).foldl Trie.child decodeTree

/-! ## Encoding -/

/-- Complete bytes are taken off the buffer, the highest bits first. -/
def emit (buf : BitVec 64) (bufBits : Nat) : List Nat × Nat :=
  if bufBits ≥ 8 then
    let bufBits := bufBits - 8
    let (out, left) := emit buf bufBits
    ((buf.sshiftRight bufBits &&& 0xff#64).toNat :: out, left)
  else ([], bufBits)
termination_by bufBits

/-- The loop over the input. The buffer is a machine word that is never cleared: what was taken off it
leaves it at the high end. -/
def encodeLoop (buf : BitVec 64) (bufBits : Nat) : Bytes → List Nat
  | [] =>
    if bufBits > 0 then
      let pad := 8 - bufBits
      [((buf <<< pad ||| (1#64 <<< pad - 1#64)) &&& 0xff#64).toNat]
    else []
  | b :: src =>
    let (code, nbits) := entry b.toNat
    let buf := buf <<< nbits ||| BitVec.ofNat 64 code
    let (out, bufBits) := emit buf (bufBits + nbits)
    out ++ encodeLoop buf bufBits src

def huffmanEncode (input : Bytes) : Bytes := bytes (encodeLoop 0 0 input)

def encodedLength (input : Bytes) : Nat :=
  ((input.map fun b => (entry b.toNat).2).sum + 7) / 8

/-! ## Decoding -/

/-- Unread input: the low `have_` bits of `acc`, then the bytes of `rest`. -/
structure Unread where
  acc : Nat
  have_ : Nat
  rest : Bytes

namespace Unread

def count (r : Unread) : Nat := r.have_ + 8 * r.rest.length

/-- A byte moves into the accumulator. -/
def load (r : Unread) (b : UInt8) (rest : Bytes) : Unread :=
  ⟨((r.acc <<< 8) &&& 0xffff) ||| b.toNat, r.have_ + 8, rest⟩

/-- At least eight bits in the accumulator while the input lasts. -/
def refill (acc have_ : Nat) : Bytes → Unread
  | [] => ⟨acc, have_, []⟩
  | b :: rest =>
    if have_ < 8 then refill (((acc <<< 8) &&& 0xffff) ||| b.toNat) (have_ + 8) rest
    else ⟨acc, have_, b :: rest⟩

/-- A byte more if no bit is held; nothing at the end of the input. -/
def ensure (r : Unread) : Option Unread :=
  if r.have_ = 0 then
    match r.rest with
    | b :: rest => some (r.load b rest)
    | [] => none
  else some r

/-- The next eight bits, if so many are held. -/
def window (r : Unread) : Option Nat :=
  if r.have_ ≥ 8 then some ((r.acc >>> (r.have_ - 8)) &&& 0xff) else none

theorem count_ensure {r r' : Unread} (h : r.ensure = some r') :
    { r' with have_ := r'.have_ - 1 : Unread }.count < r.count := by
  unfold ensure at h
  split at h
  · split at h
    · next hrest =>
      cases h
      simp only [count, load, hrest, List.length_cons]
      omega
    · cases h
  · cases h
    simp only [count]
    omega

end Unread

def invalidCode : Fault := .compressionError "Huffman: invalid code"

def eosSymbol : Fault := .compressionError "Huffman: EOS symbol in encoded data"

/-- The walk for one code from a node: the symbol, or nothing when the input ends on the way. -/
def walkLoop (node : Trie Nat) (r : Unread) : Except Fault (Option Nat × Unread) :=
  match _h : r.ensure with
  | none => .ok (none, r)
  | some r =>
    let have_ := r.have_ - 1
    match node.child ((r.acc >>> have_) &&& 1 = 1) with
    | .leaf next => if next = eos then .error eosSymbol else .ok (some next, { r with have_ })
    | .missing => .error invalidCode
    | .node left right => walkLoop (.node left right) { r with have_ }
termination_by r.count
decreasing_by exact Unread.count_ensure _h

theorem walkLoop_count {node : Trie Nat} {r r' : Unread} {sym : Nat}
    (h : walkLoop node r = .ok (some sym, r')) : r'.count < r.count := by
  fun_induction walkLoop node r with
  | case1 => cases h
  | case2 => cases h
  | case3 node r r₁ hr have_ next hne =>
    cases h
    exact Unread.count_ensure hr
  | case4 => cases h
  | case5 node r r₁ hr have_ left right _ ih => exact Nat.lt_trans (ih h) (Unread.count_ensure hr)

/-- The entry of the byte-wide table for the next eight bits. -/
def fast (r : Unread) : Nat × Nat := (r.window.map fastEntry).getD (0, 0)

/-- Where the walk starts: a long code at the node its first eight bits reach, or the input's last bits at
the root. -/
def walkStart (r : Unread) : Trie Nat × Unread :=
  match r.window with
  | some window => (fastNode window, { r with have_ := r.have_ - 8 })
  | none => (decodeTree, r)

theorem count_refill (acc have_ : Nat) (rest : Bytes) :
    (Unread.refill acc have_ rest).count = have_ + 8 * rest.length := by
  induction rest generalizing acc have_ with
  | nil => rfl
  | cons b rest ih =>
    unfold Unread.refill
    split
    · rw [ih, List.length_cons]
      omega
    · rfl

theorem count_walkStart (r : Unread) : (walkStart r).2.count ≤ r.count := by
  unfold walkStart
  split
  · simp only [Unread.count]
    omega
  · exact Nat.le_refl _

theorem have_of_fast {r : Unread} (h : 0 < (fast r).2) : 8 ≤ r.have_ := by
  unfold fast Unread.window at h
  split at h
  · assumption
  · cases h

def decodeLoop (unread : Unread) : Except Fault (List Nat) :=
  let r := Unread.refill unread.acc unread.have_ unread.rest
  if (fast r).2 > 0 then
    (decodeLoop { r with have_ := r.have_ - (fast r).2 }).map ((fast r).1 :: ·)
  else if r.have_ = 0 then .ok []
  else
    match _h : walkLoop (walkStart r).1 (walkStart r).2 with
    | .error e => .error e
    | .ok (none, _) => .ok []
    | .ok (some sym, r') => (decodeLoop r').map (sym :: ·)
termination_by unread.count
decreasing_by
  · have hcount := count_refill unread.acc unread.have_ unread.rest
    have hfast : 0 < (fast (Unread.refill unread.acc unread.have_ unread.rest)).2 := ‹_›
    have hhave := have_of_fast hfast
    simp only [Unread.count] at hcount ⊢
    omega
  · have hwalk := Nat.lt_of_lt_of_le (walkLoop_count _h) (count_walkStart _)
    rwa [count_refill] at hwalk

def huffmanDecode (input : Bytes) : Except Fault Bytes := (decodeLoop ⟨0, 0, input⟩).map bytes

/-- The codec the HPACK module is loaded with. -/
def huffman : Huffman := ⟨encodedLength, huffmanEncode, huffmanDecode⟩

end Elle.Hpack.HuffmanCode

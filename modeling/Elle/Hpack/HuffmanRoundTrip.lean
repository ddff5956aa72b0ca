import Elle.Hpack.HuffmanTree

/-!
# The Huffman codec reads back

The encoder writes the codes of its input bit by bit and pads the last byte with ones; the decoder reads
its input bit by bit along the tree, whichever way it takes.
-/

namespace Elle.Hpack.HuffmanCode

open PrefixCode Bits List

-- the tables are used by the facts about them only
attribute [local irreducible] decodeTree fastWrites

/-! ## Encoding -/

def inputBits (input : Bytes) : List Bool := input.flatMap fun b => windowBits b.toNat

abbrev low (buf : BitVec 64) (k : Nat) : List Bool := msb buf.getLsbD k

theorem inputBits_cons (b : UInt8) (input : Bytes) :
    inputBits (b :: input) = windowBits b.toNat ++ inputBits input :=
  flatMap_cons

theorem inputBits_append (xs ys : Bytes) : inputBits (xs ++ ys) = inputBits xs ++ inputBits ys :=
  flatMap_append

theorem windowBits_byte (x : BitVec 64) :
    windowBits (UInt8.ofNat (x &&& 0xff#64).toNat).toNat = low x 8 := by
  have hlt : (x &&& 0xff#64).toNat < 256 := by
    exact Nat.lt_of_le_of_lt Nat.and_le_right (by decide)
  rw [toNat_ofNat hlt]
  refine msb_congr fun i hi => ?_
  have hmask : (0xff#64).getLsbD i := by
    have : ∀ i : Fin 8, (0xff#64).getLsbD i := by decide
    exact this ⟨i, hi⟩
  rw [BitVec.testBit_toNat, BitVec.getLsbD_and, hmask, Bool.and_true]

theorem emit_bits (buf : BitVec 64) {k : Nat} (hk : k ≤ 64) :
    inputBits (bytes (emit buf k).1) ++ low buf (emit buf k).2 = low buf k ∧ (emit buf k).2 < 8 := by
  induction k using Nat.strongRecOn with
  | ind k ih =>
    rw [emit]
    split
    · next hge =>
      obtain ⟨hbits, hlt⟩ := ih (k - 8) (by omega) (by omega)
      refine ⟨?_, hlt⟩
      have hbyte : low (buf.sshiftRight (k - 8)) 8 = msb (fun i => buf.getLsbD (i + (k - 8))) 8 := by
        refine msb_congr fun i hi => ?_
        rw [BitVec.getLsbD_sshiftRight]
        rw [if_pos (by omega), Nat.add_comm i]
        simp [show i < 64 by omega]
      have hsplit : low buf k = msb (fun i => buf.getLsbD (i + (k - 8))) 8 ++ low buf (k - 8) := by
        rw [← msb_add, Nat.add_sub_cancel' hge]
      rw [bytes, map_cons, inputBits_cons, windowBits_byte, hbyte, append_assoc, hsplit]
      exact congrArg _ hbits
    · next hlt => exact ⟨rfl, Nat.lt_of_not_le hlt⟩

theorem low_append_code {buf : BitVec 64} {k : Nat} (b : UInt8) (hk : k < 8) :
    low (buf <<< (entry b.toNat).2 ||| BitVec.ofNat 64 (entry b.toNat).1) (k + (entry b.toNat).2) =
      low buf k ++ codeBits (entry b.toNat) := by
  obtain ⟨_, hle, hlt⟩ := entry_facts b
  refine msb_join (fun i hi => ?_) (fun i hi => ?_)
  · have hcode : (entry b.toNat).1.testBit (i + (entry b.toNat).2) = false :=
      Nat.testBit_lt_two_pow (Nat.lt_of_lt_of_le hlt (Nat.pow_le_pow_right (by decide) (by omega)))
    rw [BitVec.getLsbD_or, BitVec.getLsbD_shiftLeft, BitVec.getLsbD_ofNat, hcode]
    simp [show i + (entry b.toNat).2 < 64 by omega]
  · rw [BitVec.getLsbD_or, BitVec.getLsbD_shiftLeft, BitVec.getLsbD_ofNat]
    simp [hi, show i < 64 by omega]

theorem low_pad {buf : BitVec 64} {k : Nat} (hk : 0 < k) (hlt : k < 8) :
    low (buf <<< (8 - k) ||| (1#64 <<< (8 - k) - 1#64)) 8 = low buf k ++ List.replicate (8 - k) true := by
  have hones : ∀ n : Fin 8, ∀ i : Fin 8, (1#64 <<< n.val - 1#64).getLsbD i.val = decide (i.val < n.val) := by
    decide +kernel
  have hjoin : low (buf <<< (8 - k) ||| (1#64 <<< (8 - k) - 1#64)) (k + (8 - k)) =
      low buf k ++ msb (fun _ => true) (8 - k) := by
    refine msb_join (fun i hi => ?_) (fun i hi => ?_)
    · have := hones ⟨8 - k, by omega⟩ ⟨i + (8 - k), by omega⟩
      rw [BitVec.getLsbD_or, BitVec.getLsbD_shiftLeft, this]
      simp [show i + (8 - k) < 64 by omega, show ¬i + (8 - k) < 8 - k by omega]
    · have := hones ⟨8 - k, by omega⟩ ⟨i, by omega⟩
      rw [BitVec.getLsbD_or, BitVec.getLsbD_shiftLeft, this]
      simp [hi, show i < 64 by omega]
  rw [Nat.add_sub_cancel' (Nat.le_of_lt hlt), msb_true fun _ _ => rfl] at hjoin
  exact hjoin

/-- The encoder writes what waits in its buffer, then the codes of its input, then fewer than eight
ones. -/
theorem encodeLoop_bits (buf : BitVec 64) {k : Nat} (src : Bytes) (hk : k < 8) :
    ∃ pad, pad < 8 ∧ inputBits (bytes (encodeLoop buf k src)) =
      low buf k ++ (src.flatMap (fun b => codeBits (entry b.toNat)) ++ List.replicate pad true) := by
  induction src generalizing buf k with
  | nil =>
    rw [encodeLoop]
    split
    · next hpos =>
      refine ⟨8 - k, by omega, ?_⟩
      simp only [bytes, map_cons, map_nil, inputBits_cons, windowBits_byte]
      rw [low_pad hpos hk]
      simp [inputBits]
    · next hzero =>
      refine ⟨0, by decide, ?_⟩
      rw [show k = 0 by omega]
      rfl
  | cons b src ih =>
    obtain ⟨_, hle, _⟩ := entry_facts b
    have hemit := emit_bits (buf <<< (entry b.toNat).2 ||| BitVec.ofNat 64 (entry b.toNat).1)
      (k := k + (entry b.toNat).2) (by omega)
    obtain ⟨pad, hpad, hrest⟩ := ih (buf <<< (entry b.toNat).2 |||
      BitVec.ofNat 64 (entry b.toNat).1) hemit.2
    refine ⟨pad, hpad, ?_⟩
    have happend : ∀ xs ys : List Nat, inputBits (bytes (xs ++ ys)) =
        inputBits (bytes xs) ++ inputBits (bytes ys) := fun xs ys => by
      rw [bytes, map_append, inputBits_append]
      rfl
    rw [encodeLoop]
    rw [happend, hrest, ← append_assoc, hemit.1, low_append_code b hk, flatMap_cons]
    simp only [append_assoc]

/-! ## Decoding -/

namespace Unread

def bits (r : Unread) : List Bool := msb r.acc.testBit r.have_ ++ inputBits r.rest

theorem load_bits {r : Unread} (b : UInt8) (rest : Bytes) (h : r.have_ < 8) :
    (r.load b rest).bits = msb r.acc.testBit r.have_ ++ inputBits (b :: rest) := by
  have hjoin : msb (((r.acc <<< 8) &&& 0xffff) ||| b.toNat).testBit (r.have_ + 8) =
      msb r.acc.testBit r.have_ ++ windowBits b.toNat := by
    have hmask : ∀ i, i < 16 → (0xffff : Nat).testBit i := fun i hi => by
      rw [show 0xffff = 2 ^ 16 - 1 by rfl, Nat.testBit_two_pow_sub_one]
      exact decide_eq_true hi
    refine msb_join (fun i hi => ?_) (fun i hi => ?_)
    · have hbyte : b.toNat.testBit (i + 8) = false :=
        Nat.testBit_lt_two_pow (Nat.lt_of_lt_of_le b.toNat_lt
          (Nat.pow_le_pow_right (by decide) (Nat.le_add_left 8 i)))
      rw [Nat.testBit_or, Nat.testBit_and, Nat.testBit_shiftLeft, hmask _ (by omega), hbyte]
      simp
    · simp [show ¬8 ≤ i by omega]
  rw [bits, load, hjoin, inputBits_cons, append_assoc]

theorem refill_bits (acc have_ : Nat) (rest : Bytes) :
    (refill acc have_ rest).bits = msb acc.testBit have_ ++ inputBits rest ∧
      ((refill acc have_ rest).have_ < 8 → (refill acc have_ rest).rest = []) := by
  induction rest generalizing acc have_ with
  | nil => exact ⟨rfl, fun _ => rfl⟩
  | cons b rest ih =>
    unfold refill
    split
    · next hlt =>
      obtain ⟨hbits, hrest⟩ := ih (((acc <<< 8) &&& 0xffff) ||| b.toNat) (have_ + 8)
      refine ⟨hbits.trans ?_, hrest⟩
      exact load_bits (r := ⟨acc, have_, b :: rest⟩) b rest hlt
    · next hge => exact ⟨rfl, fun h => absurd h hge⟩

theorem ensure_eq_some {r r' : Unread} (h : r.ensure = some r') : r'.bits = r.bits ∧ 0 < r'.have_ := by
  unfold ensure at h
  split at h
  · next hzero =>
    split at h
    · next b rest hrest =>
      cases h
      refine ⟨?_, Nat.succ_pos _⟩
      rw [load_bits b rest (by omega), bits, hrest]
    · cases h
  · next hne =>
    cases h
    exact ⟨rfl, Nat.pos_of_ne_zero hne⟩

theorem ensure_eq_none {r : Unread} (h : r.ensure = none) : r.bits = [] := by
  unfold ensure at h
  split at h
  · next hzero =>
    split at h
    · cases h
    · next hrest =>
      rw [bits, hzero, hrest]
      rfl
  · cases h

theorem bits_cons {r : Unread} (h : 0 < r.have_) :
    r.bits = r.acc.testBit (r.have_ - 1) :: { r with have_ := r.have_ - 1 : Unread }.bits := by
  rw [bits, bits, show r.have_ = (r.have_ - 1) + 1 by omega, msb]
  rfl

theorem window_bits {r : Unread} {w : Nat} (h : r.window = some w) :
    w < 256 ∧ r.bits = windowBits w ++ { r with have_ := r.have_ - 8 : Unread }.bits ∧
      ∀ n, n ≤ 8 → { r with have_ := r.have_ - n : Unread }.bits =
        (windowBits w).drop n ++ { r with have_ := r.have_ - 8 : Unread }.bits := by
  unfold window at h
  split at h
  · next hge =>
    cases h
    have hbits : windowBits ((r.acc >>> (r.have_ - 8)) &&& 0xff) =
        msb (fun i => r.acc.testBit (i + (r.have_ - 8))) 8 := by
      refine msb_congr fun i hi => ?_
      rw [Nat.testBit_and, Nat.testBit_shiftRight, show 0xff = 2 ^ 8 - 1 by rfl,
        Nat.testBit_two_pow_sub_one, decide_eq_true hi, Bool.and_true, Nat.add_comm]
    have hsplit : msb r.acc.testBit r.have_ =
        windowBits ((r.acc >>> (r.have_ - 8)) &&& 0xff) ++ msb r.acc.testBit (r.have_ - 8) := by
      rw [hbits, ← msb_add, Nat.add_sub_cancel' hge]
    refine ⟨Nat.lt_of_le_of_lt Nat.and_le_right (by decide), ?_, fun n hn => ?_⟩
    · rw [bits, hsplit, append_assoc]
      rfl
    · have hdrop := drop_msb r.acc.testBit r.have_ n
      rw [hsplit, drop_append_of_le_length (by rw [windowBits, length_msb]; exact hn)] at hdrop
      rw [bits, ← hdrop, append_assoc]
      rfl
  · cases h

end Unread

theorem bit_eq (acc k : Nat) : decide ((acc >>> k) &&& 1 = 1) = acc.testBit k := by
  rw [Nat.testBit, Nat.and_comm]
  rcases Nat.mod_two_eq_zero_or_one (acc >>> k) with h | h <;> simp [Nat.one_and_eq_mod_two, h]

theorem walkLoop_spec (t : Trie Nat) (r : Unread) :
    (∀ s rest, t.walk r.bits = .found s rest → s ≠ eos →
      ∃ r', walkLoop t r = .ok (some s, r') ∧ r'.bits = rest) ∧
    ∀ node, t.walk r.bits = .cut node → ∃ r', walkLoop t r = .ok (none, r') := by
  fun_induction walkLoop t r with
  | case1 t r hr =>
    rw [Unread.ensure_eq_none hr]
    exact ⟨fun s rest h => (by cases h), fun node _ => ⟨r, rfl⟩⟩
  | case2 t r r₁ hr have_ hchild =>
    obtain ⟨hbits, hpos⟩ := Unread.ensure_eq_some hr
    rw [← hbits, Unread.bits_cons hpos, Trie.walk, ← bit_eq, hchild]
    refine ⟨fun s rest h hs => ?_, fun node h => by cases h⟩
    cases h
    exact absurd rfl hs
  | case3 t r r₁ hr have_ next hchild hne =>
    obtain ⟨hbits, hpos⟩ := Unread.ensure_eq_some hr
    rw [← hbits, Unread.bits_cons hpos, Trie.walk, ← bit_eq, hchild]
    refine ⟨fun s rest h hs => ?_, fun node h => by cases h⟩
    cases h
    exact ⟨_, rfl, rfl⟩
  | case4 t r r₁ hr have_ hchild =>
    obtain ⟨hbits, hpos⟩ := Unread.ensure_eq_some hr
    rw [← hbits, Unread.bits_cons hpos, Trie.walk, ← bit_eq, hchild]
    exact ⟨fun s rest h => (by cases h), fun node h => (by cases h)⟩
  | case5 t r r₁ hr have_ left right hchild ih =>
    obtain ⟨hbits, hpos⟩ := Unread.ensure_eq_some hr
    rw [← hbits, Unread.bits_cons hpos, Trie.walk, ← bit_eq, hchild]
    exact ih

theorem walk_walkStart {r : Unread} (h : (fast r).2 = 0) :
    (walkStart r).1.walk (walkStart r).2.bits = decodeTree.walk r.bits := by
  unfold walkStart
  cases hw : r.window with
  | none => rfl
  | some w =>
    obtain ⟨hlt, hbits, _⟩ := Unread.window_bits hw
    have hzero : (fastEntry w).2 = 0 := by simpa [fast, hw] using h
    rw [hbits, Trie.walk_append_of_cut ((walk_fast hlt).2 hzero)]

theorem walk_of_fast {r : Unread} (h : 0 < (fast r).2) :
    decodeTree.walk r.bits = .found (fast r).1 { r with have_ := r.have_ - (fast r).2 : Unread }.bits := by
  cases hw : r.window with
  | none => simp [fast, hw] at h
  | some w =>
    have hfast : fast r = fastEntry w := by simp [fast, hw]
    rw [hfast] at h ⊢
    obtain ⟨hlt, hbits, hdrop⟩ := Unread.window_bits hw
    obtain ⟨hle, _, hwalk⟩ := (walk_fast hlt).1 h
    rw [hbits, Trie.walk_append_of_found hwalk, hdrop _ hle]

theorem decodeLoop_of_reads {bits : List Bool} {symbols : List Nat}
    (h : Trie.Reads decodeTree bits symbols) (hsym : ∀ s ∈ symbols, s ≠ eos) (r : Unread)
    (hr : r.bits = bits) : decodeLoop r = .ok symbols := by
  induction h generalizing r with
  | cut hwalk =>
    obtain ⟨hrefill, _⟩ := Unread.refill_bits r.acc r.have_ r.rest
    rw [← hr, Unread.bits, ← hrefill] at hwalk
    rw [decodeLoop]
    split
    · next hfast =>
      rw [walk_of_fast hfast] at hwalk
      cases hwalk
    · next hfast =>
      split
      · rfl
      · rw [← walk_walkStart (Nat.eq_zero_of_not_pos hfast)] at hwalk
        obtain ⟨r', hloop⟩ := (walkLoop_spec _ _).2 _ hwalk
        split <;> simp_all
  | @found bits rest s symbols hwalk hreads ih =>
    obtain ⟨hrefill, hrest⟩ := Unread.refill_bits r.acc r.have_ r.rest
    rw [← hr, Unread.bits, ← hrefill] at hwalk
    have hs : s ≠ eos := hsym s mem_cons_self
    have htail := ih fun s' hs' => hsym s' (mem_cons_of_mem _ hs')
    rw [decodeLoop]
    split
    · next hfast =>
      rw [walk_of_fast hfast] at hwalk
      cases hwalk
      rw [htail _ rfl]
      rfl
    · next hfast =>
      split
      · next hzero =>
        rw [Unread.bits, hzero, hrest (by omega)] at hwalk
        cases hwalk
      · rw [← walk_walkStart (Nat.eq_zero_of_not_pos hfast)] at hwalk
        obtain ⟨r', hloop, hbits⟩ := (walkLoop_spec _ _).1 _ _ hwalk hs
        have hnext := htail r' hbits
        split <;> simp_all [Except.map]

/-! ## The round trip -/

theorem huffmanEncode_bits (s : Bytes) : ∃ pad, pad < 8 ∧ inputBits (huffmanEncode s) =
    s.flatMap (fun b => codeBits (entry b.toNat)) ++ List.replicate pad true :=
  encodeLoop_bits 0 s (k := 0) (by decide)

theorem huffman_roundTrips : huffman.RoundTrips := by
  intro s
  obtain ⟨pad, hpad, hbits⟩ := huffmanEncode_bits s
  obtain ⟨node, hcut⟩ := walk_pad hpad
  have hcode : ∀ sym ∈ s.map UInt8.toNat, decodeTree.walk (codeBits (entry sym)) = .found sym [] := by
    intro sym hsym
    obtain ⟨b, _, rfl⟩ := List.mem_map.1 hsym
    exact walk_code b
  have hreads := Trie.reads_codes hcode hcut
  rw [flatMap_map, ← hbits] at hreads
  have hsym : ∀ sym ∈ s.map UInt8.toNat, sym ≠ eos := by
    intro sym hsym
    obtain ⟨b, _, rfl⟩ := List.mem_map.1 hsym
    exact Nat.ne_of_lt b.toNat_lt
  have hloop := decodeLoop_of_reads hreads hsym ⟨0, 0, huffmanEncode s⟩ rfl
  show (decodeLoop ⟨0, 0, huffmanEncode s⟩).map bytes = .ok s
  rw [hloop, Except.map, bytes, List.map_map]
  congr 1
  exact (map_congr_left fun b _ => UInt8.ofNat_toNat).trans (map_id s)

theorem length_inputBits (input : Bytes) : (inputBits input).length = 8 * input.length := by
  induction input with
  | nil => rfl
  | cons b input ih =>
    rw [inputBits_cons, length_append, ih, windowBits, length_msb, length_cons]
    omega

/-- Every byte sequence is read back from its code, which is as long as announced. -/
theorem huffman_codec_exact (s : Bytes) :
    huffmanDecode (huffmanEncode s) = .ok s ∧ encodedLength s = (huffmanEncode s).length := by
  refine ⟨huffman_roundTrips s, ?_⟩
  obtain ⟨pad, hpad, hbits⟩ := huffmanEncode_bits s
  have hlen := congrArg List.length hbits
  simp only [length_inputBits, length_append, length_flatMap, codeBits, length_msb,
    length_replicate] at hlen
  rw [encodedLength]
  omega

end Elle.Hpack.HuffmanCode

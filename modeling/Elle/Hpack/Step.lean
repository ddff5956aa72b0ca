import Elle.Hpack.Coder

/-!
# Encoder and decoder in step

Both tables are beginnings of one history, the entries ever added with the newest first: the decoder's is
what fits the size it was created with, and the encoder's what its own size, which can change, has left of
it. The two agree on every index of the encoder's exactly if the encoder's table fits the decoder's size.
-/

namespace Elle.Hpack

open Result Budget List

/-- Both tables are beginnings of one history. -/
structure Shared (size : Nat) (enc dec : Table) (history : List Entry) : Prop where
  encoder : enc.entries <+: history
  decoder : dec.entries = fit dtEntrySize size history
  maxSize : dec.maxSize = size

theorem Shared.start (size : Nat) : Shared size (makeDynamicTable size) (makeDynamicTable size) [] :=
  ⟨prefix_rfl, rfl, rfl⟩

variable {size : Nat} {history : List Entry}

theorem Shared.add {enc dec : Table} (h : Shared size enc dec history) (e : Entry) :
    Shared size (enc.add e) (dec.add e) (e :: history) := by
  refine ⟨?_, ?_, h.maxSize⟩
  · rw [Table.entries_add]
    exact (fit_isPrefix _ _).trans ((prefix_cons_inj e).2 h.encoder)
  · rw [Table.entries_add, h.decoder, h.maxSize, fit_cons_fit]

theorem Shared.setMaxSize {enc dec : Table} (h : Shared size enc dec history) (n : Nat) :
    Shared size (enc.setMaxSize n) dec history := by
  refine ⟨?_, h.decoder, h.maxSize⟩
  rw [Table.entries_setMaxSize]
  exact (fit_isPrefix _ _).trans h.encoder

/-! ## Indices -/

/-- The entry of a dynamic index and all newer ones are within the size. -/
def Reaches (size : Nat) (dt : Table) (index : Nat) : Prop :=
  total dtEntrySize (dt.entries.take (index - staticTableSize)) ≤ size

instance (size : Nat) (dt : Table) (index : Nat) : Decidable (Reaches size dt index) :=
  inferInstanceAs (Decidable (_ ≤ _))

theorem getElem?_of_isPrefix {xs ys : List Entry} {i : Nat} (h : xs <+: ys) (hi : i < xs.length) :
    xs[i]? = ys[i]? := by
  obtain ⟨zs, rfl⟩ := h
  exact (getElem?_append_left hi).symm

/-- An index of the encoder names the same entry for the decoder exactly if the decoder still has it. -/
theorem Shared.get {enc dec : Table} (h : Shared size enc dec history) (index : Nat) (hpos : 0 < index)
    (hle : index ≤ staticTableSize + enc.entries.length) :
    (Reaches size enc index → dec.get index = enc.get index) ∧
      (¬Reaches size enc index → ∃ message, dec.get index = .error (.compressionError message)) := by
  by_cases hstatic : index ≤ staticTableSize
  · have hreach : Reaches size enc index := by
      rw [Reaches, Nat.sub_eq_zero_of_le hstatic, take_zero]
      exact Nat.zero_le _
    refine ⟨fun _ => ?_, fun hn => absurd hreach hn⟩
    rw [Table.get, Table.get, if_pos hstatic, if_pos hstatic]
  · obtain ⟨i, rfl⟩ : ∃ i, index = staticTableSize + i + 1 :=
      ⟨index - staticTableSize - 1, by omega⟩
    have hi : i < enc.entries.length := by omega
    have htake : enc.entries.take (i + 1) = history.take (i + 1) := by
      obtain ⟨older, hh⟩ := h.encoder
      rw [← hh, take_append_of_le_length (by omega)]
    have hlen : i < history.length := Nat.lt_of_lt_of_le hi h.encoder.length_le
    have hreach : Reaches size enc (staticTableSize + i + 1) ↔ i < dec.entries.length := by
      rw [Reaches, Nat.add_assoc, Nat.add_sub_cancel_left, htake, h.decoder, lt_length_fit_iff]
      exact (and_iff_right hlen).symm
    rw [hreach, Table.get_dynamic, Table.get_dynamic]
    refine ⟨fun hdec => ?_, fun hdec => ?_⟩
    · have hdecoder : dec.entries <+: history := by
        rw [h.decoder]
        exact fit_isPrefix _ _
      rw [getElem?_of_isPrefix h.encoder hi, getElem?_of_isPrefix hdecoder hdec]
    · rw [getElem?_eq_none (Nat.le_of_not_lt hdec)]
      exact ⟨_, rfl⟩

/-- Every index the encoder can emit names the same entry in the decoder's table. -/
def Agree (enc dec : Table) : Prop :=
  ∀ index, 0 < index → index ≤ staticTableSize + enc.entries.length → dec.get index = enc.get index

theorem Shared.agree_iff {enc dec : Table} (h : Shared size enc dec history) :
    Agree enc dec ↔ enc.size ≤ size := by
  rw [enc.size_eq]
  constructor
  · intro hagree
    cases hlen : enc.entries.length with
    | zero =>
      rw [List.length_eq_zero_iff.1 hlen]
      exact Nat.zero_le _
    | succ n =>
      -- the oldest entry of the encoder is the last to be missed
      by_contra hover
      obtain ⟨message, herror⟩ := (h.get (staticTableSize + enc.entries.length)
        (by omega) (Nat.le_refl _)).2 (by
          rw [Reaches, Nat.add_sub_cancel_left, take_length]
          exact hover)
      have hget := hagree _ (by omega) (Nat.le_refl _)
      rw [herror, hlen, ← Nat.add_assoc, Table.get_dynamic,
        getElem?_eq_getElem (by omega : n < enc.entries.length)] at hget
      cases hget
  · intro hle index hpos hindex
    refine (h.get index hpos hindex).1 (Nat.le_trans ?_ hle)
    exact total_le_of_isPrefix (List.take_prefix _ _)

section

variable (huffman : Option Huffman)

/-! ## One header -/

/-- The entry a header is encoded by reference to, if any, is within the size. -/
def HeaderFits (size : Nat) (dt : Table) (header : Entry) : Prop :=
  match dt.lookup header.1 header.2 with
  | some (index, _) => Reaches size dt index
  | none => True

theorem flagged_eq (flag value p : Nat) :
    flagged flag value p = bytes ((flag ||| (encodeInt value p).1) :: (encodeInt value p).2) := rfl

theorem decodeInt_flagged (flag p value : Nat) (rest : Bytes) (hp : p ≤ 8) (hflag : flag < 256)
    (hmod : flag % 2 ^ p = 0) : decodeInt (flagged flag value p ++ rest) p = .ok (value, rest) :=
  decodeInt_encodeInt flag p value rest hp hflag hmod

theorem first_byte : ∀ n : Fin 128, (UInt8.ofNat (0x80 ||| n.val)).toNat &&& 0x80 ≠ 0 ∧
    (n.val < 64 → ¬(UInt8.ofNat (0x40 ||| n.val)).toNat &&& 0x80 ≠ 0 ∧
      (UInt8.ofNat (0x40 ||| n.val)).toNat &&& 0x40 ≠ 0) := by
  decide +kernel

theorem decodeField_indexed (dt : Table) (index : Nat) (rest : Bytes) :
    decodeField huffman dt (flagged 0x80 index 7 ++ rest) =
      (dt.get index).map fun header => (some header, dt, rest) := by
  have hint := decodeInt_flagged 0x80 7 index rest (by decide) (by decide) rfl
  have hbyte := (first_byte ⟨_, encodeInt_first_lt index 7⟩).1
  rw [flagged_eq, bytes, map_cons, cons_append] at hint ⊢
  rw [decodeField, if_pos hbyte, bind_of_ok hint]
  dsimp only
  cases dt.get index <;> rfl

theorem decodeField_literal (dt : Table) (index : Nat) (rest : Bytes) :
    decodeField huffman dt (flagged 0x40 index 6 ++ rest) =
      (decodeLiteral huffman dt (flagged 0x40 index 6 ++ rest) 6).map
        fun r => (some r.1, dt.add r.1, r.2) := by
  have hlt := encodeInt_first_lt index 6
  obtain ⟨hhigh, hflag⟩ := (first_byte ⟨(encodeInt index 6).1, by omega⟩).2 hlt
  rw [flagged_eq, bytes, map_cons, cons_append]
  rw [decodeField, if_neg hhigh, if_pos hflag]
  cases decodeLiteral huffman dt _ 6 <;> rfl

variable (hround : ∀ codec ∈ huffman, codec.RoundTrips)
variable {size : Nat} {dec : Table} {history : List Entry}

include hround

theorem decodeLiteral_indexed (dt : Table) {index : Nat} (hpos : 0 < index) (value rest : Bytes)
    (useHuffman : Bool) :
    decodeLiteral huffman dt
      (flagged 0x40 index 6 ++ (encodeString huffman value useHuffman ++ rest)) 6 =
      (dt.get index).map fun e => ((e.1, value), rest) := by
  have hint := decodeInt_flagged 0x40 6 index (encodeString huffman value useHuffman ++ rest)
    (by decide) (by decide) rfl
  rw [decodeLiteral, bind_of_ok hint]
  dsimp only
  rw [if_neg (by omega)]
  cases dt.get index with
  | error e => rfl
  | ok e =>
    have hvalue := decodeString_encodeString huffman hround value rest useHuffman
    rw [bind_of_ok rfl, bind_of_ok hvalue]
    rfl

theorem decodeLiteral_new (dt : Table) (name value rest : Bytes) (useHuffman : Bool) :
    decodeLiteral huffman dt (flagged 0x40 0 6 ++ (encodeString huffman name useHuffman ++
      (encodeString huffman value useHuffman ++ rest))) 6 = .ok ((name, value), rest) := by
  have hint := decodeInt_flagged 0x40 6 0 (encodeString huffman name useHuffman ++
      (encodeString huffman value useHuffman ++ rest)) (by decide) (by decide) rfl
  rw [decodeLiteral, bind_of_ok hint]
  dsimp only
  rw [if_pos rfl, bind_of_ok (decodeString_encodeString huffman hround name _ useHuffman)]
  rw [bind_of_ok (decodeString_encodeString huffman hround value rest useHuffman)]
  rfl

/-- The decoder's step on one header: it answers the header and adds what the encoder added, or fails if
the encoder refers to an entry beyond the decoder's size. -/
theorem decodeField_encodeHeader {enc : Table} (h : Shared size enc dec history) (header : Entry)
    (useHuffman : Bool) (rest : Bytes) :
    (HeaderFits size enc header → ∃ dec' history',
      decodeField huffman dec ((encodeHeader huffman enc useHuffman header).1.flatten ++ rest) =
        .ok (some header, dec', rest) ∧
      Shared size (encodeHeader huffman enc useHuffman header).2 dec' history') ∧
    (¬HeaderFits size enc header → ∃ fault,
      decodeField huffman dec ((encodeHeader huffman enc useHuffman header).1.flatten ++ rest) =
        .error fault) := by
  obtain ⟨name, value⟩ := header
  unfold HeaderFits encodeHeader
  dsimp only
  cases hlookup : enc.lookup name value with
  | none =>
    have hfield := decodeField_literal huffman dec 0 (encodeString huffman name useHuffman ++
      (encodeString huffman value useHuffman ++ rest))
    rw [decodeLiteral_new huffman hround] at hfield
    refine ⟨fun _ => ⟨dec.add (name, value), (name, value) :: history, ?_, h.add _⟩,
      fun hn => absurd trivial hn⟩
    simp only [flatten_cons, flatten_nil, append_nil, append_assoc]
    exact hfield
  | some found =>
    obtain ⟨index, exact⟩ := found
    obtain ⟨hpos, hle, e, hget, hname, hvalue⟩ := Table.lookup_spec hlookup
    obtain ⟨hreach, hmiss⟩ := h.get index hpos hle
    cases exact with
    | true =>
      have he : e = (name, value) := Prod.ext hname (hvalue rfl)
      simp only [flatten_cons, flatten_nil, append_nil]
      rw [decodeField_indexed]
      refine ⟨fun hfits => ⟨dec, history, ?_, h⟩, fun hnot => ?_⟩
      · rw [hreach hfits, hget, he]
        rfl
      · obtain ⟨message, herror⟩ := hmiss hnot
        exact ⟨_, by rw [herror]; rfl⟩
    | false =>
      simp only [flatten_cons, flatten_nil, append_nil, append_assoc]
      rw [decodeField_literal, decodeLiteral_indexed huffman hround dec hpos]
      refine ⟨fun hfits => ⟨dec.add (name, value), (name, value) :: history, ?_, h.add _⟩, fun hnot => ?_⟩
      · rw [hreach hfits, hget, ← hname]
        rfl
      · obtain ⟨message, herror⟩ := hmiss hnot
        exact ⟨_, by rw [herror]; rfl⟩

/-! ## One block -/

omit hround in
theorem decodeLoop_of_ok {dec' : Table} {buf rest : Bytes} {header : Entry}
    (h : decodeField huffman dec buf = .ok (some header, dec', rest)) :
    decodeLoop huffman dec buf =
      ((decodeLoop huffman dec' rest).1.map (header :: ·), (decodeLoop huffman dec' rest).2) := by
  have hne : buf ≠ [] := by
    rintro rfl
    cases h
  rw [decodeLoop, if_neg hne]
  split
  · next herror => rw [h] at herror; cases herror
  · next hok =>
    rw [h] at hok
    cases hok
    rfl

omit hround in
theorem decodeLoop_of_error {buf : Bytes} {fault : Fault} (h : decodeField huffman dec buf = .error fault)
    (hne : buf ≠ []) : decodeLoop huffman dec buf = (.error fault, dec) := by
  rw [decodeLoop, if_neg hne]
  split
  · next herror => rw [h] at herror; cases herror; rfl
  · next hok => rw [h] at hok; cases hok

/-- What every header of a block refers to is within the size. -/
def BlockFits (size : Nat) (dt : Table) (useHuffman : Bool) : List Entry → Prop
  | [] => True
  | header :: headers =>
    HeaderFits size dt header ∧
      BlockFits size (encodeHeader huffman dt useHuffman header).2 useHuffman headers

omit hround in
theorem encodeHeader_ne_nil (dt : Table) (useHuffman : Bool) (header : Entry) (rest : Bytes) :
    (encodeHeader huffman dt useHuffman header).1.flatten ++ rest ≠ [] := by
  unfold encodeHeader
  dsimp only
  split <;> simp [flagged_eq, bytes]

/-- The decoder reads the block back, unless a header refers to an entry beyond its size. -/
theorem decodeLoop_encodeHeaders {enc : Table} (h : Shared size enc dec history) (headers : List Entry)
    (useHuffman : Bool) :
    (BlockFits huffman size enc useHuffman headers → ∃ dec' history',
      decodeLoop huffman dec (encodeHeaders huffman enc useHuffman headers).1.flatten =
        (.ok headers, dec') ∧
      Shared size (encodeHeaders huffman enc useHuffman headers).2 dec' history') ∧
    (¬BlockFits huffman size enc useHuffman headers → ∃ fault,
      (decodeLoop huffman dec (encodeHeaders huffman enc useHuffman headers).1.flatten).1 =
        .error fault) := by
  induction headers generalizing enc dec history with
  | nil =>
    refine ⟨fun _ => ⟨dec, history, ?_, h⟩, fun hn => absurd trivial hn⟩
    rw [decodeLoop]
    rfl
  | cons header headers ih =>
    simp only [encodeHeaders, flatten_append]
    obtain ⟨hfits, hmiss⟩ := decodeField_encodeHeader huffman hround h header useHuffman
      (encodeHeaders huffman (encodeHeader huffman enc useHuffman header).2 useHuffman headers).1.flatten
    by_cases hheader : HeaderFits size enc header
    · obtain ⟨dec', history', hfield, hshared⟩ := hfits hheader
      obtain ⟨hrest, hrestmiss⟩ := ih hshared
      rw [decodeLoop_of_ok huffman hfield]
      refine ⟨fun hblock => ?_, fun hnot => ?_⟩
      · obtain ⟨dec'', history'', hloop, hshared'⟩ := hrest hblock.2
        refine ⟨dec'', history'', ?_, hshared'⟩
        rw [hloop]
        rfl
      · obtain ⟨fault, hfault⟩ := hrestmiss fun hb => hnot ⟨hheader, hb⟩
        exact ⟨fault, by rw [hfault]; rfl⟩
    · obtain ⟨fault, hfault⟩ := hmiss hheader
      refine ⟨fun hblock => absurd hblock.1 hheader, fun _ => ⟨fault, ?_⟩⟩
      rw [decodeLoop_of_error huffman hfault (encodeHeader_ne_nil huffman _ _ _ _)]

/-! ## A connection -/

/-- What happens on the encoder's side of a connection. -/
inductive Op where
  | encode (headers : List Entry)
  | setTableSize (newMax : Nat)

/-- Every block decodes to the headers it was encoded from, and after it every index the encoder can emit
names the same entry for the decoder. -/
def InStep : Encoder → Decoder → List Op → Prop
  | _, _, [] => True
  | enc, dec, .setTableSize newMax :: ops => InStep (setEncoderTableSize enc newMax) dec ops
  | enc, dec, .encode headers :: ops =>
    match hpackEncode huffman enc headers with
    | (.error _, _) => False
    | (.ok block, enc') =>
      (hpackDecode huffman dec block).1 = .ok headers ∧
        Agree enc'.table (hpackDecode huffman dec block).2.table ∧
        InStep enc' (hpackDecode huffman dec block).2 ops

/-- No block is empty, what every header refers to is within the size, and so is the table after
every block. -/
def Fits (size : Nat) : Encoder → List Op → Prop
  | _, [] => True
  | enc, .setTableSize newMax :: ops => Fits size (setEncoderTableSize enc newMax) ops
  | enc, .encode headers :: ops =>
    headers ≠ [] ∧ BlockFits huffman size enc.table enc.huffman headers ∧
      (hpackEncode huffman enc headers).2.table.size ≤ size ∧
      Fits size (hpackEncode huffman enc headers).2 ops

omit hround in
theorem hpackEncode_eq (enc : Encoder) {headers : List Entry} (h : headers ≠ []) :
    hpackEncode huffman enc headers =
      (.ok (encodeHeaders huffman enc.table enc.huffman headers).1.flatten,
        { enc with table := (encodeHeaders huffman enc.table enc.huffman headers).2 }) := by
  have hconcat : ∀ parts : List Bytes, parts ≠ [] → concat parts = .ok parts.flatten := by
    intro parts hparts
    cases parts with
    | nil => exact absurd rfl hparts
    | cons part parts => rfl
  unfold hpackEncode
  dsimp only
  rw [hconcat]
  obtain ⟨header, headers, rfl⟩ := exists_cons_of_ne_nil h
  simp only [encodeHeaders, ne_eq, append_eq_nil_iff, not_and]
  intro hnil
  exact absurd (by rw [hnil]; rfl) (encodeHeader_ne_nil huffman enc.table enc.huffman header [])

theorem inStep_iff {enc : Encoder} {dec : Decoder} (h : Shared size enc.table dec.table history)
    (ops : List Op) : InStep huffman enc dec ops ↔ Fits huffman size enc ops := by
  induction ops generalizing enc dec history with
  | nil => exact Iff.rfl
  | cons op ops ih =>
    cases op with
    | setTableSize newMax => exact ih (h.setMaxSize newMax)
    | encode headers =>
      by_cases hempty : headers = []
      · subst hempty
        exact iff_of_false (fun hstep => hstep) (fun hfits => hfits.1 rfl)
      · rw [InStep, Fits, hpackEncode_eq huffman enc hempty]
        obtain ⟨hfits, hmiss⟩ := decodeLoop_encodeHeaders huffman hround h headers enc.huffman
        by_cases hblock : BlockFits huffman size enc.table enc.huffman headers
        · obtain ⟨dec', history', hloop, hshared⟩ := hfits hblock
          simp only [hpackDecode, hloop, true_and, hempty, hblock, ne_eq, not_false_eq_true]
          exact and_congr hshared.agree_iff (ih hshared)
        · obtain ⟨fault, hfault⟩ := hmiss hblock
          simp only [hpackDecode, hfault, hblock, false_and, and_false, reduceCtorEq]

end

end Elle.Hpack

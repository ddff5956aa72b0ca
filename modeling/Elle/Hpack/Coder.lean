import Elle.Hpack.Codec
import Elle.Lib.Result

/-!
# The HPACK coders

`hpack-encode` and `hpack-decode`, with the table each side keeps. The encoder's table size is set by
`set-encoder-table-size`, when the peer announces one; the decoder's is set by an instruction in a block.
-/

namespace Elle.Hpack

open Result

section

variable (huffman : Option Huffman)

/-! ## The encoder -/

structure Encoder where
  table : Table
  huffman : Bool

def makeEncoder (tableSize : Nat) (useHuffman : Bool) : Encoder := ⟨makeDynamicTable tableSize, useHuffman⟩

def setEncoderTableSize (encoder : Encoder) (newMax : Nat) : Encoder :=
  { encoder with table := encoder.table.setMaxSize newMax }

/-- An integer with a flag over the bits before it. -/
def flagged (flag value prefixBits : Nat) : Bytes :=
  let (first, others) := encodeInt value prefixBits
  bytes ((flag ||| first) :: others)

/-- The parts one header is pushed as, and the table after it. -/
def encodeHeader (dt : Table) (useHuffman : Bool) (header : Entry) : List Bytes × Table :=
  let (name, value) := header
  match dt.lookup name value with
  | some (index, true) => ([flagged 0x80 index 7], dt)
  | some (index, false) =>
    ([flagged 0x40 index 6, encodeString huffman value useHuffman], dt.add (name, value))
  | none =>
    ([bytes [0x40], encodeString huffman name useHuffman, encodeString huffman value useHuffman],
      dt.add (name, value))

/-- The loop of `hpack-encode`. -/
def encodeHeaders (dt : Table) (useHuffman : Bool) : List Entry → List Bytes × Table
  | [] => ([], dt)
  | header :: headers =>
    let (parts, dt) := encodeHeader huffman dt useHuffman header
    let (more, dt) := encodeHeaders dt useHuffman headers
    (parts ++ more, dt)

/-- `(apply concat parts)`. `concat` takes at least one argument. -/
def concat : List Bytes → Except Fault Bytes
  | [] => .error .arityError
  | parts => .ok parts.flatten

def hpackEncode (encoder : Encoder) (headers : List Entry) : Except Fault Bytes × Encoder :=
  let (parts, dt) := encodeHeaders huffman encoder.table encoder.huffman headers
  (concat parts, { encoder with table := dt })

/-! ## The decoder -/

structure Decoder where
  table : Table

def makeDecoder (tableSize : Nat) : Decoder := ⟨makeDynamicTable tableSize⟩

def decodeLiteral (dt : Table) (buf : Bytes) (prefixBits : Nat) : Except Fault (Entry × Bytes) := do
  let (index, rest) ← decodeInt buf prefixBits
  if index = 0 then
    let (name, rest) ← decodeString huffman rest
    let (value, rest) ← decodeString huffman rest
    return ((name, value), rest)
  else
    let (name, _) ← dt.get index
    let (value, rest) ← decodeString huffman rest
    return ((name, value), rest)

/-- One field of a block that is not used up: the header it gives, if any, the table after it, and the
rest. -/
def decodeField (dt : Table) (buf : Bytes) : Except Fault (Option Entry × Table × Bytes) :=
  match buf with
  | [] => .error .typeError
  | b :: _ =>
    if b.toNat &&& 0x80 ≠ 0 then do
      let (index, rest) ← decodeInt buf 7
      let header ← dt.get index
      return (some header, dt, rest)
    else if b.toNat &&& 0x40 ≠ 0 then do
      let (header, rest) ← decodeLiteral huffman dt buf 6
      return (some header, dt.add header, rest)
    else if b.toNat &&& 0x20 ≠ 0 then do
      let (size, rest) ← decodeInt buf 5
      return (none, dt.setMaxSize size, rest)
    else if b.toNat &&& 0x10 ≠ 0 then do
      let (header, rest) ← decodeLiteral huffman dt buf 4
      return (some header, dt, rest)
    else do
      let (header, rest) ← decodeLiteral huffman dt buf 4
      return (some header, dt, rest)

theorem decodeLiteral_shorter {dt : Table} {buf rest : Bytes} {p : Nat} {header : Entry}
    (h : decodeLiteral huffman dt buf p = .ok (header, rest)) : rest.length < buf.length := by
  obtain ⟨⟨index, start⟩, hint, h⟩ := ok_of_bind h
  have hlt := decodeInt_length hint
  dsimp only at h
  split at h
  · obtain ⟨⟨name, afterName⟩, hname, h⟩ := ok_of_bind h
    obtain ⟨⟨value, afterValue⟩, hvalue, h⟩ := ok_of_bind h
    cases h
    have := decodeString_shorter huffman hname
    have := decodeString_shorter huffman hvalue
    dsimp only at *
    omega
  · obtain ⟨e, _, h⟩ := ok_of_bind h
    obtain ⟨⟨value, afterValue⟩, hvalue, h⟩ := ok_of_bind h
    cases h
    have := decodeString_shorter huffman hvalue
    dsimp only at *
    omega

theorem decodeField_shorter {dt dt' : Table} {buf rest : Bytes} {header : Option Entry}
    (h : decodeField huffman dt buf = .ok (header, dt', rest)) : rest.length < buf.length := by
  unfold decodeField at h
  split at h
  · cases h
  · split at h
    · obtain ⟨⟨index, start⟩, hint, h⟩ := ok_of_bind h
      obtain ⟨e, _, h⟩ := ok_of_bind h
      cases h
      exact decodeInt_length hint
    · split at h
      · obtain ⟨⟨e, start⟩, hliteral, h⟩ := ok_of_bind h
        cases h
        exact decodeLiteral_shorter huffman hliteral
      · split at h
        · obtain ⟨⟨size, start⟩, hint, h⟩ := ok_of_bind h
          cases h
          exact decodeInt_length hint
        · split at h <;>
          · obtain ⟨⟨e, start⟩, hliteral, h⟩ := ok_of_bind h
            cases h
            exact decodeLiteral_shorter huffman hliteral

/-- The loop of `hpack-decode`: the headers, or the first fault, and the table it leaves. -/
def decodeLoop (dt : Table) (buf : Bytes) : Except Fault (List Entry) × Table :=
  if buf = [] then (.ok [], dt)
  else
    match _h : decodeField huffman dt buf with
    | .error e => (.error e, dt)
    | .ok (header, dt, rest) =>
      let (result, dt) := decodeLoop dt rest
      (result.map (header.toList ++ ·), dt)
termination_by buf.length
decreasing_by exact decodeField_shorter huffman _h

/-- The headers of a block, and the decoder after it. -/
def hpackDecode (decoder : Decoder) (buf : Bytes) : Except Fault (List Entry) × Decoder :=
  let (result, dt) := decodeLoop huffman decoder.table buf
  (result, ⟨dt⟩)

end

end Elle.Hpack

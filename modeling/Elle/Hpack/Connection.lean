import Elle.Hpack.HuffmanRoundTrip
import Elle.Hpack.Step

/-!
# A connection

Encoder and decoder of `lib/http2/hpack.lisp`, loaded with its Huffman codec and created with one table
size. No instruction tells the decoder of a size set on the encoder, so the two stay in step only while
what the encoder refers to is within the size the decoder was created with.
-/

namespace Elle.Hpack

open Budget

/-- The codec the module is loaded with. -/
abbrev loaded : Option Huffman := some HuffmanCode.huffman

theorem loaded_roundTrips : ∀ codec ∈ loaded, codec.RoundTrips := by
  rintro codec ⟨⟩
  exact HuffmanCode.huffman_roundTrips

/-- A connection stays in step exactly if no header list is empty, what every header refers to is within
the table size the two sides were created with, and so is the encoder's table after every block. -/
theorem connection_in_step_iff (tableSize : Nat) (useHuffman : Bool) (ops : List Op) :
    InStep loaded (makeEncoder tableSize useHuffman) (makeDecoder tableSize) ops ↔
      Fits loaded tableSize (makeEncoder tableSize useHuffman) ops :=
  inStep_iff loaded loaded_roundTrips (Shared.start tableSize) ops

/-- What the decoder answers to the blocks of a run, those the encoder could not write apart. -/
def answers (huffman : Option Huffman) : Encoder → Decoder → List Op →
    List (Except Fault (List Entry))
  | _, _, [] => []
  | enc, dec, .setTableSize newMax :: ops =>
    answers huffman (setEncoderTableSize enc newMax) dec ops
  | enc, dec, .encode headers :: ops =>
    match hpackEncode huffman enc headers with
    | (.error e, enc') => .error e :: answers huffman enc' dec ops
    | (.ok block, enc') =>
      let (headers', dec') := hpackDecode huffman dec block
      headers' :: answers huffman enc' dec' ops

def sent (ops : List Op) : List (List Entry) :=
  ops.filterMap fun
    | .encode headers => some headers
    | .setTableSize _ => none

theorem answers_of_inStep {huffman : Option Huffman} {enc : Encoder} {dec : Decoder} {ops : List Op}
    (h : InStep huffman enc dec ops) : answers huffman enc dec ops = (sent ops).map .ok := by
  induction ops generalizing enc dec with
  | nil => rfl
  | cons op ops ih =>
    cases op with
    | setTableSize newMax => exact ih h
    | encode headers =>
      rw [InStep] at h
      rw [answers]
      split at h
      · exact absurd h id
      · next henc =>
        obtain ⟨hanswer, _, hrest⟩ := h
        simp only [henc, sent, List.filterMap_cons, List.map_cons]
        exact List.cons_eq_cons.2 ⟨hanswer, ih hrest⟩

/-- Three blocks after a size the decoder does not hear of. The third refers to the entry of the first,
which the decoder has evicted. -/
def grownTable : List Op :=
  [.setTableSize 100, .encode [(ascii "a", ascii "b")], .encode [(ascii "c", ascii "d")],
    .encode [(ascii "a", ascii "b")]]

/-- A size beyond the first leaves the decoder behind, and an empty header list is not encoded. -/
theorem connection_out_of_step :
    (answers loaded (makeEncoder 40 true) (makeDecoder 40) grownTable =
      [.ok [(ascii "a", ascii "b")], .ok [(ascii "c", ascii "d")],
        .error (.compressionError "HPACK: dynamic table index out of range: 63")] ∧
      ¬InStep loaded (makeEncoder 40 true) (makeDecoder 40) grownTable) ∧
    (answers loaded (makeEncoder 40 true) (makeDecoder 40) [.encode []] = [.error .arityError] ∧
      ¬InStep loaded (makeEncoder 40 true) (makeDecoder 40) [.encode []]) := by
  have hgrown : answers loaded (makeEncoder 40 true) (makeDecoder 40) grownTable =
      [.ok [(ascii "a", ascii "b")], .ok [(ascii "c", ascii "d")],
        .error (.compressionError "HPACK: dynamic table index out of range: 63")] := by
    decide +kernel
  refine ⟨⟨hgrown, fun h => ?_⟩, rfl, fun h => h⟩
  have hsent := hgrown.symm.trans (answers_of_inStep h)
  revert hsent
  decide +kernel

end Elle.Hpack

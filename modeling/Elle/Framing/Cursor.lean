import Elle.Framing.Framer

/-!
# The framer is a cursor over its stream

The abstract cursor has the whole stream before it and knows no chunks. Every call on a framer answers
what the cursor answers on the bytes the framer still has before it, those of its buffer and then those
of its source, and leaves before it what the cursor leaves.
-/

namespace Elle.Framing

open Search List

/-! ## The cursor -/

namespace Cursor

/-- Up to the first delimiter, and past it. Without one, the rest, or nothing at the end. -/
def until_ (d stream : Bytes) : Option Bytes × Bytes :=
  match find d stream with
  | some i => (some (stream.take i), stream.drop (i + d.length))
  | none => (if stream = [] then none else some stream, [])

/-- Up to the first newline, without the carriage return before it. A last line that no newline ends
is answered whole. -/
def line (stream : Bytes) : Option Bytes × Bytes :=
  match find [10] stream with
  | some i => (some (stripCr (stream.take i)), stream.drop (i + 1))
  | none => (if stream = [] then none else some stream, [])

/-- Exactly `n` bytes. If there are fewer they are lost. -/
def exact (n : Nat) (stream : Bytes) : Option Bytes × Bytes :=
  if n ≤ stream.length then (some (stream.take n), stream.drop n) else (none, [])

end Cursor

/-! ## What a framer has before it -/

/-- The bytes of the buffer from the cursor on, then those of the source. -/
def Framer.ahead (r : Framer) : Bytes := r.buf.drop r.pos ++ r.chunks.flatten

/-- The cursor is in the buffer, and a framer that has seen the end has nothing left. -/
structure Framer.Ok (r : Framer) : Prop where
  pos_le : r.pos ≤ r.buf.length
  ended : r.eof → r.buf = [] ∧ r.chunks = []

theorem Framer.Ok.ahead_of_eof {r : Framer} (h : r.Ok) (heof : r.eof) : r.ahead = [] := by
  obtain ⟨hbuf, hchunks⟩ := h.ended heof
  simp [Framer.ahead, hbuf, hchunks]

theorem Framer.Ok.exhaust {r : Framer} (h : r.Ok) : { r with pos := r.buf.length : Framer }.Ok :=
  ⟨Nat.le_refl _, h.ended⟩

theorem fill_eq_false {r r' : Framer} (hr : r.Ok) (h : fill r = (false, r')) :
    r.chunks = [] ∧ r'.eof ∧ r'.Ok := by
  unfold fill at h
  split at h
  · next heof =>
    cases h
    exact ⟨(hr.ended heof).2, heof, hr⟩
  · split at h
    · next hc =>
      cases h
      exact ⟨hc, rfl, ⟨Nat.le_refl _, fun _ => ⟨rfl, hc⟩⟩⟩
    · cases h

theorem joinParts_eq (parts : List Bytes) : joinParts parts = parts.flatten := by
  match parts with
  | [] => rfl
  | [part] => simp [joinParts]
  | _ :: _ :: _ => rfl

theorem joinParts_pushWhen {cond : Prop} [Decidable cond] {parts : List Bytes} {piece : Bytes}
    (h : ¬cond → piece = []) : joinParts (pushWhen cond parts piece) = joinParts parts ++ piece := by
  unfold pushWhen
  split
  · simp [joinParts_eq]
  · next hc => simp [h hc]

/-! ## The primitive search -/

theorem at_iff_take (d xs : Bytes) (i : Nat) : At d xs i ↔ (xs.drop i).take d.length = d := by
  rw [At, prefix_iff_eq_take]
  exact eq_comm

theorem findIdx_windows {d hay : Bytes} (hd : d ≠ []) :
    (windows d.length hay).findIdx? (· == d) = find d hay := by
  have hpos := List.length_pos_iff.2 hd
  have hget : ∀ i, i < (windows d.length hay).length →
      (windows d.length hay)[i]? = some ((hay.drop i).take d.length) := by
    intro i hi
    simp only [windows, length_map, length_range] at hi
    simp [windows, hi]
  cases hw : (windows d.length hay).findIdx? (· == d) with
  | none =>
    rw [findIdx?_eq_none_iff] at hw
    refine (find_eq_none fun i hat => ?_).symm
    have hle := hat.le hd
    have hi : i < (windows d.length hay).length := by
      simp only [windows, length_map, length_range]
      omega
    have hmem := mem_of_getElem? (hget i hi)
    rw [(at_iff_take d hay i).1 hat] at hmem
    simpa using hw d hmem
  | some i =>
    obtain ⟨hi, hat, hbefore⟩ := List.findIdx?_eq_some_iff_getElem.1 hw
    have heq : ∀ j (hj : j < (windows d.length hay).length),
        (windows d.length hay)[j] = (hay.drop j).take d.length := fun j hj =>
      Option.some.inj ((getElem?_eq_getElem hj).symm.trans (hget j hj))
    have hfirst : First d hay i := by
      refine ⟨(at_iff_take d hay i).2 ?_, fun j hj hat' => ?_⟩
      · rw [← heq i hi]
        exact beq_iff_eq.1 hat
      · refine hbefore j hj (beq_iff_eq.2 ?_)
        rw [heq j (by omega)]
        exact (at_iff_take d hay j).1 hat'
    exact (hfirst.find_eq hd).symm

theorem findIdx_singleton (b : UInt8) (hay : Bytes) : hay.findIdx? (· == b) = find [b] hay := by
  induction hay with
  | nil => simp [find]
  | cons x xs ih =>
    rw [findIdx?_cons, find, ih]
    by_cases hx : x = b
    · simp [hx]
    · have hne : ¬[b] <+: x :: xs := by
        rw [cons_prefix_cons]
        exact fun h => hx h.1.symm
      simp [hx, hne]

theorem findBytes_eq {d : Bytes} (hd : d ≠ []) (hay : Bytes) : findBytes hay d = find d hay := by
  match d with
  | [] => exact absurd rfl hd
  | [one] => exact findIdx_singleton one hay
  | a :: b :: rest =>
    by_cases hlt : (a :: b :: rest).length > hay.length
    · refine (if_pos hlt).trans (find_eq_none fun i hat => ?_).symm
      have hle := hat.le hd
      omega
    · exact (if_neg hlt).trans (findIdx_windows hd)

theorem bytesFind_eq {d hay : Bytes} {pos : Nat} (hd : d ≠ []) (hpos : pos ≤ hay.length) :
    bytesFind hay d pos = (find d (hay.drop pos)).map (pos + ·) := by
  rw [bytesFind, if_neg (by omega), findBytes_eq hd]

/-! ## `until` -/

theorem lastBytes_last (n : Nat) (xs piece : Bytes) :
    lastBytes (last n xs) piece n = last n (xs ++ piece) :=
  last_append_last n xs piece

theorem slice_head (buf : Bytes) (n : Nat) : slice buf 0 (min n buf.length) = buf.take n := by
  rw [slice, drop_zero, ← take_take, take_length]

/-- The window of the tail and the head of the new chunk finds the first delimiter that begins before
the chunk. -/
theorem straddle_eq_some {d xs buf : Bytes} {cut : Nat} (hd : d ≠ []) (hno : ∀ i, ¬At d xs i)
    (h : straddle d (last (d.length - 1) xs) buf = some cut) :
    cut ≤ xs.length ∧ cut ≤ d.length ∧ First d (xs ++ buf) (xs.length - cut) := by
  unfold straddle at h
  have hlen := length_last (d.length - 1) xs
  rw [slice_head, bytesFind_eq hd (Nat.zero_le _)] at h
  split at h
  · split at h
    · next j hj =>
      split at h
      · next hlt =>
        cases h
        obtain ⟨k, hk, rfl⟩ := Option.map_eq_some_iff.1 hj
        rw [Nat.zero_add] at hlt ⊢
        have hfirst := (first_of_find hk).of_window hno hlt
        refine ⟨by omega, by omega, ?_⟩
        rwa [show xs.length - ((last (d.length - 1) xs).length - k) =
          xs.length - (last (d.length - 1) xs).length + k by omega]
      · cases h
    · cases h
  · cases h

theorem straddle_eq_none {d xs buf : Bytes} (hd : d ≠ []) (hno : ∀ i, ¬At d xs i)
    (h : straddle d (last (d.length - 1) xs) buf = none) (i : Nat) (hi : i < xs.length) :
    ¬At d (xs ++ buf) i := by
  refine not_at_of_window hno (fun j hj hat => ?_) i hi
  have hlen := length_last (d.length - 1) xs
  have hcond : d.length > 1 ∧ last (d.length - 1) xs ≠ [] :=
    ⟨by omega, List.length_pos_iff.1 (by omega)⟩
  rw [straddle, if_pos hcond, slice_head, bytesFind_eq hd (Nat.zero_le _), drop_zero] at h
  cases hf : find d (window d xs buf) with
  | none => exact not_at_of_find hd hf j hat
  | some k =>
    rw [hf] at h
    have hle : k ≤ j := by
      by_contra hlt
      exact (first_of_find hf).before j (by omega) hat
    simp [show k < (last (d.length - 1) xs).length by omega] at h

/-- What a call answers and leaves is what the cursor does on `stream`. -/
structure Follows (out : Option Bytes × Framer) (cursor : Option Bytes × Bytes) : Prop where
  ok : out.2.Ok
  answer : out.1 = cursor.1
  ahead : out.2.ahead = cursor.2

theorem until_of_first {d stream : Bytes} {i : Nat} (hd : d ≠ []) (h : First d stream i) :
    Cursor.until_ d stream = (some (stream.take i), stream.drop (i + d.length)) := by
  rw [Cursor.until_, h.find_eq hd]

theorem until_of_not_at {d stream : Bytes} (h : ∀ i, ¬At d stream i) :
    Cursor.until_ d stream = (if stream = [] then none else some stream, []) := by
  rw [Cursor.until_, find_eq_none h]

theorem slice_eq (buf : Bytes) (pos k : Nat) : slice buf pos (pos + k) = (buf.drop pos).take k := by
  rw [slice, drop_take, Nat.add_sub_cancel_left]

theorem collected_eq (r : Framer) (parts : List Bytes) :
    joinParts (pushWhen (r.pos < r.buf.length) parts (r.buf.drop r.pos)) =
      joinParts parts ++ r.buf.drop r.pos :=
  joinParts_pushWhen fun h => drop_eq_nil_of_le (Nat.le_of_not_lt h)

theorem tail_eq {d tail xs : Bytes} (piece : Bytes) (h : tail = last (d.length - 1) xs) :
    (if d.length > 1 then lastBytes tail piece (d.length - 1) else tail) =
      last (d.length - 1) (xs ++ piece) := by
  split
  · rw [h, lastBytes_last]
  · next hlen =>
    have hzero : d.length - 1 = 0 := by omega
    rw [h, hzero, last, last, Nat.sub_zero, Nat.sub_zero, drop_length, drop_length]

theorem not_at_collected {d : Bytes} {r : Framer} {xs : Bytes} (hd : d ≠ []) (hr : r.Ok)
    (hno : ∀ j, j < xs.length → ¬At d (xs ++ r.buf.drop r.pos) j)
    (h : bytesFind r.buf d r.pos = none) (i : Nat) : ¬At d (xs ++ r.buf.drop r.pos) i := by
  rw [bytesFind_eq hd hr.pos_le, Option.map_eq_none_iff] at h
  exact not_at_append hno (not_at_of_find hd h) i

theorem ahead_of_fill {r : Framer} {chunk : Bytes} {chunks : List Bytes}
    (h : r.chunks = chunk :: chunks) (xs : Bytes) :
    xs ++ r.ahead = (xs ++ r.buf.drop r.pos) ++ (chunk ++ chunks.flatten) := by
  rw [Framer.ahead, h, flatten_cons, append_assoc]

/-- The loop, in the middle of a record. No delimiter in what is collected and the buffer begins in
what is collected, and the tail is its end. -/
theorem untilLoop_follows {d : Bytes} (hd : d ≠ []) (r : Framer) (parts : List Bytes) (tail : Bytes)
    (hr : r.Ok)
    (hno : ∀ j, j < (joinParts parts).length → ¬At d (joinParts parts ++ r.buf.drop r.pos) j)
    (htail : tail = last (d.length - 1) (joinParts parts)) :
    Follows (untilLoop d r parts tail) (Cursor.until_ d (joinParts parts ++ r.ahead)) ∧
      ((untilLoop d r parts tail).2.eof ↔ find d (joinParts parts ++ r.ahead) = none) := by
  fun_induction untilLoop d r parts tail with
  | case1 r parts tail i hi =>
    rw [bytesFind_eq hd hr.pos_le] at hi
    obtain ⟨k, hk, rfl⟩ := Option.map_eq_some_iff.1 hi
    have hfirst := first_of_find hk
    have hle := hfirst.at_.le hd
    have hpos := hr.pos_le
    rw [length_drop] at hle
    have hall : First d (joinParts parts ++ r.ahead) ((joinParts parts).length + k) := by
      rw [Framer.ahead, ← append_assoc]
      exact (hfirst.of_right hno).append hd _
    have hlive : r.eof = false := by
      by_contra heof
      have hbuf := (hr.ended (by simpa using heof)).1
      have hlen := List.length_pos_iff.2 hd
      rw [hbuf, length_nil] at hle
      omega
    refine ⟨?_, by simp [hlive, hall.find_eq hd]⟩
    rw [until_of_first hd hall]
    refine ⟨⟨by dsimp only; omega, fun h => absurd h (by simp [hlive])⟩, ?_, ?_⟩
    · have hpush : ¬r.pos < r.pos + k → slice r.buf r.pos (r.pos + k) = [] := by
        intro h
        rw [slice_eq, show k = 0 by omega, take_zero]
      rw [joinParts_pushWhen hpush, slice_eq, take_length_add_append, Framer.ahead,
        take_append_of_le_length (by rw [length_drop]; omega)]
    · rw [Nat.add_assoc, Nat.add_assoc, drop_length_add_append, Framer.ahead, Framer.ahead,
        drop_append_of_le_length (by rw [length_drop]; omega), drop_drop]
  | case2 r parts tail hi parts' r' hfill joined =>
    obtain ⟨hchunks, heof, hok⟩ := fill_eq_false hr.exhaust hfill
    have hjoined : joined = joinParts parts ++ r.ahead := by
      rw [Framer.ahead, show r.chunks = [] from hchunks, flatten_nil, append_nil]
      exact collected_eq r parts
    have hnone : ∀ i, ¬At d (joinParts parts ++ r.ahead) i := by
      rw [Framer.ahead, show r.chunks = [] from hchunks, flatten_nil, append_nil]
      exact not_at_collected hd hr hno hi
    refine ⟨?_, iff_of_true heof (find_eq_none hnone)⟩
    rw [until_of_not_at hnone]
    refine ⟨hok, ?_, hok.ahead_of_eof heof⟩
    rw [hjoined]
    simp only [List.isEmpty_iff]
  | case3 r parts tail hi parts' tail' r' hfill cut hcut joined =>
    obtain ⟨hlive, chunk, chunks, hchunks, rfl⟩ := fill_eq_true hfill
    have hjoined : joined = joinParts parts ++ r.buf.drop r.pos := collected_eq r parts
    have hnone := not_at_collected hd hr hno hi
    have htail' : tail' = last (d.length - 1) joined := by
      rw [hjoined]
      exact tail_eq _ htail
    rw [← hjoined] at hnone
    rw [htail'] at hcut
    obtain ⟨hcutle, hcutd, hfirst⟩ := straddle_eq_some hd hnone hcut
    have hle := hfirst.at_.le hd
    rw [length_append] at hle
    dsimp only at hle hfirst hlive hchunks
    have hahead : joinParts parts ++ r.ahead = joined ++ (chunk ++ chunks.flatten) := by
      rw [hjoined]
      exact ahead_of_fill hchunks _
    have hall := hfirst.append hd chunks.flatten
    rw [append_assoc, ← hahead] at hall
    refine ⟨?_, by simp [hlive, hall.find_eq hd]⟩
    rw [until_of_first hd hall, hahead]
    refine ⟨⟨by dsimp only; omega, fun h => absurd h (by simp [hlive])⟩, ?_, ?_⟩
    · rw [take_append_of_le_length (by omega)]
      rfl
    · rw [show joined.length - cut + d.length = joined.length + (d.length - cut) by omega,
        drop_length_add_append, drop_append_of_le_length (by omega)]
      rfl
  | case4 r parts tail hi parts' tail' r' hfill hcut ih =>
    obtain ⟨hlive, chunk, chunks, hchunks, rfl⟩ := fill_eq_true hfill
    have hjoined : joinParts parts' = joinParts parts ++ r.buf.drop r.pos := collected_eq r parts
    have hnone := not_at_collected hd hr hno hi
    have htail' : tail' = last (d.length - 1) (joinParts parts') := by
      rw [hjoined]
      exact tail_eq _ htail
    rw [← hjoined] at hnone
    rw [htail'] at hcut
    dsimp only at hlive hchunks
    have hahead : joinParts parts ++ r.ahead = joinParts parts' ++ (chunk ++ chunks.flatten) := by
      rw [hjoined]
      exact ahead_of_fill hchunks _
    rw [hahead]
    refine ih ⟨Nat.zero_le _, fun h => absurd h (by simp_all)⟩ ?_ htail'
    exact straddle_eq_none hd hnone hcut

end Elle.Framing

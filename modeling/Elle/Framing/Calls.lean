import Elle.Framing.Cursor
import Elle.Lib.Answers

/-!
# Calls on one framer

The other calls, and what any sequence of calls on one framer answers.
-/

namespace Elle.Framing

open Search List

/-! ## Records and lines -/

variable {r : Framer}

theorem framingUntil_follows {d : Bytes} (hr : r.Ok) (hd : d ≠ []) :
    Follows (framingUntil r d) (Cursor.until_ d r.ahead) ∧
      ((framingUntil r d).2.eof ↔ find d r.ahead = none) :=
  untilLoop_follows hd r [] [] hr (fun _ h => absurd h (Nat.not_lt_zero _)) (by simp [last, joinParts])

/-- The framer has seen the end of its source exactly if no newline ended the line, which is then the
last one. -/
theorem framingLine_follows (hr : r.Ok) : Follows (framingLine r) (Cursor.line r.ahead) := by
  obtain ⟨hfollows, heof⟩ := framingUntil_follows hr (cons_ne_nil 10 [])
  unfold framingLine
  cases hout : framingUntil r [10] with
  | mk answer r' =>
    rw [hout] at hfollows heof
    cases hfind : find [10] r.ahead with
    | none =>
      have hended : r'.eof := heof.2 hfind
      have hcursor : Cursor.line r.ahead = Cursor.until_ [10] r.ahead := by
        rw [Cursor.line, Cursor.until_, hfind]
      rw [hcursor]
      cases answer with
      | none => exact hfollows
      | some rec =>
        simp only [hended]
        exact hfollows
    | some i =>
      have hlive : ¬r'.eof := fun h => by simp [hfind] at heof; simp [heof] at h
      have hanswer := hfollows.answer
      have hahead := hfollows.ahead
      rw [Cursor.until_, hfind] at hanswer hahead
      subst hanswer
      rw [Cursor.line, hfind]
      simp only [hlive]
      exact ⟨hfollows.ok, rfl, hahead⟩

/-! ## Exact counts -/

theorem flatten_dropChunks (n : Nat) (chunks : List Bytes) :
    (dropChunks n chunks).flatten = chunks.flatten.drop n := by
  induction chunks generalizing n with
  | nil => simp [dropChunks]
  | cons c cs ih =>
    rw [dropChunks, flatten_cons, drop_append]
    split
    · next hlt => simp [show n - c.length = 0 by omega]
    · next hge =>
      have hnil : c.drop n = [] := drop_eq_nil_of_le (by omega)
      rw [ih, hnil, nil_append]

theorem exactLoop_follows (r : Framer) (parts : List Bytes) (need : Nat) (hr : r.Ok)
    (hneed : 0 < need) :
    Follows (exactLoop r parts need)
      (Cursor.exact ((joinParts parts).length + need) (joinParts parts ++ r.chunks.flatten)) := by
  fun_induction exactLoop r parts need with
  | case1 r parts need r' hfill =>
    obtain ⟨hchunks, heof, hok⟩ := fill_eq_false hr hfill
    rw [hchunks, flatten_nil, append_nil, Cursor.exact, if_neg (by omega)]
    exact ⟨hok, rfl, hok.ahead_of_eof heof⟩
  | case2 r parts need r' hfill hge =>
    obtain ⟨hlive, chunk, chunks, hchunks, rfl⟩ := fill_eq_true hfill
    dsimp only at hge
    rw [hchunks, flatten_cons, Cursor.exact, if_pos (by simp; omega)]
    refine ⟨⟨hge, fun h => absurd h (by simp [hlive])⟩, ?_, ?_⟩
    · rw [take_length_add_append, take_append_of_le_length hge]
      simp [joinParts_eq, slice]
    · rw [drop_length_add_append, drop_append_of_le_length hge]
      rfl
  | case3 r parts need r' hfill hlt ih =>
    obtain ⟨hlive, chunk, chunks, hchunks, rfl⟩ := fill_eq_true hfill
    dsimp only at hlt ih
    have hjoined : joinParts (parts ++ [chunk]) = joinParts parts ++ chunk := by
      simp [joinParts_eq]
    have hcount : (joinParts parts ++ chunk).length + (need - chunk.length) =
        (joinParts parts).length + need := by
      rw [length_append]
      omega
    rw [hjoined, hcount] at ih
    rw [hchunks, flatten_cons, ← append_assoc]
    exact ih ⟨Nat.le_refl _, fun h => absurd h (by simp [hlive])⟩ (by omega)

theorem framingExact_follows (hr : r.Ok) (n : Nat) : Follows (framingExact r n) (Cursor.exact n r.ahead) := by
  have hpos := hr.pos_le
  have hdrop : (r.buf.drop r.pos).length = r.buf.length - r.pos := length_drop
  unfold framingExact
  dsimp only
  split
  · next hge =>
    rw [Cursor.exact, if_pos (by rw [Framer.ahead, length_append]; omega), Framer.ahead,
      take_append_of_le_length (by omega), drop_append_of_le_length (by omega)]
    refine ⟨⟨by dsimp only; omega, hr.ended⟩, ?_, ?_⟩
    · rw [slice_eq]
    · rw [Framer.ahead, drop_drop]
  · next hlt =>
    have hjoined : joinParts (pushWhen (r.buf.length - r.pos > 0) [] (r.buf.drop r.pos)) =
        r.buf.drop r.pos := by
      rw [joinParts_pushWhen fun h => drop_eq_nil_of_le (by omega)]
      rfl
    have hcount : (r.buf.drop r.pos).length + (n - (r.buf.length - r.pos)) = n := by omega
    split
    · -- the port is asked for the rest of the count
      rw [← hcount, Cursor.exact, Framer.ahead, length_append, take_length_add_append,
        drop_length_add_append, hcount, readExact]
      by_cases hle : n - (r.buf.length - r.pos) ≤ r.chunks.flatten.length
      · rw [if_pos hle, if_pos (by omega)]
        refine ⟨⟨Nat.le_refl _, fun h => ⟨(hr.ended h).1, ?_⟩⟩, ?_, ?_⟩
        · rw [(hr.ended h).2, dropChunks]
        · have happend (more : Bytes) : joinParts (pushWhen (r.buf.length - r.pos > 0) []
              (r.buf.drop r.pos) ++ [more]) = r.buf.drop r.pos ++ more := by
            rw [joinParts_eq, flatten_append, ← joinParts_eq, hjoined, flatten_singleton]
          exact congrArg some (happend _)
        · rw [Framer.ahead, drop_length, nil_append, flatten_dropChunks]
      · rw [if_neg hle, if_neg (by omega)]
        exact ⟨⟨Nat.le_refl _, fun h => ⟨(hr.ended h).1, rfl⟩⟩, rfl, by simp [Framer.ahead]⟩
    · have hloop := exactLoop_follows { r with pos := r.buf.length }
        (pushWhen (r.buf.length - r.pos > 0) [] (r.buf.drop r.pos)) (n - (r.buf.length - r.pos))
        hr.exhaust (by omega)
      rw [hjoined, hcount] at hloop
      exact hloop

/-! ## The rest -/

theorem restLoop_eq (r : Framer) (parts : List Bytes) (hr : r.Ok) :
    (restLoop r parts).2.Ok ∧ (restLoop r parts).2.ahead = [] ∧
      joinParts (restLoop r parts).1 = joinParts parts ++ r.chunks.flatten := by
  fun_induction restLoop r parts with
  | case1 r parts r' hfill =>
    obtain ⟨hchunks, heof, hok⟩ := fill_eq_false hr hfill
    exact ⟨hok, hok.ahead_of_eof heof, by rw [hchunks, flatten_nil, append_nil]⟩
  | case2 r parts r' hfill ih =>
    obtain ⟨hlive, chunk, chunks, hchunks, rfl⟩ := fill_eq_true hfill
    obtain ⟨hok, hahead, hjoined⟩ := ih ⟨Nat.le_refl _, fun h => absurd h (by simp [hlive])⟩
    refine ⟨hok, hahead, ?_⟩
    rw [hjoined, hchunks]
    simp [joinParts_eq]

theorem framingRest_eq (hr : r.Ok) :
    (framingRest r).2.Ok ∧ (framingRest r).1 = r.ahead ∧ (framingRest r).2.ahead = [] := by
  obtain ⟨hok, hahead, hjoined⟩ := restLoop_eq { r with pos := r.buf.length }
    (pushWhen (r.pos < r.buf.length) [] (r.buf.drop r.pos)) hr.exhaust
  rw [collected_eq] at hjoined
  exact ⟨hok, hjoined, hahead⟩

/-! ## Up to a count -/

/-! ## Sequences of calls -/

/-- The calls whose answers do not depend on the chunks. -/
inductive Call where
  | until_ (delim : Bytes) (nonempty : delim ≠ [])
  | line
  | exact (n : Nat)
  | rest

def Framer.call (r : Framer) : Call → Option Bytes × Framer
  | .until_ delim _ => framingUntil r delim
  | .line => framingLine r
  | .exact n => framingExact r n
  | .rest =>
    let (bytes, r') := framingRest r
    (some bytes, r')

def Cursor.call (stream : Bytes) : Call → Option Bytes × Bytes
  | .until_ delim _ => Cursor.until_ delim stream
  | .line => Cursor.line stream
  | .exact n => Cursor.exact n stream
  | .rest => (some stream, [])

theorem call_follows (hr : r.Ok) (call : Call) : Follows (r.call call) (Cursor.call r.ahead call) := by
  cases call with
  | until_ delim nonempty => exact (framingUntil_follows hr nonempty).1
  | line => exact framingLine_follows hr
  | exact n => exact framingExact_follows hr n
  | rest =>
    obtain ⟨hok, hanswer, hahead⟩ := framingRest_eq hr
    exact ⟨hok, congrArg some hanswer, hahead⟩

def Source.bytes : Source → Bytes
  | .port _ chunks => chunks.flatten
  | .fiber chunks => chunks.flatten
  | .function chunks => chunks.flatten
  | .memory content => content
  | .other => []

theorem framingOpen_ok {source : Source} (h : framingOpen source = .ok r) :
    r.Ok ∧ r.ahead = source.bytes := by
  have hmake (chunks : List Bytes) (exact : Bool) (buf : Bytes) :
      (makeFramer chunks exact buf).Ok ∧ (makeFramer chunks exact buf).ahead = buf ++ chunks.flatten :=
    ⟨⟨Nat.zero_le _, fun heof => by cases heof⟩, by simp [makeFramer, Framer.ahead]⟩
  cases source with
  | port encoding chunks =>
    cases encoding <;> cases h
    exact hmake chunks true []
  | fiber chunks | function chunks =>
    cases h
    exact hmake chunks false []
  | memory content =>
    cases h
    simpa [Source.bytes] using hmake [] false content
  | other => cases h

end Elle.Framing

import Elle.Reader.Relex

/-!
# Literals read again

String literals, integers and finite floats: the text the printer writes is read as one token.
-/

namespace Elle.Reader

open List

/-! ### Strings -/

theorem readString_plain {lexicon : Lexicon} {c : Char} (hq : c ≠ '"') (hb : c ≠ '\\')
    (cs : List Char) :
    readString lexicon (c :: cs) = (readString lexicon cs).map fun p => (c :: p.1, p.2) := by
  rw [readString, if_neg hq, if_neg hb]

theorem readString_escape {lexicon : Lexicon} {e ch : Char} (cs : List Char)
    (h : lexicon.stringEscapes.decode (e :: cs) = .ok ⟨ch, 1⟩) :
    readString lexicon ('\\' :: e :: cs) = (readString lexicon cs).map fun p => (ch :: p.1, p.2) := by
  rw [readString, if_neg (by decide), if_pos rfl, h]
  rfl

theorem readString_writeChar (lexicon : Lexicon) (c : Char) (cs : List Char) :
    readString lexicon (writeChar c ++ cs) = (readString lexicon cs).map fun p => (c :: p.1, p.2) := by
  unfold writeChar
  split
  · rename_i escape ch h
    have hmem := mem_of_find?_eq_some h
    have hch : ch = c := by simpa using find?_some h
    subst hch
    refine readString_escape cs ?_
    simp only [sharedEscapes, mem_cons, Prod.mk.injEq, not_mem_nil, or_false] at hmem
    rcases hmem with ⟨rfl, rfl⟩ | ⟨rfl, rfl⟩ | ⟨rfl, rfl⟩ | ⟨rfl, rfl⟩ | ⟨rfl, rfl⟩ <;> rfl
  · rename_i h
    rw [find?_eq_none] at h
    refine readString_plain ?_ ?_ cs
    · rintro rfl
      exact h ('"', '"') (by decide) rfl
    · rintro rfl
      exact h ('\\', '\\') (by decide) rfl

theorem readString_written (lexicon : Lexicon) (s rest : List Char) :
    readString lexicon (s.flatMap writeChar ++ '"' :: rest) = .ok (s, rest) := by
  induction s with
  | nil => rw [flatMap_nil, nil_append, readString, if_pos rfl]
  | cons c cs ih =>
    rw [flatMap_cons, append_assoc, readString_writeChar, ih]
    rfl

section

variable {F : Type} [Host F]

theorem nextToken_stringLiteral (s rest : List Char) :
    nextToken (F := F) .current (stringLiteral s ++ rest) = .ok (some (.string s, rest)) := by
  unfold stringLiteral
  rw [cons_append, nextToken_cons rfl (by decide), append_assoc]
  show Except.map some (Except.map _ (readString _ (s.flatMap writeChar ++ '"' :: rest))) = _
  rw [readString_written]
  rfl

theorem lexes_string (s : List Char) : Lexes (stringLiteral s) (.string s : Token F) :=
  fun rest _ => nextToken_stringLiteral s rest

/-! ### Numbers -/

theorem span_digits {ds tail : List Char} (hd : ∀ c ∈ ds, c.isDigit)
    (ht : tail.head?.any isBodyChar = false) :
    (ds ++ tail).takeWhile isBodyChar = ds ∧ (ds ++ tail).dropWhile isBodyChar = tail := by
  have hb : ∀ c ∈ ds, isBodyChar c := fun c hc => by rw [isBodyChar, hd c hc]; rfl
  rw [takeWhile_append_of_pos hb, dropWhile_append_of_pos hb]
  cases tail with
  | nil => simp
  | cons c cs =>
    have hc : isBodyChar c = false := ht
    rw [takeWhile_cons_of_neg (by simp [hc]), dropWhile_cons_of_neg (by simp [hc])]
    simp

theorem hasDoubleUnderscore_eq {body : List Char} (h : '_' ∉ body) : hasDoubleUnderscore body = false := by
  induction body with
  | nil => rfl
  | cons c cs ih =>
    rw [mem_cons, not_or] at h
    rw [hasDoubleUnderscore]
    · exact ih h.2
    · intro tail hc
      exact absurd hc.symm h.1

theorem validate_eq {body : List Char} (h : '_' ∉ body) (context : List Char) :
    validateAndStripUnderscores body context = .ok body := by
  have hhead : body.head? ≠ some '_' := fun hh => h (mem_of_head? hh)
  have hlast : body.getLast? ≠ some '_' := fun hl => h (mem_of_getLast? hl)
  unfold validateAndStripUnderscores
  rw [if_neg (by simp [hhead, hlast, hasDoubleUnderscore_eq h]), List.filter_eq_self.mpr]
  intro c hc
  rw [bne_iff_ne]
  rintro rfl
  exact h hc

theorem not_underscore_of_digits {ds : List Char} (h : ∀ c ∈ ds, c.isDigit) : '_' ∉ ds :=
  fun hm => by cases h _ hm

variable {sign whole fraction exponent : List Char}

section

variable (h : DecimalParts sign whole fraction exponent)
include h

theorem DecimalParts.exponent_head {rest : List Char}
    (hr : Stop rest) {p : Char → Bool} (he : p 'e' = false)
    (hp : ([' ', ')', ']', '\x7d', '|'].any p) = false) : (exponent ++ rest).head?.any p = false := by
  rcases h.exponent with rfl | ⟨minus, d, ds, rfl, -⟩
  · exact hr.any hp
  · exact he

theorem DecimalParts.fraction_head {rest : List Char}
    (hr : Stop rest) {p : Char → Bool} (he : p 'e' = false) (hdot : p '.' = false)
    (hp : ([' ', ')', ']', '\x7d', '|'].any p) = false) :
    (fraction ++ (exponent ++ rest)).head?.any p = false := by
  rcases h.fraction with rfl | ⟨ds, rfl, -⟩
  · exact h.exponent_head hr he hp
  · exact hdot

theorem DecimalParts.readFraction_eq
    {rest : List Char} (hr : Stop rest) :
    readFraction sign whole (fraction ++ (exponent ++ rest)) =
      .ok (decide (fraction ≠ []), whole ++ fraction, exponent ++ rest) := by
  rcases h.fraction with rfl | ⟨ds, rfl, hd⟩
  · have hdot := h.exponent_head hr (p := (· == '.')) rfl rfl
    rw [nil_append]
    cases hx : exponent ++ rest with
    | nil => simp [readFraction]
    | cons c cs =>
      rw [hx] at hdot
      rw [readFraction, if_neg (by simpa using hdot)]
      simp
  · have hs := span_digits hd (h.exponent_head hr (p := isBodyChar) rfl rfl)
    have hlast : whole.getLast? ≠ some '_' := fun hl =>
      not_underscore_of_digits h.whole (mem_of_getLast? hl)
    have hhead : (ds ++ (exponent ++ rest)).head? ≠ some '_' := by
      cases ds with
      | nil =>
        intro hh
        have := h.exponent_head hr (p := (· == '_')) rfl rfl
        rw [nil_append] at hh
        simp [hh] at this
      | cons d ds =>
        intro hh
        cases hh
        cases hd _ mem_cons_self
    rw [cons_append, readFraction, if_pos rfl, if_neg hlast, if_neg hhead, hs.1, hs.2]
    simp

theorem DecimalParts.not_underscore : '_' ∉ whole ++ fraction ∧ '_' ∉ (whole ++ fraction) ++ exponent := by
  have hf : '_' ∉ whole ++ fraction := by
    rw [mem_append, not_or]
    refine ⟨not_underscore_of_digits h.whole, ?_⟩
    rcases h.fraction with rfl | ⟨ds, rfl, hd⟩
    · simp
    · simpa using not_underscore_of_digits hd
  refine ⟨hf, ?_⟩
  rw [mem_append, not_or]
  refine ⟨hf, ?_⟩
  rcases h.exponent with rfl | ⟨minus, d, ds, rfl, hm, hd⟩
  · simp
  · have := not_underscore_of_digits hd
    rcases hm with rfl | rfl <;> simpa using this

theorem DecimalParts.readExponent_eq
    {rest : List Char} (hr : Stop rest) :
    readExponent sign (whole ++ fraction) (exponent ++ rest) =
      .ok (decide (exponent ≠ []), (whole ++ fraction) ++ exponent, rest) := by
  rcases h.exponent with rfl | ⟨minus, d, ds, rfl, hm, hd⟩
  · rw [nil_append]
    cases rest with
    | nil => simp [readExponent]
    | cons c cs =>
      have hc := hr.any (p := fun c => decide (c = 'e' ∨ c = 'E')) (by decide)
      rw [readExponent, if_neg (by simpa using hc)]
      simp
  · have hlast : (whole ++ fraction).getLast? ≠ some '_' := fun hl =>
      h.not_underscore.1 (mem_of_getLast? hl)
    have hdigit := hd d mem_cons_self
    have hsign : exponentSign (minus ++ d :: ds ++ rest) = (minus, d :: ds ++ rest) := by
      rcases hm with rfl | rfl
      · refine if_neg ?_
        rintro (rfl | rfl) <;> cases hdigit
      · rfl
    have hs := span_digits hd (hr.any (p := isBodyChar) rfl)
    have hhead : d ≠ '_' := by rintro rfl; cases hdigit
    rw [cons_append, readExponent, if_pos (.inl rfl)]
    rw [hsign, if_neg hlast, if_neg (by simpa using hhead), if_pos (by simpa using hdigit), hs.1, hs.2]
    simp

theorem DecimalParts.readDecimal_eq
    {rest : List Char} (hr : Stop rest) :
    readDecimal (F := F) sign (whole ++ (fraction ++ (exponent ++ rest))) =
      if fraction ≠ [] ∨ exponent ≠ [] then
        match Host.parseFloat (sign ++ ((whole ++ fraction) ++ exponent)) with
        | some x => .ok (.float x, rest)
        | none => .error (.invalidFloat (sign ++ ((whole ++ fraction) ++ exponent)))
      else
        match parseInt sign ((whole ++ fraction) ++ exponent) with
        | some n => .ok (.integer n, rest)
        | none => .error (.invalidInteger .decimal (sign ++ ((whole ++ fraction) ++ exponent))) := by
  have hs := span_digits h.whole (h.fraction_head hr (p := isBodyChar) rfl rfl rfl)
  rw [readDecimal, hs.1, hs.2, h.readFraction_eq hr]
  simp only [Except.bind]
  rw [h.readExponent_eq hr]
  dsimp only
  rw [validate_eq h.not_underscore.2]
  by_cases hx : fraction ≠ [] ∨ exponent ≠ []
  · rw [if_pos hx]
    exact if_pos (by simpa using hx)
  · rw [if_neg hx]
    exact if_neg (by simpa using hx)

theorem DecimalParts.readNumber_eq
    {rest : List Char} (hr : Stop rest) :
    readNumber (F := F) (sign ++ (whole ++ (fraction ++ (exponent ++ rest)))) =
      readDecimal sign (whole ++ (fraction ++ (exponent ++ rest))) := by
  obtain ⟨d, ds, rfl⟩ := exists_cons_of_ne_nil h.whole_ne
  have hdigit := h.whole d mem_cons_self
  have hsign : exponentSign (sign ++ (d :: ds ++ (fraction ++ (exponent ++ rest)))) =
      (sign, d :: ds ++ (fraction ++ (exponent ++ rest))) := by
    rcases h.sign with rfl | rfl
    · refine if_neg ?_
      rintro (rfl | rfl) <;> cases hdigit
    · rfl
  have hradix : (ds ++ (fraction ++ (exponent ++ rest))).head?.any
      (fun c => (Radix.fromPrefixChar c).isSome) = false := by
    cases ds with
    | nil => exact h.fraction_head hr rfl rfl rfl
    | cons c cs =>
      have hc := h.whole c (mem_cons_of_mem _ mem_cons_self)
      have : ∀ r, Radix.fromPrefixChar c ≠ some r := by
        intro r hr
        unfold Radix.fromPrefixChar at hr
        repeat' split at hr
        all_goals first
          | cases hr; done
          | (rename_i hx; rcases hx with rfl | rfl <;> cases hc)
      show (Radix.fromPrefixChar c).isSome = false
      rw [Option.isSome_eq_false_iff, Option.isNone_iff_eq_none]
      exact Option.eq_none_iff_forall_ne_some.mpr this
  unfold readNumber
  dsimp only
  rw [hsign]
  split
  · rename_i c cs heq
    split
    · rename_i radix hx
      have htail : ds ++ (fraction ++ (exponent ++ rest)) = c :: cs := (List.cons.inj heq).2
      rw [htail] at hradix
      simp [hx] at hradix
    · rfl
  · rfl

end

theorem digit_atomStart {c : Char} (h : c.isDigit) :
    isWhitespace c = false ∧ c ≠ '#' ∧ AtomStart c := by
  have ne : ∀ d : Char, d.isDigit = false → c ≠ d := by
    rintro d hd rfl
    rw [h] at hd
    cases hd
  refine ⟨?_, ne _ rfl, fun G => List.find?_eq_none.mpr ?_, ne _ rfl, ne _ rfl, ne _ rfl, ne _ rfl, ne _ rfl⟩
  · have : c.toNat = c.val.toNat := rfl
    simp [Char.isDigit, UInt32.le_iff_toNat_le] at h
    simp [isWhitespace]
    omega
  · intro x hx hxc
    simp only [punctuation, mem_cons, not_mem_nil, or_false] at hx
    refine ne x.1 ?_ (by simpa using (beq_iff_eq.mp hxc).symm)
    rcases hx with rfl | rfl | rfl | rfl | rfl | rfl | rfl | rfl | rfl <;> rfl

theorem DecimalParts.nextToken_eq (h : DecimalParts sign whole fraction exponent)
    {rest : List Char} (hr : Stop rest) :
    nextToken (F := F) .current (sign ++ (whole ++ (fraction ++ exponent)) ++ rest) =
      (readDecimal sign (whole ++ (fraction ++ (exponent ++ rest)))).map some := by
  rw [← h.readNumber_eq hr]
  obtain ⟨d, ds, rfl⟩ := exists_cons_of_ne_nil h.whole_ne
  have hdigit := h.whole d mem_cons_self
  simp only [append_assoc, cons_append]
  rcases h.sign with rfl | rfl
  · obtain ⟨hw, hc, ha⟩ := digit_atomStart hdigit
    rw [nil_append, nextToken_cons hw hc, readToken_atom ha, readAtom, if_pos (.inl hdigit), if_neg]
    rintro ⟨rfl | rfl, -⟩ <;> cases hdigit
  · rw [cons_append, nextToken_cons rfl (by decide),
      readToken_atom ⟨fun _ => rfl, by decide⟩, readAtom, if_pos (.inr (.inl rfl)), if_neg]
    rintro ⟨-, hd⟩
    cases hdigit.symm.trans hd

theorem lexes_int {n : Int} (hn : -2 ^ 63 ≤ n ∧ n < 2 ^ 63) :
    Lexes (displayInt n) (.integer n : Token F) := by
  have parts : ∀ sign, sign = [] ∨ sign = ['-'] → DecimalParts sign (Nat.toDigits 10 n.natAbs) [] [] :=
    fun sign hs => ⟨hs, Nat.toDigits_ne_nil,
      fun c hc => Nat.isDigit_of_mem_toDigits (by decide) (by decide) hc, .inl rfl, .inl rfl⟩
  have parse : ∀ sign, (sign = ['-'] ↔ n < 0) → parseInt sign (Nat.toDigits 10 n.natAbs) = some n := by
    intro sign hs
    rw [parseInt, if_pos, Nat.ofDigitChars_ten_toDigits]
    · have : (if sign = ['-'] then -(n.natAbs : Int) else n.natAbs) = n := by
        simp only [hs]
        split <;> omega
      rw [this, checkRange, if_pos hn]
    · exact ⟨Nat.toDigits_ne_nil, List.all_eq_true.mpr fun c hc =>
        Nat.isDigit_of_mem_toDigits (by decide) (by decide) hc⟩
  intro rest hr
  unfold displayInt
  split
  · rename_i hneg
    have hp := parts ['-'] (.inr rfl)
    have := hp.nextToken_eq (F := F) hr
    rw [hp.readDecimal_eq hr, if_neg (by simp)] at this
    simp only [append_nil] at this
    rw [parse ['-'] (by simp [hneg])] at this
    exact this
  · rename_i hneg
    have hp := parts [] (.inl rfl)
    have := hp.nextToken_eq (F := F) hr
    rw [hp.readDecimal_eq hr, if_neg (by simp)] at this
    simp only [append_nil] at this
    rw [parse [] (by simp [hneg])] at this
    exact this

theorem lexes_float {x : F} (hx : Host.isFinite x) : Lexes (Host.debugFloat x) (.float x) := by
  obtain ⟨sign, whole, fraction, exponent, hp, htext, hfloat⟩ := Host.debug_finite x hx
  intro rest hr
  have hparse := Host.parse_debug x hx
  rw [htext] at hparse ⊢
  rw [hp.nextToken_eq hr, hp.readDecimal_eq hr, if_pos hfloat, append_assoc whole, hparse]
  rfl

theorem lexes_special {x : F} (hx : Host.isFinite x = false) :
    Lexes (Host.debugFloat x) (.symbol (Host.debugFloat x) : Token F) := by
  have h := Host.debug_special x hx
  simp only [mem_cons, not_mem_nil, or_false] at h
  rcases h with h | h | h <;> rw [h]
  · exact lexes_name (c := 'i') rfl (by decide) rfl ⟨fun _ => rfl, by decide⟩ (by decide) ['n', 'f']
  · exact lexes_sign (c := '-') (.inl rfl) (rfl : ['i', 'n', 'f'].head?.any Char.isDigit = false)
  · exact lexes_name (c := 'N') rfl (by decide) rfl ⟨fun _ => rfl, by decide⟩ (by decide) ['a', 'N']

theorem lexes_nil : Lexes ['n', 'i', 'l'] (.nil : Token F) :=
  lexes_name (c := 'n') rfl (by decide) rfl ⟨fun _ => rfl, by decide⟩ (by decide) ['i', 'l']

theorem lexes_bool (b : Bool) :
    Lexes (if b then ['t', 'r', 'u', 'e'] else ['f', 'a', 'l', 's', 'e']) (.bool b : Token F) := by
  cases b
  · exact lexes_name (c := 'f') rfl (by decide) rfl ⟨fun _ => rfl, by decide⟩ (by decide)
      ['a', 'l', 's', 'e']
  · exact lexes_name (c := 't') rfl (by decide) rfl ⟨fun _ => rfl, by decide⟩ (by decide) ['r', 'u', 'e']

end

end Elle.Reader

import Elle.Reader.Display

/-!
# Leaves read again

A name, a keyword, a number or a string literal the printer writes is read as one token when what
follows it is the end of the text, a space or a closing delimiter.
-/

namespace Elle.Reader

open Result List

/-- What the printer writes after a form: nothing, a space or a closing delimiter. -/
def Stop (rest : List Char) : Prop :=
  ∀ c, rest.head? = some c → c ∈ [' ', ')', ']', '\x7d', '|']

theorem Stop.nil : Stop [] := nofun

theorem Stop.cons {c : Char} (h : c ∈ [' ', ')', ']', '\x7d', '|']) (cs : List Char) : Stop (c :: cs) := by
  intro d hd
  cases hd
  exact h

theorem Stop.any {rest : List Char} (h : Stop rest) {p : Char → Bool}
    (hp : ([' ', ')', ']', '\x7d', '|'].any p) = false) : rest.head?.any p = false := by
  cases rest with
  | nil => rfl
  | cons c cs =>
    rw [any_eq_false] at hp
    simpa using hp c (h c rfl)

section

variable {F : Type} [Host F]
variable {c : Char} {rest input cs after : List Char} {k : Token F}

def Lexes (w : List Char) (k : Token F) : Prop :=
  ∀ rest, Stop rest → nextToken .current (w ++ rest) = .ok (some (k, rest))

theorem nextToken_cons (hw : isWhitespace c = false) (hc : c ≠ '#') (cs : List Char) :
    nextToken (F := F) .current (c :: cs) = (readToken .current c cs).map some := by
  unfold nextToken
  rw [dropWhile_cons_of_neg (by simp [hw])]
  exact if_neg hc

/-! ### Names -/

theorem isSymbolStart_delimiter (h : isSymbolStart F c) : isDelimiter c = false := by
  by_contra hd
  have hd := Bool.not_eq_false _ ▸ hd
  simp only [isDelimiter, mem_cons, not_mem_nil, or_false, decide_eq_true_eq] at hd
  rcases hd with rfl | rfl | rfl | rfl | rfl | rfl | rfl | rfl | rfl | rfl | rfl | rfl | rfl <;>
    cases h

theorem isSymbolStart_whitespace (h : isSymbolStart F c) : isWhitespace c = false := by
  by_contra hd
  have hd := Bool.not_eq_false _ ▸ hd
  unfold isSymbolStart isAlphabetic at h
  rw [Bool.or_eq_true] at h
  rcases h with h | h
  · split at h
    · simp [isWhitespace] at hd
      simp [Char.isAlpha, Char.isUpper, Char.isLower, UInt32.le_iff_toNat_le] at h
      have : c.toNat = c.val.toNat := rfl
      omega
    · simp [hd] at h
  · simp only [mem_cons, not_mem_nil, or_false, decide_eq_true_eq] at h
    rcases h with rfl | rfl | rfl | rfl | rfl | rfl | rfl | rfl | rfl | rfl <;> cases hd

theorem readSymbol_stop (h : Stop rest) : readSymbol F rest = ([], rest) := by
  cases rest with
  | nil => rfl
  | cons c cs =>
    have hc := h c rfl
    simp only [mem_cons, not_mem_nil, or_false] at hc
    rcases hc with rfl | rfl | rfl | rfl | rfl <;> rfl

theorem readSymbol_start (h : isSymbolStart F c) (cs : List Char) :
    readSymbol F (c :: cs) = (c :: (readSymbol F cs).1, (readSymbol F cs).2) :=
  readSymbol_cons (isSymbolStart_whitespace h) (isSymbolStart_delimiter h) cs

theorem readSymbol_head (input : List Char) :
    (readSymbol F input).1 = [] ∨ (readSymbol F input).1.head? = input.head? := by
  cases input with
  | nil => exact .inl rfl
  | cons c cs =>
    unfold readSymbol
    split
    · exact .inl rfl
    · exact .inr rfl

theorem readSymbol_self (input : List Char) (hr : Stop rest) :
    readSymbol F ((readSymbol F input).1 ++ rest) = ((readSymbol F input).1, rest) := by
  induction input with
  | nil => exact readSymbol_stop hr
  | cons c cs ih =>
    rw [readSymbol]
    split
    · exact readSymbol_stop hr
    · rename_i hc
      show readSymbol F (c :: ((readSymbol F cs).1 ++ rest)) = _
      rw [readSymbol, if_neg, ih]
      -- a colon is only taken before the start of a name, which is taken after it
      simp only [Bool.and_eq_true, Bool.not_eq_true', not_and, Bool.not_eq_false] at hc ⊢
      intro hstop
      obtain ⟨hcolon, hstart⟩ := hc hstop
      refine ⟨hcolon, ?_⟩
      cases cs with
      | nil => cases hstart
      | cons d ds =>
        rw [readSymbol_start (by simpa using hstart)]
        simpa using hstart

/-- After a name's first character there is no opening bracket and, if there was none in the text, no
digit. -/
theorem readSymbol_append_head (hr : Stop rest) :
    ((readSymbol F input).1 ++ rest).head? ≠ some '[' ∧
    (input.head?.any Char.isDigit = false →
      ((readSymbol F input).1 ++ rest).head?.any Char.isDigit = false) := by
  rcases readSymbol_head (F := F) input with h | h
  · rw [h, nil_append]
    refine ⟨fun hb => ?_, fun _ => hr.any rfl⟩
    have := hr _ hb
    simp at this
  · cases input with
    | nil =>
      refine ⟨fun hb => ?_, fun _ => hr.any rfl⟩
      have := hr _ hb
      simp at this
    | cons c cs =>
      cases hs : (readSymbol F (c :: cs)).1 with
      | nil => rw [hs] at h; cases h
      | cons d ds =>
        rw [hs] at h
        cases h
        refine ⟨fun hb => ?_, fun hd => hd⟩
        cases hb
        cases hs

/-- The characters whose tokens `readAtom` reads. -/
structure AtomStart (c : Char) : Prop where
  punctuation : ∀ F, (punctuation (F := F)).find? (·.1 == c) = none
  others : c ≠ ',' ∧ c ≠ ';' ∧ c ≠ '@' ∧ c ≠ ':' ∧ c ≠ '"'

theorem readToken_atom (h : AtomStart c) (lexicon : Lexicon) (cs : List Char) :
    readToken (F := F) lexicon c cs = readAtom c cs := by
  obtain ⟨h1, h2, h3, h4, h5⟩ := h.others
  unfold readToken
  rw [h.punctuation]
  simp only [if_neg h1, if_neg h2, if_neg h3, if_neg h4, if_neg h5]

theorem lexes_name (hw : isWhitespace c = false) (hc : c ≠ '#') (hd : isDelimiter c = false)
    (ha : AtomStart c) (hn : ¬ (c.isDigit ∨ c = '-' ∨ c = '+')) (cs : List Char) :
    Lexes (readSymbol F (c :: cs)).1 (nameToken (readSymbol F (c :: cs)).1 : Token F) := by
  intro rest hr
  have hself := readSymbol_self (F := F) (c :: cs) hr
  rw [readSymbol_cons hw hd] at hself ⊢
  rw [cons_append] at hself ⊢
  rw [nextToken_cons hw hc, readToken_atom ha, readAtom, if_neg hn,
    if_neg fun hb => (readSymbol_append_head hr).1 hb.2, hself]
  rfl

theorem lexes_sign (hc : c = '-' ∨ c = '+') (hd : cs.head?.any Char.isDigit = false) :
    Lexes (readSymbol F (c :: cs)).1 (.symbol (readSymbol F (c :: cs)).1 : Token F) := by
  have hw : isWhitespace c = false ∧ isDelimiter c = false ∧ c ≠ '#' ∧ AtomStart c := by
    rcases hc with rfl | rfl <;> exact ⟨rfl, rfl, by decide, fun _ => rfl, by decide⟩
  intro rest hr
  have hself := readSymbol_self (F := F) (c :: cs) hr
  rw [readSymbol_cons hw.1 hw.2.1] at hself ⊢
  rw [cons_append] at hself ⊢
  rw [nextToken_cons hw.1 hw.2.2.1, readToken_atom hw.2.2.2, readAtom, if_pos (.inr hc),
    if_pos ⟨hc, (readSymbol_append_head hr).2 hd⟩, hself]
  rfl

theorem lexes_at (hc : isSymbolStart F c) (hp : c ≠ '|') :
    Lexes ('@' :: (readSymbol F (c :: cs)).1) (.symbol ('@' :: (readSymbol F (c :: cs)).1) : Token F) := by
  intro rest hr
  have hself := readSymbol_self (F := F) (c :: cs) hr
  rw [readSymbol_start hc] at hself ⊢
  rw [cons_append] at hself
  show Except.map some (.ok (readAt (c :: ((readSymbol F cs).1 ++ rest)))) = _
  rw [readAt, if_neg hp, if_neg fun hb => (readSymbol_append_head hr).1 hb.2, if_pos hc, hself]
  rfl

theorem lexes_keyword {s rest₀ : List Char} (h : readKeyword (F := F) cs = .ok (.keyword s, rest₀)) :
    Lexes (':' :: s) (.keyword s : Token F) := by
  have named : ∀ mark cs rest, readKeyword.named (F := F) mark cs = .ok (.keyword s, rest₀) →
      Stop rest →
      ∃ w, s = mark ++ w ∧ w ≠ [] ∧ w.head? = cs.head? ∧ readSymbol F (w ++ rest) = (w, rest) := by
    intro mark cs rest h hr
    unfold readKeyword.named at h
    split at h
    · cases h
    · rename_i hne
      cases h
      exact ⟨_, rfl, hne, (readSymbol_head cs).resolve_left hne, readSymbol_self cs hr⟩
  intro rest hr
  show Except.map some (readKeyword (s ++ rest)) = _
  unfold readKeyword at h
  split at h
  · obtain ⟨w, rfl, hne, -, hw⟩ := named _ _ rest h hr
    show Except.map some (readKeyword.named ['@'] (w ++ rest)) = _
    rw [readKeyword.named, hw, if_neg hne]
    rfl
  · rename_i hat
    obtain ⟨w, hs, hne, hhead, hw⟩ := named _ _ rest h hr
    subst hs
    have hat' : (s ++ rest).head? ≠ some '@' := by
      cases s with
      | nil => exact absurd rfl hne
      | cons d ds => exact fun h => hat (hhead ▸ h)
    rw [readKeyword, if_neg hat', readKeyword.named, hw, if_neg hne]
    rfl

/-! ### What the lexer gives -/

/-- A token whose text reads as the token again. Strings do so whatever they hold. -/
def Token.Rereads : Token F → Prop
  | .symbol s => Lexes s (.symbol s : Token F)
  | .keyword s => Lexes (':' :: s) (.keyword s : Token F)
  | .integer n => -2 ^ 63 ≤ n ∧ n < 2 ^ 63
  | _ => True

theorem checkRange_eq {n m : Int} (h : checkRange n = some m) : m = n ∧ -2 ^ 63 ≤ n ∧ n < 2 ^ 63 := by
  unfold checkRange at h
  split at h
  · cases h; exact ⟨rfl, ‹_›⟩
  · cases h

theorem parseInt_range {sign digits : List Char} {n : Int} (h : parseInt sign digits = some n) :
    -2 ^ 63 ≤ n ∧ n < 2 ^ 63 := by
  unfold parseInt at h
  split at h
  · obtain ⟨rfl, hrange⟩ := checkRange_eq h
    exact hrange
  · cases h

theorem readDecimal_rereads {sign : List Char} (h : readDecimal sign rest = .ok (k, after)) : k.Rereads := by
  obtain ⟨f, -, h⟩ := ok_of_bind h
  obtain ⟨e, -, h⟩ := ok_of_bind h
  obtain ⟨digits, -, h⟩ := ok_of_bind h
  split at h
  · split at h <;> cases h
    trivial
  · split at h
    · rename_i n hn
      cases h
      exact parseInt_range hn
    · cases h

theorem readPrefixed_rereads {sign raw : List Char} {radix : Radix}
    (h : readPrefixed sign radix raw rest = .ok (k, after)) : k.Rereads := by
  have finish : ∀ raw' body cs, readPrefixed.finish sign radix raw' body cs = .ok (k, after) →
      k.Rereads := by
    intro raw' body cs h
    obtain ⟨digits, -, h⟩ := ok_of_bind h
    split at h
    · rename_i n hn
      cases h
      obtain ⟨rfl, hrange⟩ := checkRange_eq hn
      show _ ≤ ite _ _ _ ∧ ite _ _ _ < _
      split <;> omega
    · cases h
  unfold readPrefixed at h
  simp only at h
  split at h
  · cases h
  · split at h
    · split at h
      · cases h
      · exact finish _ _ _ h
    · exact finish _ _ _ h

theorem readNumber_rereads (h : readNumber input = .ok (k, after)) : k.Rereads := by
  unfold readNumber at h
  simp only at h
  split at h
  · split at h
    · exact readPrefixed_rereads h
    · exact readDecimal_rereads h
  · exact readDecimal_rereads h

theorem readAt_rereads (cs : List Char) : (readAt (F := F) cs).1.Rereads := by
  cases cs with
  | nil => trivial
  | cons c cs =>
    dsimp only [readAt]
    split
    · trivial
    split
    · trivial
    split
    · exact lexes_at ‹_› ‹_›
    · trivial

theorem readAtom_rereads (hw : isWhitespace c = false) (hc : c ≠ '#') (hd : isDelimiter c = false)
    (ha : AtomStart c) (h : readAtom c cs = .ok (k, after)) : k.Rereads := by
  unfold readAtom at h
  split at h
  · split at h
    · rename_i hs
      cases h
      exact lexes_sign hs.1 hs.2
    · exact readNumber_rereads h
  · rename_i hn
    split at h
    · cases h; trivial
    · cases h
      have hl := lexes_name (F := F) hw hc hd ha hn cs
      unfold nameToken at hl ⊢
      repeat' split
      all_goals first
        | trivial
        | (simp only [*, ↓reduceIte] at hl; exact hl)

theorem readToken_rereads (hw : isWhitespace c = false) (hc : c ≠ '#')
    (h : readToken .current c cs = .ok (k, after)) : k.Rereads := by
  unfold readToken at h
  split at h
  · rename_i c' k' hk
    cases h
    have hmem := mem_of_find?_eq_some hk
    simp only [punctuation, mem_cons, Prod.mk.injEq, not_mem_nil, or_false] at hmem
    rcases hmem with h | h | h | h | h | h | h | h | h <;> rw [h.2] <;> trivial
  rename_i hp
  split at h
  · split at h <;> cases h <;> trivial
  split at h
  · split at h <;> cases h
    trivial
  split at h
  · have hk := Except.ok.inj h
    have := readAt_rereads (F := F) cs
    rwa [hk] at this
  split at h
  · cases k with
    | keyword s => exact lexes_keyword h
    | _ =>
      unfold readKeyword readKeyword.named at h
      repeat' split at h
      all_goals cases h
  split at h
  · obtain ⟨p, -, hk⟩ := ok_of_map h
    cases hk
    trivial
  rename_i h1 h2 h3 h4 h5
  refine readAtom_rereads hw hc (Bool.eq_false_iff.mpr fun hd => ?_) ⟨?_, h1, h2, h3, h4, h5⟩ h
  · rcases isDelimiter_cases (F := F) hd with ⟨k, hk⟩ | hd | hd | hd | hd
    · rw [hp] at hk; cases hk
    all_goals contradiction
  · intro G
    simpa [punctuation] using hp

theorem nextToken_rereads (h : nextToken .current input = .ok (some (k, after))) : k.Rereads := by
  unfold nextToken at h
  split at h
  · cases h
  · rename_i c cs heq
    have hw : isWhitespace c = false := by
      simpa [heq] using head?_dropWhile_not isWhitespace input
    split at h
    · cases h; trivial
    · obtain ⟨p, hp, hk⟩ := ok_of_map h
      cases hk
      exact readToken_rereads hw ‹_› hp

theorem lexAll_rereads {ks : List (Token F)} (h : lexAll .current input = .ok ks) : ∀ k ∈ ks, k.Rereads := by
  induction input using lexAll.induct (F := F) .current generalizing ks with
  | case1 input e he => rw [lexAll_error he] at h; cases h
  | case2 input hn =>
    rw [lexAll_nil hn] at h
    cases h
    simp
  | case3 input p hp ih =>
    rw [lexAll_cons hp] at h
    obtain ⟨ks', hks, rfl⟩ := ok_of_map h
    exact List.forall_mem_cons.mpr ⟨nextToken_rereads hp, ih hks⟩

end

end Elle.Reader

import Elle.Json.Grammar

/-!
# The parser reads the grammar

What the grammar derives the parser reads, whatever follows it, if that does not go on a number; and what
the parser reads is derived. The steps of the recursion are bounded by the length of the part that is read.
-/

namespace Elle.Json

open Result List

/-- What follows does not go on a number. -/
def Stops (rest : Text) : Prop := ∀ c ∈ rest.head?, c.isDigit = false ∧ c ≠ '.' ∧ c ≠ 'e' ∧ c ≠ 'E'

def StartsValue (c : Char) : Prop := isWhitespace c = false ∧ c ≠ ']' ∧ c ≠ '\x7d'

instance (c : Char) : Decidable (StartsValue c) := inferInstanceAs (Decidable (_ ∧ _))

theorem stops_cons {c : Char} (h : c.isDigit = false ∧ c ≠ '.' ∧ c ≠ 'e' ∧ c ≠ 'E') (rest : Text) :
    Stops (c :: rest) := by
  rintro _ ⟨⟩
  exact h

theorem Ws.stops {s t : Text} (h : Ws s t) (ht : Stops t) : Stops s := by
  cases h with
  | refl => exact ht
  | step hc _ =>
    simp only [isWhitespace, Bool.or_eq_true, decide_eq_true_eq] at hc
    rcases hc with ((rfl | rfl) | rfl) | rfl <;> exact stops_cons (by decide) _

/-! ## Numbers -/

variable {s sign whole fraction exponent rest : Text}

theorem digitsOf_append {ds : Text} (h : ∀ c ∈ ds, c.isDigit)
    (hstop : ∀ c ∈ rest.head?, c.isDigit = false) : digitsOf (ds ++ rest) = ds := by
  induction ds with
  | nil =>
    cases rest with
    | nil => rfl
    | cons c rest =>
      have hc := hstop c rfl
      simp [digitsOf, hc]
  | cons d ds ih =>
    have hd := h d mem_cons_self
    have htail := ih fun c hc => h c (mem_cons_of_mem _ hc)
    rw [digitsOf] at htail ⊢
    rw [cons_append, takeWhile_cons, if_pos hd, htail]

theorem digitsOf_spec (s : Text) : (∃ r, s = digitsOf s ++ r) ∧ ∀ c ∈ digitsOf s, c.isDigit :=
  ⟨⟨_, List.takeWhile_append_dropWhile.symm⟩, fun _ hc => mem_takeWhile_imp hc⟩

theorem parseExponent_append (he : Exponent exponent) (pos : Nat) (hstop : Stops rest) :
    parseExponent ⟨pos, exponent ++ rest⟩ = .ok exponent := by
  rcases he with rfl | ⟨e, sign, digits, rfl, he, hsign, hne, hdigits⟩
  · cases rest with
    | nil => rfl
    | cons c rest =>
      obtain ⟨_, _, he, hE⟩ := hstop c rfl
      simp [parseExponent, he, hE]
  · have hds : digitsOf (digits ++ rest) = digits := digitsOf_append hdigits fun c hc => (hstop c hc).1
    obtain ⟨d, ds, rfl⟩ := exists_cons_of_ne_nil hne
    have hd : ¬(d = '+' ∨ d = '-') := by
      rintro (rfl | rfl) <;> exact absurd (hdigits _ mem_cons_self) (by decide)
    rw [cons_append, append_assoc, parseExponent]
    dsimp only
    rw [if_pos he]
    rcases hsign with rfl | rfl | rfl
    · simp only [nil_append, cons_append, if_neg hd, length_nil, drop_zero] at hds ⊢
      rw [hds]
    · simp only [singleton_append, true_or, if_true, length_singleton, drop_succ_cons, drop_zero, hds]
    · simp only [singleton_append, or_true, if_true, length_singleton, drop_succ_cons, drop_zero, hds]

theorem parseExponent_ok {p : Place} (h : parseExponent p = .ok exponent) :
    Exponent exponent ∧ (∃ r, p.rest = exponent ++ r) ∧
      (exponent = [] ↔ ¬(p.rest.head? = some 'e' ∨ p.rest.head? = some 'E')) := by
  unfold parseExponent at h
  split at h
  · next c s heq =>
    split at h
    · next hc =>
      have hhead : p.rest.head? = some 'e' ∨ p.rest.head? = some 'E' := by simpa [heq] using hc
      have hsign : ∀ sign : Text, (sign = [] ∨ sign = ['+'] ∨ sign = ['-']) → s = sign ++ s.drop sign.length →
          c :: (sign ++ digitsOf (s.drop sign.length)) = exponent → digitsOf (s.drop sign.length) ≠ [] →
          Exponent exponent ∧ (∃ r, p.rest = exponent ++ r) ∧
            (exponent = [] ↔ ¬(p.rest.head? = some 'e' ∨ p.rest.head? = some 'E')) := by
        rintro sign hform hs rfl hne
        obtain ⟨⟨r, hr⟩, hall⟩ := digitsOf_spec (s.drop sign.length)
        refine ⟨.inr ⟨c, sign, _, rfl, hc, hform, hne, hall⟩, ⟨r, ?_⟩, by simp [hhead]⟩
        rw [heq, cons_append, append_assoc, ← hr, ← hs]
      dsimp only at h
      split at h
      · cases h
      next hne =>
      refine hsign _ ?_ ?_ (Except.ok.inj h) hne
      all_goals
        split
        · split
          · next hx => rcases hx with rfl | rfl <;> simp
          · simp
        · simp
    · next hc =>
      cases h
      exact ⟨.inl rfl, ⟨_, rfl⟩, by simpa [heq] using hc⟩
  · next heq =>
    cases h
    exact ⟨.inl rfl, ⟨_, rfl⟩, by simp [heq]⟩

theorem parseFraction_ok {p : Place} (h : parseFraction p = .ok fraction) :
    (fraction = [] ∨ ∃ digits, fraction = '.' :: digits ∧ digits ≠ [] ∧ ∀ c ∈ digits, c.isDigit) ∧
      (∃ r, p.rest = fraction ++ r) ∧ (fraction = [] ↔ p.rest.head? ≠ some '.') := by
  unfold parseFraction at h
  split at h
  · next hpoint =>
    obtain ⟨s, hs⟩ : ∃ s, p.rest = '.' :: s := List.head?_eq_some_iff.mp hpoint
    split at h
    · cases h
    · next hdigits =>
      cases h
      obtain ⟨⟨r, hr⟩, hall⟩ := digitsOf_spec (p.rest.drop 1)
      refine ⟨.inr ⟨_, rfl, hdigits, hall⟩, ⟨r, ?_⟩, by simpa using hpoint⟩
      rw [cons_append, ← hr, hs]
      rfl
  · next hpoint =>
    cases h
    exact ⟨.inl rfl, ⟨_, rfl⟩, by simpa using hpoint⟩

theorem parseWhole_ok {p : Place} (h : parseWhole p = .ok (sign, whole)) :
    (∃ r, p.rest = sign ++ (whole ++ r)) ∧ (sign = [] ∨ sign = ['-']) ∧
      (∀ c ∈ whole, c.isDigit) ∧ (whole = ['0'] ∨ ∃ c cs, whole = c :: cs ∧ c ≠ '0') := by
  unfold parseWhole at h
  generalize hsign : (if p.rest.head? = some '-' then ['-'] else []) = minus at h
  have hminus : (minus = [] ∨ minus = ['-']) ∧ p.rest = minus ++ p.rest.drop minus.length := by
    subst hsign
    split
    · next hhead =>
      obtain ⟨r, hr⟩ := List.head?_eq_some_iff.mp hhead
      simp [hr]
    · simp
  dsimp only at h
  split at h
  · cases h
  next c r hr =>
  rw [hr] at hminus
  split at h
  · next hc =>
    cases h
    exact ⟨⟨r, hc ▸ hminus.2⟩, hminus.1, List.forall_mem_singleton.mpr rfl, .inl rfl⟩
  · next hc =>
    split at h
    · next hdigit =>
      cases h
      obtain ⟨⟨r', hr'⟩, hall⟩ := digitsOf_spec (c :: r)
      refine ⟨⟨r', by rw [← hr']; exact hminus.2⟩, hminus.1, hall, .inr ⟨c, digitsOf r, ?_, hc⟩⟩
      rw [digitsOf, takeWhile_cons, if_pos hdigit, digitsOf]
    · cases h

namespace DecimalText

section

variable (h : DecimalText s sign whole fraction)
include h

theorem front : ∃ c cs, whole = c :: cs ∧ c.isDigit := by
  rcases h.whole_form with hzero | ⟨c, cs, hwhole, _⟩
  · exact ⟨'0', [], hzero, by decide⟩
  · exact ⟨c, cs, hwhole, h.whole_digits c (by simp [hwhole])⟩

theorem parseWhole_append (pos : Nat)
    (hstop : ∀ c ∈ rest.head?, c.isDigit = false) :
    parseWhole ⟨pos, sign ++ (whole ++ rest)⟩ = .ok (sign, whole) := by
  obtain ⟨c, cs, hwhole, hc⟩ := h.front
  have hminus : c ≠ '-' := by
    intro heq
    subst heq
    exact absurd hc (by decide)
  have hsign : (if (sign ++ (whole ++ rest)).head? = some '-' then ['-'] else []) = sign := by
    rcases h.sign_eq with hs | hs
    · rw [hs, hwhole]
      exact if_neg fun heq => hminus (Option.some.inj heq)
    · rw [hs]
      exact if_pos rfl
  unfold parseWhole
  dsimp only
  rw [hsign, drop_left, hwhole, cons_append]
  dsimp only
  split
  · next hzero =>
    rcases h.whole_form with hw | ⟨c', cs', hw, hne⟩
    · rw [← hwhole, hw]
    · exact absurd hzero ((List.cons.inj (hwhole.symm.trans hw)).1 ▸ hne)
  · rw [← cons_append, ← hwhole, digitsOf_append h.whole_digits hstop]

theorem parseFraction_append (pos : Nat)
    (hdigit : ∀ c ∈ rest.head?, c.isDigit = false) (hpoint : rest.head? ≠ some '.') :
    parseFraction ⟨pos, fraction ++ rest⟩ = .ok fraction := by
  rcases h.fraction_form with hf | ⟨digits, hf, hne, hdigits⟩
  · rw [hf]
    exact if_neg hpoint
  · rw [hf, cons_append]
    have hdrop : digitsOf (('.' :: (digits ++ rest)).drop 1) = digits :=
      digitsOf_append hdigits hdigit
    refine (if_pos rfl).trans ?_
    rw [hdrop]
    cases digits with
    | nil => exact absurd rfl hne
    | cons d ds => rfl

end

end DecimalText

section

variable {F V : Type} [JsonFloat F] {build : Builder F V} {v : V} {t : Text}

theorem Number.front (h : Number build t v) : ∃ c cs, t = c :: cs ∧ (c = '-' ∨ c.isDigit) := by
  have hdec : ∀ {s sign whole fraction : Text}, DecimalText s sign whole fraction →
      ∃ c cs, s = c :: cs ∧ (c = '-' ∨ c.isDigit) := by
    intro s sign whole fraction h
    obtain ⟨c, cs, hwhole, hc⟩ := h.front
    rw [h.text_eq]
    rcases h.sign_eq with hs | hs
    · exact ⟨c, cs ++ fraction, by rw [hs, hwhole]; rfl, .inr hc⟩
    · exact ⟨'-', whole ++ fraction, by rw [hs]; rfl, .inl rfl⟩
  cases h with
  | int h _ => exact hdec h
  | float h _ _ _ =>
    obtain ⟨c, cs, rfl, hc⟩ := hdec h
    exact ⟨c, _, rfl, hc⟩

theorem parseNumber_parts (h : DecimalText s sign whole fraction) (he : Exponent exponent) (pos : Nat)
    (hstop : Stops rest)
    (hint : fraction ++ exponent = [] → ∃ n, parseInt64 sign whole = some n ∧ v = build.int n)
    (hfloat : fraction ++ exponent ≠ [] → ∃ x, JsonFloat.parse (s ++ exponent) = some x ∧ v = build.float x) :
    Yields (parseNumber build ⟨pos, s ++ (exponent ++ rest)⟩) v rest := by
  have hs : s ++ (exponent ++ rest) = sign ++ (whole ++ (fraction ++ (exponent ++ rest))) := by
    simp [h.text_eq]
  have hdrop : (s ++ (exponent ++ rest)).drop (sign.length + whole.length) = fraction ++ (exponent ++ rest) := by
    rw [hs, ← append_assoc, ← length_append, drop_left]
  have hend : (∀ c ∈ (exponent ++ rest).head?, c.isDigit = false) ∧ (exponent ++ rest).head? ≠ some '.' := by
    rcases he with rfl | ⟨e, es, ds, rfl, rfl | rfl, -⟩
    · exact ⟨fun c hc => (hstop c hc).1, fun hc => (hstop '.' hc).2.1 rfl⟩
    all_goals exact ⟨by rintro _ ⟨⟩; decide, by simp⟩
  have hdigit : ∀ c ∈ (fraction ++ (exponent ++ rest)).head?, c.isDigit = false := by
    rcases h.fraction_form with rfl | ⟨digits, rfl, -⟩
    · exact hend.1
    · rintro _ ⟨⟩
      decide
  refine ⟨pos + (sign.length + whole.length) + fraction.length + exponent.length, ?_⟩
  unfold parseNumber
  rw [hs, bind_of_ok (h.parseWhole_append pos hdigit), ← hs]
  dsimp only [Place.drop]
  rw [hdrop, bind_of_ok (h.parseFraction_append _ hend.1 hend.2)]
  rw [drop_left, bind_of_ok (parseExponent_append he _ hstop), drop_left, ← h.text_eq]
  by_cases hne : fraction ++ exponent = []
  · obtain ⟨n, hn, hv⟩ := hint hne
    obtain ⟨rfl, rfl⟩ := List.append_eq_nil_iff.mp hne
    rw [nil_append, nil_append, if_neg, hn, hv]
    · rfl
    · rintro (heq | heq | heq)
      · exact (hstop '.' heq).2.1 rfl
      · exact (hstop 'e' heq).2.2.1 rfl
      · exact (hstop 'E' heq).2.2.2 rfl
  · obtain ⟨x, hx, hv⟩ := hfloat hne
    rw [if_pos, hx, hv]
    · rfl
    rcases h.fraction_form with rfl | ⟨digits, rfl, -⟩
    · rcases he with rfl | ⟨e, es, ds, rfl, rfl | rfl, -⟩
      · exact absurd rfl hne
      · exact .inr (.inl rfl)
      · exact .inr (.inr rfl)
    · exact .inl rfl

theorem Number.parseNumber_append (h : Number build t v) (pos : Nat) (hstop : Stops rest) :
    Yields (parseNumber build ⟨pos, t ++ rest⟩) v rest := by
  cases h with
  | int h hn => exact parseNumber_parts h (.inl rfl) pos hstop (fun _ => ⟨_, hn, rfl⟩) (absurd rfl)
  | float h he hne hx =>
    rw [append_assoc]
    exact parseNumber_parts h he pos hstop (absurd · hne) fun _ => ⟨_, hx, rfl⟩

theorem parseNumber_ok {p q : Place} (h : parseNumber build p = .ok (v, q)) :
    ∃ t, p.rest = t ++ q.rest ∧ Number build t v := by
  obtain ⟨⟨sign, whole⟩, hw, h⟩ := ok_of_bind h
  obtain ⟨fraction, hf, h⟩ := ok_of_bind h
  obtain ⟨exponent, he, h⟩ := ok_of_bind h
  obtain ⟨⟨r, hr⟩, hsign, hdigits, hform⟩ := parseWhole_ok hw
  obtain ⟨hfraction, ⟨r', hr'⟩, hpoint⟩ := parseFraction_ok hf
  obtain ⟨hexponent, ⟨r'', hr''⟩, hletter⟩ := parseExponent_ok he
  have h₁ : p.rest.drop (sign.length + whole.length) = r := by
    rw [hr, ← append_assoc, ← length_append, drop_left]
  simp only [Place.drop, h₁] at hr' hpoint hr'' hletter h
  have h₂ : r.drop fraction.length = r' := by rw [hr', drop_left]
  rw [h₂] at hr'' hletter
  have hdec : DecimalText (sign ++ whole ++ fraction) sign whole fraction :=
    ⟨hsign, hdigits, hform, hfraction, rfl⟩
  have hcond : (r.head? = some '.' ∨ r.head? = some 'e' ∨ r.head? = some 'E') ↔
      fraction ++ exponent ≠ [] := by
    by_cases hnil : fraction = []
    · subst hnil
      rw [nil_append] at hr' ⊢
      rw [Ne, hletter, ← hr', not_not, or_iff_right (hpoint.mp rfl)]
    · exact iff_of_true (.inl (not_not.mp (mt hpoint.mpr hnil))) fun heq => hnil (List.append_eq_nil_iff.mp heq).1
  split at h
  · next hc =>
    split at h
    · next x hx =>
      cases h
      exact ⟨_, by simp [hr, hr', hr''], .float hdec hexponent (hcond.mp hc) hx⟩
    · cases h
  · next hc =>
    obtain ⟨rfl, rfl⟩ := List.append_eq_nil_iff.mp (not_not.mp (mt hcond.mpr hc))
    split at h
    · next n hn =>
      cases h
      exact ⟨_, by simp [hr, hr', hr''], .int hdec hn⟩
    · cases h

/-! ## Literals -/

theorem parseLiteral_yields (literal : Text) (value : V) (pos : Nat) (rest : Text) :
    Yields (parseLiteral literal value ⟨pos, literal ++ rest⟩) value rest := by
  have hsame : ∀ l : Text, firstDifference l (l ++ rest) = none := by
    intro l
    induction l with
    | nil => rfl
    | cons c l ih => rw [cons_append, firstDifference, if_pos rfl, ih]
  refine ⟨pos + literal.length, ?_⟩
  rw [parseLiteral, if_neg (by simp), hsame]
  simp [Place.drop]

theorem parseLiteral_ok {literal : Text} {value : V} {p q : Place}
    (h : parseLiteral literal value p = .ok (v, q)) : v = value ∧ p.rest = literal ++ q.rest := by
  have hsame : ∀ l s : Text, l.length ≤ s.length → firstDifference l s = none → s = l ++ s.drop l.length := by
    intro l
    induction l with
    | nil => exact fun _ _ _ => rfl
    | cons c l ih =>
      rintro (_ | ⟨d, s⟩) hlen hdiff
      · simp at hlen
      · rw [firstDifference] at hdiff
        split at hdiff
        · next heq =>
          rw [cons_append, length_cons, drop_succ_cons, ← ih s (by simpa using hlen) hdiff, heq]
        · cases hdiff
  unfold parseLiteral at h
  split at h
  · cases h
  next hlen =>
  split at h
  · cases h
  next hdiff =>
  cases h
  exact ⟨rfl, hsame _ _ (Nat.le_of_not_lt hlen) hdiff⟩

/-! ## What is derived is read -/

theorem Chars.length_lt {plain : Char → Prop} {escape : Text → Char → Prop} {t r : Text}
    (h : Chars plain escape s t r) : r.length < s.length := by
  induction h with
  | close => exact Nat.lt_succ_self _
  | char _ _ ih => exact Nat.lt_succ_of_lt ih
  | escape _ _ ih =>
    rw [length_cons, length_append]
    omega

theorem Derives.length_lt {part : Part V} {r : Text} (h : Derives build Literal s part r) :
    r.length < s.length := by
  induction h with
  | literal h =>
    simp only [literals, mem_cons, Prod.mk.injEq, not_mem_nil, or_false] at h
    rcases h with ⟨rfl, -⟩ | ⟨rfl, -⟩ | ⟨rfl, -⟩ <;> simp only [length_append, length_cons] <;> omega
  | string h => exact Nat.lt_succ_of_lt (Chars.length_lt h)
  | number h =>
    obtain ⟨c, cs, rfl, -⟩ := h.front
    simp only [length_append, length_cons]
    omega
  | emptyArray hw | emptyObject hw => exact Nat.lt_succ_of_lt hw.length_le
  | array _ ih | object _ ih => exact Nat.lt_succ_of_lt ih
  | element hw _ hend ih | moreElements hw _ hend _ ih ih' =>
    have := hw.length_le
    have := hend.length_le
    simp only [length_cons] at this
    omega
  | member hw hkey hcolon hw' _ hend ih | moreMembers hw hkey hcolon hw' _ hend _ ih ih' =>
    have := hw.length_le
    have := hkey.length_lt
    have := hcolon.length_le
    have := hw'.length_le
    have := hend.length_le
    simp only [length_cons] at *
    omega

variable (build) in
/-- What is read of a part that the rest follows, with as many steps as the part has characters. The inside
of an array or an object is read from its first character on, after the whitespace. -/
def Parsed (s rest : Text) : Part V → Prop
  | .value v => (∃ c cs, s = c :: cs ∧ StartsValue c) ∧ ∀ steps pos, s.length ≤ rest.length + steps →
    Stops rest → Yields (parseValue build steps ⟨pos, s⟩) v rest
  | .elements vs => ∃ c t, Ws s (c :: t) ∧ StartsValue c ∧ ∀ steps pos acc,
    (c :: t).length ≤ rest.length + steps →
      Yields (parseElements build steps ⟨pos, c :: t⟩ acc) (build.array (acc ++ vs)) rest
  | .members ms => ∃ t, Ws s ('"' :: t) ∧ ∀ steps pos s' acc, Ws s' ('"' :: t) →
    ('"' :: t).length ≤ rest.length + steps →
      Yields (parseMembers build steps ⟨pos, s'⟩ acc) (build.object (acc ++ ms)) rest

theorem ne_of_number {c : Char} (hc : c = '-' ∨ c.isDigit) (d : Char) (hd : d ≠ '-')
    (hdigit : d.isDigit = false) : c ≠ d := by
  rintro rfl
  rcases hc with hc | hc
  · exact hd hc
  · rw [hc] at hdigit
    cases hdigit

theorem starts_number {c : Char} (hc : c = '-' ∨ c.isDigit) : StartsValue c :=
  ⟨by simp [isWhitespace, ne_of_number hc], ne_of_number hc _ (by decide) (by decide),
    ne_of_number hc _ (by decide) (by decide)⟩

theorem parseValue_number {c : Char} (hc : c = '-' ∨ c.isDigit) (steps pos : Nat) (cs : Text) :
    parseValue build (steps + 1) ⟨pos, c :: cs⟩ = parseNumber build ⟨pos, c :: cs⟩ := by
  have hne := ne_of_number hc
  have hskip : skipWhitespace pos (c :: cs) = ⟨pos, c :: cs⟩ := by
    rw [skipWhitespace, if_neg (by simp [(starts_number hc).1])]
  rw [parseValue, Place.skip, hskip]
  dsimp only
  rw [if_neg (hne _ (by decide) (by decide)), if_neg (hne _ (by decide) (by decide)),
    if_neg (hne _ (by decide) (by decide)), if_neg (hne _ (by decide) (by decide)),
    if_neg (hne _ (by decide) (by decide)), if_neg (hne _ (by decide) (by decide)), if_pos hc]

theorem parseValue_array (steps pos : Nat) (s : Text) : parseValue build (steps + 1) ⟨pos, '[' :: s⟩ =
    (let p := skipWhitespace (pos + 1) s
     if p.rest.head? = some ']' then .ok (build.array [], p.drop 1)
     else parseElements build steps p []) := rfl

theorem parseValue_object (steps pos : Nat) (s : Text) : parseValue build (steps + 1) ⟨pos, '\x7b' :: s⟩ =
    (let p := skipWhitespace (pos + 1) s
     if p.rest.head? = some '\x7d' then .ok (build.object [], p.drop 1)
     else parseMembers build steps p []) := rfl

variable {steps : Nat} {s₂ s₃ s₄ : Text} {c : Char}

theorem parseElements_item (hv : ∀ pos, Yields (parseValue build steps ⟨pos, s⟩) v s₂)
    (hw : Ws s₂ (c :: s₃)) (hc : c = ',' ∨ c = ']') (pos : Nat) (acc : List V) :
    ∃ pos', parseElements build (steps + 1) ⟨pos, s⟩ acc =
      if c = ',' then parseElements build steps (skipWhitespace pos' s₃) (acc ++ [v])
      else .ok (build.array (acc ++ [v]), ⟨pos', s₃⟩) := by
  obtain ⟨pos₁, hv⟩ := hv pos
  obtain ⟨pos₂, hskip⟩ := hw.skip_eq (by rintro _ ⟨⟩; rcases hc with rfl | rfl <;> decide) pos₁
  refine ⟨pos₂ + 1, ?_⟩
  rw [parseElements, hv]
  dsimp only [Place.skip]
  rw [hskip]
  rcases hc with rfl | rfl <;> rfl

theorem parseMembers_item {key s₁ s₅ : Text} (hw : Ws s ('"' :: s₁)) (hkey : Literal s₁ key s₂)
    (hcolon : Ws s₂ (':' :: s₃)) (hw' : Ws s₃ s₄) (hs₄ : ∃ c cs, s₄ = c :: cs ∧ StartsValue c)
    (hv : ∀ pos, Yields (parseValue build steps ⟨pos, s₄⟩) v s₅) {s₆ : Text} (hend : Ws s₅ (c :: s₆))
    (hc : c = ',' ∨ c = '\x7d') (pos : Nat) (acc : List (Text × V)) :
    ∃ pos', parseMembers build (steps + 1) ⟨pos, s⟩ acc =
      if c = ',' then parseMembers build steps ⟨pos', s₆⟩ (acc ++ [(key, v)])
      else .ok (build.object (acc ++ [(key, v)]), ⟨pos', s₆⟩) := by
  obtain ⟨d, ds, rfl, hd⟩ := hs₄
  obtain ⟨pos₁, h₁⟩ := hw.skip_eq (by rintro _ ⟨⟩; decide) pos
  obtain ⟨pos₂, h₂⟩ := parseChars_yields hkey (pos₁ + 1) []
  obtain ⟨pos₃, h₃⟩ := hcolon.skip_eq (by rintro _ ⟨⟩; decide) pos₂
  obtain ⟨pos₄, h₄⟩ := hw'.skip_eq (by rintro _ ⟨⟩; exact hd.1) (pos₃ + 1)
  obtain ⟨pos₅, h₅⟩ := hv pos₄
  obtain ⟨pos₆, h₆⟩ := hend.skip_eq (by rintro _ ⟨⟩; rcases hc with rfl | rfl <;> decide) pos₅
  refine ⟨pos₆ + 1, ?_⟩
  rw [parseMembers]
  simp only [Place.skip, h₁, parseString, h₂, head?_cons, ne_eq, not_true_eq_false, if_false, h₃,
    nil_append]
  rw [show Place.drop ⟨pos₃, ':' :: s₃⟩ 1 = ⟨pos₃ + 1, s₃⟩ from rfl, h₄, h₅]
  dsimp only
  rw [h₆]
  rcases hc with rfl | rfl <;> rfl

theorem Derives.parsed_value {cs : Text} (hd : Derives build Literal (c :: cs) (.value v) rest)
    (hc : StartsValue c) (h : ∀ steps pos, cs.length ≤ rest.length + steps → Stops rest →
      Yields (parseValue build (steps + 1) ⟨pos, c :: cs⟩) v rest) : Parsed build (c :: cs) rest (.value v) := by
  refine ⟨⟨c, cs, rfl, hc⟩, fun steps pos hsteps hstop => ?_⟩
  have hlt := hd.length_lt
  rw [length_cons] at hsteps hlt
  obtain ⟨steps, rfl⟩ := Nat.exists_eq_add_one_of_ne_zero (n := steps) (by omega)
  exact h steps pos (by omega) hstop

theorem Derives.parsed {part : Part V} (h : Derives build Literal s part rest) : Parsed build s rest part := by
  induction h with
  | @literal t r v h =>
    have hd := (Derives.literal (r := r) h : Derives build Literal _ _ _)
    simp only [literals, mem_cons, Prod.mk.injEq, not_mem_nil, or_false] at h
    rcases h with ⟨rfl, rfl⟩ | ⟨rfl, rfl⟩ | ⟨rfl, rfl⟩
    · exact hd.parsed_value (by decide) fun _ pos _ _ => parseLiteral_yields ['n', 'u', 'l', 'l'] _ pos r
    · exact hd.parsed_value (by decide) fun _ pos _ _ => parseLiteral_yields ['t', 'r', 'u', 'e'] _ pos r
    · exact hd.parsed_value (by decide) fun _ pos _ _ => parseLiteral_yields ['f', 'a', 'l', 's', 'e'] _ pos r
  | string h =>
    refine (Derives.string h).parsed_value (by decide) fun steps pos _ _ => ?_
    obtain ⟨pos', hchars⟩ := parseChars_yields h (pos + 1) []
    exact ⟨pos', congrArg (Except.map fun r : Text × Place => (build.string r.1, r.2)) hchars⟩
  | @number t r v h =>
    have hd := (Derives.number (r := r) h : Derives build Literal _ _ _)
    obtain ⟨c, cs, rfl, hc⟩ := h.front
    refine hd.parsed_value (starts_number hc) fun steps pos _ hstop => ?_
    rw [parseValue_number hc]
    exact h.parseNumber_append pos hstop
  | emptyArray hw =>
    refine (Derives.emptyArray hw).parsed_value (by decide) fun steps pos _ _ => ?_
    obtain ⟨pos', hskip⟩ := hw.skip_eq (by rintro _ ⟨⟩; decide) (pos + 1)
    rw [parseValue_array, hskip]
    exact ⟨pos' + 1, rfl⟩
  | emptyObject hw =>
    refine (Derives.emptyObject hw).parsed_value (by decide) fun steps pos _ _ => ?_
    obtain ⟨pos', hskip⟩ := hw.skip_eq (by rintro _ ⟨⟩; decide) (pos + 1)
    rw [parseValue_object, hskip]
    exact ⟨pos' + 1, rfl⟩
  | array h ih =>
    obtain ⟨c, t, hw, hc, hrun⟩ := ih
    refine (Derives.array h).parsed_value (by decide) fun steps pos hsteps _ => ?_
    obtain ⟨pos', hskip⟩ := hw.skip_eq (by rintro _ ⟨⟩; exact hc.1) (pos + 1)
    rw [parseValue_array, hskip]
    refine (if_neg (fun heq => hc.2.1 (Option.some.inj heq))).symm ▸ hrun steps pos' [] ?_
    exact hw.length_le.trans hsteps
  | object h ih =>
    obtain ⟨t, hw, hrun⟩ := ih
    refine (Derives.object h).parsed_value (by decide) fun steps pos hsteps _ => ?_
    obtain ⟨pos', hskip⟩ := hw.skip_eq (by rintro _ ⟨⟩; decide) (pos + 1)
    rw [parseValue_object, hskip]
    exact hrun steps pos' _ [] .refl (hw.length_le.trans hsteps)
  | element hw h hend ih =>
    obtain ⟨⟨c, cs, rfl, hc⟩, hrun⟩ := ih
    refine ⟨c, cs, hw, hc, fun steps pos acc hsteps => ?_⟩
    have hlt := h.length_lt
    have hle := hend.length_le
    rw [length_cons] at hle
    obtain ⟨steps, rfl⟩ := Nat.exists_eq_add_one_of_ne_zero (n := steps) (by omega)
    exact parseElements_item (fun pos => hrun steps pos (by omega) (hend.stops (stops_cons (by decide) _)))
      hend (.inr rfl) pos acc
  | @moreElements _ _ _ _ _ v vs hw h hcomma hvs ih ih' =>
    obtain ⟨⟨c, cs, rfl, hc⟩, hrun⟩ := ih
    obtain ⟨c', t', hw', hc', hrun'⟩ := ih'
    refine ⟨c, cs, hw, hc, fun steps pos acc hsteps => ?_⟩
    have hlt := h.length_lt
    have hle := hcomma.length_le
    have hlt' := hvs.length_lt
    have hle' := hw'.length_le
    rw [length_cons] at hle
    obtain ⟨steps, rfl⟩ := Nat.exists_eq_add_one_of_ne_zero (n := steps) (by omega)
    obtain ⟨pos', heq⟩ := parseElements_item (fun pos => hrun steps pos (by omega)
      (hcomma.stops (stops_cons (by decide) _))) hcomma (.inl rfl) pos acc
    obtain ⟨pos'', hskip⟩ := hw'.skip_eq (by rintro _ ⟨⟩; exact hc'.1) pos'
    rw [heq, if_pos rfl, hskip, append_cons acc v vs]
    exact hrun' steps pos'' _ (by omega)
  | member hw hkey hcolon hw' h hend ih =>
    obtain ⟨hstart, hrun⟩ := ih
    refine ⟨_, hw, fun steps pos s' acc hs' hsteps => ?_⟩
    have hlt := h.length_lt
    have hle := hend.length_le
    have hle' := hkey.length_lt
    have := hcolon.length_le
    have := hw'.length_le
    simp only [length_cons] at *
    obtain ⟨steps, rfl⟩ := Nat.exists_eq_add_one_of_ne_zero (n := steps) (by omega)
    exact parseMembers_item hs' hkey hcolon hw' hstart (fun pos => hrun steps pos (by omega)
      (hend.stops (stops_cons (by decide) _))) hend (.inr rfl) pos acc
  | @moreMembers _ _ _ _ _ _ _ _ key v ms hw hkey hcolon hw' h hcomma hms ih ih' =>
    obtain ⟨hstart, hrun⟩ := ih
    obtain ⟨t', hws, hrun'⟩ := ih'
    refine ⟨_, hw, fun steps pos s' acc hs' hsteps => ?_⟩
    have hlt := h.length_lt
    have hlt' := hms.length_lt
    have hle := hcomma.length_le
    have hle' := hkey.length_lt
    have := hcolon.length_le
    have := hw'.length_le
    have := hws.length_le
    simp only [length_cons] at *
    obtain ⟨steps, rfl⟩ := Nat.exists_eq_add_one_of_ne_zero (n := steps) (by omega)
    obtain ⟨pos', heq⟩ := parseMembers_item hs' hkey hcolon hw' hstart (fun pos => hrun steps pos (by omega)
      (hcomma.stops (stops_cons (by decide) _))) hcomma (.inl rfl) pos acc
    rw [heq, if_pos rfl, append_cons acc (key, v) ms]
    exact hrun' steps pos' _ _ hws (by omega)

/-! ## What is read is derived -/

theorem Ws.derives_elements {t : Text} {vs : List V} (hw : Ws s t) (h : Derives build Literal t (.elements vs) rest) :
    Derives build Literal s (.elements vs) rest := by
  cases h with
  | element hw' h hend => exact .element (hw.trans hw') h hend
  | moreElements hw' h hcomma hvs => exact .moreElements (hw.trans hw') h hcomma hvs

theorem Ws.derives_members {t : Text} {ms : List (Text × V)} (hw : Ws s t)
    (h : Derives build Literal t (.members ms) rest) : Derives build Literal s (.members ms) rest := by
  cases h with
  | member hw' hkey hcolon hw'' h hend => exact .member (hw.trans hw') hkey hcolon hw'' h hend
  | moreMembers hw' hkey hcolon hw'' h hcomma hms =>
    exact .moreMembers (hw.trans hw') hkey hcolon hw'' h hcomma hms

theorem Place.ws_skip (p : Place) : Ws p.rest p.skip.rest := Ws.skipWhitespace _ _

theorem Place.rest_drop_one {p : Place} {c : Char} {cs : Text} (h : p.rest = c :: cs) : (p.drop 1).rest = cs := by
  rw [Place.drop, h]
  rfl

theorem parseString_ok {p q : Place} {t : Text} (h : parseString p = .ok (t, q)) :
    ∃ s, p.rest = '"' :: s ∧ Literal s t q.rest := by
  unfold parseString at h
  split at h
  · next s hs =>
    obtain ⟨u, rfl, hu⟩ := parseChars_ok h
    exact ⟨s, hs, hu⟩
  · cases h
  · cases h

variable (build) in
/-- What `steps` steps of the parser read is derived. -/
structure DerivesRead (steps : Nat) : Prop where
  value : ∀ {p q : Place} {v : V}, parseValue build steps p = .ok (v, q) →
    ∃ s, Ws p.rest s ∧ Derives build Literal s (.value v) q.rest
  elements : ∀ {p q : Place} {v : V} {acc : List V}, parseElements build steps p acc = .ok (v, q) →
    ∃ vs, v = build.array (acc ++ vs) ∧ Derives build Literal p.rest (.elements vs) q.rest
  members : ∀ {p q : Place} {v : V} {acc : List (Text × V)}, parseMembers build steps p acc = .ok (v, q) →
    ∃ ms, v = build.object (acc ++ ms) ∧ Derives build Literal p.rest (.members ms) q.rest

theorem DerivesRead.value_succ (ih : DerivesRead build steps) {p q : Place}
    (h : parseValue build (steps + 1) p = .ok (v, q)) :
    ∃ s, Ws p.rest s ∧ Derives build Literal s (.value v) q.rest := by
  refine ⟨p.skip.rest, p.ws_skip, ?_⟩
  rw [parseValue] at h
  generalize p.skip = p at h ⊢
  dsimp only at h
  split at h
  · cases h
  next c cs hcs =>
  have hw := (p.drop 1).ws_skip
  rw [Place.rest_drop_one hcs] at hw
  have hskip : ∀ {d : Char}, (p.drop 1).skip.rest.head? = some d →
      Ws cs (d :: ((p.drop 1).skip.drop 1).rest) := by
    intro d hd
    obtain ⟨t, ht⟩ := List.head?_eq_some_iff.mp hd
    exact Place.rest_drop_one ht ▸ ht ▸ hw
  repeat' split at h
  · obtain ⟨rfl, hr⟩ := parseLiteral_ok h
    exact hr ▸ .literal (by simp [literals])
  · obtain ⟨rfl, hr⟩ := parseLiteral_ok h
    exact hr ▸ .literal (by simp [literals])
  · obtain ⟨rfl, hr⟩ := parseLiteral_ok h
    exact hr ▸ .literal (by simp [literals])
  · obtain ⟨⟨t, q'⟩, hstring, heq⟩ := ok_of_map h
    cases heq
    obtain ⟨s, hs, hliteral⟩ := parseString_ok hstring
    exact hs ▸ .string hliteral
  · next hc hclose =>
    cases h
    exact hcs ▸ hc ▸ .emptyArray (hskip hclose)
  · next hc _ =>
    obtain ⟨vs, rfl, hvs⟩ := ih.elements h
    exact hcs ▸ hc ▸ .array (hw.derives_elements hvs)
  · next hc hclose =>
    cases h
    exact hcs ▸ hc ▸ .emptyObject (hskip hclose)
  · next hc _ =>
    obtain ⟨ms, rfl, hms⟩ := ih.members h
    exact hcs ▸ hc ▸ .object (hw.derives_members hms)
  · obtain ⟨t, ht, hnumber⟩ := parseNumber_ok h
    exact ht ▸ .number hnumber
  · cases h

theorem derivesRead (steps : Nat) : DerivesRead build steps := by
  induction steps with
  | zero => constructor <;> (intros; contradiction)
  | succ steps ih =>
    refine ⟨ih.value_succ, fun {p q v acc} h => ?_, fun {p q v acc} h => ?_⟩
    · rw [parseElements] at h
      split at h
      · cases h
      next x p' hx =>
      obtain ⟨s, hw, hs⟩ := ih.value hx
      have hskip := p'.ws_skip
      dsimp only at h
      split at h
      · cases h
      next c cs hcs =>
      rw [hcs] at hskip
      split at h
      · next hc =>
        obtain ⟨vs, rfl, hvs⟩ := ih.elements h
        have hws := (p'.skip.drop 1).ws_skip
        rw [Place.rest_drop_one hcs] at hws
        exact ⟨x :: vs, by simp, .moreElements hw hs (hc ▸ hskip) (hws.derives_elements hvs)⟩
      · split at h
        · next hc =>
          cases h
          exact ⟨[x], rfl, .element hw hs (hc ▸ Place.rest_drop_one hcs ▸ hskip)⟩
        · cases h
    · rw [parseMembers] at h
      have hopen := p.ws_skip
      generalize p.skip = p₁ at h hopen
      dsimp only at h
      split at h
      · cases h
      split at h
      · cases h
      next key p₂ hkey =>
      obtain ⟨s₁, hs₁, hkey⟩ := parseString_ok hkey
      rw [hs₁] at hopen
      have hcolon := p₂.ws_skip
      generalize p₂.skip = p₃ at h hcolon
      split at h
      · cases h
      next hhead =>
      obtain ⟨s₃, hs₃⟩ := List.head?_eq_some_iff.mp (not_not.mp hhead)
      have hgap := (p₃.drop 1).ws_skip
      rw [Place.rest_drop_one hs₃] at hgap
      rw [hs₃] at hcolon
      split at h
      · cases h
      next x p₅ hx =>
      obtain ⟨s₄, hw, hs₄⟩ := ih.value hx
      have hend := p₅.ws_skip
      split at h
      · cases h
      next c cs hcs =>
      rw [hcs] at hend
      split at h
      · next hc =>
        obtain ⟨ms, rfl, hms⟩ := ih.members h
        rw [Place.rest_drop_one hcs] at hms
        exact ⟨(key, x) :: ms, by simp, .moreMembers hopen hkey hcolon (hgap.trans hw) hs₄ (hc ▸ hend) hms⟩
      · split at h
        · next hc =>
          cases h
          exact ⟨[(key, x)], rfl,
            .member hopen hkey hcolon (hgap.trans hw) hs₄ (hc ▸ Place.rest_drop_one hcs ▸ hend)⟩
        · cases h

theorem parse_ok_iff (input : Text) : parse build input = .ok v ↔ Spells build Literal input v := by
  unfold parse
  dsimp only
  constructor
  · intro h
    have hopen := Ws.skipWhitespace 0 input
    generalize skipWhitespace 0 input = p at h hopen
    split at h
    · cases h
    split at h
    · cases h
    next x p' hx =>
    obtain ⟨s, hw, hs⟩ := (derivesRead _).value hx
    have hend := p'.ws_skip
    split at h
    · next hnil =>
      cases h
      exact ⟨s, p'.rest, hopen.trans hw, hs, hnil ▸ hend⟩
    · cases h
  · rintro ⟨s, r, hw, hs, hend⟩
    obtain ⟨⟨c, cs, rfl, hc⟩, hrun⟩ := hs.parsed
    obtain ⟨pos, hskip⟩ := hw.skip_eq (by rintro _ ⟨⟩; exact hc.1) 0
    have hle := hw.length_le
    obtain ⟨pos₁, hv⟩ := hrun (2 * input.length + 2) pos (by omega) (hend.stops (by rintro _ ⟨⟩))
    obtain ⟨pos₂, hskip₂⟩ := hend.skip_eq (by rintro _ ⟨⟩) pos₁
    rw [hskip, if_neg (cons_ne_nil _ _), hv]
    dsimp only [Place.skip]
    rw [hskip₂]

end

/-- Two floats, for runs. -/
inductive Sample where
  | zero
  | half
deriving DecidableEq

instance : JsonFloat Sample where
  isFinite _ := true
  toText
    | .zero => ['0']
    | .half => ['0', '.', '5']
  parse s :=
    if s = ['0'] ∨ s = ['0', '.', '0'] then some .zero
    else if s = ['0', '.', '5'] then some .half else none
  decimal x _ := by
    cases x with
    | zero =>
      exact ⟨[], ['0'], [], .inl rfl, List.forall_mem_singleton.mpr rfl, .inl rfl, .inl rfl, rfl⟩
    | half =>
      exact ⟨[], ['0'], ['.', '5'], .inl rfl, List.forall_mem_singleton.mpr rfl, .inl rfl,
        .inr ⟨['5'], rfl, by decide, List.forall_mem_singleton.mpr rfl⟩, rfl⟩
  parse_toText x _ := by cases x <;> rfl
  parse_pointZero x _ h := by
    cases x with
    | zero => rfl
    | half => exact absurd h (by decide)

def strings : Builder Sample Text :=
  ⟨[], fun _ => [], fun _ => [], fun _ => [], id, flatten, fun _ => []⟩

end Elle.Json

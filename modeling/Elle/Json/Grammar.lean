import Elle.Json.Parser
import Elle.Lib.Result

/-!
# The texts the JSON parser accepts

The grammar of JSON over what is left of the text: `Derives s part r` says that `s` begins with the part
and goes on with `r`. What a string literal is, is a parameter: the parser's are `Literal`, those of
RFC 8259 `RfcLiteral`.
-/

namespace Elle.Json

open Result List

/-- Whitespace leads from the first text to the second. -/
inductive Ws : Text → Text → Prop
  | refl {s : Text} : Ws s s
  | step {c : Char} {s t : Text} (hc : isWhitespace c) (h : Ws s t) : Ws (c :: s) t

/-! ## String literals -/

/-- The rest of a string literal after its opening quote, the characters it stands for, and the text
after it. -/
inductive Chars (plain : Char → Prop) (escape : Text → Char → Prop) : Text → Text → Text → Prop
  | close {r : Text} : Chars plain escape ('"' :: r) [] r
  | char {c : Char} {s t r : Text} (hc : plain c) (h : Chars plain escape s t r) :
    Chars plain escape (c :: s) (c :: t) r
  | escape {body : Text} {c : Char} {s t r : Text} (hb : escape body c) (h : Chars plain escape s t r) :
    Chars plain escape ('\\' :: (body ++ s)) (c :: t) r

/-- The escapes the parser reads, after the backslash. -/
inductive Escape : Text → Char → Prop
  | short {e c : Char} (h : shortEscape e = some c) : Escape [e] c
  | unit {digits : Text} {n : Nat} (hlen : digits.length = 4) (hn : fromStrRadix16 digits = some n)
    (hvalid : n.isValidChar) : Escape ('u' :: digits) (Char.ofNat n)
  | pair {digits lowDigits : Text} {n low : Nat} (hlen : digits.length = 4) (hlow : lowDigits.length = 4)
    (hn : fromStrRadix16 digits = some n) (hl : fromStrRadix16 lowDigits = some low)
    (hsurrogate : 0xD800 ≤ n ∧ n ≤ 0xDBFF) (hlowSurrogate : 0xDC00 ≤ low ∧ low ≤ 0xDFFF) :
    Escape ('u' :: (digits ++ '\\' :: 'u' :: lowDigits))
      (Char.ofNat (0x10000 + (n - 0xD800) * 0x400 + (low - 0xDC00)))

/-- The literals the parser reads. Every character but the quote and the backslash stands for itself. -/
def Literal : Text → Text → Text → Prop := Chars (fun c => c ≠ '"' ∧ c ≠ '\\') Escape

/-- The literals of RFC 8259: no control characters, and four hexadecimal digits after `\u`, whatever
they stand for. -/
def RfcLiteral : Text → Text → Text → Prop :=
  Chars (fun c => 0x20 ≤ c.toNat ∧ c ≠ '"' ∧ c ≠ '\\') fun body _ =>
    (∃ e, body = [e] ∧ (shortEscape e).isSome) ∨
      ∃ digits, body = 'u' :: digits ∧ digits.length = 4 ∧ ∀ c ∈ digits, (hexValue c).isSome

/-! ## Values -/

def Exponent (t : Text) : Prop :=
  t = [] ∨ ∃ e sign digits, t = e :: (sign ++ digits) ∧ (e = 'e' ∨ e = 'E') ∧
    (sign = [] ∨ sign = ['+'] ∨ sign = ['-']) ∧ digits ≠ [] ∧ ∀ c ∈ digits, c.isDigit

section

variable {F V : Type} [JsonFloat F] (build : Builder F V)

/-- The numbers: an integer within 64 bits, or a float as the host reads it. -/
inductive Number : Text → V → Prop
  | int {t sign whole : Text} {n : Int64} (h : DecimalText t sign whole [])
    (hn : parseInt64 sign whole = some n) : Number t (build.int n)
  | float {t sign whole fraction exponent : Text} {x : F} (h : DecimalText t sign whole fraction)
    (he : Exponent exponent) (hne : fraction ++ exponent ≠ [])
    (hx : JsonFloat.parse (t ++ exponent) = some x) : Number (t ++ exponent) (build.float x)

def literals : List (Text × V) :=
  [(['n', 'u', 'l', 'l'], build.null), (['t', 'r', 'u', 'e'], build.bool true),
    (['f', 'a', 'l', 's', 'e'], build.bool false)]

/-- What stands in a text: a value, or the inside of an array or an object with its closing bracket. -/
inductive Part (V : Type) where
  | value (v : V)
  | elements (vs : List V)
  | members (ms : List (Text × V))

inductive Derives (literal : Text → Text → Text → Prop) : Text → Part V → Text → Prop
  | literal {t r : Text} {v : V} (h : (t, v) ∈ literals build) : Derives literal (t ++ r) (.value v) r
  | string {s t r : Text} (h : literal s t r) : Derives literal ('"' :: s) (.value (build.string t)) r
  | number {t r : Text} {v : V} (h : Number build t v) : Derives literal (t ++ r) (.value v) r
  | emptyArray {s r : Text} (hw : Ws s (']' :: r)) : Derives literal ('[' :: s) (.value (build.array [])) r
  | array {s r : Text} {vs : List V} (h : Derives literal s (.elements vs) r) :
    Derives literal ('[' :: s) (.value (build.array vs)) r
  | emptyObject {s r : Text} (hw : Ws s ('\x7d' :: r)) :
    Derives literal ('\x7b' :: s) (.value (build.object [])) r
  | object {s r : Text} {ms : List (Text × V)} (h : Derives literal s (.members ms) r) :
    Derives literal ('\x7b' :: s) (.value (build.object ms)) r
  | element {s s₁ s₂ r : Text} {v : V} (hw : Ws s s₁) (h : Derives literal s₁ (.value v) s₂)
    (hend : Ws s₂ (']' :: r)) : Derives literal s (.elements [v]) r
  | moreElements {s s₁ s₂ s₃ r : Text} {v : V} {vs : List V} (hw : Ws s s₁)
    (h : Derives literal s₁ (.value v) s₂) (hcomma : Ws s₂ (',' :: s₃))
    (hvs : Derives literal s₃ (.elements vs) r) : Derives literal s (.elements (v :: vs)) r
  | member {s s₁ s₂ s₃ s₄ s₅ r key : Text} {v : V} (hw : Ws s ('"' :: s₁)) (hkey : literal s₁ key s₂)
    (hcolon : Ws s₂ (':' :: s₃)) (hw' : Ws s₃ s₄) (h : Derives literal s₄ (.value v) s₅)
    (hend : Ws s₅ ('\x7d' :: r)) : Derives literal s (.members [(key, v)]) r
  | moreMembers {s s₁ s₂ s₃ s₄ s₅ s₆ r key : Text} {v : V} {ms : List (Text × V)}
    (hw : Ws s ('"' :: s₁)) (hkey : literal s₁ key s₂) (hcolon : Ws s₂ (':' :: s₃)) (hw' : Ws s₃ s₄)
    (h : Derives literal s₄ (.value v) s₅) (hcomma : Ws s₅ (',' :: s₆))
    (hms : Derives literal s₆ (.members ms) r) : Derives literal s (.members ((key, v) :: ms)) r

/-- The whole text is one value, with whitespace around it. -/
def Spells (literal : Text → Text → Text → Prop) (input : Text) (v : V) : Prop :=
  ∃ s r, Ws input s ∧ Derives build literal s (.value v) r ∧ Ws r []

end

/-! ## Whitespace -/

namespace Ws

variable {s t u w : Text}

theorem trans (h : Ws s t) (h' : Ws t u) : Ws s u := by
  induction h with
  | refl => exact h'
  | step hc _ ih => exact .step hc (ih h')

theorem of_blank (hw : ∀ c ∈ w, isWhitespace c) : Ws (w ++ t) t := by
  induction w with
  | nil => exact .refl
  | cons c w ih => exact .step (hw c (by simp)) (ih fun d hd => hw d (by simp [hd]))

theorem length_le (h : Ws s t) : t.length ≤ s.length := by
  induction h with
  | refl => exact le_rfl
  | step _ _ ih => exact Nat.le_succ_of_le ih

theorem skipWhitespace (pos : Nat) (s : Text) : Ws s (skipWhitespace pos s).rest := by
  induction s generalizing pos with
  | nil => exact .refl
  | cons c s ih =>
    rw [Json.skipWhitespace]
    split
    · next hc => exact .step hc (ih _)
    · exact .refl

theorem skip_eq (h : Ws s t) (ht : ∀ c ∈ t.head?, isWhitespace c = false) (pos : Nat) :
    ∃ pos', Json.skipWhitespace pos s = ⟨pos', t⟩ := by
  induction h generalizing pos with
  | @refl s =>
    cases s with
    | nil => exact ⟨pos, rfl⟩
    | cons c s => exact ⟨pos, by rw [Json.skipWhitespace, if_neg (by simp [ht c rfl])]⟩
  | step hc _ ih =>
    rw [Json.skipWhitespace, if_pos hc]
    exact ih ht _

end Ws

/-! ## What the parser makes of string literals -/

/-- The result is `a`, with `rest` left to read. -/
def Yields {α : Type} (r : Except String (α × Place)) (a : α) (rest : Text) : Prop :=
  ∃ pos, r = .ok (a, ⟨pos, rest⟩)

theorem exists_four {s : Text} (h : 3 < s.length) : ∃ d r : Text, s = d ++ r ∧ d.length = 4 :=
  ⟨s.take 4, s.drop 4, (take_append_drop 4 s).symm, by rw [length_take]; omega⟩

theorem parseUnicode_ok {pos n : Nat} {s : Text} {c : Char} (h : parseUnicode ⟨pos, s⟩ = .ok (c, n)) :
    ∃ body r, s = body ++ r ∧ body.length = n ∧ Escape ('u' :: body) c := by
  by_cases hlen : s.length ≤ 3
  · rw [parseUnicode, if_pos hlen] at h
    cases h
  obtain ⟨d, r, rfl, hd⟩ := exists_four (Nat.lt_of_not_le hlen)
  simp only [parseUnicode, if_neg hlen, take_left' hd, drop_left' hd] at h
  split at h
  · cases h
  next code hcode =>
  split at h
  · next hhigh =>
    split at h
    · next hafter =>
      obtain ⟨a, b, r, rfl⟩ : ∃ a b r', r = a :: b :: r' := by
        match r, hafter.2 with
        | a :: b :: r, _ => exact ⟨a, b, r, rfl⟩
      obtain ⟨rfl, rfl⟩ : a = '\\' ∧ b = 'u' := by simpa using hafter.2
      obtain ⟨l, r, rfl, hl⟩ := exists_four (s := r) (by simp at hafter; omega)
      simp only [drop_succ_cons, drop_zero, take_left' hl] at h
      split at h
      · cases h
      next low hlow =>
      split at h
      · next hrange =>
        split at h
        · simp only [Except.ok.injEq, Prod.mk.injEq] at h
          obtain ⟨rfl, rfl⟩ := h
          exact ⟨d ++ '\\' :: 'u' :: l, r, by simp, by simp [hd, hl], .pair hd hl hcode hlow hhigh hrange⟩
        · cases h
      · cases h
    · cases h
  · split at h
    · cases h
    · split at h
      · next hvalid =>
        cases h
        exact ⟨d, r, rfl, hd, .unit hd hcode hvalid⟩
      · cases h

theorem parseEscape_ok {pos n : Nat} {s : Text} {c : Char} (h : parseEscape ⟨pos, s⟩ = .ok (c, n)) :
    ∃ body r, s = body ++ r ∧ body.length = n ∧ Escape body c := by
  cases s with
  | nil => cases h
  | cons e s =>
    rw [parseEscape] at h
    dsimp only at h
    split at h
    · next hshort =>
      cases h
      exact ⟨[e], s, rfl, rfl, .short hshort⟩
    · split at h
      · next hu =>
        obtain ⟨⟨c', n'⟩, hr, heq⟩ := ok_of_map h
        cases heq
        obtain ⟨body, r, rfl, rfl, hbody⟩ := parseUnicode_ok hr
        exact ⟨e :: body, r, rfl, rfl, hu ▸ hbody⟩
      · cases h

theorem Escape.parseEscape_eq {body : Text} {c : Char} (h : Escape body c) (pos : Nat) (r : Text) :
    parseEscape ⟨pos, body ++ r⟩ = .ok (c, body.length) := by
  have hunit : ∀ {digits : Text}, parseUnicode ⟨pos + 1, digits ++ r⟩ = .ok (c, digits.length) →
      parseEscape ⟨pos, 'u' :: digits ++ r⟩ = .ok (c, ('u' :: digits).length) := by
    intro digits hdigits
    have hshort : shortEscape 'u' = none := by decide
    simp only [parseEscape, cons_append, hshort, if_true, hdigits]
    rfl
  cases h with
  | short h => simp [parseEscape, h]
  | @unit digits n hlen hn hvalid =>
    refine hunit ?_
    have hrange : n < 0xD800 ∨ 0xDFFF < n ∧ n < 0x110000 := hvalid
    rw [parseUnicode, if_neg (by simp; omega)]
    simp only [take_left' hlen, hn, if_pos hvalid, hlen]
    rw [if_neg (by omega), if_neg (by omega)]
  | @pair digits lowDigits n low hlen hlow hn hl hhigh hrange =>
    refine hunit ?_
    rw [append_assoc, parseUnicode, if_neg (by simp; omega)]
    simp only [cons_append, take_left' hlen, drop_left' hlen, hn, if_pos hhigh,
      drop_succ_cons, drop_zero, take_left' hlow, hl, if_pos hrange]
    rw [if_pos ⟨by simp; omega, rfl⟩, if_pos (Or.inr ⟨by omega, by omega⟩)]
    simp [hlen, hlow]

theorem parseChars_yields {s t r : Text} (h : Literal s t r) (pos : Nat) (acc : Text) :
    Yields (parseChars pos s acc) (acc ++ t) r := by
  induction h generalizing pos acc with
  | close => exact ⟨pos + 1, by rw [parseChars, if_pos rfl, append_nil]⟩
  | @char c _ t _ hc _ ih =>
    rw [parseChars, if_neg hc.1, if_neg hc.2, append_cons acc c t]
    exact ih _ _
  | @escape _ c _ t _ hb _ ih =>
    rw [parseChars, if_neg (by decide), if_pos rfl, hb.parseEscape_eq, append_cons acc c t]
    dsimp only
    rw [drop_left]
    exact ih _ _

theorem parseChars_ok {pos : Nat} {s acc t : Text} {p : Place} (h : parseChars pos s acc = .ok (t, p)) :
    ∃ u, t = acc ++ u ∧ Literal s u p.rest := by
  fun_induction parseChars pos s acc with
  | case1 => cases h
  | case2 =>
    cases h
    exact ⟨[], by simp, .close⟩
  | case3 => cases h
  | case4 pos acc rest e n hesc hc ih =>
    obtain ⟨u, rfl, hu⟩ := ih h
    obtain ⟨body, r, rfl, rfl, hbody⟩ := parseEscape_ok hesc
    rw [drop_left] at hu
    exact ⟨e :: u, by simp, .escape hbody hu⟩
  | case5 pos acc c rest hc hb ih =>
    obtain ⟨u, rfl, hu⟩ := ih h
    exact ⟨c :: u, by simp, .char ⟨hc, hb⟩ hu⟩

end Elle.Json

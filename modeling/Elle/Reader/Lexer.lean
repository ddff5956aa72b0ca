import Elle.Lib.Result

/-!
# The lexer

Source text to tokens (`reader/lexer.rs`, `reader/numeric.rs`, `reader/escape.rs`), without the
positions. The text is its characters; the bytes a token is peeked at are ASCII, so that a byte offset
of one is the next character.
-/

namespace Elle.Reader

open Result List

def isWhitespace (c : Char) : Bool :=
  let n := c.toNat
  (9 ≤ n && n ≤ 13) || n == 0x20 || n == 0x85 || n == 0xA0 || n == 0x1680 || (0x2000 ≤ n && n ≤ 0x200A) ||
    n == 0x2028 || n == 0x2029 || n == 0x202F || n == 0x205F || n == 0x3000

/-- The parts of a printed number: a sign, digits, a fraction and an exponent. -/
structure DecimalParts (sign whole fraction exponent : List Char) : Prop where
  sign : sign = [] ∨ sign = ['-']
  whole_ne : whole ≠ []
  whole : ∀ c ∈ whole, c.isDigit
  fraction : fraction = [] ∨ ∃ ds, fraction = '.' :: ds ∧ ∀ c ∈ ds, c.isDigit
  exponent : exponent = [] ∨ ∃ minus d ds, exponent = 'e' :: (minus ++ d :: ds) ∧
    (minus = [] ∨ minus = ['-']) ∧ ∀ c ∈ d :: ds, c.isDigit

/-- The text of a finite float, which has a fraction, an exponent or both. -/
def DecimalText (s : List Char) : Prop :=
  ∃ sign whole fraction exponent, DecimalParts sign whole fraction exponent ∧
    s = sign ++ (whole ++ (fraction ++ exponent)) ∧ (fraction ≠ [] ∨ exponent ≠ [])

/-- What the reader takes from the standard library: which characters beyond ASCII are letters, and
floats with `str::parse` and `{:?}`. A float that is not finite prints as a word. -/
class Host (F : Type) where
  letters : Char → Bool
  parseFloat : List Char → Option F
  debugFloat : F → List Char
  isFinite : F → Bool
  debug_finite : ∀ x, isFinite x → DecimalText (debugFloat x)
  parse_debug : ∀ x, isFinite x → parseFloat (debugFloat x) = some x
  debug_special : ∀ x, isFinite x = false →
    debugFloat x ∈ [['i', 'n', 'f'], ['-', 'i', 'n', 'f'], ['N', 'a', 'N']]

inductive Token (F : Type) where
  | leftParen | rightParen | leftBracket | rightBracket | leftBrace | rightBrace
  | quote | quasiquote | unquote | unquoteSplicing | splice
  | listSugar | pipe | atPipe | bytesBracket | atBytesBracket
  | nil
  | symbol (name : List Char)
  | keyword (name : List Char)
  | integer (n : Int)
  | float (x : F)
  | string (s : List Char)
  | bool (b : Bool)
  | comment (text : List Char)

/-! ### Escapes -/

def sharedEscapes : List (Char × Char) :=
  [('n', '\n'), ('t', '\t'), ('r', '\r'), ('\\', '\\'), ('"', '"')]

inductive StringEscapes where
  | lenient | strict
  deriving DecidableEq, Repr

/-- One decoded escape and the length of its text after the backslash. -/
structure Decoded where
  ch : Char
  len : Nat

inductive EscapeError where
  | unterminated
  | unknown (c : Char)
  | hexDigits
  | hexRange (digits : List Char)
  | unicodeShape
  | notScalar (digits : List Char)

def isHexDigit (c : Char) : Bool :=
  c.isDigit || ('a' ≤ c && c ≤ 'f') || ('A' ≤ c && c ≤ 'F')

def hexValue (c : Char) : Nat :=
  if c.isDigit then c.toNat - '0'.toNat
  else if 'a' ≤ c && c ≤ 'f' then c.toNat - 'a'.toNat + 10
  else c.toNat - 'A'.toNat + 10

/-- The value of digits in a base, as `from_str_radix` computes it. -/
def ofDigits (base : Nat) (digits : List Char) : Nat :=
  digits.foldl (fun n c => n * base + hexValue c) 0

/-- `\xHH`, with the text after the `x`. -/
def decodeHex : List Char → Except EscapeError Decoded
  | a :: b :: _ =>
    if isHexDigit a && isHexDigit b then
      let byte := ofDigits 16 [a, b]
      if byte ≤ 0x7f then .ok ⟨Char.ofNat byte, 3⟩ else .error (.hexRange [a, b])
    else .error .hexDigits
  | _ => .error .hexDigits

/-- `\u{H…}`, with the text after the `u`. -/
def decodeUnicode : List Char → Except EscapeError Decoded
  | '\x7b' :: inner =>
    let digits := inner.takeWhile isHexDigit
    if digits.length = 0 || digits.length > 6 || (inner.dropWhile isHexDigit).head? != some '\x7d' then
      .error .unicodeShape
    else if (ofDigits 16 digits).isValidChar then .ok ⟨Char.ofNat (ofDigits 16 digits), digits.length + 3⟩
    else .error (.notScalar digits)
  | _ => .error .unicodeShape

def StringEscapes.decode (escapes : StringEscapes) : List Char → Except EscapeError Decoded
  | [] => .error .unterminated
  | c :: rest =>
    match sharedEscapes.find? (·.1 == c) with
    | some (_, ch) => .ok ⟨ch, 1⟩
    | none =>
      match escapes with
      | .lenient => .ok ⟨c, 1⟩
      | .strict =>
        if c = '0' then .ok ⟨'\x00', 1⟩
        else if c = 'x' then decodeHex rest
        else if c = 'u' then decodeUnicode rest
        else .error (.unknown c)

/-! ### Lexicons -/

structure Lexicon where
  commentChar : Char
  semicolonSplices : Bool
  commaSemicolonFuses : Bool
  stringEscapes : StringEscapes

def currentEpoch : Nat := 15

def Lexicon.forEpoch (epoch : Nat) : Lexicon :=
  ⟨'#', true, true, if epoch < 13 then .lenient else .strict⟩

def Lexicon.current : Lexicon := .forEpoch currentEpoch

/-! ### Scanning -/

def isDelimiter (c : Char) : Bool :=
  c ∈ ['(', ')', '[', ']', '\x7b', '\x7d', '\x27', '\x60', ',', ':', '@', ';', '|']

inductive Radix where
  | binary | octal | decimal | hexadecimal
  deriving DecidableEq, Repr

inductive LexError where
  | unterminatedString
  | escape (e : EscapeError)
  | unexpectedSemicolon
  | invalidKeyword
  | invalidUnderscore (raw : List Char)
  | invalidInteger (radix : Radix) (raw : List Char)
  | invalidFloat (raw : List Char)

/-- A comment runs to the end of its line. -/
def readComment : List Char → List Char × List Char
  | [] => ([], [])
  | c :: cs => if c = '\n' then ([c], cs) else (c :: (readComment cs).1, (readComment cs).2)

/-- The text of a string after its opening quote, and what follows its closing one. -/
def readString (lexicon : Lexicon) (input : List Char) : Except LexError (List Char × List Char) :=
  match input with
  | [] => .error .unterminatedString
  | c :: rest =>
    if c = '"' then .ok ([], rest)
    else if c = '\\' then
      match lexicon.stringEscapes.decode rest with
      | .error e => .error (.escape e)
      | .ok escape => (readString lexicon (rest.drop escape.len)).map fun p => (escape.ch :: p.1, p.2)
    else (readString lexicon rest).map fun p => (c :: p.1, p.2)
termination_by input.length
decreasing_by all_goals simp; try omega

section

variable {F : Type} [Host F]

variable (F) in
def isAlphabetic (c : Char) : Bool :=
  if c.toNat < 128 then c.isAlpha else Host.letters F c && !isWhitespace c

variable (F) in
def isSymbolStart (c : Char) : Bool :=
  isAlphabetic F c || c ∈ ['_', '-', '+', '*', '/', '!', '?', '<', '>', '=']

variable (F) in
/-- A name and what follows it. A colon before the start of a name joins the two to one qualified
name. -/
def readSymbol : List Char → List Char × List Char
  | [] => ([], [])
  | c :: cs =>
    if (isWhitespace c || isDelimiter c) && !(c == ':' && cs.head?.any (isSymbolStart F)) then
      ([], c :: cs)
    else (c :: (readSymbol cs).1, (readSymbol cs).2)

/-! ### Numbers -/

def Radix.fromPrefixChar (c : Char) : Option Radix :=
  if c = 'x' ∨ c = 'X' then some .hexadecimal
  else if c = 'o' ∨ c = 'O' then some .octal
  else if c = 'b' ∨ c = 'B' then some .binary
  else none

def Radix.value : Radix → Nat
  | .binary => 2
  | .octal => 8
  | .decimal => 10
  | .hexadecimal => 16

def Radix.isDigit (c : Char) : Radix → Bool
  | .binary => c == '0' || c == '1'
  | .octal => '0' ≤ c && c ≤ '7'
  | .decimal => c.isDigit
  | .hexadecimal => isHexDigit c

def isBodyChar (c : Char) : Bool := c.isDigit || c == '_'

def hasDoubleUnderscore : List Char → Bool
  | '_' :: '_' :: _ => true
  | _ :: cs => hasDoubleUnderscore cs
  | [] => false

def validateAndStripUnderscores (body context : List Char) : Except LexError (List Char) :=
  if body.head? = some '_' ∨ body.getLast? = some '_' ∨ hasDoubleUnderscore body then
    .error (.invalidUnderscore context)
  else .ok (body.filter (· != '_'))

def checkRange (n : Int) : Option Int := if -2 ^ 63 ≤ n ∧ n < 2 ^ 63 then some n else none

/-- `str::parse` of signed decimal digits as an `i64`. -/
def parseInt (sign digits : List Char) : Option Int :=
  if digits ≠ [] ∧ digits.all Char.isDigit then
    checkRange (if sign = ['-'] then -(Nat.ofDigitChars 10 digits 0 : Int) else Nat.ofDigitChars 10 digits 0)
  else none

def readPrefixed (sign : List Char) (radix : Radix) (raw rest : List Char) :
    Except LexError (Token F × List Char) :=
  let isBody := fun c => radix.isDigit c || c == '_'
  let body := rest.takeWhile isBody
  let after := rest.dropWhile isBody
  let raw' := raw ++ body
  if body = [] then .error (.invalidInteger radix raw')
  else
    match after.head? with
    | some bad =>
      if bad.isAlphanum then .error (.invalidInteger radix (raw' ++ [bad]))
      else finish raw' body after
    | none => finish raw' body after
where
  finish (raw' body after : List Char) : Except LexError (Token F × List Char) :=
    (validateAndStripUnderscores body raw').bind fun digits =>
      match checkRange (ofDigits radix.value digits) with
      | some n => .ok (.integer (if sign = ['-'] then -n else n), after)
      | none => .error (.invalidInteger radix raw')

/-- The fraction after the digits read so far: whether there is one, all that is read, the rest. -/
def readFraction (sign body : List Char) : List Char → Except LexError (Bool × List Char × List Char)
  | [] => .ok (false, body, [])
  | c :: rest =>
    if c = '.' then
      if body.getLast? = some '_' then .error (.invalidUnderscore (sign ++ body ++ ['.']))
      else if rest.head? = some '_' then .error (.invalidUnderscore (sign ++ body ++ ['.', '_']))
      else .ok (true, body ++ '.' :: rest.takeWhile isBodyChar, rest.dropWhile isBodyChar)
    else .ok (false, body, c :: rest)

def exponentSign : List Char → List Char × List Char
  | c :: rest => if c = '+' ∨ c = '-' then ([c], rest) else ([], c :: rest)
  | [] => ([], [])

def readExponent (sign body : List Char) : List Char → Except LexError (Bool × List Char × List Char)
  | [] => .ok (false, body, [])
  | c :: rest =>
    if c = 'e' ∨ c = 'E' then
      let s := exponentSign rest
      let raw := sign ++ body ++ c :: s.1
      if body.getLast? = some '_' then .error (.invalidUnderscore (sign ++ body))
      else if s.2.head? = some '_' then .error (.invalidUnderscore (raw ++ ['_']))
      else if s.2.head?.any Char.isDigit then
        .ok (true, body ++ c :: (s.1 ++ s.2.takeWhile isBodyChar), s.2.dropWhile isBodyChar)
      else .error (.invalidFloat raw)
    else .ok (false, body, c :: rest)

def readDecimal (sign rest : List Char) : Except LexError (Token F × List Char) :=
  (readFraction sign (rest.takeWhile isBodyChar) (rest.dropWhile isBodyChar)).bind fun f =>
  (readExponent sign f.2.1 f.2.2).bind fun e =>
  (validateAndStripUnderscores e.2.1 (sign ++ e.2.1)).bind fun digits =>
    if f.1 || e.1 then
      match Host.parseFloat (sign ++ digits) with
      | some x => .ok (.float x, e.2.2)
      | none => .error (.invalidFloat (sign ++ e.2.1))
    else
      match parseInt sign digits with
      | some n => .ok (.integer n, e.2.2)
      | none => .error (.invalidInteger .decimal (sign ++ e.2.1))

def readNumber (input : List Char) : Except LexError (Token F × List Char) :=
  let s := exponentSign input
  match s.2 with
  | '0' :: c :: rest =>
    match Radix.fromPrefixChar c with
    | some radix => readPrefixed s.1 radix (s.1 ++ ['0', c]) rest
    | none => readDecimal s.1 s.2
  | _ => readDecimal s.1 s.2

/-! ### Tokens -/

/-- The token of a name, for names that may be reserved. -/
def nameToken (s : List Char) : Token F :=
  if s = ['n', 'i', 'l'] then .nil
  else if s = ['t', 'r', 'u', 'e'] then .bool true
  else if s = ['f', 'a', 'l', 's', 'e'] then .bool false
  else .symbol s

/-- What an `@` starts, with the text after it. -/
def readAt (rest : List Char) : Token F × List Char :=
  match rest with
  | [] => (.listSugar, [])
  | c :: cs =>
    if c = '|' then (.atPipe, cs)
    else if c = 'b' ∧ cs.head? = some '[' then (.atBytesBracket, cs.tail)
    else if isSymbolStart F c then (.symbol ('@' :: (readSymbol F rest).1), (readSymbol F rest).2)
    else (.listSugar, rest)

/-- What a `:` starts, with the text after it. -/
def readKeyword (rest : List Char) : Except LexError (Token F × List Char) :=
  if rest.head? = some '@' then named ['@'] rest.tail else named [] rest
where
  named (mark rest : List Char) : Except LexError (Token F × List Char) :=
    if (readSymbol F rest).1 = [] then .error .invalidKeyword
    else .ok (.keyword (mark ++ (readSymbol F rest).1), (readSymbol F rest).2)

def punctuation : List (Char × Token F) :=
  [('(', .leftParen), (')', .rightParen), ('[', .leftBracket), (']', .rightBracket),
    ('\x7b', .leftBrace), ('\x7d', .rightBrace), ('\x27', .quote), ('\x60', .quasiquote), ('|', .pipe)]

/-- A number, the opening of a bytes literal or a name. -/
def readAtom (c : Char) (rest : List Char) : Except LexError (Token F × List Char) :=
  if c.isDigit ∨ c = '-' ∨ c = '+' then
    if (c = '-' ∨ c = '+') ∧ rest.head?.any Char.isDigit = false then
      .ok (.symbol (readSymbol F (c :: rest)).1, (readSymbol F (c :: rest)).2)
    else readNumber (c :: rest)
  else if c = 'b' ∧ rest.head? = some '[' then .ok (.bytesBracket, rest.tail)
  else .ok (nameToken (readSymbol F (c :: rest)).1, (readSymbol F (c :: rest)).2)

/-- The first token of a text that starts with neither whitespace nor a comment. -/
def readToken (lexicon : Lexicon) (c : Char) (rest : List Char) : Except LexError (Token F × List Char) :=
  match punctuation.find? (·.1 == c) with
  | some (_, k) => .ok (k, rest)
  | none =>
    if c = ',' then
      if lexicon.commaSemicolonFuses ∧ rest.head? = some ';' then .ok (.unquoteSplicing, rest.tail)
      else .ok (.unquote, rest)
    else if c = ';' then
      if lexicon.semicolonSplices then .ok (.splice, rest) else .error .unexpectedSemicolon
    else if c = '@' then .ok (readAt rest)
    else if c = ':' then readKeyword rest
    else if c = '"' then (readString lexicon rest).map fun p => (.string p.1, p.2)
    else readAtom c rest

/-- The next token and what follows it, or `none` at the end of the text. -/
def nextToken (lexicon : Lexicon) (input : List Char) : Except LexError (Option (Token F × List Char)) :=
  match input.dropWhile isWhitespace with
  | [] => .ok none
  | c :: rest =>
    if c = lexicon.commentChar then
      .ok (some (.comment (readComment (c :: rest)).1, (readComment (c :: rest)).2))
    else (readToken lexicon c rest).map some

/-! ### A token takes at least a character -/

theorem readComment_append (input : List Char) :
    (readComment input).1 ++ (readComment input).2 = input := by
  induction input with
  | nil => rfl
  | cons c cs ih =>
    unfold readComment
    split
    · simp
    · simpa using ih

theorem readSymbol_append (input : List Char) :
    (readSymbol F input).1 ++ (readSymbol F input).2 = input := by
  induction input with
  | nil => rfl
  | cons c cs ih =>
    unfold readSymbol
    split
    · simp
    · simpa using ih

theorem readSymbol_length_le (input : List Char) : (readSymbol F input).2.length ≤ input.length := by
  have h := congrArg List.length (readSymbol_append (F := F) input)
  rw [length_append] at h
  omega

variable {c : Char} {lexicon : Lexicon} {input after : List Char} {k : Token F}

theorem readSymbol_cons (hw : isWhitespace c = false) (hd : isDelimiter c = false) (cs : List Char) :
    readSymbol F (c :: cs) = (c :: (readSymbol F cs).1, (readSymbol F cs).2) := by
  rw [readSymbol, if_neg (by simp [hw, hd])]

theorem readString_length {s rest : List Char} (h : readString lexicon input = .ok (s, rest)) :
    rest.length < input.length := by
  induction input using readString.induct lexicon generalizing s rest with
  | case1 => rw [readString] at h; cases h
  | case2 rest' =>
    rw [readString, if_pos rfl] at h
    cases h
    simp
  | case3 rest' e he hq => rw [readString, if_neg hq, if_pos rfl, he] at h; cases h
  | case4 rest' escape he hq ih =>
    rw [readString, if_neg hq, if_pos rfl, he] at h
    obtain ⟨p, hp, hs⟩ := ok_of_map h
    cases hs
    have := ih hp
    simp only [length_drop, length_cons] at this ⊢
    omega
  | case5 c rest' hq hb ih =>
    rw [readString, if_neg hq, if_neg hb] at h
    obtain ⟨p, hp, hs⟩ := ok_of_map h
    cases hs
    exact Nat.lt_succ_of_lt (ih hp)

theorem readFraction_suffix {sign body rest raw : List Char} {dot : Bool}
    (h : readFraction sign body rest = .ok (dot, raw, after)) : after <:+ rest := by
  cases rest with
  | nil => cases h; exact suffix_refl _
  | cons c cs =>
    dsimp only [readFraction] at h
    split at h
    · split at h
      · cases h
      · split at h
        · cases h
        · cases h
          exact (dropWhile_suffix _).trans (suffix_cons _ _)
    · cases h; exact suffix_refl _

theorem exponentSign_suffix (rest : List Char) : (exponentSign rest).2 <:+ rest := by
  cases rest with
  | nil => exact suffix_refl _
  | cons c cs =>
    dsimp only [exponentSign]
    split
    · exact suffix_cons _ _
    · exact suffix_refl _

theorem readExponent_suffix {sign body rest raw : List Char} {exp : Bool}
    (h : readExponent sign body rest = .ok (exp, raw, after)) : after <:+ rest := by
  cases rest with
  | nil => cases h; exact suffix_refl _
  | cons c cs =>
    dsimp only [readExponent] at h
    split at h
    · split at h
      · cases h
      · split at h
        · cases h
        · split at h
          · cases h
            exact (dropWhile_suffix _).trans ((exponentSign_suffix cs).trans (suffix_cons _ _))
          · cases h
    · cases h; exact suffix_refl _

theorem readDecimal_suffix {sign rest : List Char} (h : readDecimal sign rest = .ok (k, after)) :
    after <:+ rest.dropWhile isBodyChar := by
  obtain ⟨f, hf, h⟩ := ok_of_bind h
  obtain ⟨e, he, h⟩ := ok_of_bind h
  obtain ⟨digits, -, h⟩ := ok_of_bind h
  have hafter : e.2.2 = after := by
    split at h <;> split at h <;> cases h <;> rfl
  subst hafter
  exact (readExponent_suffix he).trans (readFraction_suffix hf)

omit [Host F] in
theorem readPrefixed_suffix {sign raw rest : List Char} {radix : Radix}
    (h : readPrefixed sign radix raw rest = .ok (k, after)) : after <:+ rest := by
  have finish : ∀ raw' body cs, readPrefixed.finish sign radix raw' body cs = .ok (k, after) →
      after = cs := by
    intro raw' body cs h
    obtain ⟨digits, -, h⟩ := ok_of_bind h
    split at h <;> cases h
    rfl
  unfold readPrefixed at h
  simp only at h
  split at h
  · cases h
  · split at h
    · split at h
      · cases h
      · rw [finish _ _ _ h]; exact dropWhile_suffix _
    · rw [finish _ _ _ h]; exact dropWhile_suffix _

theorem readNumber_length (hd : (exponentSign input).2.head?.any Char.isDigit)
    (h : readNumber input = .ok (k, after)) : after.length < input.length := by
  have hs := (exponentSign_suffix input).length_le
  have decimal : ∀ sign, readDecimal sign (exponentSign input).2 = .ok (k, after) →
      after.length < input.length := by
    intro sign h
    have hle := (readDecimal_suffix h).length_le
    cases hr : (exponentSign input).2 with
    | nil => rw [hr] at hd; cases hd
    | cons c cs =>
      rw [hr] at hd hle hs
      rw [dropWhile_cons_of_pos (by simp_all [isBodyChar])] at hle
      have := (dropWhile_suffix (l := cs) isBodyChar).length_le
      rw [length_cons] at hs
      omega
  unfold readNumber at h
  simp only at h
  split at h
  · rename_i c rest heq
    split at h
    · have hle := (readPrefixed_suffix h).length_le
      rw [heq] at hs
      simp only [length_cons] at hs
      omega
    · exact decimal _ h
  · exact decimal _ h

theorem readAt_length (rest : List Char) : (readAt (F := F) rest).2.length ≤ rest.length := by
  cases rest with
  | nil => exact Nat.le_refl _
  | cons c cs =>
    dsimp only [readAt]
    split
    · exact Nat.le_succ _
    · split
      · exact Nat.le_trans (by simp) (Nat.le_succ _)
      · split
        · exact readSymbol_length_le _
        · exact Nat.le_refl _

theorem readKeyword_length {rest : List Char} (h : readKeyword rest = .ok (k, after)) :
    after.length ≤ rest.length := by
  have named : ∀ mark cs, readKeyword.named mark cs = .ok (k, after) → after.length ≤ cs.length := by
    intro mark cs h
    unfold readKeyword.named at h
    split at h <;> cases h
    exact readSymbol_length_le _
  unfold readKeyword at h
  split at h
  · exact Nat.le_trans (named _ _ h) (by simp)
  · exact named _ _ h

theorem readSymbol_lt (hw : isWhitespace c = false) (hd : isDelimiter c = false) (cs : List Char) :
    (readSymbol F (c :: cs)).2.length < (c :: cs).length := by
  rw [readSymbol_cons hw hd]
  exact Nat.lt_succ_of_le (readSymbol_length_le cs)

theorem readAtom_length {rest : List Char} (hw : isWhitespace c = false) (hd : isDelimiter c = false)
    (h : readAtom c rest = .ok (k, after)) : after.length < (c :: rest).length := by
  unfold readAtom at h
  split at h
  · rename_i hn
    split at h
    · cases h
      exact readSymbol_lt hw hd _
    · rename_i hs
      refine readNumber_length ?_ h
      by_cases hsign : c = '+' ∨ c = '-'
      · simp only [exponentSign, if_pos hsign]
        simpa using fun hr => hs ⟨hsign.symm, hr⟩
      · simp only [exponentSign, if_neg hsign, head?_cons, Option.any_some]
        exact hn.resolve_right fun h => hsign h.symm
  · split at h <;> cases h
    · exact Nat.lt_succ_of_le (by simp)
    · exact readSymbol_lt hw hd _

omit [Host F] in
theorem isDelimiter_cases (h : isDelimiter c) :
    (∃ k, (punctuation (F := F)).find? (·.1 == c) = some k) ∨ c = ',' ∨ c = ';' ∨ c = '@' ∨ c = ':' := by
  simp only [isDelimiter, mem_cons, not_mem_nil, or_false, decide_eq_true_eq] at h
  rcases h with rfl | rfl | rfl | rfl | rfl | rfl | rfl | rfl | rfl | rfl | rfl | rfl | rfl
  all_goals first
    | exact .inl ⟨_, rfl⟩
    | simp

theorem readToken_length {rest : List Char} (hw : isWhitespace c = false)
    (h : readToken lexicon c rest = .ok (k, after)) : after.length < (c :: rest).length := by
  unfold readToken at h
  split at h
  · cases h; exact Nat.lt_succ_self _
  rename_i hp
  split at h
  · split at h <;> cases h
    · exact Nat.lt_succ_of_le (by simp)
    · exact Nat.lt_succ_self _
  split at h
  · split at h <;> cases h
    exact Nat.lt_succ_self _
  split at h
  · have hk := Except.ok.inj h
    have := readAt_length (F := F) rest
    rw [hk] at this
    exact Nat.lt_succ_of_le this
  split at h
  · exact Nat.lt_succ_of_le (readKeyword_length h)
  split at h
  · obtain ⟨p, hp, hk⟩ := ok_of_map h
    cases hk
    exact Nat.lt_succ_of_lt (readString_length hp)
  refine readAtom_length hw (Bool.eq_false_iff.mpr fun hd => ?_) h
  rcases isDelimiter_cases (F := F) hd with ⟨k, hk⟩ | hd | hd | hd | hd
  · rw [hp] at hk; cases hk
  all_goals contradiction

theorem nextToken_length (h : nextToken lexicon input = .ok (some (k, after))) :
    after.length < input.length := by
  have hle := (dropWhile_suffix (l := input) isWhitespace).length_le
  unfold nextToken at h
  split at h
  · cases h
  · rename_i c rest heq
    rw [heq] at hle
    refine Nat.lt_of_lt_of_le ?_ hle
    have hw : isWhitespace c = false := by
      simpa [heq] using head?_dropWhile_not isWhitespace input
    split at h
    · cases h
      have ha := congrArg List.length (readComment_append (c :: rest))
      rw [length_append] at ha
      have : (readComment (c :: rest)).1 ≠ [] := by unfold readComment; split <;> simp
      have := List.length_pos_iff.mpr this
      omega
    · obtain ⟨p, hp, hk⟩ := ok_of_map h
      cases hk
      exact readToken_length hw hp

def lexAll (lexicon : Lexicon) (input : List Char) : Except LexError (List (Token F)) :=
  match _h : nextToken lexicon input with
  | .error e => .error e
  | .ok none => .ok []
  | .ok (some p) => (lexAll lexicon p.2).map (p.1 :: ·)
termination_by input.length
decreasing_by exact nextToken_length _h

theorem lexAll_nil (h : nextToken (F := F) lexicon input = .ok none) :
    lexAll (F := F) lexicon input = .ok [] := by
  rw [lexAll]
  split <;> simp_all

theorem lexAll_cons {rest : List Char} (h : nextToken lexicon input = .ok (some (k, rest))) :
    lexAll lexicon input = (lexAll lexicon rest).map (k :: ·) := by
  rw [lexAll]
  split <;> simp_all

theorem lexAll_error {e : LexError} (h : nextToken (F := F) lexicon input = .error e) :
    lexAll (F := F) lexicon input = .error e := by
  rw [lexAll]
  split <;> simp_all

end

end Elle.Reader

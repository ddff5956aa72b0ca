import Elle.Json.Serializer

/-!
# The JSON parser

`primitives/json/parser.rs`: recursive descent over the characters of the input. What it builds is a
parameter, so that one parser gives the value the source's gives and the document as it stands in the text.

The recursion is bounded by a number of steps; `parse` gives it more than any input can use.
-/

namespace Elle.Json

structure Place where
  pos : Nat
  rest : Text

/-- What is built for each form of the text. -/
structure Builder (F V : Type) where
  null : V
  bool : Bool → V
  int : Int64 → V
  float : F → V
  string : Text → V
  array : List V → V
  object : List (Text × V) → V

def isWhitespace (c : Char) : Bool := c = ' ' || c = '\t' || c = '\n' || c = '\r'

def skipWhitespace (pos : Nat) : Text → Place
  | [] => ⟨pos, []⟩
  | c :: rest => if isWhitespace c then skipWhitespace (pos + 1) rest else ⟨pos, c :: rest⟩

def Place.skip (p : Place) : Place := skipWhitespace p.pos p.rest

def Place.drop (p : Place) (n : Nat) : Place := ⟨p.pos + n, p.rest.drop n⟩

/-! ## Literals -/

def firstDifference : Text → Text → Option Char
  | e :: expected, c :: cs => if c = e then firstDifference expected cs else some c
  | _, _ => none

def parseLiteral {V : Type} (literal : Text) (value : V) (p : Place) : Except String (V × Place) :=
  if p.rest.length < literal.length then
    .error ("Unexpected end of input while parsing '" ++ String.ofList literal ++ "'")
  else
    match firstDifference literal p.rest with
    | some c =>
      .error ("Expected '" ++ String.ofList literal ++ "' at position " ++ toString p.pos ++ ", got '" ++
        String.singleton c ++ "'")
    | none => .ok (value, p.drop literal.length)

/-! ## Strings -/

def hexValue (c : Char) : Option Nat :=
  if '0' ≤ c ∧ c ≤ '9' then some (c.toNat - '0'.toNat)
  else if 'a' ≤ c ∧ c ≤ 'f' then some (c.toNat - 'a'.toNat + 10)
  else if 'A' ≤ c ∧ c ≤ 'F' then some (c.toNat - 'A'.toNat + 10)
  else none

def hexDigits (acc : Nat) : Text → Option Nat
  | [] => some acc
  | c :: cs => (hexValue c).bind fun d => hexDigits (acc * 16 + d) cs

/-- `u32::from_str_radix` of at most four characters in base 16, which takes a plus sign too. -/
def fromStrRadix16 (s : Text) : Option Nat :=
  match s with
  | [] => none
  | '+' :: digits => if digits = [] then none else hexDigits 0 digits
  | digits => hexDigits 0 digits

def upperHex (n : Nat) : String := String.ofList (hex4 n |>.map Char.toUpper)

/-- The character of an escape `\u`, and the number of characters of it from the first digit on. -/
def parseUnicode (p : Place) : Except String (Char × Nat) :=
  if p.rest.length ≤ 3 then
    .error ("Unexpected end of input in unicode escape at position " ++ toString p.pos)
  else
    let hexStr := p.rest.take 4
    match fromStrRadix16 hexStr with
    | none => .error ("Invalid unicode escape sequence: \\u" ++ String.ofList hexStr)
    | some codePoint =>
      if 0xD800 ≤ codePoint ∧ codePoint ≤ 0xDBFF then
        let after := p.rest.drop 4
        if 5 < after.length ∧ after.take 2 = ['\\', 'u'] then
          let lowHexStr := (after.drop 2).take 4
          match fromStrRadix16 lowHexStr with
          | none => .error ("Invalid unicode escape sequence: \\u" ++ String.ofList lowHexStr)
          | some low =>
            if 0xDC00 ≤ low ∧ low ≤ 0xDFFF then
              let combined := 0x10000 + (codePoint - 0xD800) * 0x400 + (low - 0xDC00)
              if combined.isValidChar then .ok (Char.ofNat combined, 10)
              else
                .error ("Invalid surrogate pair code point: U+" ++ upperHex codePoint ++ "U+" ++
                  upperHex low)
            else
              .error ("High surrogate not followed by low surrogate at position " ++ toString (p.pos + 4))
        else .error ("Lone high surrogate without low surrogate at position " ++ toString p.pos)
      else if 0xDC00 ≤ codePoint ∧ codePoint ≤ 0xDFFF then
        .error ("Unexpected low surrogate at position " ++ toString p.pos)
      else if codePoint.isValidChar then .ok (Char.ofNat codePoint, 4)
      else .error ("Invalid unicode code point: U+" ++ upperHex codePoint)

def shortEscape (c : Char) : Option Char :=
  if c = '"' then some '"'
  else if c = '\\' then some '\\'
  else if c = '/' then some '/'
  else if c = 'b' then some '\x08'
  else if c = 'f' then some '\x0c'
  else if c = 'n' then some '\n'
  else if c = 'r' then some '\r'
  else if c = 't' then some '\t'
  else none

/-- The character of an escape, and the number of characters of it after the backslash. -/
def parseEscape (p : Place) : Except String (Char × Nat) :=
  match p.rest with
  | [] => .error ("Unexpected end of input in string escape at position " ++ toString p.pos)
  | c :: rest =>
    match shortEscape c with
    | some e => .ok (e, 1)
    | none =>
      if c = 'u' then (parseUnicode ⟨p.pos + 1, rest⟩).map fun r => (r.1, r.2 + 1)
      else
        .error ("Invalid escape sequence '\\" ++ String.singleton c ++ "' at position " ++ toString p.pos)

/-- The loop of `parse_string`, after the opening quote. -/
def parseChars (pos : Nat) (rest : Text) (result : Text) : Except String (Text × Place) :=
  match rest with
  | [] => .error ("Unterminated string at position " ++ toString pos)
  | c :: rest =>
    if c = '"' then .ok (result, ⟨pos + 1, rest⟩)
    else if c = '\\' then
      match parseEscape ⟨pos + 1, rest⟩ with
      | .error e => .error e
      | .ok (e, n) => parseChars (pos + 1 + n) (rest.drop n) (result ++ [e])
    else parseChars (pos + 1) rest (result ++ [c])
termination_by rest.length
decreasing_by
  · rw [List.length_drop, List.length_cons]
    omega
  · exact Nat.lt_succ_self _

def parseString (p : Place) : Except String (Text × Place) :=
  match p.rest with
  | '"' :: rest => parseChars (p.pos + 1) rest []
  | c :: _ =>
    .error ("Expected '\"' at position " ++ toString p.pos ++ ", got '" ++ String.singleton c ++ "'")
  | [] => .error ("Expected '\"' at position " ++ toString p.pos)

/-! ## Numbers -/

def digitsOf (s : Text) : Text := s.takeWhile Char.isDigit

/-- The sign and the integer part of a number. -/
def parseWhole (p : Place) : Except String (Text × Text) :=
  let sign : Text := if p.rest.head? = some '-' then ['-'] else []
  match p.rest.drop sign.length with
  | [] => .error "Unexpected end of input in number"
  | c :: rest =>
    if c = '0' then .ok (sign, ['0'])
    else if c.isDigit then .ok (sign, digitsOf (c :: rest))
    else
      .error ("Invalid number at position " ++ toString (p.pos + sign.length) ++ ": expected digit")

/-- A decimal point and digits, if there is a point. -/
def parseFraction (p : Place) : Except String Text :=
  if p.rest.head? = some '.' then
    match digitsOf (p.rest.drop 1) with
    | [] => .error ("Expected digit after decimal point at position " ++ toString (p.pos + 1))
    | digits => .ok ('.' :: digits)
  else .ok []

def parseExponent (p : Place) : Except String Text :=
  match p.rest with
  | c :: rest =>
    if c = 'e' ∨ c = 'E' then
      let sign : Text :=
        match rest with
        | s :: _ => if s = '+' ∨ s = '-' then [s] else []
        | [] => []
      match digitsOf (rest.drop sign.length) with
      | [] => .error ("Expected digit in exponent at position " ++
          toString (p.pos + 1 + sign.length))
      | digits => .ok (c :: (sign ++ digits))
    else .ok []
  | [] => .ok []

def parseInt64 (sign digits : Text) : Option Int64 :=
  let n : Int := Nat.ofDigitChars 10 digits 0
  let n := if sign = [] then n else -n
  if -2 ^ 63 ≤ n ∧ n < 2 ^ 63 then some (Int64.ofInt n) else none

section

variable {F V : Type} [JsonFloat F] (build : Builder F V)

def parseNumber (p : Place) : Except String (V × Place) := do
  let (sign, whole) ← parseWhole p
  let p₁ := p.drop (sign.length + whole.length)
  let hasDecimal := p₁.rest.head? = some '.'
  let hasExponent := p₁.rest.head? = some 'e' ∨ p₁.rest.head? = some 'E'
  let fraction ← parseFraction p₁
  let p₂ := p₁.drop fraction.length
  let exponent ← parseExponent p₂
  let numStr := sign ++ whole ++ fraction ++ exponent
  if hasDecimal ∨ hasExponent then
    match JsonFloat.parse numStr with
    | some x => return (build.float x, p₂.drop exponent.length)
    | none => .error ("Invalid float: " ++ String.ofList numStr)
  else
    match parseInt64 sign whole with
    | some n => return (build.int n, p₂.drop exponent.length)
    | none => .error ("Invalid integer: " ++ String.ofList numStr)

/-! ## Values -/

/-- The bound on the recursion ran out. -/
def outOfSteps : String := "out of steps"

mutual

def parseValue : Nat → Place → Except String (V × Place)
  | 0, _ => .error outOfSteps
  | steps + 1, p =>
    let p := p.skip
    match p.rest with
    | [] => .error "Unexpected end of input while parsing value"
    | c :: _ =>
      if c = 'n' then parseLiteral ['n', 'u', 'l', 'l'] build.null p
      else if c = 't' then parseLiteral ['t', 'r', 'u', 'e'] (build.bool true) p
      else if c = 'f' then parseLiteral ['f', 'a', 'l', 's', 'e'] (build.bool false) p
      else if c = '"' then (parseString p).map fun r => (build.string r.1, r.2)
      else if c = '[' then
        let p := (p.drop 1).skip
        if p.rest.head? = some ']' then .ok (build.array [], p.drop 1)
        else parseElements steps p []
      else if c = '\x7b' then
        let p := (p.drop 1).skip
        if p.rest.head? = some '\x7d' then .ok (build.object [], p.drop 1)
        else parseMembers steps p []
      else if c = '-' ∨ c.isDigit then parseNumber build p
      else
        .error ("Unexpected character '" ++ String.singleton c ++ "' at position " ++ toString p.pos)

/-- The loop of `parse_array`. -/
def parseElements : Nat → Place → List V → Except String (V × Place)
  | 0, _, _ => .error outOfSteps
  | steps + 1, p, elements =>
    match parseValue steps p with
    | .error e => .error e
    | .ok (v, p) =>
      let p := p.skip
      match p.rest with
      | [] => .error "Unexpected end of input in array"
      | c :: _ =>
        if c = ',' then parseElements steps (p.drop 1).skip (elements ++ [v])
        else if c = ']' then .ok (build.array (elements ++ [v]), p.drop 1)
        else
          .error ("Expected ',' or ']' in array at position " ++ toString p.pos ++ ", got '" ++
            String.singleton c ++ "'")

/-- The loop of `parse_object`. -/
def parseMembers : Nat → Place → List (Text × V) → Except String (V × Place)
  | 0, _, _ => .error outOfSteps
  | steps + 1, p, members =>
    let p := p.skip
    if p.rest.head? ≠ some '"' then
      .error ("Expected string key in object at position " ++ toString p.pos)
    else
      match parseString p with
      | .error e => .error e
      | .ok (key, p) =>
        let p := p.skip
        if p.rest.head? ≠ some ':' then
          .error ("Expected ':' after object key at position " ++ toString p.pos)
        else
          match parseValue steps (p.drop 1).skip with
          | .error e => .error e
          | .ok (v, p) =>
            let p := p.skip
            match p.rest with
            | [] => .error "Unexpected end of input in object"
            | c :: _ =>
              if c = ',' then parseMembers steps (p.drop 1) (members ++ [(key, v)])
              else if c = '\x7d' then .ok (build.object (members ++ [(key, v)]), p.drop 1)
              else
                .error ("Expected ',' or '\x7d' in object at position " ++ toString p.pos ++
                  ", got '" ++ String.singleton c ++ "'")

end

/-- A whole text, with more steps than characters. -/
def parse (input : Text) : Except String V :=
  let p := skipWhitespace 0 input
  if p.rest = [] then .error "Unexpected end of input: empty JSON"
  else
    match parseValue build (2 * input.length + 2) p with
    | .error e => .error e
    | .ok (v, p) =>
      let p := p.skip
      match p.rest with
      | [] => .ok v
      | c :: _ =>
        .error ("Unexpected trailing content at position " ++ toString p.pos ++ ": '" ++
          String.singleton c ++ "'")

end

end Elle.Json

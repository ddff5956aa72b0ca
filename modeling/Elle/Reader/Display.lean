import Elle.Reader.Parser

/-!
# Printed syntax

The text `Display` writes for a syntax tree (`syntax/display.rs`, with the string literals of
`reader/escape.rs`).
-/

namespace Elle.Reader

def SeqCtor.openText : SeqCtor → List Char
  | .list => ['(']
  | .array => ['[']
  | .arrayMut => ['@', '[']
  | .struct => ['\x7b']
  | .structMut => ['@', '\x7b']
  | .set => ['|']
  | .setMut => ['@', '|']
  | .bytes => ['b', '[']
  | .bytesMut => ['@', 'b', '[']

def SeqCtor.closeText : SeqCtor → Char
  | .list => ')'
  | .struct | .structMut => '\x7d'
  | .set | .setMut => '|'
  | .array | .arrayMut | .bytes | .bytesMut => ']'

def Mark.text : Mark → List Char
  | .quote => ['\x27']
  | .quasiquote => ['\x60']
  | .unquote => [',']
  | .unquoteSplicing => [',', ';']
  | .splice => [';']

def displayInt (n : Int) : List Char :=
  if n < 0 then '-' :: Nat.toDigits 10 n.natAbs else Nat.toDigits 10 n.natAbs

/-- A character inside a string literal: its shared escape when it has one. -/
def writeChar (c : Char) : List Char :=
  match sharedEscapes.find? (·.2 == c) with
  | some (escape, _) => ['\\', escape]
  | none => [c]

def stringLiteral (s : List Char) : List Char := '"' :: (s.flatMap writeChar ++ ['"'])

section

variable {F : Type} [Host F]

mutual

def display : Syntax F → List Char
  | .nil => ['n', 'i', 'l']
  | .bool b => if b then ['t', 'r', 'u', 'e'] else ['f', 'a', 'l', 's', 'e']
  | .int n => displayInt n
  | .float x => Host.debugFloat x
  | .symbol s => s
  | .keyword s => ':' :: s
  | .string s => stringLiteral s
  | .stringMut s => '@' :: stringLiteral s
  | .seq ctor items => ctor.openText ++ (displayItems true items ++ [ctor.closeText])
  | .marked mark inner => mark.text ++ display inner

/-- The elements, with a space before each but the first. -/
def displayItems : Bool → List (Syntax F) → List Char
  | _, [] => []
  | first, t :: ts => (if first then [] else [' ']) ++ (display t ++ displayItems false ts)

end

end

end Elle.Reader

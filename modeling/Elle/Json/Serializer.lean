import Mathlib

/-!
# The JSON writer

`primitives/json/serializer.rs`: a value as compact or pretty JSON text. The two writers of the source
differ in the layout of sequences and objects only, which is a parameter here.

A float is of the host's type, with the texts of `to_string` and `parse`; a keyword is the hash of its name,
and the spelling of a hash comes from the instance's memo.
-/

namespace Elle.Json

abbrev Text := List Char

/-- A number text as `to_string` writes a finite float: a sign, digits without a leading zero unless it is
the only one, and perhaps a fraction. -/
structure DecimalText (s : Text) (sign whole fraction : Text) : Prop where
  sign_eq : sign = [] ∨ sign = ['-']
  whole_digits : ∀ c ∈ whole, c.isDigit
  whole_form : whole = ['0'] ∨ ∃ c cs, whole = c :: cs ∧ c ≠ '0'
  fraction_form : fraction = [] ∨ ∃ digits, fraction = '.' :: digits ∧ digits ≠ [] ∧ ∀ c ∈ digits, c.isDigit
  text_eq : s = sign ++ whole ++ fraction

/-- The floats of the host. -/
class JsonFloat (F : Type) where
  isFinite : F → Bool
  toText : F → Text
  parse : Text → Option F
  decimal : ∀ x, isFinite x → ∃ sign whole fraction, DecimalText (toText x) sign whole fraction
  parse_toText : ∀ x, isFinite x → parse (toText x) = some x
  parse_pointZero : ∀ x, isFinite x → '.' ∉ toText x → parse (toText x ++ ['.', '0']) = some x

/-- The names of keywords: the hash of a name, and the name an instance has learned for a hash. -/
structure Keywords where
  hash : Text → Nat
  spelling : Nat → Option Text
  hash_spelling : ∀ h name, spelling h = some name → hash name = h

/-! ## Values -/

/-- A struct key. Keys of the other kinds are not told apart. -/
inductive Key where
  | string (s : Text)
  | keyword (hash : Nat)
  | other (n : Nat)
deriving DecidableEq

/-- The kinds of value JSON does not spell. -/
inductive Kind where
  | closure
  | symbol
  | captureCell
  | libHandle
  | threadHandle
  | fiber
  | syntaxObject
  | ffiSignature
  | ffiType
  | managedPointer
  | stringMut
  | bytes
  | bytesMut
  | external
  | parameter
  | closureTemplate
deriving DecidableEq, Repr

def Kind.message : Kind → String
  | .closure => "Cannot serialize closures to JSON"
  | .symbol => "Cannot serialize symbols to JSON"
  | .captureCell => "Cannot serialize capture cell to JSON"
  | .libHandle => "Cannot serialize library handles to JSON"
  | .threadHandle => "Cannot serialize thread handles to JSON"
  | .fiber => "Cannot serialize fibers to JSON"
  | .syntaxObject => "Cannot serialize syntax objects to JSON"
  | .ffiSignature => "Cannot serialize FFI signatures to JSON"
  | .ffiType => "Cannot serialize FFI type descriptors to JSON"
  | .managedPointer => "Cannot serialize pointers to JSON"
  | .stringMut => "Cannot serialize buffers to JSON"
  | .bytes => "Cannot serialize bytes to JSON"
  | .bytesMut => "Cannot serialize blobs to JSON"
  | .external => "Cannot serialize external objects to JSON"
  | .parameter => "Cannot serialize parameters to JSON"
  | .closureTemplate => "Cannot serialize closure templates to JSON"

/-- A value as the writer sees it. A struct is its entries in the order of the keys. -/
inductive Value (F : Type) where
  | nil
  | bool (b : Bool)
  | int (n : Int64)
  | float (x : F)
  | string (s : Text)
  | emptyList
  | pair (items : List (Value F))
  | improperList
  | arrayMut (items : List (Value F))
  | structMut (entries : List (Key × Value F))
  | struct (entries : List (Key × Value F))
  | keyword (hash : Nat)
  | box (inner : Value F)
  | array (items : List (Value F))
  | set (items : List (Value F))
  | setMut (items : List (Value F))
  | unwritable (kind : Kind)

/-! ## Texts of leaves -/

def isControl (c : Char) : Bool := c.toNat < 0x20 || (0x7f ≤ c.toNat && c.toNat < 0xa0)

def hex4 (n : Nat) : Text :=
  [Nat.digitChar (n / 4096 % 16), Nat.digitChar (n / 256 % 16), Nat.digitChar (n / 16 % 16),
    Nat.digitChar (n % 16)]

def escapeChar (c : Char) : Text :=
  if c = '"' then ['\\', '"']
  else if c = '\\' then ['\\', '\\']
  else if c = '\x08' then ['\\', 'b']
  else if c = '\x0c' then ['\\', 'f']
  else if c = '\n' then ['\\', 'n']
  else if c = '\r' then ['\\', 'r']
  else if c = '\t' then ['\\', 't']
  else if isControl c then ['\\', 'u'] ++ hex4 c.toNat
  else [c]

def escapeJsonString (s : Text) : Text := '"' :: (s.flatMap escapeChar ++ ['"'])

/-- `to_string` of an integer. -/
def intText (n : Int64) : Text :=
  if n.toInt < 0 then '-' :: Nat.toDigits 10 n.toInt.natAbs else Nat.toDigits 10 n.toInt.natAbs

section

variable {F : Type} [JsonFloat F]

/-- A finite float, always with a decimal point. -/
def floatText (x : F) : Except String Text :=
  if JsonFloat.isFinite x then
    let s := JsonFloat.toText x
    if '.' ∈ s ∨ 'e' ∈ s ∨ 'E' ∈ s then .ok s else .ok (s ++ ['.', '0'])
  else .error "Cannot serialize non-finite float value to JSON"

end

def unspellable (what : String) (hash : Nat) : String :=
  what ++ " has no learned spelling: #<keyword:0x" ++ String.ofList (Nat.toDigits 16 hash) ++ ">"

section

variable (keywords : Keywords)

def jsonObjectKey (container : String) : Key → Except String Text
  | .string s => .ok (escapeJsonString s)
  | .keyword hash =>
    match keywords.spelling hash with
    | some name => .ok (escapeJsonString name)
    | none => .error (unspellable "keyword struct key" hash)
  | .other _ => .error (container ++ " keys must be strings or keywords for JSON serialization")

def jsonKeyword (hash : Nat) : Except String Text :=
  match keywords.spelling hash with
  | some name => .ok (escapeJsonString name)
  | none => .error (unspellable "keyword" hash)

end

/-! ## Layouts -/

/-- How the texts of items and of pairs are put together at an indent level. A sequence of a kind that is
tested for being empty is written on one line when it is. -/
structure Layout where
  sequence : (tested : Bool) → Nat → List Text → Text
  object : Nat → List Text → Text
  colon : Text

def compact : Layout where
  sequence _ _ items := '[' :: (List.intercalate [','] items ++ [']'])
  object _ pairs := '\x7b' :: (List.intercalate [','] pairs ++ ['\x7d'])
  colon := [':']

/-- Two blanks a level. -/
def indent (level : Nat) : Text := List.replicate (2 * level) ' '

def spread (opening closing : Char) (level : Nat) (items : List Text) : Text :=
  opening :: '\n' :: (indent (level + 1) ++
    List.intercalate (',' :: '\n' :: indent (level + 1)) items ++ '\n' :: indent level ++ [closing])

def pretty : Layout where
  sequence tested level items :=
    if tested ∧ items = [] then ['[', ']'] else spread '[' ']' level items
  object level pairs := if pairs = [] then ['\x7b', '\x7d'] else spread '\x7b' '\x7d' level pairs
  colon := [':', ' ']

/-! ## The writers -/

section

variable {F : Type} [JsonFloat F] (keywords : Keywords) (layout : Layout)

mutual

def write (level : Nat) : Value F → Except String Text
  | .nil => .ok ['n', 'u', 'l', 'l']
  | .bool b => .ok (if b then ['t', 'r', 'u', 'e'] else ['f', 'a', 'l', 's', 'e'])
  | .int n => .ok (intText n)
  | .float x => floatText x
  | .string s => .ok (escapeJsonString s)
  | .emptyList => .ok ['[', ']']
  | .pair items => (writeItems (level + 1) items).map (layout.sequence true level)
  | .improperList => .error "Not a proper list"
  | .arrayMut items => (writeItems (level + 1) items).map (layout.sequence true level)
  | .structMut entries => (writePairs "@struct" (level + 1) entries).map (layout.object level)
  | .struct entries => (writePairs "Struct" (level + 1) entries).map (layout.object level)
  | .keyword hash => jsonKeyword keywords hash
  | .box inner => write level inner
  | .array items => (writeItems (level + 1) items).map (layout.sequence false level)
  | .set items => (writeItems (level + 1) items).map (layout.sequence false level)
  | .setMut items => (writeItems (level + 1) items).map (layout.sequence false level)
  | .unwritable kind => .error kind.message

def writeItems (level : Nat) : List (Value F) → Except String (List Text)
  | [] => .ok []
  | v :: items => do
    let text ← write level v
    let texts ← writeItems level items
    return text :: texts

def writePairs (container : String) (level : Nat) : List (Key × Value F) → Except String (List Text)
  | [] => .ok []
  | (key, v) :: entries => do
    let keyText ← jsonObjectKey keywords container key
    let text ← write level v
    let texts ← writePairs container level entries
    return (keyText ++ layout.colon ++ text) :: texts

end

def serializeValue (v : Value F) : Except String Text := write keywords compact 0 v

def serializeValuePretty (indentLevel : Nat) (v : Value F) : Except String Text :=
  write keywords pretty indentLevel v

end

end Elle.Json

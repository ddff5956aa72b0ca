import Elle.Lib.Wire
import Elle.Syntax.Span

/-!
# Constant templates

The structure of a quoted literal and its byte form in the instruction stream (`value/template.rs`).
The encoder writes a node's tag and then its payload; `decode` reads it back at the instruction
pointer. A span names its file by id in the process and by name in the bytes, so the decoder also
interns names.
-/

namespace Elle

open Wire List

/-- A float is its bit pattern. -/
inductive ConstTemplate where
  | nil
  | emptyList
  | bool (b : Bool)
  | int (n : Int64)
  | float (bits : UInt64)
  | symbol (name : String)
  | keyword (name : String)
  | string (s : String)
  | stringMut (s : String)
  | pair (car cdr : ConstTemplate)
  | array (elems : List ConstTemplate)
  | arrayMut (elems : List ConstTemplate)
  | syntaxSymbol (name : String) (scopes : List UInt32) (span : Span) (scopeExempt : Bool)
  deriving Repr

namespace ConstTemplate

abbrev tagNil : UInt8 := 0
abbrev tagEmptyList : UInt8 := 1
abbrev tagBool : UInt8 := 2
abbrev tagInt : UInt8 := 3
abbrev tagFloat : UInt8 := 4
abbrev tagSymbol : UInt8 := 5
abbrev tagKeyword : UInt8 := 6
abbrev tagString : UInt8 := 7
abbrev tagStringMut : UInt8 := 8
abbrev tagPair : UInt8 := 9
abbrev tagArray : UInt8 := 10
abbrev tagArrayMut : UInt8 := 11
abbrev tagSyntaxSymbol : UInt8 := 12

/-! ### Writing -/

def stringBytes (s : String) : List UInt8 := s.toUTF8.data.toList

/-- A length field holds the last 32 bits of the length. -/
def putStr (s : String) : List UInt8 :=
  toBeBytes (stringBytes s).length 4 ++ stringBytes s

def putBool (b : Bool) : List UInt8 := [if b then 1 else 0]

def putFile : Option String → List UInt8
  | some name => 1 :: putStr name
  | none => [0]

mutual

/-- The bytes of a template, with the file names in the table. -/
def encode (files : Files) : ConstTemplate → List UInt8
  | nil => [tagNil]
  | emptyList => [tagEmptyList]
  | bool b => tagBool :: putBool b
  | int n => tagInt :: toBeBytes n.toUInt64.toNat 8
  | float bits => tagFloat :: toBeBytes bits.toNat 8
  | symbol name => tagSymbol :: putStr name
  | keyword name => tagKeyword :: putStr name
  | string s => tagString :: putStr s
  | stringMut s => tagStringMut :: putStr s
  | pair car cdr => tagPair :: (encode files car ++ encode files cdr)
  | array elems => tagArray :: (toBeBytes elems.length 4 ++ encodeAll files elems)
  | arrayMut elems => tagArrayMut :: (toBeBytes elems.length 4 ++ encodeAll files elems)
  | syntaxSymbol name scopes span scopeExempt =>
    tagSyntaxSymbol :: (putStr name ++ (toBeBytes scopes.length 4 ++
      ((scopes.map fun s => toBeBytes s.toNat 4).flatten ++ (toBeBytes span.start.toNat 8 ++
      (toBeBytes span.stop.toNat 8 ++ (toBeBytes span.line.toNat 4 ++
      (toBeBytes span.col.toNat 4 ++ (putFile (files.name span.file) ++ putBool scopeExempt))))))))

def encodeAll (files : Files) : List ConstTemplate → List UInt8
  | [] => []
  | t :: ts => encode files t ++ encodeAll files ts

end

/-! ### Reading -/

def getStr : Decoder Files String := do
  let len ← takeWord 4
  let bs ← takeBytes len
  ofOption (String.fromUTF8? ⟨bs.toArray⟩)

def getBool : Decoder Files Bool := do
  let b ← takeByte
  return b != 0

def getFile : Decoder Files (Option String) := do
  let b ← takeByte
  if b != 0 then
    let name ← getStr
    return some name
  else return none

/-- The span with the file of that name, interned if there is one. -/
def locate (span : Span) : Option String → Decoder Files Span
  | some name => onState (span.withFile name)
  | none => return span

/-- The payload of a node, given the decoder of its children. An unknown tag is a failure. -/
def decodeNode (decode : Decoder Files ConstTemplate) (tag : UInt8) : Decoder Files ConstTemplate :=
  match tag with
  | 0 => return nil
  | 1 => return emptyList
  | 2 => do
    let b ← getBool
    return bool b
  | 3 => do
    let n ← takeWord 8
    return int (UInt64.ofNat n).toInt64
  | 4 => do
    let n ← takeWord 8
    return float (UInt64.ofNat n)
  | 5 => do
    let name ← getStr
    return symbol name
  | 6 => do
    let name ← getStr
    return keyword name
  | 7 => do
    let s ← getStr
    return string s
  | 8 => do
    let s ← getStr
    return stringMut s
  | 9 => do
    let car ← decode
    let cdr ← decode
    return pair car cdr
  | 10 => do
    let count ← takeWord 4
    let elems ← times decode count
    return array elems
  | 11 => do
    let count ← takeWord 4
    let elems ← times decode count
    return arrayMut elems
  | 12 => do
    let name ← getStr
    let n ← takeWord 4
    let scopes ← times (takeWord 4) n
    let start ← takeWord 8
    let stop ← takeWord 8
    let line ← takeWord 4
    let col ← takeWord 4
    let file ← getFile
    let scopeExempt ← getBool
    let span ← locate (Span.new start stop (UInt32.ofNat line) (UInt32.ofNat col)) file
    return syntaxSymbol name (scopes.map UInt32.ofNat) span scopeExempt
  | _ => ofOption none

/-- Every nested node reads at least its tag, so the length of the stream bounds the depth. -/
def decodeWithin : Nat → Decoder Files ConstTemplate
  | 0 => ofOption none
  | depth + 1 => do
    let tag ← takeByte
    decodeNode (decodeWithin depth) tag

def decode : Decoder Files ConstTemplate := fun bytes cursor =>
  decodeWithin (bytes.length + 1) bytes cursor

/-! ### The round trip -/

def FitsStr (s : String) : Prop := (stringBytes s).length < 2 ^ 32

mutual

/-- All lengths fit their fields, and the files of spans are in the table. -/
def Fits (files : Files) : ConstTemplate → Prop
  | nil | emptyList | bool _ | int _ | float _ => True
  | symbol s | keyword s | string s | stringMut s => FitsStr s
  | pair car cdr => Fits files car ∧ Fits files cdr
  | array elems | arrayMut elems => elems.length < 2 ^ 32 ∧ FitsAll files elems
  | syntaxSymbol name scopes span _ =>
    FitsStr name ∧ scopes.length < 2 ^ 32 ∧ span.file.toNat < files.names.length ∧
      ∀ file, files.name span.file = some file → FitsStr file

def FitsAll (files : Files) : List ConstTemplate → Prop
  | [] => True
  | t :: ts => Fits files t ∧ FitsAll files ts

end

variable {files later : Files}

theorem reads_getStr {s : String} (h : FitsStr s) : Reads later getStr (putStr s) s := by
  refine (reads_takeWord later (w := 4) h).bind ?_
  have hread := (reads_takeBytes later (stringBytes s)).bind
    (f := fun bs => ofOption (String.fromUTF8? ⟨bs.toArray⟩)) (b := s) (Reads.ofOption later ?_)
  · rwa [append_nil] at hread
  · show (if h : s.toByteArray.IsValidUTF8 then some (String.fromUTF8 s.toByteArray h) else none) = _
    rw [dif_pos s.isValidUTF8]
    rfl

theorem reads_getBool (b : Bool) : Reads later getBool (putBool b) b := by
  cases b <;> exact Reads.cons (Reads.pure later _)

theorem reads_getFile {file : Option String} (h : ∀ name, file = some name → FitsStr name) :
    Reads later getFile (putFile file) file := by
  cases file with
  | none => exact Reads.cons (Reads.pure later none)
  | some name => exact Reads.cons ((reads_getStr (h name rfl)).map rfl)

theorem reads_locate {span : Span} (hlater : files.names <+: later.names)
    (hfile : span.file.toNat < files.names.length) :
    Reads later (locate { span with file := 0 } (files.name span.file)) [] span := by
  cases hname : files.name span.file with
  | none =>
    -- an id of the table without a name is the absent one
    have hzero : span.file = 0 := by
      by_contra hne
      rw [Files.name, if_neg hne, List.getElem?_eq_none_iff] at hname
      omega
    have hspan : { span with file := 0 } = span := by rw [← hzero]
    rw [locate, hspan]
    exact Reads.pure later span
  | some name =>
    refine Reads.onState ?_
    rw [Span.withFile, Files.intern_name hlater hname]

theorem reads_scopes (scopes : List UInt32) :
    Reads later (times (takeWord 4) scopes.length) (scopes.map fun s => toBeBytes s.toNat 4).flatten
      (scopes.map UInt32.toNat) := by
  have hall : List.Forall₂ (fun n bs => Reads later (takeWord 4) bs n) (scopes.map UInt32.toNat)
      (scopes.map fun s => toBeBytes s.toNat 4) := by
    rw [forall₂_map_left_iff, forall₂_map_right_iff, forall₂_same]
    exact fun s _ => reads_takeWord later s.toNat_lt
  have h := Reads.times hall
  rwa [length_map] at h

theorem reads_string {depth : Nat} {tag : UInt8} {s : String} {make : String → ConstTemplate}
    (hs : FitsStr s)
    (hnode : decodeNode (decodeWithin depth) tag = do let s ← getStr; return make s) :
    Reads later (decodeWithin (depth + 1)) (tag :: putStr s) (make s) :=
  Reads.cons (hnode ▸ (reads_getStr hs).map rfl)

theorem reads_syntaxSymbol {depth : Nat} {name : String} {scopes : List UInt32} {span : Span}
    {scopeExempt : Bool} (hlater : files.names <+: later.names)
    (hfits : Fits files (syntaxSymbol name scopes span scopeExempt)) :
    Reads later (decodeWithin (depth + 1)) (encode files (syntaxSymbol name scopes span scopeExempt))
      (syntaxSymbol name scopes span scopeExempt) := by
  obtain ⟨hname, hscopes, hfile, hfits⟩ := hfits
  have h64 : ∀ n : UInt32, n.toNat < 256 ^ 8 := fun n => Nat.lt_trans n.toNat_lt (by decide)
  refine Reads.cons ((reads_getStr hname).bind ((reads_takeWord later (w := 4) hscopes).bind
    ((reads_scopes scopes).bind ((reads_takeWord later (h64 _)).bind
    ((reads_takeWord later (h64 _)).bind ((reads_takeWord later (w := 4) span.line.toNat_lt).bind
    ((reads_takeWord later (w := 4) span.col.toNat_lt).bind ((reads_getFile hfits).bind ?_))))))))
  have hmap : (scopes.map UInt32.toNat).map UInt32.ofNat = scopes := by
    rw [List.map_map]
    exact map_id'' (fun s => UInt32.ofNat_toNat) scopes
  let rest : Bool → Decoder Files ConstTemplate := fun exempt => do
    let span ← locate (Span.new span.start.toNat span.stop.toNat (UInt32.ofNat span.line.toNat)
      (UInt32.ofNat span.col.toNat)) (files.name span.file)
    return syntaxSymbol name ((scopes.map UInt32.toNat).map UInt32.ofNat) span exempt
  have hrest : Reads later (rest scopeExempt) [] (syntaxSymbol name scopes span scopeExempt) := by
    show Reads later (do
      let span ← locate _ _
      return syntaxSymbol name ((scopes.map UInt32.toNat).map UInt32.ofNat) span scopeExempt) [] _
    rw [hmap]
    simp only [Span.new, UInt32.ofNat_toNat]
    exact (reads_locate hlater hfile).map rfl
  have hread := (reads_getBool scopeExempt).bind (f := rest) hrest
  rwa [append_nil] at hread

mutual

theorem reads_decodeWithin (hlater : files.names <+: later.names) :
    ∀ (t : ConstTemplate) {depth : Nat}, Fits files t → (encode files t).length ≤ depth →
      Reads later (decodeWithin depth) (encode files t) t
  | t, 0, _, h => by cases t <;> simp [encode] at h
  | nil, _ + 1, _, _ => Reads.cons (Reads.pure later nil)
  | emptyList, _ + 1, _, _ => Reads.cons (Reads.pure later emptyList)
  | bool b, _ + 1, _, _ => Reads.cons ((reads_getBool b).map rfl)
  | int n, _ + 1, _, _ => Reads.cons ((reads_takeWord later n.toUInt64.toNat_lt).map (by simp))
  | float bits, _ + 1, _, _ => Reads.cons ((reads_takeWord later bits.toNat_lt).map (by simp))
  | symbol _, _ + 1, h, _ | keyword _, _ + 1, h, _ | string _, _ + 1, h, _
  | stringMut _, _ + 1, h, _ => reads_string h rfl
  | pair car cdr, depth + 1, h, hdepth => by
    rw [encode, length_cons, length_append] at hdepth
    refine Reads.cons ((reads_decodeWithin hlater car h.1 (by omega)).bind
      ((reads_decodeWithin hlater cdr h.2 (by omega)).map rfl))
  | array elems, depth + 1, h, hdepth | arrayMut elems, depth + 1, h, hdepth => by
    rw [encode, length_cons, length_append] at hdepth
    exact Reads.cons ((reads_takeWord later (w := 4) h.1).bind
      ((reads_times hlater elems h.2 (by omega)).map rfl))
  | syntaxSymbol _ _ _ _, _ + 1, h, _ => reads_syntaxSymbol hlater h

theorem reads_times (hlater : files.names <+: later.names) :
    ∀ (ts : List ConstTemplate) {depth : Nat}, FitsAll files ts →
      (encodeAll files ts).length ≤ depth →
      Reads later (times (decodeWithin depth) ts.length) (encodeAll files ts) ts
  | [], _, _, _ => Reads.pure later []
  | t :: ts, depth, h, hdepth => by
    rw [encodeAll, length_append] at hdepth
    exact (reads_decodeWithin hlater t h.1 (by omega)).bind ((reads_times hlater ts h.2 (by omega)).map rfl)

end

theorem reads_decode (hlater : files.names <+: later.names) {t : ConstTemplate}
    (h : Fits files t) : Reads later decode (encode files t) t := by
  intro pre post
  refine reads_decodeWithin hlater t h ?_ pre post
  simp only [length_append]
  omega

theorem encodeAll_eq_flatten (ts : List ConstTemplate) :
    encodeAll files ts = (ts.map (encode files)).flatten := by
  induction ts with
  | nil => rfl
  | cons t ts ih => rw [encodeAll, ih, map_cons, flatten_cons]

/-- The byte form of a template is self-delimiting: wherever it stands in a stream, `decode` returns
the template and stops after its last byte, so that templates written one after the other are read
back in order. The table of files may have grown in between. -/
theorem decode_encode (hlater : files.names <+: later.names) :
    (∀ t, Fits files t → ∀ pre post,
      decode (pre ++ (encode files t ++ post)) ⟨pre.length, later⟩ =
        some (t, ⟨pre.length + (encode files t).length, later⟩)) ∧
    ∀ ts, (∀ t ∈ ts, Fits files t) → ∀ pre post,
      times decode ts.length (pre ++ (encodeAll files ts ++ post)) ⟨pre.length, later⟩ =
        some (ts, ⟨pre.length + (encodeAll files ts).length, later⟩) := by
  refine ⟨fun t ht => reads_decode hlater ht, fun ts hts => ?_⟩
  rw [encodeAll_eq_flatten]
  refine Reads.times ?_
  rw [forall₂_map_right_iff, forall₂_same]
  exact fun t ht => reads_decode hlater (hts t ht)

/-- The template of `(quasiquote x)` in a file, and of an array. -/
theorem decode_encode_pair :
    let files : Files := ⟨["", "a.lisp"], rfl, by decide⟩
    let x := pair (syntaxSymbol "x" [7] ⟨1, 2, 1, 1, 1⟩ false) (array [int (-1), string "λ"])
    Fits files x ∧ decode (encode files x) ⟨0, files⟩ = some (x, ⟨(encode files x).length, files⟩) := by
  intro files x
  have hstr : FitsStr "x" ∧ FitsStr "a.lisp" ∧ FitsStr "λ" := by
    simp only [FitsStr, stringBytes]
    decide
  have hname : ∀ file, files.name 1 = some file → FitsStr file := by
    rintro file h
    obtain rfl : "a.lisp" = file := Option.some.inj h
    exact hstr.2.1
  have hfits : Fits files x :=
    ⟨⟨hstr.1, by decide, by decide, hname⟩, by decide, trivial, hstr.2.2, trivial⟩
  refine ⟨hfits, ?_⟩
  have h := (decode_encode (prefix_refl files.names)).1 x hfits [] []
  simpa only [nil_append, append_nil, length_nil, Nat.zero_add] using h

end ConstTemplate

end Elle

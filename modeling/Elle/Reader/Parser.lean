import Elle.Reader.Lexer

/-!
# The syntax reader

Tokens to syntax trees (`reader/syntax.rs`, `reader/syntax/collections.rs`) and the entry point that
reads a whole text under the current lexicon (`reader/mod.rs`), without spans. Recursion is on fuel:
twice the number of tokens left is enough, since every form takes a token.
-/

namespace Elle.Reader

open Result List

inductive SeqCtor where
  | list | array | arrayMut | struct | structMut | set | setMut | bytes | bytesMut
  deriving DecidableEq, Repr

/-- The nodes written as a mark before one form. -/
inductive Mark where
  | quote | quasiquote | unquote | unquoteSplicing | splice
  deriving DecidableEq, Repr

inductive Syntax (F : Type) where
  | nil
  | bool (b : Bool)
  | int (n : Int)
  | float (x : F)
  | symbol (name : List Char)
  | keyword (name : List Char)
  | string (s : List Char)
  | stringMut (s : List Char)
  | seq (ctor : SeqCtor) (items : List (Syntax F))
  | marked (mark : Mark) (inner : Syntax F)

inductive OpenFormKind where
  | list | array | struct | set | bytes
  deriving DecidableEq, Repr

def SeqCtor.kind : SeqCtor → OpenFormKind
  | .list => .list
  | .array | .arrayMut => .array
  | .struct | .structMut => .struct
  | .set | .setMut => .set
  | .bytes | .bytesMut => .bytes

inductive ReadError where
  | endOfInput
  /-- The collections still open, the outermost first. -/
  | unterminated (opened : List OpenFormKind)
  | unexpectedClosing (kind : OpenFormKind)
  | badSugar
  | outOfFuel

section

variable {F : Type}

def SeqCtor.close (ctor : SeqCtor) : Token F :=
  match ctor with
  | .list => .rightParen
  | .struct | .structMut => .rightBrace
  | .set | .setMut => .pipe
  | .array | .arrayMut | .bytes | .bytesMut => .rightBracket

def SeqCtor.closes (ctor : SeqCtor) : Token F → Bool
  | .rightParen => ctor.kind == .list
  | .rightBracket => ctor.kind == .array || ctor.kind == .bytes
  | .rightBrace => ctor.kind == .struct
  | .pipe => ctor.kind == .set
  | _ => false

/-- What a token is at the start of a form. -/
inductive Role (F : Type) where
  | comment
  | opens (ctor : SeqCtor)
  | listSugar
  | marks (mark : Mark)
  | leaf (t : Syntax F)
  | closing (kind : OpenFormKind)

def Token.role : Token F → Role F
  | .comment _ => .comment
  | .leftParen => .opens .list
  | .leftBracket => .opens .array
  | .leftBrace => .opens .struct
  | .listSugar => .listSugar
  | .pipe => .opens .set
  | .atPipe => .opens .setMut
  | .bytesBracket => .opens .bytes
  | .atBytesBracket => .opens .bytesMut
  | .quote => .marks .quote
  | .quasiquote => .marks .quasiquote
  | .unquote => .marks .unquote
  | .unquoteSplicing => .marks .unquoteSplicing
  | .splice => .marks .splice
  | .integer n => .leaf (.int n)
  | .float x => .leaf (.float x)
  | .string s => .leaf (.string s)
  | .bool b => .leaf (.bool b)
  | .nil => .leaf .nil
  | .symbol s => .leaf (.symbol s)
  | .keyword s => .leaf (.keyword s)
  | .rightParen => .closing .list
  | .rightBracket => .closing .array
  | .rightBrace => .closing .struct

def isComment : Token F → Bool
  | .comment _ => true
  | _ => false

/-- What follows an `@`. -/
inductive Sugar (F : Type) where
  | opens (ctor : SeqCtor) (rest : List (Token F))
  | string (s : List Char) (rest : List (Token F))
  | bad

def listSugar : List (Token F) → Sugar F
  | .leftBracket :: ks => .opens .arrayMut ks
  | .leftBrace :: ks => .opens .structMut ks
  | .string s :: ks => .string s ks
  | _ => .bad

/-- What a reading gives: a value and the tokens after it. -/
abbrev Parsed (F α : Type) := Except ReadError (α × List (Token F))

def delimited (ctor : SeqCtor) (elements : Parsed F (List (Syntax F))) : Parsed F (Syntax F) :=
  elements.map fun p => (.seq ctor p.1, p.2)

mutual

/-- The first form of the tokens, comments skipped. -/
def readForm : Nat → List OpenFormKind → List (Token F) → Parsed F (Syntax F)
  | 0, _, _ => .error .outOfFuel
  | _ + 1, _, [] => .error .endOfInput
  | n + 1, opened, k :: ks =>
    match k.role with
    | .comment => readForm n opened ks
    | .opens ctor => delimited ctor (readElements n (opened ++ [ctor.kind]) ctor ks)
    | .listSugar =>
      match listSugar ks with
      | .opens ctor rest => delimited ctor (readElements n (opened ++ [ctor.kind]) ctor rest)
      | .string s rest => .ok (.stringMut s, rest)
      | .bad => .error .badSugar
    | .marks mark => (readForm n opened ks).map fun p => (.marked mark p.1, p.2)
    | .leaf t => .ok (t, ks)
    | .closing kind => .error (.unexpectedClosing kind)

def readElements :
    Nat → List OpenFormKind → SeqCtor → List (Token F) → Parsed F (List (Syntax F))
  | 0, _, _, _ => .error .outOfFuel
  | _ + 1, opened, _, [] => .error (.unterminated opened)
  | n + 1, opened, ctor, k :: ks =>
    if ctor.closes k then .ok ([], ks)
    else if isComment k then readElements n opened ctor ks
    else (readForm n opened (k :: ks)).bind fun p =>
      (readElements n opened ctor p.2).map fun q => (p.1 :: q.1, q.2)

end

def formFuel (ks : List (Token F)) : Nat := 2 * ks.length + 2

def readAll : Nat → List (Token F) → Except ReadError (List (Syntax F))
  | 0, _ => .error .outOfFuel
  | n + 1, ks =>
    match ks.dropWhile isComment with
    | [] => .ok []
    | k :: rest => (readForm (formFuel (k :: rest)) [] (k :: rest)).bind fun p =>
      (readAll n p.2).map (p.1 :: ·)

def parseAll (ks : List (Token F)) : Except ReadError (List (Syntax F)) :=
  readAll (ks.length + 1) ks

end

/-! ### Whole texts -/

inductive Error where
  | lex (e : LexError)
  | read (e : ReadError)

/-- The text after a shebang line. -/
def stripShebang : List Char → List Char
  | '#' :: '!' :: rest => (rest.dropWhile (· ≠ '\n')).tail
  | input => input

def readSyntaxAllCurrent {F : Type} [Host F] (input : List Char) : Except Error (List (Syntax F)) :=
  ((lexAll .current (stripShebang input)).mapError Error.lex).bind fun ks =>
    (parseAll ks).mapError Error.read

/-! ### Fuel -/

section

variable {F : Type}

theorem listSugar_opens {ks rest : List (Token F)} {ctor : SeqCtor}
    (h : listSugar ks = .opens ctor rest) : rest.length < ks.length := by
  unfold listSugar at h
  split at h <;> cases h <;> exact Nat.lt_succ_self _

theorem listSugar_string {ks rest : List (Token F)} {s : List Char}
    (h : listSugar ks = .string s rest) : rest.length < ks.length := by
  unfold listSugar at h
  split at h <;> cases h
  exact Nat.lt_succ_self _

theorem readForm_readElements_length (n : Nat) :
    (∀ opened (ks : List (Token F)) p, readForm n opened ks = .ok p → p.2.length < ks.length) ∧
    (∀ opened ctor (ks : List (Token F)) p, readElements n opened ctor ks = .ok p →
      p.2.length < ks.length) := by
  induction n with
  | zero =>
    refine ⟨fun opened ks p h => ?_, fun opened ctor ks p h => ?_⟩
    · rw [readForm] at h; cases h
    · rw [readElements] at h; cases h
  | succ n ih =>
    obtain ⟨ihf, ihe⟩ := ih
    have seq : ∀ opened ctor (ks : List (Token F)) p,
        delimited ctor (readElements n opened ctor ks) = .ok p → p.2.length < ks.length := by
      intro opened ctor ks p h
      obtain ⟨q, hq, rfl⟩ := ok_of_map h
      exact ihe _ _ _ _ hq
    refine ⟨fun opened ks p h => ?_, fun opened ctor ks p h => ?_⟩
    · cases ks with
      | nil => rw [readForm] at h; cases h
      | cons k ks =>
        rw [readForm] at h
        refine Nat.lt_succ_of_le ?_
        split at h
        · exact Nat.le_of_lt (ihf _ _ _ h)
        · exact Nat.le_of_lt (seq _ _ _ _ h)
        · split at h
          · exact Nat.le_of_lt (Nat.lt_trans (seq _ _ _ _ h) (listSugar_opens ‹_›))
          · cases h; exact Nat.le_of_lt (listSugar_string ‹_›)
          · cases h
        · obtain ⟨q, hq, rfl⟩ := ok_of_map h
          exact Nat.le_of_lt (ihf _ _ q hq)
        · cases h; exact Nat.le_refl _
        · cases h
    · cases ks with
      | nil => rw [readElements] at h; cases h
      | cons k ks =>
        rw [readElements] at h
        split at h
        · cases h; exact Nat.lt_succ_self _
        split at h
        · exact Nat.lt_succ_of_lt (ihe _ _ _ _ h)
        · obtain ⟨q, hq, h⟩ := ok_of_bind h
          obtain ⟨r, hr, rfl⟩ := ok_of_map h
          exact Nat.lt_trans (ihe _ _ _ r hr) (ihf _ _ q hq)

theorem readForm_readElements_fuel (n : Nat) :
    (∀ opened (ks : List (Token F)), 2 * ks.length < n → readForm n opened ks ≠ .error .outOfFuel) ∧
    (∀ opened ctor (ks : List (Token F)), 2 * ks.length + 1 < n →
      readElements n opened ctor ks ≠ .error .outOfFuel) := by
  induction n with
  | zero => exact ⟨fun _ _ h => by omega, fun _ _ _ h => by omega⟩
  | succ n ih =>
    obtain ⟨ihf, ihe⟩ := ih
    have seq : ∀ opened ctor (ks : List (Token F)), 2 * ks.length + 1 < n →
        delimited ctor (readElements n opened ctor ks) ≠ .error .outOfFuel := by
      intro opened ctor ks hn h
      exact ihe _ _ _ hn (error_of_map h)
    refine ⟨fun opened ks hn => ?_, fun opened ctor ks hn => ?_⟩
    · cases ks with
      | nil => rw [readForm]; nofun
      | cons k ks =>
        rw [length_cons] at hn
        rw [readForm]
        split
        · exact ihf _ _ (by omega)
        · exact seq _ _ _ (by omega)
        · split
          · have := listSugar_opens ‹_›
            exact seq _ _ _ (by omega)
          · nofun
          · nofun
        · exact fun h => ihf _ _ (by omega) (error_of_map h)
        · nofun
        · nofun
    · cases ks with
      | nil => rw [readElements]; nofun
      | cons k ks =>
        rw [length_cons] at hn
        rw [readElements]
        split
        · nofun
        split
        · exact ihe _ _ _ (by omega)
        · intro h
          cases hq : readForm n opened (k :: ks) with
          | error e =>
            rw [hq] at h
            cases h
            exact ihf _ _ (by rw [length_cons]; omega) hq
          | ok q =>
            rw [hq] at h
            have := (readForm_readElements_length n).1 _ _ _ hq
            rw [length_cons] at this
            exact ihe opened ctor q.2 (by omega) (error_of_map h)

theorem readAll_fuel (n : Nat) (ks : List (Token F)) (hn : ks.length < n) :
    readAll n ks ≠ .error .outOfFuel := by
  induction n generalizing ks with
  | zero => omega
  | succ n ih =>
    have hle := (dropWhile_suffix (l := ks) isComment).length_le
    rw [readAll]
    split
    · nofun
    · rename_i k rest heq
      rw [heq] at hle
      intro h
      cases hq : readForm (formFuel (k :: rest)) [] (k :: rest) with
      | error e =>
        rw [hq] at h
        cases h
        exact (readForm_readElements_fuel _).1 _ _ (by rw [formFuel]; omega) hq
      | ok q =>
        have hlt := (readForm_readElements_length _).1 _ _ _ hq
        rw [hq] at h
        exact ih q.2 (by omega) (error_of_map h)

end

/-- Every text is read or refused: the reader never runs out of fuel. -/
theorem reader_ends {F : Type} [Host F] (input : List Char) :
    readSyntaxAllCurrent (F := F) input ≠ .error (.read .outOfFuel) := by
  intro h
  unfold readSyntaxAllCurrent at h
  cases hlex : lexAll (F := F) .current (stripShebang input) with
  | error e =>
    rw [hlex] at h
    cases h
  | ok ks =>
    rw [hlex] at h
    change (parseAll ks).mapError Error.read = _ at h
    cases hread : parseAll ks <;> rw [hread] at h <;> cases h
    exact readAll_fuel _ ks (Nat.lt_succ_self _) hread

end Elle.Reader

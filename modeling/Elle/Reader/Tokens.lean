import Elle.Reader.Leaves

/-!
# Trees and their tokens

A tree the reader gives is readable: its names, keywords and integers read as themselves and no
immutable set stands directly in a set, whose closing delimiter its opening one would be. The tokens
of a readable tree are read as the tree.
-/

namespace Elle.Reader

open Result List

section

variable {F : Type}

def SeqCtor.opening : SeqCtor → List (Token F)
  | .list => [.leftParen]
  | .array => [.leftBracket]
  | .arrayMut => [.listSugar, .leftBracket]
  | .struct => [.leftBrace]
  | .structMut => [.listSugar, .leftBrace]
  | .set => [.pipe]
  | .setMut => [.atPipe]
  | .bytes => [.bytesBracket]
  | .bytesMut => [.atBytesBracket]

def Mark.token : Mark → Token F
  | .quote => .quote
  | .quasiquote => .quasiquote
  | .unquote => .unquote
  | .unquoteSplicing => .unquoteSplicing
  | .splice => .splice

mutual

def tokens : Syntax F → List (Token F)
  | .nil => [.nil]
  | .bool b => [.bool b]
  | .int n => [.integer n]
  | .float x => [.float x]
  | .symbol s => [.symbol s]
  | .keyword s => [.keyword s]
  | .string s => [.string s]
  | .stringMut s => [.listSugar, .string s]
  | .seq ctor items => ctor.opening ++ (itemTokens items ++ [ctor.close])
  | .marked mark inner => mark.token :: tokens inner

def itemTokens : List (Syntax F) → List (Token F)
  | [] => []
  | t :: ts => tokens t ++ itemTokens ts

end

def isSet : Syntax F → Bool
  | .seq .set _ => true
  | _ => false

/-! ### What the reader gives -/

section

variable [Host F]

mutual

def Readable : Syntax F → Prop
  | .symbol s => (Token.symbol s : Token F).Rereads
  | .keyword s => (Token.keyword s : Token F).Rereads
  | .int n => (Token.integer n : Token F).Rereads
  | .seq ctor items => ReadableItems ctor items
  | .marked _ inner => Readable inner
  | _ => True

/-- Readable elements of a collection, no set directly in a set. -/
def ReadableItems (ctor : SeqCtor) : List (Syntax F) → Prop
  | [] => True
  | t :: ts => Readable t ∧ (ctor.kind = .set → isSet t = false) ∧ ReadableItems ctor ts

end

end

theorem pipe_of_isSet {n : Nat} {opened : List OpenFormKind} {k : Token F} {ks : List (Token F)}
    {p : Syntax F × List (Token F)} (h : readForm n opened (k :: ks) = .ok p)
    (hk : isComment k = false) (hs : isSet p.1) : k = .pipe := by
  cases n with
  | zero => rw [readForm] at h; cases h
  | succ n =>
    rw [readForm] at h
    cases k <;> simp only [Token.role] at h
    case pipe => rfl
    case comment => cases hk
    case listSugar =>
      split at h
      · rename_i ctor rest hr
        obtain ⟨q, -, rfl⟩ := ok_of_map h
        unfold listSugar at hr
        split at hr <;> cases hr <;> cases hs
      · cases h; cases hs
      · cases h
    all_goals first
      | (cases h; done)
      | (cases h; cases hs)
      | (obtain ⟨q, -, rfl⟩ := ok_of_map h; cases hs)

variable [Host F]

theorem leaf_readable {k : Token F} {t : Syntax F} (hk : k.Rereads) (h : k.role = .leaf t) :
    Readable t := by
  cases k <;> cases h <;> exact hk

theorem readForm_readElements_readable (n : Nat) :
    (∀ opened (ks : List (Token F)) p, (∀ k ∈ ks, k.Rereads) → readForm n opened ks = .ok p →
      Readable p.1 ∧ ∀ k ∈ p.2, k.Rereads) ∧
    (∀ opened ctor (ks : List (Token F)) p, (∀ k ∈ ks, k.Rereads) →
      readElements n opened ctor ks = .ok p → ReadableItems ctor p.1 ∧ ∀ k ∈ p.2, k.Rereads) := by
  induction n with
  | zero =>
    refine ⟨fun opened ks p _ h => ?_, fun opened ctor ks p _ h => ?_⟩
    · rw [readForm] at h; cases h
    · rw [readElements] at h; cases h
  | succ n ih =>
    obtain ⟨ihf, ihe⟩ := ih
    have seq : ∀ opened ctor (ks : List (Token F)) p, (∀ k ∈ ks, k.Rereads) →
        delimited ctor (readElements n opened ctor ks) = .ok p →
        Readable p.1 ∧ ∀ k ∈ p.2, k.Rereads := by
      intro opened ctor ks p hks h
      obtain ⟨q, hq, rfl⟩ := ok_of_map h
      exact ihe _ _ _ q hks hq
    refine ⟨fun opened ks p hks h => ?_, fun opened ctor ks p hks h => ?_⟩
    · cases ks with
      | nil => rw [readForm] at h; cases h
      | cons k ks =>
        obtain ⟨hk, hks⟩ := List.forall_mem_cons.mp hks
        rw [readForm] at h
        split at h
        · exact ihf _ _ _ hks h
        · exact seq _ _ _ _ hks h
        · -- what follows the `@` are some of the tokens
          split at h
          · rename_i hr
            refine seq _ _ _ _ (fun k hk => hks k ?_) h
            unfold listSugar at hr
            split at hr <;> cases hr <;> exact mem_cons_of_mem _ hk
          · rename_i hr
            cases h
            refine ⟨trivial, fun k hk => hks k ?_⟩
            unfold listSugar at hr
            split at hr <;> cases hr
            exact mem_cons_of_mem _ hk
          · cases h
        · obtain ⟨q, hq, rfl⟩ := ok_of_map h
          exact ihf _ _ q hks hq
        · rename_i hleaf
          cases h
          exact ⟨leaf_readable hk hleaf, hks⟩
        · cases h
    · cases ks with
      | nil => rw [readElements] at h; cases h
      | cons k ks =>
        rw [readElements] at h
        split at h
        · cases h
          exact ⟨trivial, (List.forall_mem_cons.mp hks).2⟩
        split at h
        · exact ihe _ _ _ _ (List.forall_mem_cons.mp hks).2 h
        · rename_i hclose hcomment
          obtain ⟨q, hq, h⟩ := ok_of_bind h
          obtain ⟨r, hr, rfl⟩ := ok_of_map h
          obtain ⟨hq1, hq2⟩ := ihf _ _ q hks hq
          obtain ⟨hr1, hr2⟩ := ihe _ _ _ r hq2 hr
          refine ⟨⟨hq1, fun hset => ?_, hr1⟩, hr2⟩
          rw [Bool.eq_false_iff]
          intro hs
          rw [pipe_of_isSet hq (by simpa using hcomment) hs] at hclose
          exact hclose (by simp [SeqCtor.closes, hset])

theorem readAll_readable (n : Nat) (ks : List (Token F)) (ts : List (Syntax F))
    (hks : ∀ k ∈ ks, k.Rereads) (h : readAll n ks = .ok ts) : ∀ t ∈ ts, Readable t := by
  induction n generalizing ks ts with
  | zero => rw [readAll] at h; cases h
  | succ n ih =>
    have hdrop : ∀ k ∈ ks.dropWhile isComment, k.Rereads := fun k hk =>
      hks k ((dropWhile_sublist _).subset hk)
    rw [readAll] at h
    split at h
    · cases h; simp
    · rename_i k rest heq
      rw [heq] at hdrop
      obtain ⟨q, hq, h⟩ := ok_of_bind h
      obtain ⟨us, hus, rfl⟩ := ok_of_map h
      obtain ⟨hq1, hq2⟩ := (readForm_readElements_readable _).1 _ _ q hdrop hq
      exact List.forall_mem_cons.mpr ⟨hq1, ih _ _ hq2 hus⟩

theorem readSyntaxAllCurrent_readable {input : List Char} {ts : List (Syntax F)}
    (h : readSyntaxAllCurrent input = .ok ts) : ∀ t ∈ ts, Readable t := by
  obtain ⟨ks, hks, h⟩ := ok_of_bind h
  cases hl : lexAll (F := F) .current (stripShebang input) with
  | error e => rw [hl] at hks; cases hks
  | ok ks' =>
    rw [hl] at hks
    cases hks
    cases hp : parseAll ks with
    | error e => rw [hp] at h; cases h
    | ok us =>
      rw [hp] at h
      cases h
      exact readAll_readable _ _ _ (lexAll_rereads hl) hp

/-! ### Tokens read as their tree -/

section

omit [Host F]

theorem readForm_opening (n : Nat) (opened : List OpenFormKind) (ctor : SeqCtor) (ks : List (Token F)) :
    readForm (n + 1) opened (ctor.opening ++ ks) =
      delimited ctor (readElements n (opened ++ [ctor.kind]) ctor ks) := by
  cases ctor <;> (simp only [SeqCtor.opening, cons_append, nil_append]; rw [readForm]; rfl)

theorem readForm_mark (n : Nat) (opened : List OpenFormKind) (mark : Mark) (ks : List (Token F)) :
    readForm (n + 1) opened (mark.token :: ks) =
      (readForm n opened ks).map fun p => (.marked mark p.1, p.2) := by
  cases mark <;> (simp only [Mark.token]; rw [readForm]; rfl)

theorem closes_close (ctor : SeqCtor) : ctor.closes (ctor.close : Token F) := by
  cases ctor <;> rfl

/-- A tree's first token is no comment, and only that of a set closes a collection, of sets. -/
theorem tokens_head (t : Syntax F) :
    ∃ k ks, tokens t = k :: ks ∧ isComment k = false ∧
      ∀ ctor : SeqCtor, ctor.closes k → ctor.kind = .set ∧ isSet t := by
  cases t with
  | seq ctor items =>
    cases ctor
    case set =>
      refine ⟨_, _, rfl, rfl, fun ctor h => ⟨?_, rfl⟩⟩
      simpa [SeqCtor.closes] using h
    all_goals exact ⟨_, _, rfl, rfl, fun _ h => by cases h⟩
  | marked mark inner => cases mark <;> exact ⟨_, _, rfl, rfl, fun _ h => by cases h⟩
  | _ => exact ⟨_, _, rfl, rfl, fun _ h => by cases h⟩

end

mutual

theorem readForm_tokens (t : Syntax F) (ht : Readable t) (n : Nat) (opened : List OpenFormKind)
    (rest : List (Token F)) (hn : 2 * (tokens t ++ rest).length < n) :
    readForm n opened (tokens t ++ rest) = .ok (t, rest) := by
  obtain ⟨n, rfl⟩ : ∃ m, n = m + 1 := ⟨n - 1, by omega⟩
  match t, ht with
  | .seq ctor items, ht =>
    have hlen : 1 ≤ (ctor.opening : List (Token F)).length := by
      cases ctor <;> exact Nat.succ_pos _
    rw [tokens] at hn ⊢
    rw [append_assoc, readForm_opening, append_assoc, singleton_append,
      readElements_tokens ctor items ht n _ rest]
    · rfl
    · simp only [length_append, length_cons, length_nil] at hn ⊢
      omega
  | .marked mark inner, ht =>
    rw [tokens] at hn ⊢
    rw [cons_append, readForm_mark, readForm_tokens inner ht n opened rest]
    · rfl
    · rw [cons_append, length_cons] at hn
      omega
  | .nil, _ | .bool _, _ | .int _, _ | .float _, _ | .symbol _, _ | .keyword _, _ | .string _, _
  | .stringMut _, _ =>
    rfl

theorem readElements_tokens (ctor : SeqCtor) (items : List (Syntax F)) (hi : ReadableItems ctor items)
    (n : Nat) (opened : List OpenFormKind) (rest : List (Token F))
    (hn : 2 * (itemTokens items ++ ctor.close :: rest).length + 1 < n) :
    readElements n opened ctor (itemTokens items ++ ctor.close :: rest) = .ok (items, rest) := by
  obtain ⟨n, rfl⟩ : ∃ m, n = m + 1 := ⟨n - 1, by omega⟩
  match items, hi with
  | [], _ =>
    rw [itemTokens, nil_append, readElements, if_pos (closes_close ctor)]
  | t :: ts, hi =>
    obtain ⟨ht, hset, hts⟩ := hi
    obtain ⟨k, ks, hk, hcomment, hclose⟩ := tokens_head t
    have hopen : ctor.closes k ≠ true := fun hc => by
      obtain ⟨h1, h2⟩ := hclose ctor hc
      rw [hset h1] at h2
      cases h2
    rw [itemTokens, append_assoc] at hn ⊢
    have hform := readForm_tokens t ht n opened (itemTokens ts ++ ctor.close :: rest) (by omega)
    have hlen : 1 ≤ (tokens t).length := by rw [hk]; exact Nat.succ_pos _
    rw [length_append] at hn
    have helems := readElements_tokens ctor ts hts n opened rest (by omega)
    rw [hk] at hform ⊢
    rw [cons_append] at hform ⊢
    rw [readElements, if_neg hopen, if_neg (by simp [hcomment]), hform]
    simp only [Except.bind]
    rw [helems]
    rfl

end

theorem parseAll_tokens {t : Syntax F} (ht : Readable t) : parseAll (tokens t) = .ok [t] := by
  obtain ⟨k, ks, hk, hcomment, -⟩ := tokens_head t
  have hform := readForm_tokens t ht (formFuel (tokens t)) [] [] (by rw [append_nil, formFuel]; omega)
  rw [append_nil, hk] at hform
  rw [parseAll, hk, readAll, dropWhile_cons_of_neg (by simp [hcomment])]
  simp only
  rw [hform]
  rfl

end

end Elle.Reader

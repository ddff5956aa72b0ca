import Elle.Reader.Tokens

/-!
# Printed syntax read back

The printer and the reader are inverse up to `reread`: two marks that are one token when nothing
stands between them, and floats that are not finite, which print as names. Every other tree the
reader gives is read back from its text as itself.
-/

namespace Elle.Reader

open Result List

section

variable {F : Type} [Host F]

mutual

/-- The tree that the text of a tree is read as. -/
def reread : Syntax F → Syntax F
  | .float x => if Host.isFinite x then .float x else .symbol (Host.debugFloat x)
  | .seq ctor items => .seq ctor (rereadItems items)
  | .marked .unquote (.marked .splice inner) => .marked .unquoteSplicing (reread inner)
  | .marked mark inner => .marked mark (reread inner)
  | t => t

def rereadItems : List (Syntax F) → List (Syntax F)
  | [] => []
  | t :: ts => reread t :: rereadItems ts

end

mutual

/-- No splice directly under an unquote and no float that is not finite. -/
def faithful : Syntax F → Bool
  | .float x => Host.isFinite x
  | .seq _ items => faithfulItems items
  | .marked .unquote (.marked .splice _) => false
  | .marked _ inner => faithful inner
  | _ => true

def faithfulItems : List (Syntax F) → Bool
  | [] => true
  | t :: ts => faithful t && faithfulItems ts

end

/-- An unquote before a splice. -/
def Fuses (mark : Mark) (inner : Syntax F) : Prop := ∃ u, mark = .unquote ∧ inner = .marked .splice u

theorem reread_marked {mark : Mark} {inner : Syntax F} (h : ¬ Fuses mark inner) :
    reread (.marked mark inner) = .marked mark (reread inner) := by
  rw [reread]
  exact fun u hm hi => h ⟨u, hm, hi⟩

theorem faithful_marked {mark : Mark} {inner : Syntax F} (h : ¬ Fuses mark inner) :
    faithful (.marked mark inner) = faithful inner := by
  rw [faithful]
  exact fun u hm hi => h ⟨u, hm, hi⟩

mutual

theorem reread_eq_iff (t : Syntax F) : reread t = t ↔ faithful t := by
  match t with
  | .float x =>
    rw [reread, faithful]
    split <;> simp [*]
  | .seq ctor items =>
    rw [reread, faithful, ← rereadItems_eq_iff items]
    exact ⟨fun h => by injection h, fun h => by rw [h]⟩
  | .marked mark inner =>
    by_cases hf : Fuses mark inner
    · obtain ⟨u, rfl, rfl⟩ := hf
      rw [reread, faithful]
      simp
    · rw [reread_marked hf, faithful_marked hf, ← reread_eq_iff inner]
      exact ⟨fun h => by injection h, fun h => by rw [h]⟩
  | .nil | .bool _ | .int _ | .symbol _ | .keyword _ | .string _ | .stringMut _ =>
    simp [reread, faithful]

theorem rereadItems_eq_iff (ts : List (Syntax F)) : rereadItems ts = ts ↔ faithfulItems ts := by
  match ts with
  | [] => simp [rereadItems, faithfulItems]
  | t :: ts =>
    rw [rereadItems, faithfulItems, Bool.and_eq_true, List.cons.injEq, reread_eq_iff t,
      rereadItems_eq_iff ts]

end

theorem isSet_reread (t : Syntax F) : isSet (reread t) = isSet t := by
  cases t with
  | float x =>
    rw [reread]
    split <;> rfl
  | seq ctor items =>
    cases ctor <;> rfl
  | marked mark inner =>
    by_cases hf : Fuses mark inner
    · obtain ⟨u, rfl, rfl⟩ := hf
      rfl
    · rw [reread_marked hf]
      rfl
  | _ => simp [reread]

mutual

theorem reread_readable (t : Syntax F) (ht : Readable t) : Readable (reread t) := by
  match t, ht with
  | .float x, _ =>
    rw [reread]
    split
    · trivial
    · rename_i hx
      exact lexes_special (by simpa using hx)
  | .seq ctor items, ht =>
    exact rereadItems_readable ctor items ht
  | .marked mark inner, ht =>
    by_cases hf : Fuses mark inner
    · obtain ⟨u, rfl, rfl⟩ := hf
      exact reread_readable u ht
    · rw [reread_marked hf]
      exact reread_readable inner ht
  | .nil, ht | .bool _, ht | .int _, ht | .symbol _, ht | .keyword _, ht | .string _, ht
  | .stringMut _, ht =>
    simpa [reread] using ht

theorem rereadItems_readable (ctor : SeqCtor) (ts : List (Syntax F)) (h : ReadableItems ctor ts) :
    ReadableItems ctor (rereadItems ts) := by
  match ts, h with
  | [], _ => trivial
  | t :: ts, h =>
    obtain ⟨ht, hset, hts⟩ := h
    refine ⟨reread_readable t ht, fun hk => ?_, rereadItems_readable ctor ts hts⟩
    rw [isSet_reread, hset hk]

end

/-! ### Lexing printed text -/

theorem map_map {ε α β γ : Type} (x : Except ε α) (f : α → β) (g : β → γ) :
    (x.map f).map g = x.map (g ∘ f) := by
  cases x <;> rfl

theorem Lexes.lexAll {w rest : List Char} {k : Token F} (h : Lexes w k) (hr : Stop rest) :
    lexAll .current (w ++ rest) = (lexAll .current rest).map ([k] ++ ·) :=
  lexAll_cons (h rest hr)

theorem lexAll_space (rest : List Char) :
    lexAll (F := F) .current (' ' :: rest) = lexAll .current rest := by
  have h : nextToken (F := F) .current (' ' :: rest) = nextToken .current rest := rfl
  cases hn : nextToken (F := F) .current rest with
  | error e => rw [lexAll_error hn, lexAll_error (h.trans hn)]
  | ok p =>
    cases p with
    | none => rw [lexAll_nil hn, lexAll_nil (h.trans hn)]
    | some p => rw [lexAll_cons hn, lexAll_cons (h.trans hn)]

theorem lexAll_empty : lexAll (F := F) .current [] = .ok [] := lexAll_nil rfl

section

variable (ctor : SeqCtor) (rest : List Char)

theorem lexAll_open :
    lexAll (F := F) .current (ctor.openText ++ rest) = (lexAll .current rest).map (ctor.opening ++ ·) := by
  cases ctor
  case arrayMut | structMut => rw [lexAll_cons rfl, lexAll_cons rfl, map_map]; rfl
  all_goals exact lexAll_cons rfl

theorem lexAll_close :
    lexAll (F := F) .current (ctor.closeText :: rest) = (lexAll .current rest).map (ctor.close :: ·) := by
  cases ctor <;> exact lexAll_cons rfl

theorem stop_close : Stop (ctor.closeText :: rest) := by
  cases ctor <;> exact Stop.cons (by decide) _

end

theorem lexAll_mark (mark : Mark) (rest : List Char) (h : mark = .unquote → rest.head? ≠ some ';') :
    lexAll (F := F) .current (mark.text ++ rest) = (lexAll .current rest).map (mark.token :: ·) := by
  cases mark with
  | unquote =>
    refine lexAll_cons ?_
    show Except.map some (if _ then _ else _) = _
    rw [if_neg fun hc => h rfl hc.2]
    rfl
  | _ => exact lexAll_cons rfl

/-- A text that is read as the tokens of a tree starts as one of that tree does. -/
theorem head_of_lexAll {w : List Char} {t : Syntax F} (h : lexAll .current w = .ok (tokens t)) :
    w ≠ [] ∧ w.head? ≠ some '#' ∧ (w.head? = some ';' → ∃ u, t = .marked .splice u) := by
  obtain ⟨k, ks, hk, hcomment, -⟩ := tokens_head t
  rw [hk] at h
  cases w with
  | nil => rw [lexAll_nil rfl] at h; cases h
  | cons c cs =>
    refine ⟨cons_ne_nil _ _, fun hc => ?_, fun hc => ?_⟩
    · cases hc
      rw [lexAll_cons rfl] at h
      obtain ⟨ks', -, h⟩ := ok_of_map h
      cases h
      cases hcomment
    · cases hc
      rw [lexAll_cons rfl] at h
      obtain ⟨ks', -, h⟩ := ok_of_map h
      cases h
      cases t with
      | marked mark u => cases mark <;> cases hk; exact ⟨u, rfl⟩
      | seq ctor items => cases ctor <;> cases hk
      | _ => cases hk

theorem splice_of_reread {t u : Syntax F} (h : reread t = .marked .splice u) :
    ∃ v, t = .marked .splice v := by
  cases t with
  | marked mark inner =>
    by_cases hf : Fuses mark inner
    · obtain ⟨v, rfl, rfl⟩ := hf
      cases h
    · rw [reread_marked hf] at h
      cases h
      exact ⟨inner, rfl⟩
  | float x => rw [reread] at h; split at h <;> cases h
  | seq ctor items => rw [reread] at h; cases h
  | _ => simp [reread] at h

mutual

theorem lexAll_display (t : Syntax F) (ht : Readable t) (rest : List Char) (hr : Stop rest) :
    lexAll .current (display t ++ rest) = (lexAll .current rest).map (tokens (reread t) ++ ·) := by
  match t, ht with
  | .float x, _ =>
    rw [reread, display]
    split
    · rename_i hx
      exact (lexes_float hx).lexAll hr
    · rename_i hx
      exact (lexes_special (by simpa using hx)).lexAll hr
  | .seq ctor items, ht =>
    rw [reread, display, tokens]
    simp only [append_assoc, singleton_append]
    rw [lexAll_open, lexAll_displayItems ctor items ht true, lexAll_close, map_map, map_map]
    congr 1
  | .marked mark inner, ht =>
    by_cases hf : Fuses mark inner
    · obtain ⟨u, rfl, rfl⟩ := hf
      show lexAll .current (Mark.unquoteSplicing.text ++ (display u ++ rest)) = _
      rw [lexAll_mark _ _ (fun h => by cases h), lexAll_display u ht rest hr, map_map]
      rfl
    · have hin := lexAll_display inner ht
      rw [reread_marked hf, display, append_assoc, lexAll_mark, hin rest hr, map_map]
      · rfl
      · -- only a splice is printed with a semicolon in front
        rintro rfl hsemi
        have h : lexAll .current (display inner) = .ok (tokens (reread inner)) := by
          simpa [lexAll_empty, Except.map] using hin [] .nil
        have hhead := head_of_lexAll h
        refine hf ?_
        obtain ⟨c, cs, hcs⟩ := exists_cons_of_ne_nil hhead.1
        obtain ⟨u, hu⟩ := hhead.2.2 (by rw [hcs] at hsemi ⊢; exact hsemi)
        obtain ⟨v, rfl⟩ := splice_of_reread hu
        exact ⟨v, rfl, rfl⟩
  | .nil, _ => simpa only [reread, display, tokens] using lexes_nil.lexAll hr
  | .bool b, _ => simpa only [reread, display, tokens] using (lexes_bool b).lexAll hr
  | .int n, ht => simpa only [reread, display, tokens] using (lexes_int ht).lexAll hr
  | .symbol s, ht | .keyword s, ht => simpa only [reread, display, tokens] using Lexes.lexAll ht hr
  | .string s, _ => simpa only [reread, display, tokens] using (lexes_string s).lexAll hr
  | .stringMut s, _ =>
    simp only [reread, display, tokens]
    rw [cons_append, lexAll_cons rfl, lexAll_cons (nextToken_stringLiteral s rest), map_map]
    rfl

theorem lexAll_displayItems (ctor : SeqCtor) (ts : List (Syntax F)) (h : ReadableItems ctor ts)
    (first : Bool) (rest : List Char) :
    lexAll .current (displayItems first ts ++ ctor.closeText :: rest) =
      (lexAll .current (ctor.closeText :: rest)).map (itemTokens (rereadItems ts) ++ ·) := by
  match ts, h with
  | [], _ => 
    rw [displayItems, rereadItems, itemTokens, nil_append]
    cases lexAll (F := F) .current (ctor.closeText :: rest) <;> rfl
  | t :: ts, h =>
    obtain ⟨ht, -, hts⟩ := h
    have hstop : Stop (displayItems false ts ++ ctor.closeText :: rest) := by
      cases ts with
      | nil => exact stop_close ctor rest
      | cons u us => exact Stop.cons (by decide) _
    have hrest : lexAll .current (display t ++ (displayItems false ts ++ ctor.closeText :: rest)) =
        (lexAll .current (ctor.closeText :: rest)).map (itemTokens (rereadItems (t :: ts)) ++ ·) := by
      rw [lexAll_display t ht _ hstop, lexAll_displayItems ctor ts hts false rest, map_map]
      congr 1
      funext ks
      simp only [Function.comp_apply, rereadItems, itemTokens, append_assoc]
    rw [displayItems, append_assoc, append_assoc]
    cases first with
    | true => exact hrest
    | false =>
      rw [← hrest]
      exact lexAll_space _

end

theorem readSyntaxAllCurrent_display {t : Syntax F} (ht : Readable t) :
    readSyntaxAllCurrent (display t) = .ok [reread t] := by
  have hlex : lexAll .current (display t) = .ok (tokens (reread t)) := by
    simpa [lexAll_empty, Except.map] using lexAll_display t ht [] .nil
  have hshebang : stripShebang (display t) = display t := by
    have hhash := (head_of_lexAll hlex).2.1
    unfold stripShebang
    split
    · rename_i h
      rw [h] at hhash
      exact absurd rfl hhash
    · rfl
  rw [readSyntaxAllCurrent, hshebang, hlex]
  show (parseAll (tokens (reread t))).mapError Error.read = _
  rw [parseAll_tokens (reread_readable t ht)]
  rfl

/-- A tree the reader gives is read back from its text exactly if it has no splice directly under an
unquote and no float that is not finite. -/
theorem display_reads_back {input : List Char} {ts : List (Syntax F)}
    (h : readSyntaxAllCurrent input = .ok ts) {t : Syntax F} (ht : t ∈ ts) :
    readSyntaxAllCurrent (display t) = .ok [t] ↔ faithful t = true := by
  rw [readSyntaxAllCurrent_display (readSyntaxAllCurrent_readable h t ht), ← reread_eq_iff]
  simp

end

/-- A float format with a zero only, where every other literal overflows. -/
inductive ZeroFloat where
  | zero
  | infinite

instance : Host ZeroFloat where
  letters _ := false
  parseFloat s := if s = ['0', '.', '0'] then some .zero else some .infinite
  debugFloat
    | .zero => ['0', '.', '0']
    | .infinite => ['i', 'n', 'f']
  isFinite
    | .zero => true
    | .infinite => false
  debug_finite
    | .zero, _ => ⟨[], ['0'], ['.', '0'], [], ⟨.inl rfl, by decide,
        List.forall_mem_singleton.mpr rfl, .inr ⟨['0'], rfl, List.forall_mem_singleton.mpr rfl⟩,
        .inl rfl⟩, rfl, .inl (by decide)⟩
  parse_debug
    | .zero, _ => rfl
  debug_special
    | .infinite, _ => by decide

/-- `(f 0.0)` -/
theorem display_reads_back_call :
    readSyntaxAllCurrent (F := ZeroFloat) ['(', 'f', ' ', '0', '.', '0', ')'] =
      .ok [.seq .list [.symbol ['f'], .float ZeroFloat.zero]] ∧
    readSyntaxAllCurrent (display (F := ZeroFloat) (.seq .list [.symbol ['f'], .float ZeroFloat.zero])) =
      .ok [.seq .list [.symbol ['f'], .float ZeroFloat.zero]] := by
  have h : readSyntaxAllCurrent (F := ZeroFloat) ['(', 'f', ' ', '0', '.', '0', ')'] =
      .ok [.seq .list [.symbol ['f'], .float ZeroFloat.zero]] := by
    unfold readSyntaxAllCurrent stripShebang
    rw [lexAll_cons rfl, lexAll_cons rfl, lexAll_cons rfl, lexAll_cons rfl, lexAll_empty]
    rfl
  exact ⟨h, (display_reads_back h (List.mem_singleton.mpr rfl)).mpr rfl⟩

/-- `, ;x` is an unquote of a splice, printed without the space and read as an unquote-splicing; and
`1e999` overflows to a float that prints as a name. -/
theorem display_reads_otherwise :
    (readSyntaxAllCurrent (F := ZeroFloat) [',', ' ', ';', 'x'] =
        .ok [.marked .unquote (.marked .splice (.symbol ['x']))] ∧
      readSyntaxAllCurrent (F := ZeroFloat)
          (display (F := ZeroFloat) (.marked .unquote (.marked .splice (.symbol ['x'])))) =
        .ok [.marked .unquoteSplicing (.symbol ['x'])]) ∧
    (readSyntaxAllCurrent (F := ZeroFloat) ['1', 'e', '9', '9', '9'] = .ok [.float ZeroFloat.infinite] ∧
      readSyntaxAllCurrent (F := ZeroFloat) (display (.float ZeroFloat.infinite)) =
        .ok [.symbol ['i', 'n', 'f']]) := by
  refine ⟨⟨?_, ?_⟩, ?_, ?_⟩ <;> unfold readSyntaxAllCurrent stripShebang
  · rw [lexAll_cons rfl, lexAll_cons rfl, lexAll_cons rfl, lexAll_nil rfl]
    rfl
  · rw [lexAll_cons rfl, lexAll_cons rfl, lexAll_nil rfl]
    rfl
  · rw [lexAll_cons rfl, lexAll_nil rfl]
    rfl
  · rw [lexAll_cons rfl, lexAll_nil rfl]
    rfl

end Elle.Reader

import Elle.Json.Reading

/-!
# What the writer writes is read

The text the writer gives for a leaf, for a sequence and for an object, whatever whitespace the layout puts
between the parts, is in the grammar; so is that of every value the writer accepts, and it reads as the
document `construct` describes.
-/

namespace Elle.Json

open Result List

/-! ## Strings -/

theorem hexValue_digitChar : ∀ n : Fin 16, hexValue (Nat.digitChar n) = some n.val := by
  decide +kernel

theorem digitChar_ne_plus : ∀ n : Fin 16, Nat.digitChar n ≠ '+' := by
  decide +kernel

theorem fromStrRadix16_hex4 {n : Nat} (h : n < 65536) : fromStrRadix16 (hex4 n) = some n := by
  have hvalue : ∀ k, hexValue (Nat.digitChar (k % 16)) = some (k % 16) := fun k =>
    hexValue_digitChar ⟨k % 16, Nat.mod_lt _ (by decide)⟩
  have hplus : Nat.digitChar (n / 4096 % 16) ≠ '+' :=
    digitChar_ne_plus ⟨_, Nat.mod_lt _ (by decide)⟩
  unfold fromStrRadix16 hex4
  split
  · next heq => cases heq
  · next heq => exact absurd (List.cons.inj heq).1 hplus
  · simp only [hexDigits, hvalue, Option.bind_some]
    congr 1
    omega

theorem isControl_lt {c : Char} (h : isControl c) : c.toNat < 160 := by
  unfold isControl at h
  simp only [Bool.or_eq_true, Bool.and_eq_true, decide_eq_true_eq] at h
  omega

theorem literal_escapeChar (c : Char) {s t r : Text} (h : Literal s t r) : Literal (escapeChar c ++ s) (c :: t) r := by
  have hshort : ∀ {e c : Char}, shortEscape e = some c → Literal (['\\', e] ++ s) (c :: t) r := fun he =>
    .escape (.short he) h
  unfold escapeChar
  iterate 7
    split
    · next hc => subst hc; exact hshort rfl
  split
  · next hc =>
    have hlt := isControl_lt hc
    have hunit : Escape ('u' :: hex4 c.toNat) (Char.ofNat c.toNat) :=
      .unit rfl (fromStrRadix16_hex4 (by omega)) c.valid
    rw [Char.ofNat_toNat] at hunit
    exact .escape hunit h
  · next hquote hslash _ _ _ _ _ _ => exact .char ⟨hquote, hslash⟩ h

theorem literal_escapeJsonString (s rest : Text) : ∃ t, escapeJsonString s ++ rest = '"' :: t ∧ Literal t s rest := by
  refine ⟨_, rfl, ?_⟩
  rw [append_eq, append_assoc]
  induction s with
  | nil => exact .close
  | cons c s ih =>
    rw [flatMap_cons, append_assoc]
    exact literal_escapeChar c ih

/-! ## Numbers -/

/-- The digits of a number have no leading zero, unless it is the only one. -/
theorem toDigits_form (n : Nat) :
    Nat.toDigits 10 n = ['0'] ∨ ∃ c cs, Nat.toDigits 10 n = c :: cs ∧ c ≠ '0' := by
  have hdigit : ∀ k : Fin 10, 0 < k.val → Nat.digitChar k ≠ '0' := by decide
  have hpos : ∀ n, 0 < n → ∃ c cs, Nat.toDigits 10 n = c :: cs ∧ c ≠ '0' := by
    intro n
    induction n using Nat.strongRecOn with
    | ind n ih =>
      intro hn
      by_cases hlt : n < 10
      · exact ⟨n.digitChar, [], Nat.toDigits_of_lt_base hlt, hdigit ⟨n, hlt⟩ hn⟩
      · obtain ⟨c, cs, hc, hne⟩ := ih (n / 10) (by omega) (by omega)
        have happ := Nat.toDigits_append_toDigits (b := 10) (n := n / 10) (d := n % 10)
          (by decide) (by omega) (by omega)
        rw [Nat.div_add_mod, hc] at happ
        exact ⟨c, _, happ.symm, hne⟩
  rcases Nat.eq_zero_or_pos n with rfl | hn
  · exact .inl (Nat.toDigits_zero 10)
  · exact .inr (hpos n hn)

theorem intText_decimal (n : Int64) :
    ∃ sign, DecimalText (intText n) sign (Nat.toDigits 10 n.toInt.natAbs) [] ∧
      parseInt64 sign (Nat.toDigits 10 n.toInt.natAbs) = some n := by
  have hdigits : ∀ c ∈ Nat.toDigits 10 n.toInt.natAbs, c.isDigit := fun c hc =>
    Nat.isDigit_of_mem_toDigits (by decide) (by decide) hc
  have hlow := n.le_toInt
  have hhigh := n.toInt_lt
  have hvalue : ∀ m : Int, m = n.toInt →
      (if -2 ^ 63 ≤ m ∧ m < 2 ^ 63 then some (Int64.ofInt m) else none) = some n := by
    rintro m rfl
    rw [if_pos ⟨hlow, hhigh⟩, Int64.ofInt_toInt]
  by_cases hneg : n.toInt < 0
  · refine ⟨['-'], ⟨.inr rfl, hdigits, toDigits_form _, .inl rfl, ?_⟩, ?_⟩
    · rw [intText, if_pos hneg, append_nil]
      rfl
    · refine hvalue _ ?_
      rw [if_neg (by decide), Nat.ofDigitChars_ten_toDigits]
      omega
  · refine ⟨[], ⟨.inl rfl, hdigits, toDigits_form _, .inl rfl, ?_⟩, ?_⟩
    · rw [intText, if_neg hneg, append_nil]
      rfl
    · unfold parseInt64
      refine hvalue _ ?_
      rw [if_pos rfl, Nat.ofDigitChars_ten_toDigits]
      omega

section

variable {F : Type} [JsonFloat F]

theorem floatText_decimal {x : F} {t : Text} (h : floatText x = .ok t) :
    ∃ sign whole fraction, DecimalText t sign whole fraction ∧ fraction ≠ [] ∧
      JsonFloat.parse t = some x := by
  unfold floatText at h
  split at h
  · next hfinite =>
    obtain ⟨sign, whole, fraction, hdec⟩ := JsonFloat.decimal x hfinite
    have hwhole : ∀ c ∈ sign ++ whole, c = '-' ∨ c.isDigit := by
      intro c hc
      rcases List.mem_append.mp hc with hc | hc
      · rcases hdec.sign_eq with hs | hs
        · exact absurd hc (by simp [hs])
        · exact .inl (by simpa [hs] using hc)
      · exact .inr (hdec.whole_digits c hc)
    have hletter : ∀ c ∈ JsonFloat.toText x, c = '.' ∨ c = '-' ∨ c.isDigit := by
      intro c hc
      rw [hdec.text_eq] at hc
      rcases List.mem_append.mp hc with hc | hc
      · exact .inr (hwhole c hc)
      · rcases hdec.fraction_form with hf | ⟨digits, hf, _, hdigits⟩
        · exact absurd hc (by simp [hf])
        · rcases List.mem_cons.mp (hf ▸ hc) with rfl | hc
          · exact .inl rfl
          · exact .inr (.inr (hdigits c hc))
    have hnoE : 'e' ∉ JsonFloat.toText x ∧ 'E' ∉ JsonFloat.toText x :=
      ⟨fun hc => absurd (hletter _ hc) (by decide), fun hc => absurd (hletter _ hc) (by decide)⟩
    rcases hdec.fraction_form with hf | ⟨digits, hf, hne, hdigits⟩
    · -- no fraction, so no point: one is added
      have hpoint : '.' ∉ JsonFloat.toText x := by
        rw [hdec.text_eq, hf, append_nil]
        exact fun hc => absurd (hwhole _ hc) (by decide)
      rw [if_neg (by simp [hpoint, hnoE])] at h
      cases h
      refine ⟨sign, whole, ['.', '0'], ⟨hdec.sign_eq, hdec.whole_digits, hdec.whole_form,
        .inr ⟨['0'], rfl, by decide, List.forall_mem_singleton.mpr rfl⟩, ?_⟩, by decide,
        JsonFloat.parse_pointZero x hfinite hpoint⟩
      rw [hdec.text_eq, hf, append_nil]
    · have hpoint : '.' ∈ JsonFloat.toText x := by
        rw [hdec.text_eq, hf]
        exact mem_append_right _ mem_cons_self
      rw [if_pos (.inl hpoint)] at h
      cases h
      exact ⟨sign, whole, fraction, hdec, by simp [hf], JsonFloat.parse_toText x hfinite⟩
  · cases h

end

/-! ## Leaves -/

section

variable {F V : Type} [JsonFloat F] (build : Builder F V)

/-- The text is one value, whatever follows it. -/
def Reads (t : Text) (v : V) : Prop := ∀ rest, Derives build Literal (t ++ rest) (.value v) rest

theorem reads_null : Reads build ['n', 'u', 'l', 'l'] build.null := fun _ => .literal (by simp [literals])

theorem reads_bool (b : Bool) :
    Reads build (if b then ['t', 'r', 'u', 'e'] else ['f', 'a', 'l', 's', 'e']) (build.bool b) := by
  intro rest
  cases b <;> exact .literal (by simp [literals])

theorem reads_string (s : Text) : Reads build (escapeJsonString s) (build.string s) := by
  intro rest
  obtain ⟨t, ht, hs⟩ := literal_escapeJsonString s rest
  exact ht ▸ .string hs

theorem reads_int (n : Int64) : Reads build (intText n) (build.int n) := by
  obtain ⟨sign, hdec, hparse⟩ := intText_decimal n
  exact fun _ => .number (.int hdec hparse)

theorem reads_float {x : F} {t : Text} (h : floatText x = .ok t) : Reads build t (build.float x) := by
  obtain ⟨sign, whole, fraction, hdec, hne, hparse⟩ := floatText_decimal h
  have hnumber : Number build (t ++ []) (build.float x) :=
    .float hdec (.inl rfl) (by simpa using hne) (by rwa [append_nil])
  rw [append_nil] at hnumber
  exact fun _ => .number hnumber

end

/-! ## Sequences and objects -/

section

variable {F V : Type} [JsonFloat F] {build : Builder F V}
variable {t gap lead trail rest : Text} {ts : List Text}

/-- Texts put together between two characters, with commas and whitespace. -/
def Spaced (opening closing : Char) (items : List Text) (t : Text) : Prop :=
  ∃ lead gap trail : Text,
    (∀ c ∈ lead, isWhitespace c) ∧ (∀ c ∈ gap, isWhitespace c) ∧
    (∀ c ∈ trail, isWhitespace c) ∧
    t = opening :: (lead ++ (List.intercalate (',' :: gap) items ++ (trail ++ [closing])))

theorem derives_elements (hgap : ∀ c ∈ gap, isWhitespace c) (htrail : ∀ c ∈ trail, isWhitespace c)
    {v : V} {vs : List V} (ht : Reads build t v) (hts : List.Forall₂ (Reads build) ts vs)
    (hlead : ∀ c ∈ lead, isWhitespace c) :
    Derives build Literal (lead ++ (List.intercalate (',' :: gap) (t :: ts) ++ (trail ++ ']' :: rest)))
      (.elements (v :: vs)) rest := by
  induction hts generalizing t v lead with
  | nil =>
    rw [intercalate_singleton]
    exact .element (.of_blank hlead) (ht _) (.of_blank htrail)
  | cons ht' _ ih =>
    rw [intercalate_cons_cons, append_assoc, append_assoc]
    refine .moreElements (.of_blank hlead) (ht _) .refl ?_
    exact ih ht' hgap

theorem reads_sequence {vs : List V} (h : List.Forall₂ (Reads build) ts vs) (ht : Spaced '[' ']' ts t) :
    Reads build t (build.array vs) := by
  obtain ⟨lead, gap, trail, hlead, hgap, htrail, rfl⟩ := ht
  intro rest
  simp only [cons_append, append_assoc, nil_append]
  cases h with
  | nil => exact .emptyArray ((Ws.of_blank hlead).trans (.of_blank htrail))
  | cons ht hts => exact .array (derives_elements hgap htrail ht hts hlead)

/-- The text of a pair, whose value reads. -/
def ReadsPair (build : Builder F V) (t : Text) (member : Text × V) : Prop :=
  ∃ gap text : Text, (∀ c ∈ gap, isWhitespace c) ∧
    t = escapeJsonString member.1 ++ ':' :: (gap ++ text) ∧ Reads build text member.2

theorem derives_members (hgap : ∀ c ∈ gap, isWhitespace c) (htrail : ∀ c ∈ trail, isWhitespace c)
    {member : Text × V} {members : List (Text × V)} (ht : ReadsPair build t member)
    (hts : List.Forall₂ (ReadsPair build) ts members) (hlead : ∀ c ∈ lead, isWhitespace c) :
    Derives build Literal (lead ++ (List.intercalate (',' :: gap) (t :: ts) ++ (trail ++ '\x7d' :: rest)))
      (.members (member :: members)) rest := by
  induction hts generalizing t member lead with
  | nil =>
    obtain ⟨colon, text, hcolon, rfl, hread⟩ := ht
    rw [intercalate_singleton, append_assoc]
    obtain ⟨s, hs, hkey⟩ := literal_escapeJsonString member.1 (':' :: (colon ++ text) ++ (trail ++ '\x7d' :: rest))
    rw [hs]
    rw [cons_append, append_assoc] at hkey
    exact .member (.of_blank hlead) hkey .refl (.of_blank hcolon) (hread _) (.of_blank htrail)
  | @cons t' _ ts _ ht' _ ih =>
    obtain ⟨colon, text, hcolon, rfl, hread⟩ := ht
    have htail := ih ht' hgap
    rw [intercalate_cons_cons, append_assoc, append_assoc, append_assoc]
    obtain ⟨s, hs, hkey⟩ := literal_escapeJsonString member.1 (':' :: (colon ++ text) ++
      (',' :: gap ++ (List.intercalate (',' :: gap) (t' :: ts) ++ (trail ++ '\x7d' :: rest))))
    rw [hs]
    rw [cons_append, append_assoc] at hkey
    exact .moreMembers (.of_blank hlead) hkey .refl (.of_blank hcolon) (hread _) .refl htail

theorem reads_object {members : List (Text × V)} (h : List.Forall₂ (ReadsPair build) ts members)
    (ht : Spaced '\x7b' '\x7d' ts t) : Reads build t (build.object members) := by
  obtain ⟨lead, gap, trail, hlead, hgap, htrail, rfl⟩ := ht
  intro rest
  simp only [cons_append, append_assoc, nil_append]
  cases h with
  | nil => exact .emptyObject ((Ws.of_blank hlead).trans (.of_blank htrail))
  | cons ht hts => exact .object (derives_members hgap htrail ht hts hlead)

end

/-! ## Layouts -/

/-- The layout puts nothing but whitespace between the parts. -/
structure Layout.WellSpaced (layout : Layout) : Prop where
  sequence : ∀ tested level items, Spaced '[' ']' items (layout.sequence tested level items)
  object : ∀ level pairs, Spaced '\x7b' '\x7d' pairs (layout.object level pairs)
  colon : ∃ gap : Text, (∀ c ∈ gap, isWhitespace c) ∧ layout.colon = ':' :: gap

theorem compact_wellSpaced : compact.WellSpaced where
  sequence _ _ items := ⟨[], [], [], by simp, by simp, by simp, rfl⟩
  object _ pairs := ⟨[], [], [], by simp, by simp, by simp, rfl⟩
  colon := ⟨[], by simp, rfl⟩

theorem isWhitespace_indent (level : Nat) : ∀ c ∈ '\n' :: indent level, isWhitespace c := by
  intro c hc
  rcases List.mem_cons.mp hc with rfl | hc
  · rfl
  · rw [eq_of_mem_replicate hc]
    rfl

theorem spread_spaced (opening closing : Char) (level : Nat) (items : List Text) :
    Spaced opening closing items (spread opening closing level items) := by
  refine ⟨'\n' :: indent (level + 1), '\n' :: indent (level + 1), '\n' :: indent level,
    isWhitespace_indent _, isWhitespace_indent _, isWhitespace_indent _, ?_⟩
  simp [spread]

theorem spaced_empty (opening closing : Char) : Spaced opening closing [] [opening, closing] :=
  ⟨[], [], [], by simp, by simp, by simp, rfl⟩

theorem pretty_wellSpaced : pretty.WellSpaced where
  sequence tested level items := by
    dsimp only [pretty]
    split
    · next h => rw [h.2]; exact spaced_empty _ _
    · exact spread_spaced _ _ level items
  object level pairs := by
    dsimp only [pretty]
    split
    · next h => rw [h]; exact spaced_empty _ _
    · exact spread_spaced _ _ level pairs
  colon := ⟨[' '], List.forall_mem_singleton.mpr rfl, rfl⟩

/-! ## Values -/

section

variable {F V : Type} [JsonFloat F] (build : Builder F V) (keywords : Keywords)

def Keywords.nameOf : Key → Text
  | .string s => s
  | .keyword hash => (keywords.spelling hash).getD []
  | .other _ => []

mutual

/-- The document that is written for a value, as the builder builds it. -/
def construct : Value F → V
  | .nil => build.null
  | .bool b => build.bool b
  | .int n => build.int n
  | .float x => build.float x
  | .string s => build.string s
  | .emptyList => build.array []
  | .pair items => build.array (constructItems items)
  | .improperList => build.null
  | .arrayMut items => build.array (constructItems items)
  | .structMut entries => build.object (constructPairs entries)
  | .struct entries => build.object (constructPairs entries)
  | .keyword hash => build.string (keywords.nameOf (.keyword hash))
  | .box inner => construct inner
  | .array items => build.array (constructItems items)
  | .set items => build.array (constructItems items)
  | .setMut items => build.array (constructItems items)
  | .unwritable _ => build.null

def constructItems : List (Value F) → List V
  | [] => []
  | v :: items => construct v :: constructItems items

def constructPairs : List (Key × Value F) → List (Text × V)
  | [] => []
  | (key, v) :: entries => (keywords.nameOf key, construct v) :: constructPairs entries

end

/-- The key can be written: it is a string or a keyword whose spelling is known. -/
def Keywords.Spelled : Key → Prop
  | .string _ => True
  | .keyword hash => (keywords.spelling hash).isSome
  | .other _ => False

variable {keywords}

variable {t : Text}

theorem jsonKeyword_eq {hash : Nat} (h : jsonKeyword keywords hash = .ok t) :
    t = escapeJsonString (keywords.nameOf (.keyword hash)) := by
  unfold jsonKeyword at h
  rw [Keywords.nameOf]
  cases hspell : keywords.spelling hash with
  | none => rw [hspell] at h; cases h
  | some name => rw [hspell] at h; exact (Except.ok.inj h).symm

theorem jsonObjectKey_spelled (container : String) {key : Key} (h : keywords.Spelled key) :
    jsonObjectKey keywords container key = .ok (escapeJsonString (keywords.nameOf key)) := by
  cases key with
  | string s => rfl
  | keyword hash =>
    obtain ⟨name, hname⟩ := Option.isSome_iff_exists.mp h
    rw [jsonObjectKey, Keywords.nameOf, hname]
    rfl
  | other n => cases h

theorem spelled_of_ok {container : String} {key : Key} (h : jsonObjectKey keywords container key = .ok t) :
    keywords.Spelled key := by
  cases key with
  | string s => trivial
  | keyword hash =>
    rw [jsonObjectKey] at h
    rw [Keywords.Spelled]
    cases hspell : keywords.spelling hash with
    | none => rw [hspell] at h; cases h
    | some name => rfl
  | other n => cases h

variable {layout : Layout}

mutual

theorem reads_write (spaced : layout.WellSpaced) {level : Nat} : ∀ (v : Value F) {t : Text},
    write keywords layout level v = .ok t → Reads build t (construct build keywords v)
  | .nil, _, h => Except.ok.inj h ▸ reads_null build
  | .bool b, _, h => Except.ok.inj h ▸ reads_bool build b
  | .int n, _, h => Except.ok.inj h ▸ reads_int build n
  | .float x, _, h => reads_float build h
  | .string s, _, h => Except.ok.inj h ▸ reads_string build s
  | .emptyList, _, h => Except.ok.inj h ▸ reads_sequence .nil (spaced_empty '[' ']')
  | .pair items, _, h | .arrayMut items, _, h | .array items, _, h | .set items, _, h
  | .setMut items, _, h => by
    obtain ⟨ts, hts, rfl⟩ := ok_of_map h
    exact reads_sequence (reads_writeItems spaced items hts) (spaced.sequence _ _ _)
  | .improperList, _, h => by cases h
  | .structMut entries, _, h | .struct entries, _, h => by
    obtain ⟨ts, hts, rfl⟩ := ok_of_map h
    exact reads_object (reads_writePairs spaced entries hts) (spaced.object _ _)
  | .keyword hash, _, h => jsonKeyword_eq h ▸ reads_string build _
  | .box inner, _, h => reads_write spaced inner h
  | .unwritable _, _, h => by cases h

theorem reads_writeItems (spaced : layout.WellSpaced) {level : Nat} :
    ∀ (items : List (Value F)) {ts : List Text},
    writeItems keywords layout level items = .ok ts →
      List.Forall₂ (Reads build) ts (constructItems build keywords items)
  | [], _, h => Except.ok.inj h ▸ .nil
  | v :: items, _, h => by
    obtain ⟨t, ht, h⟩ := ok_of_bind h
    obtain ⟨ts, hts, h⟩ := ok_of_bind h
    cases h
    exact .cons (reads_write spaced v ht) (reads_writeItems spaced items hts)

theorem reads_writePairs (spaced : layout.WellSpaced) {container : String} {level : Nat} :
    ∀ (entries : List (Key × Value F)) {ts : List Text},
      writePairs keywords layout container level entries = .ok ts →
        List.Forall₂ (ReadsPair build) ts (constructPairs build keywords entries)
  | [], _, h => Except.ok.inj h ▸ .nil
  | (key, v) :: entries, _, h => by
    obtain ⟨keyText, hkey, h⟩ := ok_of_bind h
    obtain ⟨t, ht, h⟩ := ok_of_bind h
    obtain ⟨ts, hts, h⟩ := ok_of_bind h
    cases h
    obtain ⟨gap, hgap, hcolon⟩ := spaced.colon
    refine .cons ⟨gap, t, hgap, ?_, reads_write spaced v ht⟩ (reads_writePairs spaced entries hts)
    rw [jsonObjectKey_spelled container (spelled_of_ok hkey)] at hkey
    rw [← Except.ok.inj hkey, hcolon, append_assoc, cons_append]

end

theorem parse_write (spaced : layout.WellSpaced) {level : Nat} {v : Value F}
    (h : write keywords layout level v = .ok t) : parse build t = .ok (construct build keywords v) := by
  have hread := reads_write build spaced v h []
  rw [append_nil] at hread
  exact (parse_ok_iff t).mpr ⟨t, [], .refl, hread, .refl⟩

end

end Elle.Json

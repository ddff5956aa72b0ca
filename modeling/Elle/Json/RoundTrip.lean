import Elle.Json.Nested

/-!
# Round trip

What is written for a plain value is read back as the value, in either layout. An object has a key twice when
a string and a keyword of the struct are spelled alike.
-/

namespace Elle.Json

open Result List

/-! ## Maps -/

def Key.before : Key → Key → Prop
  | .string s, .string t => s < t
  | .string _, .keyword _ => True
  | .string _, .other _ => True
  | .keyword _, .string _ => False
  | .keyword h, .keyword k => h < k
  | .keyword _, .other _ => True
  | .other _, .string _ => False
  | .other _, .keyword _ => False
  | .other m, .other n => m < n

instance : DecidableRel Key.before := fun a b => by
  cases a <;> cases b <;> unfold Key.before <;> infer_instance

theorem Key.before_irrefl (a : Key) : ¬a.before a := by
  cases a with
  | string s => exact lt_irrefl s
  | keyword h => exact Nat.lt_irrefl h
  | other n => exact Nat.lt_irrefl n

theorem Key.before_asymm {a b : Key} (h : a.before b) : ¬b.before a := by
  cases a <;> cases b <;>
    first
    | exact not_lt_of_gt h
    | exact Nat.lt_asymm h
    | exact fun h => h
    | exact fun _ => h

section

variable {F : Type}

/-- `BTreeMap::insert`, over the entries in order. -/
def mapInsert (key : Key) (v : Value F) : List (Key × Value F) → List (Key × Value F)
  | [] => [(key, v)]
  | e :: entries =>
    if key = e.1 then (key, v) :: entries
    else if key.before e.1 then (key, v) :: e :: entries
    else e :: mapInsert key v entries

/-- The entries are in the order of the keys, each key once. -/
def Ascending (keys : List Key) : Prop := keys.Pairwise Key.before

instance (keys : List Key) : Decidable (Ascending keys) :=
  inferInstanceAs (Decidable (keys.Pairwise Key.before))

theorem mapInsert_append {key : Key} (v : Value F) {entries : List (Key × Value F)}
    (h : ∀ e ∈ entries, e.1.before key) : mapInsert key v entries = entries ++ [(key, v)] := by
  induction entries with
  | nil => rfl
  | cons e entries ih =>
    have he := h e mem_cons_self
    have hne : key ≠ e.1 := by
      rintro rfl
      exact Key.before_irrefl _ he
    rw [mapInsert, if_neg hne, if_neg (Key.before_asymm he), ih fun e' he' => h e' (mem_cons_of_mem _ he')]
    rfl

theorem foldl_mapInsert {α : Type} (keyOf : α → Key) (valueOf : α → Value F) (items : List α)
    (entries : List (Key × Value F)) (h : Ascending (entries.map Prod.fst ++ items.map keyOf)) :
    items.foldl (fun map item => mapInsert (keyOf item) (valueOf item) map) entries =
      entries ++ items.map fun item => (keyOf item, valueOf item) := by
  induction items generalizing entries with
  | nil => simp
  | cons item items ih =>
    have hbefore : ∀ e ∈ entries, e.1.before (keyOf item) := fun e he =>
      (List.pairwise_append.mp h).2.2 e.1 (mem_map_of_mem he) _ mem_cons_self
    rw [foldl_cons, mapInsert_append _ hbefore, ih, map_cons, append_assoc]
    · rfl
    · simpa using h

end

/-! ## Parts of a value -/

section

variable {F : Type}

mutual

/-- The keys of every struct in the value are as described. -/
def Value.EachStruct (P : List Key → Prop) : Value F → Prop
  | .nil => True
  | .bool _ => True
  | .int _ => True
  | .float _ => True
  | .string _ => True
  | .emptyList => True
  | .pair items => EachStructItems P items
  | .improperList => True
  | .arrayMut items => EachStructItems P items
  | .structMut entries => P (entries.map Prod.fst) ∧ EachStructPairs P entries
  | .struct entries => P (entries.map Prod.fst) ∧ EachStructPairs P entries
  | .keyword _ => True
  | .box inner => inner.EachStruct P
  | .array items => EachStructItems P items
  | .set items => EachStructItems P items
  | .setMut items => EachStructItems P items
  | .unwritable _ => True

def EachStructItems (P : List Key → Prop) : List (Value F) → Prop
  | [] => True
  | v :: items => v.EachStruct P ∧ EachStructItems P items

def EachStructPairs (P : List Key → Prop) : List (Key × Value F) → Prop
  | [] => True
  | (_, v) :: entries => v.EachStruct P ∧ EachStructPairs P entries

end

def Key.ofKind (useKeywordKeys : Bool) : Key → Bool
  | .string _ => !useKeywordKeys
  | .keyword _ => useKeywordKeys
  | .other _ => false

variable [JsonFloat F]

mutual

/-- A value of the kinds JSON has, with struct keys of one kind. -/
def Value.Plain (useKeywordKeys : Bool) : Value F → Prop
  | .nil => True
  | .bool _ => True
  | .int _ => True
  | .float x => JsonFloat.isFinite x
  | .string _ => True
  | .array items => PlainItems useKeywordKeys items
  | .struct entries =>
    Ascending (entries.map Prod.fst) ∧ (∀ e ∈ entries, e.1.ofKind useKeywordKeys) ∧
      PlainPairs useKeywordKeys entries
  | .emptyList => False
  | .pair _ => False
  | .improperList => False
  | .arrayMut _ => False
  | .structMut _ => False
  | .keyword _ => False
  | .box _ => False
  | .set _ => False
  | .setMut _ => False
  | .unwritable _ => False

def PlainItems (useKeywordKeys : Bool) : List (Value F) → Prop
  | [] => True
  | v :: items => v.Plain useKeywordKeys ∧ PlainItems useKeywordKeys items

def PlainPairs (useKeywordKeys : Bool) : List (Key × Value F) → Prop
  | [] => True
  | (_, v) :: entries => v.Plain useKeywordKeys ∧ PlainPairs useKeywordKeys entries

end

end

/-! ## What the writer accepts -/

section

variable {F : Type} [JsonFloat F] (keywords : Keywords)

def KeysSpelled (keys : List Key) : Prop := ∀ key ∈ keys, keywords.Spelled key

variable {keywords} {layout : Layout}

mutual

theorem spelled_of_write {level : Nat} : ∀ (v : Value F) {t : Text},
    write keywords layout level v = .ok t → v.EachStruct (KeysSpelled keywords)
  | .nil, _, _ => trivial
  | .bool _, _, _ => trivial
  | .int _, _, _ => trivial
  | .float _, _, _ => trivial
  | .string _, _, _ => trivial
  | .emptyList, _, _ => trivial
  | .improperList, _, _ => trivial
  | .keyword _, _, _ => trivial
  | .unwritable _, _, _ => trivial
  | .pair items, _, h | .arrayMut items, _, h | .array items, _, h | .set items, _, h
  | .setMut items, _, h => spelled_of_writeItems items (ok_of_map h).choose_spec.1
  | .structMut entries, _, h | .struct entries, _, h =>
    spelled_of_writePairs entries (ok_of_map h).choose_spec.1
  | .box inner, _, h => spelled_of_write inner h

theorem spelled_of_writeItems {level : Nat} : ∀ (items : List (Value F)) {ts : List Text},
    writeItems keywords layout level items = .ok ts → EachStructItems (KeysSpelled keywords) items
  | [], _, _ => trivial
  | v :: items, _, h => by
    obtain ⟨t, ht, h⟩ := ok_of_bind h
    obtain ⟨ts, hts, _⟩ := ok_of_bind h
    exact ⟨spelled_of_write v ht, spelled_of_writeItems items hts⟩

theorem spelled_of_writePairs {container : String} {level : Nat} :
    ∀ (entries : List (Key × Value F)) {ts : List Text},
      writePairs keywords layout container level entries = .ok ts →
        KeysSpelled keywords (entries.map Prod.fst) ∧ EachStructPairs (KeysSpelled keywords) entries
  | [], _, _ => ⟨by rintro _ ⟨⟩, trivial⟩
  | (key, v) :: entries, _, h => by
    obtain ⟨keyText, hkey, h⟩ := ok_of_bind h
    obtain ⟨t, ht, h⟩ := ok_of_bind h
    obtain ⟨ts, hts, _⟩ := ok_of_bind h
    obtain ⟨hkeys, hvalues⟩ := spelled_of_writePairs entries hts
    exact ⟨List.forall_mem_cons.mpr ⟨spelled_of_ok hkey, hkeys⟩, spelled_of_write v ht, hvalues⟩

end

mutual

theorem write_plain {useKeywordKeys : Bool} (level : Nat) : ∀ v : Value F, v.Plain useKeywordKeys →
    v.EachStruct (KeysSpelled keywords) → ∃ t, write keywords layout level v = .ok t
  | .nil, _, _ | .bool _, _, _ | .int _, _, _ | .string _, _, _ => ⟨_, rfl⟩
  | .float x, hx, _ => by
    rw [Value.Plain] at hx
    rw [write, floatText, if_pos hx]
    dsimp only
    split <;> exact ⟨_, rfl⟩
  | .array items, hplain, hspelled => by
    obtain ⟨ts, hts⟩ := writeItems_plain (level + 1) items hplain hspelled
    exact ⟨_, by rw [write, hts]; rfl⟩
  | .struct entries, hplain, hspelled => by
    obtain ⟨ts, hts⟩ := writePairs_plain "Struct" (level + 1) entries hplain.2.2 hspelled.1 hspelled.2
    exact ⟨_, by rw [write, hts]; rfl⟩
  | .emptyList, h, _ => h.elim
  | .pair _, h, _ => h.elim
  | .improperList, h, _ => h.elim
  | .arrayMut _, h, _ => h.elim
  | .structMut _, h, _ => h.elim
  | .keyword _, h, _ => h.elim
  | .box _, h, _ => h.elim
  | .set _, h, _ => h.elim
  | .setMut _, h, _ => h.elim
  | .unwritable _, h, _ => h.elim

theorem writeItems_plain {useKeywordKeys : Bool} (level : Nat) : ∀ items : List (Value F),
    PlainItems useKeywordKeys items → EachStructItems (KeysSpelled keywords) items →
      ∃ ts, writeItems keywords layout level items = .ok ts
  | [], _, _ => ⟨[], rfl⟩
  | v :: items, hplain, hspelled => by
    obtain ⟨t, ht⟩ := write_plain level v hplain.1 hspelled.1
    obtain ⟨ts, hts⟩ := writeItems_plain level items hplain.2 hspelled.2
    exact ⟨t :: ts, by rw [writeItems, bind_of_ok ht, bind_of_ok hts]; rfl⟩

theorem writePairs_plain {useKeywordKeys : Bool} (container : String) (level : Nat) :
    ∀ (entries : List (Key × Value F)), PlainPairs useKeywordKeys entries →
      KeysSpelled keywords (entries.map Prod.fst) → EachStructPairs (KeysSpelled keywords) entries →
        ∃ ts, writePairs keywords layout container level entries = .ok ts
  | [], _, _, _ => ⟨[], rfl⟩
  | (key, v) :: entries, hplain, hkeys, hvalues => by
    obtain ⟨hkey, hkeys⟩ := List.forall_mem_cons.mp hkeys
    obtain ⟨t, ht⟩ := write_plain level v hplain.1 hvalues.1
    obtain ⟨ts, hts⟩ := writePairs_plain container level entries hplain.2 hkeys hvalues.2
    rw [writePairs, bind_of_ok (jsonObjectKey_spelled container hkey), bind_of_ok ht, bind_of_ok hts]
    exact ⟨_, rfl⟩

end

end

/-! ## Reading values back -/

section

variable {F : Type} [JsonFloat F] (keywords : Keywords) (useKeywordKeys : Bool)

def keyOf (name : Text) : Key :=
  if useKeywordKeys then .keyword (keywords.hash name) else .string name

/-- What the parser of the source builds. -/
def values : Builder F (Value F) where
  null := .nil
  bool := .bool
  int := .int
  float := .float
  string := .string
  array := .array
  object members :=
    .struct (members.foldl
      (fun map member => mapInsert (keyOf keywords useKeywordKeys member.1) member.2 map) [])

variable {keywords useKeywordKeys}

theorem keyOf_nameOf {key : Key} (hkind : key.ofKind useKeywordKeys)
    (hspelled : keywords.Spelled key) :
    keyOf keywords useKeywordKeys (keywords.nameOf key) = key := by
  cases key with
  | string s =>
    rw [Key.ofKind, Bool.not_eq_true'] at hkind
    simp [keyOf, hkind, Keywords.nameOf]
  | keyword hash =>
    rw [Key.ofKind] at hkind
    obtain ⟨name, hname⟩ := Option.isSome_iff_exists.mp hspelled
    rw [keyOf, if_pos hkind, Keywords.nameOf, hname, Option.getD_some,
      keywords.hash_spelling hash name hname]
  | other n => cases hkind

mutual

theorem construct_plain : ∀ (v : Value F), v.Plain useKeywordKeys →
    v.EachStruct (KeysSpelled keywords) → construct (values keywords useKeywordKeys) keywords v = v
  | .nil, _, _ => rfl
  | .bool _, _, _ => rfl
  | .int _, _, _ => rfl
  | .float _, _, _ => rfl
  | .string _, _, _ => rfl
  | .array items, hplain, hspelled => congrArg Value.array (constructItems_plain items hplain hspelled)
  | .struct entries, hplain, hspelled => by
    obtain ⟨hascending, hkind, hvalues⟩ := hplain
    have hkeys : ∀ e ∈ entries, keyOf keywords useKeywordKeys (keywords.nameOf e.1) = e.1 :=
      fun e he => keyOf_nameOf (hkind e he) (hspelled.1 e.1 (mem_map_of_mem he))
    have hmap : entries.map (fun e => (keyOf keywords useKeywordKeys (keywords.nameOf e.1), e.2)) =
        entries := by
      conv_rhs => rw [← map_id entries]
      exact map_congr_left fun e he => by rw [hkeys e he]; rfl
    have hfold := foldl_mapInsert (fun e => keyOf keywords useKeywordKeys (keywords.nameOf e.1))
      Prod.snd entries [] (by
        rw [map_nil, nil_append, map_congr_left hkeys]
        exact hascending)
    rw [construct, constructPairs_plain entries hvalues hspelled.2]
    refine congrArg Value.struct ?_
    rw [foldl_map, hfold, nil_append, hmap]
  | .emptyList, h, _ => h.elim
  | .pair _, h, _ => h.elim
  | .improperList, h, _ => h.elim
  | .arrayMut _, h, _ => h.elim
  | .structMut _, h, _ => h.elim
  | .keyword _, h, _ => h.elim
  | .box _, h, _ => h.elim
  | .set _, h, _ => h.elim
  | .setMut _, h, _ => h.elim
  | .unwritable _, h, _ => h.elim

theorem constructItems_plain : ∀ (items : List (Value F)), PlainItems useKeywordKeys items →
    EachStructItems (KeysSpelled keywords) items →
      constructItems (values keywords useKeywordKeys) keywords items = items
  | [], _, _ => rfl
  | v :: items, hplain, hspelled => by
    rw [constructItems, construct_plain v hplain.1 hspelled.1,
      constructItems_plain items hplain.2 hspelled.2]

theorem constructPairs_plain : ∀ (entries : List (Key × Value F)), PlainPairs useKeywordKeys entries →
    EachStructPairs (KeysSpelled keywords) entries →
      constructPairs (values keywords useKeywordKeys) keywords entries =
        entries.map fun e => (keywords.nameOf e.1, e.2)
  | [], _, _ => rfl
  | (key, v) :: entries, hplain, hspelled => by
    rw [constructPairs, construct_plain v hplain.1 hspelled.1,
      constructPairs_plain entries hplain.2 hspelled.2, map_cons]

end

end

/-! ## Documents -/

inductive Doc (F : Type) where
  | null
  | bool (b : Bool)
  | int (n : Int64)
  | float (x : F)
  | string (s : Text)
  | array (items : List (Doc F))
  | object (members : List (Text × Doc F))

section

variable {F : Type}

mutual

/-- No object of the document has a key twice. -/
def Doc.UniqueKeys : Doc F → Prop
  | .null => True
  | .bool _ => True
  | .int _ => True
  | .float _ => True
  | .string _ => True
  | .array items => UniqueKeysItems items
  | .object members => (members.map Prod.fst).Nodup ∧ UniqueKeysMembers members

def UniqueKeysItems : List (Doc F) → Prop
  | [] => True
  | d :: items => d.UniqueKeys ∧ UniqueKeysItems items

def UniqueKeysMembers : List (Text × Doc F) → Prop
  | [] => True
  | (_, d) :: members => d.UniqueKeys ∧ UniqueKeysMembers members

end

def documents : Builder F (Doc F) where
  null := .null
  bool := .bool
  int := .int
  float := .float
  string := .string
  array := .array
  object := .object

variable (keywords : Keywords)

/-- No string key of a struct is the spelling of one of its keyword keys. -/
def KeysApart (keys : List Key) : Prop :=
  ∀ s hash, Key.string s ∈ keys → Key.keyword hash ∈ keys → keywords.spelling hash ≠ some s

variable {keywords}

theorem nodup_names_iff {keys : List Key} (hascending : Ascending keys)
    (hspelled : KeysSpelled keywords keys) :
    (keys.map keywords.nameOf).Nodup ↔ KeysApart keywords keys := by
  have hnodup : keys.Nodup := by
    refine hascending.imp ?_
    rintro a _ hbefore rfl
    exact a.before_irrefl hbefore
  rw [nodup_map_iff_inj_on hnodup]
  constructor
  · intro h s hash hs hk hspell
    have := h _ hs _ hk (by simp [Keywords.nameOf, hspell])
    cases this
  · intro h a ha b hb hname
    have hsa := hspelled a ha
    have hsb := hspelled b hb
    cases a with
    | other n => cases hsa
    | string s =>
      cases b with
      | other n => cases hsb
      | string t => exact congrArg Key.string hname
      | keyword hash =>
        obtain ⟨name, hn⟩ := Option.isSome_iff_exists.mp hsb
        rw [Keywords.nameOf, Keywords.nameOf, hn] at hname
        exact absurd (hname ▸ hn) (h s hash ha hb)
    | keyword hash =>
      obtain ⟨name, hn⟩ := Option.isSome_iff_exists.mp hsa
      cases b with
      | other n => cases hsb
      | string t =>
        rw [Keywords.nameOf, Keywords.nameOf, hn] at hname
        exact absurd (hname ▸ hn) (h t hash hb ha)
      | keyword hash' =>
        obtain ⟨name', hn'⟩ := Option.isSome_iff_exists.mp hsb
        rw [Keywords.nameOf, Keywords.nameOf, hn, hn'] at hname
        rw [← keywords.hash_spelling hash name hn, ← keywords.hash_spelling hash' name' hn']
        exact congrArg (fun n => Key.keyword (keywords.hash n)) hname

theorem map_fst_constructPairs (entries : List (Key × Value F)) :
    (constructPairs documents keywords entries).map Prod.fst =
      (entries.map Prod.fst).map keywords.nameOf := by
  induction entries with
  | nil => rfl
  | cons e entries ih => rw [constructPairs, map_cons, ih, map_cons, map_cons]

mutual

theorem uniqueKeys_iff : ∀ v : Value F, v.EachStruct Ascending → v.EachStruct (KeysSpelled keywords) →
    ((construct documents keywords v).UniqueKeys ↔ v.EachStruct (KeysApart keywords))
  | .nil, _, _ => Iff.rfl
  | .bool _, _, _ => Iff.rfl
  | .int _, _, _ => Iff.rfl
  | .float _, _, _ => Iff.rfl
  | .string _, _, _ => Iff.rfl
  | .emptyList, _, _ => Iff.rfl
  | .improperList, _, _ => Iff.rfl
  | .keyword _, _, _ => Iff.rfl
  | .unwritable _, _, _ => Iff.rfl
  | .pair items, ha, hs | .arrayMut items, ha, hs | .array items, ha, hs | .set items, ha, hs
  | .setMut items, ha, hs => uniqueKeysItems_iff items ha hs
  | .structMut entries, ha, hs | .struct entries, ha, hs => uniqueKeysPairs_iff entries ha hs
  | .box inner, ha, hs => uniqueKeys_iff inner ha hs

theorem uniqueKeysItems_iff : ∀ items : List (Value F), EachStructItems Ascending items →
    EachStructItems (KeysSpelled keywords) items →
      (UniqueKeysItems (constructItems documents keywords items) ↔
        EachStructItems (KeysApart keywords) items)
  | [], _, _ => Iff.rfl
  | v :: items, ha, hs => and_congr (uniqueKeys_iff v ha.1 hs.1) (uniqueKeysItems_iff items ha.2 hs.2)

theorem uniqueKeysPairs_iff : ∀ entries : List (Key × Value F),
    Ascending (entries.map Prod.fst) ∧ EachStructPairs Ascending entries →
      KeysSpelled keywords (entries.map Prod.fst) ∧ EachStructPairs (KeysSpelled keywords) entries →
        ((Doc.object (constructPairs documents keywords entries)).UniqueKeys ↔
          KeysApart keywords (entries.map Prod.fst) ∧ EachStructPairs (KeysApart keywords) entries)
  | entries, ha, hs => by
    rw [Doc.UniqueKeys, map_fst_constructPairs, nodup_names_iff ha.1 hs.1]
    exact and_congr_right fun _ => uniqueKeysMembers_iff entries ha.2 hs.2

theorem uniqueKeysMembers_iff : ∀ entries : List (Key × Value F), EachStructPairs Ascending entries →
    EachStructPairs (KeysSpelled keywords) entries →
      (UniqueKeysMembers (constructPairs documents keywords entries) ↔
        EachStructPairs (KeysApart keywords) entries)
  | [], _, _ => Iff.rfl
  | (_, v) :: entries, ha, hs =>
    and_congr (uniqueKeys_iff v ha.1 hs.1) (uniqueKeysMembers_iff entries ha.2 hs.2)

end

end

/-! ## Round trip -/

section

variable {F : Type} [JsonFloat F] {keywords : Keywords} {layout : Layout}

theorem reads_back_iff (spaced : layout.WellSpaced) {useKeywordKeys : Bool} (level : Nat) {v : Value F}
    (hplain : v.Plain useKeywordKeys) :
    (∃ t, write keywords layout level v = .ok t ∧
      parse (values keywords useKeywordKeys) t = .ok v) ↔ v.EachStruct (KeysSpelled keywords) := by
  constructor
  · rintro ⟨t, hwrite, _⟩
    exact spelled_of_write v hwrite
  · intro hspelled
    obtain ⟨t, hwrite⟩ := write_plain level v hplain hspelled
    have hparse := parse_write (values keywords useKeywordKeys) spaced hwrite
    rw [construct_plain v hplain hspelled] at hparse
    exact ⟨t, hwrite, hparse⟩

theorem document_unique_iff (spaced : layout.WellSpaced) {level : Nat} {v : Value F}
    (hascending : v.EachStruct Ascending) {t : Text} (h : write keywords layout level v = .ok t) :
    ∃ d : Doc F, parse documents t = .ok d ∧ (d.UniqueKeys ↔ v.EachStruct (KeysApart keywords)) :=
  ⟨_, parse_write documents spaced h, uniqueKeys_iff v hascending (spelled_of_write v h)⟩

/-- A plain value is written and read back, in both layouts and at every indent, when the spellings of its
keyword keys are known; and the text of a value the writer accepts has no key twice in an object when no
struct of the value has a string key spelled like one of its keyword keys. -/
theorem written_reads_back (F : Type) [JsonFloat F] (keywords : Keywords) :
    (∀ (useKeywordKeys : Bool) (v : Value F), v.Plain useKeywordKeys →
      ((∃ t, serializeValue keywords v = .ok t ∧
          parse (values keywords useKeywordKeys) t = .ok v) ↔ v.EachStruct (KeysSpelled keywords)) ∧
      ∀ indentLevel, (∃ t, serializeValuePretty keywords indentLevel v = .ok t ∧
          parse (values keywords useKeywordKeys) t = .ok v) ↔ v.EachStruct (KeysSpelled keywords)) ∧
    ∀ (v : Value F) (t : Text), v.EachStruct Ascending →
      (serializeValue keywords v = .ok t ∨ ∃ indentLevel, serializeValuePretty keywords indentLevel v = .ok t) →
      ∃ d : Doc F, parse documents t = .ok d ∧ (d.UniqueKeys ↔ v.EachStruct (KeysApart keywords)) := by
  refine ⟨fun useKeywordKeys v hplain => ⟨reads_back_iff compact_wellSpaced 0 hplain, fun level =>
    reads_back_iff pretty_wellSpaced level hplain⟩, ?_⟩
  rintro v t hascending (h | ⟨level, h⟩)
  · exact document_unique_iff compact_wellSpaced hascending h
  · exact document_unique_iff pretty_wellSpaced hascending h

end

def learnedA : Keywords where
  hash _ := 7
  spelling hash := if hash = 7 then some ['a'] else none
  hash_spelling hash name h := by
    split at h
    · next heq => exact heq.symm
    · cases h

theorem written_key_twice :
    let v : Value Sample := .struct [(.string ['a'], .int 1), (.keyword 7, .int 2)]
    v.EachStruct Ascending ∧
      serializeValue learnedA v = .ok "\x7b\"a\":1,\"a\":2\x7d".toList ∧
      parse documents "\x7b\"a\":1,\"a\":2\x7d".toList =
        .ok (Doc.object [(['a'], Doc.int 1), (['a'], Doc.int 2)] : Doc Sample) ∧
      ¬(Doc.object [(['a'], Doc.int 1), (['a'], Doc.int 2)] : Doc Sample).UniqueKeys := by
  have hwrite : serializeValue learnedA
      (.struct [(.string ['a'], .int 1), (.keyword 7, .int 2)] : Value Sample) =
        .ok "\x7b\"a\":1,\"a\":2\x7d".toList := by
    decide +kernel
  refine ⟨⟨by decide, trivial, trivial, trivial⟩, hwrite, ?_, ?_⟩
  · exact parse_write documents compact_wellSpaced hwrite
  · rintro ⟨hnodup, _⟩
    exact absurd hnodup (by decide)

end Elle.Json

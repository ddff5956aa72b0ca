import Elle.Lib.Budget
import Elle.Lib.Search

/-!
# The HPACK tables

`lib/http2/hpack.lisp`: the static table, the dynamic table with its eviction, and the lookup of a header
in both. A string is the list of its UTF-8 bytes.
-/

namespace Elle.Hpack

open Budget List

abbrev Bytes := List UInt8

abbrev Entry := Bytes × Bytes

/-- What the coders raise: a compression error of the protocol, or an error of a primitive they call. -/
inductive Fault where
  | compressionError (message : String)
  | typeError
  | arityError
deriving DecidableEq, Repr

def ascii (s : String) : Bytes := s.toList.map fun c => UInt8.ofNat c.toNat

/-! ## The static table -/

/-- Entries 1 to 61. -/
def staticEntries : List (String × String) :=
  [(":authority", ""), (":method", "GET"), (":method", "POST"), (":path", "/"),
    (":path", "/index.html"), (":scheme", "http"), (":scheme", "https"), (":status", "200"),
    (":status", "204"), (":status", "206"), (":status", "304"), (":status", "400"),
    (":status", "404"), (":status", "500"), ("accept-charset", ""),
    ("accept-encoding", "gzip, deflate"), ("accept-language", ""), ("accept-ranges", ""),
    ("accept", ""), ("access-control-allow-origin", ""), ("age", ""), ("allow", ""),
    ("authorization", ""), ("cache-control", ""), ("content-disposition", ""),
    ("content-encoding", ""), ("content-language", ""), ("content-length", ""),
    ("content-location", ""), ("content-range", ""), ("content-type", ""), ("cookie", ""),
    ("date", ""), ("etag", ""), ("expect", ""), ("expires", ""), ("from", ""), ("host", ""),
    ("if-match", ""), ("if-modified-since", ""), ("if-none-match", ""), ("if-range", ""),
    ("if-unmodified-since", ""), ("last-modified", ""), ("link", ""), ("location", ""),
    ("max-forwards", ""), ("proxy-authenticate", ""), ("proxy-authorization", ""), ("range", ""),
    ("referer", ""), ("refresh", ""), ("retry-after", ""), ("server", ""), ("set-cookie", ""),
    ("strict-transport-security", ""), ("transfer-encoding", ""), ("user-agent", ""), ("vary", ""),
    ("via", ""), ("www-authenticate", "")]

def staticTable : List Entry := staticEntries.map fun e => (ascii e.1, ascii e.2)

def staticTableSize : Nat := 61

def pairKey (name value : Bytes) : Bytes := name ++ ascii "x00" ++ value

/-- The index of the first static entry with a pair key. -/
def byPair (key : Bytes) : Option Nat :=
  (staticTable.findIdx? fun e => pairKey e.1 e.2 == key).map (· + 1)

/-- The index of the first static entry with a name. -/
def byName (name : Bytes) : Option Nat := (staticTable.findIdx? fun e => e.1 == name).map (· + 1)

/-! ## The dynamic table -/

/-- 32 and the lengths of name and value. -/
def dtEntrySize (e : Entry) : Nat := 32 + e.1.length + e.2.length

/-- The dynamic table, newest entry first, with the sum of the sizes it keeps. -/
structure Table where
  entries : List Entry
  size : Nat
  maxSize : Nat
  size_eq : size = total dtEntrySize entries

def makeDynamicTable (maxSize : Nat) : Table := ⟨[], 0, maxSize, rfl⟩

/-- The loop of `dt-evict`: the oldest entry goes until the rest is within the maximum. -/
def evictLoop (maxSize : Nat) (entries : List Entry) (size : Nat) : List Entry × Nat :=
  if size > maxSize then
    match _h : entries.getLast? with
    | some entry => evictLoop maxSize entries.dropLast (size - dtEntrySize entry)
    | none => (entries, size)
  else (entries, size)
termination_by entries.length
decreasing_by
  have hpos : entries ≠ [] := by
    rintro rfl
    cases _h
  have := List.length_pos_iff.2 hpos
  rw [length_dropLast]
  omega

theorem evictLoop_eq (maxSize : Nat) (entries : List Entry) :
    evictLoop maxSize entries (total dtEntrySize entries) =
      (fit dtEntrySize maxSize entries, total dtEntrySize (fit dtEntrySize maxSize entries)) := by
  induction hn : entries.length generalizing entries with
  | zero =>
    rw [length_eq_zero_iff] at hn
    subst hn
    rw [evictLoop, if_neg (by simp)]
    rfl
  | succ n ih =>
    rw [evictLoop]
    split
    · next hgt =>
      have hne : entries ≠ [] := by
        rintro rfl
        cases hn
      have hsum : total dtEntrySize entries - dtEntrySize (entries.getLast hne) =
          total dtEntrySize entries.dropLast := by
        have hsplit := congrArg (total dtEntrySize) (dropLast_append_getLast hne)
        rw [total_append] at hsplit
        simp only [total_cons, total_nil, Nat.add_zero] at hsplit
        omega
      have hlast : entries.getLast? = some (entries.getLast hne) := getLast?_eq_some_getLast hne
      split
      · next entry hentry =>
        rw [hlast, Option.some.injEq] at hentry
        rw [← hentry, hsum, ih _ (by rw [length_dropLast, hn]; rfl), fit_dropLast hgt]
      · next hnone =>
        rw [hlast] at hnone
        cases hnone
    · next hle =>
      rw [fit_eq_self (Nat.le_of_not_lt hle)]

namespace Table

def evict (dt : Table) : Table :=
  let r := evictLoop dt.maxSize dt.entries dt.size
  ⟨r.1, r.2, dt.maxSize, by
    show (evictLoop _ _ _).2 = total dtEntrySize (evictLoop _ _ _).1
    rw [dt.size_eq, evictLoop_eq]⟩

def add (dt : Table) (e : Entry) : Table :=
  evict ⟨e :: dt.entries, dt.size + dtEntrySize e, dt.maxSize, by
    rw [dt.size_eq, total_cons, Nat.add_comm]⟩

def setMaxSize (dt : Table) (newMax : Nat) : Table := evict { dt with maxSize := newMax }

theorem entries_evict (dt : Table) : dt.evict.entries = fit dtEntrySize dt.maxSize dt.entries := by
  show (evictLoop _ _ _).1 = _
  rw [dt.size_eq, evictLoop_eq]

@[simp] theorem entries_add (dt : Table) (e : Entry) :
    (dt.add e).entries = fit dtEntrySize dt.maxSize (e :: dt.entries) :=
  entries_evict _

@[simp] theorem entries_setMaxSize (dt : Table) (n : Nat) :
    (dt.setMaxSize n).entries = fit dtEntrySize n dt.entries :=
  entries_evict _

/-- `dt-get`: the entry of an index in both tables. -/
def get (dt : Table) (index : Nat) : Except Fault Entry :=
  if index = 0 then .error (.compressionError "HPACK: invalid index 0")
  else if index ≤ staticTableSize then
    match staticTable[index - 1]? with
    | some e => .ok e
    | none => .error .typeError
  else
    match dt.entries[index - staticTableSize - 1]? with
    | some e => .ok e
    | none =>
      .error (.compressionError ("HPACK: dynamic table index out of range: " ++ toString index))

/-- The loop of `dt-lookup` over the dynamic table: the first entry with the name, and the last with name
and value. -/
def scan (name value : Bytes) : List Entry → Nat → Option Nat → Option Nat → Option Nat × Option Nat
  | [], _, nameIdx, exact => (nameIdx, exact)
  | e :: rest, j, nameIdx, exact =>
    if e.1 = name then
      scan name value rest (j + 1) (nameIdx.or (some (staticTableSize + j + 1)))
        (if e.2 = value then some (staticTableSize + j + 1) else exact)
    else scan name value rest (j + 1) nameIdx exact

/-- `dt-lookup`: the index of a header, and whether its value stands there too. -/
def lookup (dt : Table) (name value : Bytes) : Option (Nat × Bool) :=
  match byPair (pairKey name value) with
  | some index => some (index, true)
  | none =>
    let (nameIdx, exact) := scan name value dt.entries 0 none none
    match exact with
    | some index => some (index, true)
    | none =>
      match byName name with
      | some index => some (index, false)
      | none => nameIdx.map (·, false)

end Table

/-! ## What a lookup finds -/

theorem mark_unique : ∀ e ∈ staticTable, ∀ i, i < (pairKey e.1 e.2).length →
    Search.At (ascii "x00") (pairKey e.1 e.2) i → i = e.1.length := by
  decide +kernel

theorem pairKey_static {e : Entry} (he : e ∈ staticTable) {name value : Bytes}
    (h : pairKey e.1 e.2 = pairKey name value) : e = (name, value) := by
  have hat : Search.At (ascii "x00") (pairKey e.1 e.2) name.length := by
    rw [h, pairKey, append_assoc]
    exact (Search.at_append_right _ name _ 0).2 (prefix_append _ _)
  have hlt : name.length < (pairKey e.1 e.2).length := by
    rw [h, pairKey, append_assoc, length_append, length_append]
    exact Nat.lt_add_of_pos_right (Nat.add_pos_left (by decide) _)
  have hlen := mark_unique e he _ hlt hat
  rw [pairKey, pairKey, append_assoc, append_assoc] at h
  obtain ⟨hname, hrest⟩ := append_inj h hlen.symm
  exact Prod.ext hname (append_cancel_left hrest)

theorem length_staticTable : staticTable.length = staticTableSize := by
  decide +kernel

theorem findIdx_static {p : Entry → Bool} {index : Nat}
    (h : (staticTable.findIdx? p).map (· + 1) = some index) :
    0 < index ∧ index ≤ staticTableSize ∧ ∃ e, staticTable[index - 1]? = some e ∧ p e := by
  obtain ⟨i, hi, rfl⟩ := Option.map_eq_some_iff.1 h
  obtain ⟨hlt, hp, _⟩ := List.findIdx?_eq_some_iff_getElem.1 hi
  exact ⟨Nat.succ_pos _, hlt, _, getElem?_eq_getElem _, hp⟩

namespace Table

theorem get_static (dt : Table) {index : Nat} {e : Entry} (hpos : 0 < index)
    (hle : index ≤ staticTableSize) (he : staticTable[index - 1]? = some e) : dt.get index = .ok e := by
  rw [get, if_neg (by omega), if_pos hle, he]

theorem get_dynamic (dt : Table) (i : Nat) :
    dt.get (staticTableSize + i + 1) =
      match dt.entries[i]? with
      | some e => .ok e
      | none => .error (.compressionError
          ("HPACK: dynamic table index out of range: " ++ toString (staticTableSize + i + 1))) := by
  rw [get, if_neg (by omega), if_neg (by omega)]
  have hi : staticTableSize + i + 1 - staticTableSize - 1 = i := by omega
  rw [hi]

theorem scan_spec {name value : Bytes} {all entries : List Entry} {j : Nat}
    {nameIdx exact : Option Nat} (hall : all.drop j = entries)
    (hname : ∀ i ∈ nameIdx, ∃ k, i = staticTableSize + k + 1 ∧ ∃ e, all[k]? = some e ∧ e.1 = name)
    (hexact : ∀ i ∈ exact, ∃ k, i = staticTableSize + k + 1 ∧ all[k]? = some (name, value)) :
    (∀ i ∈ (scan name value entries j nameIdx exact).1,
      ∃ k, i = staticTableSize + k + 1 ∧ ∃ e, all[k]? = some e ∧ e.1 = name) ∧
    ∀ i ∈ (scan name value entries j nameIdx exact).2,
      ∃ k, i = staticTableSize + k + 1 ∧ all[k]? = some (name, value) := by
  induction entries generalizing j nameIdx exact with
  | nil => exact ⟨hname, hexact⟩
  | cons e rest ih =>
    have hj : all[j]? = some e := by
      rw [← head?_drop, hall]
      rfl
    have hrest : all.drop (j + 1) = rest := by
      rw [← drop_drop, hall]
      rfl
    unfold scan
    split
    · next hn =>
      refine ih hrest ?_ ?_
      · intro i hi
        rcases Option.or_eq_some_iff.1 hi with h | ⟨_, h⟩
        · exact hname i h
        · cases h
          exact ⟨j, rfl, e, hj, hn⟩
      · intro i hi
        split at hi
        · next hv =>
          cases hi
          refine ⟨j, rfl, ?_⟩
          rw [hj, ← hn, ← hv]
        · exact hexact i hi
    · exact ih hrest hname hexact

theorem scan_all (name value : Bytes) (entries : List Entry) :
    (∀ i ∈ (scan name value entries 0 none none).1,
      ∃ k, i = staticTableSize + k + 1 ∧ ∃ e, entries[k]? = some e ∧ e.1 = name) ∧
    ∀ i ∈ (scan name value entries 0 none none).2,
      ∃ k, i = staticTableSize + k + 1 ∧ entries[k]? = some (name, value) :=
  scan_spec drop_zero (fun i hi => by cases hi) (fun i hi => by cases hi)

theorem lookup_spec {dt : Table} {name value : Bytes} {index : Nat} {exact : Bool}
    (h : dt.lookup name value = some (index, exact)) :
    0 < index ∧ index ≤ staticTableSize + dt.entries.length ∧
      ∃ e, dt.get index = .ok e ∧ e.1 = name ∧ (exact → e.2 = value) := by
  obtain ⟨hname, hexact⟩ := scan_all name value dt.entries
  unfold lookup at h
  split at h
  · next i hi =>
    cases h
    obtain ⟨hpos, hle, e, he, hkey⟩ := findIdx_static hi
    have heq := pairKey_static (mem_of_getElem? he) (beq_iff_eq.1 hkey)
    refine ⟨hpos, by omega, e, dt.get_static hpos hle he, by rw [heq], fun _ => by rw [heq]⟩
  · dsimp only at h
    split at h
    · next i hi =>
      cases h
      obtain ⟨k, rfl, hk⟩ := hexact _ hi
      have hlt := (List.getElem?_eq_some_iff.1 hk).1
      refine ⟨by omega, by omega, _, by rw [get_dynamic, hk], rfl, fun _ => rfl⟩
    · split at h
      · next i hi =>
        cases h
        obtain ⟨hpos, hle, e, he, hkey⟩ := findIdx_static hi
        exact ⟨hpos, by omega, e, dt.get_static hpos hle he, beq_iff_eq.1 hkey, fun h => by cases h⟩
      · obtain ⟨i, hi, hpair⟩ := Option.map_eq_some_iff.1 h
        cases hpair
        obtain ⟨k, rfl, e, hk, hn⟩ := hname _ hi
        have hlt := (List.getElem?_eq_some_iff.1 hk).1
        exact ⟨by omega, by omega, e, by rw [get_dynamic, hk], hn, fun h => by cases h⟩

end Table

end Elle.Hpack

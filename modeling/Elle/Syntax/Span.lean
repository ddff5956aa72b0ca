import Mathlib

/-!
# Source files and spans

The process-wide table of file names (`syntax/files.rs`) and the spans that name their file by an
index into it (`syntax/span.rs`). The table only grows, so a name and its id stay together.
-/

namespace Elle

open List

/-- The names in id order. Index 0 is the absent name; the reverse map is the index of a name. -/
structure Files where
  names : List String
  absent : names.head? = some ""
  nodup : names.Nodup

abbrev FileId := UInt32

namespace Files

variable (files : Files)

def intern (name : String) : FileId × Files :=
  if name = "" then (0, files)
  else if h : name ∈ files.names then (UInt32.ofNat (files.names.idxOf name), files)
  else
    (UInt32.ofNat files.names.length,
      { names := files.names ++ [name]
        absent := by
          have := files.absent
          rw [head?_append, this]
          rfl
        nodup := List.nodup_append.2 ⟨files.nodup, nodup_singleton name, by
          intro a ha b hb
          rw [mem_singleton] at hb
          rintro rfl
          exact h (hb ▸ ha)⟩ })

def name (id : FileId) : Option String :=
  if id = 0 then none else files.names[id.toNat]?

variable {files} {later : Files} {id : FileId}

theorem ne_empty_of_getElem? {name : String} (h : files.names[id.toNat]? = some name) (hid : id ≠ 0) :
    name ≠ "" := by
  rintro rfl
  have h0 : files.names[0]? = some "" := by rw [← head?_eq_getElem?, files.absent]
  have hlt := (List.getElem?_eq_some_iff.1 h).1
  have hid' : id.toNat ≠ 0 := fun h => hid (UInt32.toNat_inj.1 h)
  exact hid' ((getElem?_inj hlt files.nodup).1 (h.trans h0.symm))

/-- An id handed out keeps its name however far the table grows, and the name its id. -/
theorem intern_name {name : String} (hlater : files.names <+: later.names)
    (h : files.name id = some name) : later.intern name = (id, later) := by
  unfold Files.name at h
  split at h
  · cases h
  · next hid =>
    obtain ⟨more, hmore⟩ := hlater
    have hlt := (List.getElem?_eq_some_iff.1 h).1
    have h' : later.names[id.toNat]? = some name := by
      rw [← hmore, getElem?_append_left hlt, h]
    have hmem := mem_of_getElem? h'
    have hidx : later.names.idxOf name = id.toNat := by
      refine (getElem?_inj (idxOf_lt_length_of_mem hmem) later.nodup).1 ?_
      rw [getElem?_idxOf hmem, h']
    rw [intern, if_neg (ne_empty_of_getElem? h hid), dif_pos hmem, hidx, UInt32.ofNat_toNat]

end Files

structure Span where
  start : UInt32
  stop : UInt32
  line : UInt32
  col : UInt32
  file : FileId
  deriving DecidableEq, Repr

namespace Span

/-- The offsets are cut to 32 bits, and there is no file yet. -/
def new (start stop : Nat) (line col : UInt32) : Span :=
  ⟨UInt32.ofNat start, UInt32.ofNat stop, line, col, 0⟩

def withFile (span : Span) (name : String) (files : Files) : Span × Files :=
  ({ span with file := (files.intern name).1 }, (files.intern name).2)

end Span

end Elle

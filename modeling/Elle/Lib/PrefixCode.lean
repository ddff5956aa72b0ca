import Mathlib

/-!
# Prefix codes

A code of symbols as bit strings, read with a binary trie. If walking the trie along the code of a symbol
finds the symbol at its end, any sequence of codes reads back, and bits that are cut off inside a code are
padding.
-/

namespace PrefixCode

/-- A trie: no path, a symbol, or a node with the paths of bit 0 and bit 1. -/
inductive Trie (σ : Type) where
  | missing
  | leaf (s : σ)
  | node (left right : Trie σ)
deriving DecidableEq

namespace Trie

variable {σ : Type}

def child : Trie σ → Bool → Trie σ
  | node left right, b => if b then right else left
  | _, _ => missing

/-- The trie with a symbol at a path, with nodes made on the way. -/
def insert : Trie σ → List Bool → σ → Trie σ
  | _, [], s => leaf s
  | t, false :: bits, s => node ((t.child false).insert bits s) (t.child true)
  | t, true :: bits, s => node (t.child false) ((t.child true).insert bits s)

/-- What a walk from a node comes to. -/
inductive Walk (σ : Type) where
  | found (s : σ) (rest : List Bool)
  | cut (at_ : Trie σ)
  | invalid
deriving DecidableEq

/-- Bits are read until a symbol is found. -/
def walk (t : Trie σ) : List Bool → Walk σ
  | [] => .cut t
  | b :: bits =>
    match t.child b with
    | leaf s => .found s bits
    | missing => .invalid
    | node left right => (node left right).walk bits

theorem walk_append_of_found {t : Trie σ} {bits rest : List Bool} {s : σ} (h : t.walk bits = .found s rest)
    (more : List Bool) : t.walk (bits ++ more) = .found s (rest ++ more) := by
  induction bits generalizing t with
  | nil => cases h
  | cons b bits ih =>
    rw [walk] at h
    rw [List.cons_append, walk]
    split at h
    · cases h
      rfl
    · cases h
    · exact ih h

theorem walk_append_of_cut {t t' : Trie σ} {bits : List Bool} (h : t.walk bits = .cut t')
    (more : List Bool) : t.walk (bits ++ more) = t'.walk more := by
  induction bits generalizing t with
  | nil => cases h; rfl
  | cons b bits ih =>
    rw [walk] at h
    rw [List.cons_append, walk]
    split at h
    · cases h
    · cases h
    · exact ih h

theorem walk_left_of_cut {t t' : Trie σ} {bits more : List Bool} (h : t.walk (bits ++ more) = .cut t') :
    ∃ at_, t.walk bits = .cut at_ := by
  induction bits generalizing t with
  | nil => exact ⟨t, rfl⟩
  | cons b bits ih =>
    rw [List.cons_append, walk] at h
    rw [walk]
    split at h
    · cases h
    · cases h
    · exact ih h

/-- The bits are codes of symbols one after the other, then at most a code that is cut off. -/
inductive Reads (t : Trie σ) : List Bool → List σ → Prop
  | cut {bits : List Bool} {at_ : Trie σ} : t.walk bits = .cut at_ → Reads t bits []
  | found {bits rest : List Bool} {s : σ} {symbols : List σ} :
      t.walk bits = .found s rest → Reads t rest symbols → Reads t bits (s :: symbols)

theorem reads_codes {t at_ : Trie σ} {code : σ → List Bool} {pad : List Bool} {symbols : List σ}
    (hcode : ∀ s ∈ symbols, t.walk (code s) = .found s []) (hpad : t.walk pad = .cut at_) :
    Reads t (symbols.flatMap code ++ pad) symbols := by
  induction symbols with
  | nil => exact .cut hpad
  | cons s symbols ih =>
    rw [List.flatMap_cons, List.append_assoc]
    refine .found (walk_append_of_found (hcode s List.mem_cons_self) _) ?_
    exact ih fun s' hs' => hcode s' (List.mem_cons_of_mem _ hs')

end Trie

end PrefixCode

import Elle.Hpack.Huffman

/-!
# The Huffman code table

What the codec relies on in its tables: walking the decode tree along the code of a symbol finds the symbol,
the byte-wide table is a walk of eight bits, and fewer than eight ones are no code.
-/

namespace Elle.Hpack.HuffmanCode

open PrefixCode

/-- The walk along every code, along every window the byte-wide table has, and along the two it has
not. -/
theorem tree_walks : (∀ e ∈ table.zipIdx, decodeTree.walk (codeBits e.1) = .found e.2 []) ∧
    (∀ x ∈ fastWrites, decodeTree.walk (windowBits x.1) = .found x.2.1 ((windowBits x.1).drop x.2.2)) ∧
    ∀ window ∈ [254, 255], decodeTree.walk (windowBits window) = .cut (fastNode window) := by
  decide +kernel

theorem fastWrites_facts : (∀ x ∈ fastWrites, 0 < x.2.2 ∧ x.2.2 ≤ 8 ∧ x.2.1 < 256) ∧
    ∀ window : Fin 254, (fastWrites.reverse.lookup window.val).isSome := by
  decide +kernel

theorem table_facts : table.length = 257 ∧ ∀ e ∈ table, 0 < e.2 ∧ e.2 ≤ 30 ∧ e.1 < 2 ^ e.2 := by
  decide +kernel

theorem entry_mem (b : UInt8) : (entry b.toNat, b.toNat) ∈ table.zipIdx := by
  have hlt : b.toNat < table.length := by
    have := b.toNat_lt
    rw [table_facts.1]
    omega
  rw [entry, List.getElem?_eq_getElem hlt, Option.getD_some]
  exact List.mem_zipIdx_iff_getElem?.2 (List.getElem?_eq_getElem hlt)

theorem entry_facts (b : UInt8) :
    0 < (entry b.toNat).2 ∧ (entry b.toNat).2 ≤ 30 ∧ (entry b.toNat).1 < 2 ^ (entry b.toNat).2 :=
  table_facts.2 _ (List.fst_mem_of_mem_zipIdx (entry_mem b))

theorem walk_code (b : UInt8) : decodeTree.walk (codeBits (entry b.toNat)) = .found b.toNat [] :=
  tree_walks.1 _ (entry_mem b)

theorem walk_pad {k : Nat} (h : k < 8) : ∃ node, decodeTree.walk (List.replicate k true) = .cut node := by
  have hones : windowBits 255 = List.replicate k true ++ List.replicate (8 - k) true := by
    rw [List.replicate_append_replicate, Nat.add_sub_cancel' (Nat.le_of_lt h)]
    rfl
  have hcut := tree_walks.2.2 255 (by decide)
  rw [hones] at hcut
  exact Trie.walk_left_of_cut hcut

theorem walk_fast {window : Nat} (h : window < 256) :
    ((fastEntry window).2 > 0 → (fastEntry window).2 ≤ 8 ∧ (fastEntry window).1 < 256 ∧
      decodeTree.walk (windowBits window) =
        .found (fastEntry window).1 ((windowBits window).drop (fastEntry window).2)) ∧
    ((fastEntry window).2 = 0 → decodeTree.walk (windowBits window) = .cut (fastNode window)) := by
  unfold fastEntry
  cases hlookup : fastWrites.reverse.lookup window with
  | none =>
    have hge : 254 ≤ window := by
      by_contra hlt
      have := fastWrites_facts.2 ⟨window, by omega⟩
      rw [hlookup] at this
      cases this
    refine ⟨fun h => absurd h (by decide), fun _ => tree_walks.2.2 window ?_⟩
    have : window = 254 ∨ window = 255 := by omega
    simpa using this
  | some e =>
    have hmem : (window, e) ∈ fastWrites := by
      obtain ⟨l₁, l₂, heq, _⟩ := List.lookup_eq_some_iff.1 hlookup
      rw [← List.mem_reverse, heq]
      simp
    obtain ⟨hpos, hle, hsym⟩ := fastWrites_facts.1 _ hmem
    have hwalk := tree_walks.2.1 _ hmem
    exact ⟨fun _ => ⟨hle, hsym, hwalk⟩, fun hzero => absurd hzero (Nat.ne_of_gt hpos)⟩

end Elle.Hpack.HuffmanCode

import Mathlib

/-!
# The collapsed renames of a range of epochs

`collapsedRenames` folds the rename rules of the epochs in a range into one table (`epoch/rules.rs`).
A rule whose old name some entry leads to redirects one such entry, the first in the order the hash
map is walked in; otherwise it adds an entry. Renaming by the table is renaming by one rule after
another exactly if each rule is `Traced`.
-/

namespace Elle.Epoch

inductive MigrationRule where
  | rename (old new : String)
  /-- The kinds of rule that no table of renames reads. -/
  | other

structure Migration where
  epoch : Nat
  rules : List MigrationRule

def migrationsInRange (migrations : List Migration) (since upto : Nat) : List Migration :=
  migrations.filter fun m => since < m.epoch && m.epoch ≤ upto

abbrev Renames : Type := AList fun _ : String => String

/-- The order in which a hash map is walked: any order of its entries. -/
structure Walk where
  entries : Renames → List (Σ _ : String, String)
  perm : ∀ table, (entries table).Perm table.entries

/-- One rule of the loop: what leads to `old` is found by its value. -/
def collapseRule (walk : Walk) (table : Renames) : MigrationRule → Renames
  | .rename old new =>
    match (walk.entries table).find? fun e => e.2 = old with
    | some e => table.insert e.1 new
    | none => table.insert old new
  | .other => table

def collapsedRenames (walk : Walk) (migrations : List Migration) (since upto : Nat) : Renames :=
  (migrationsInRange migrations since upto).foldl (fun table m => m.rules.foldl (collapseRule walk) table) ∅

/-- The name a table of renames gives: a name that is not in it is kept. -/
def Renames.spell (table : Renames) (name : String) : String := (table.lookup name).getD name

/-! ## Renaming by one rule after another -/

def rulesInRange (migrations : List Migration) (since upto : Nat) : List MigrationRule :=
  (migrationsInRange migrations since upto).flatMap Migration.rules

def MigrationRule.apply (name : String) : MigrationRule → String
  | .rename old new => if name = old then new else name
  | .other => name

def renamed (rules : List MigrationRule) (name : String) : String :=
  rules.foldl MigrationRule.apply name

/-- After `rules` one name stands at `old`; or none does, and `old` stands at `new` already; or the
rule changes nothing. -/
def Traced (rules : List MigrationRule) : MigrationRule → Prop
  | .rename old new =>
    (∃! name, renamed rules name = old) ∨
      (renamed rules old = new ∧ ∀ name, renamed rules name ≠ old) ∨
      (old = new ∧ ∃ name, renamed rules name = old)
  | .other => True

def collapse (walk : Walk) (rules : List MigrationRule) : Renames := rules.foldl (collapseRule walk) ∅

variable {walk : Walk} {rules : List MigrationRule} {table : Renames}

theorem collapsedRenames_eq (migrations : List Migration) (since upto : Nat) :
    collapsedRenames walk migrations since upto = collapse walk (rulesInRange migrations since upto) :=
  List.foldl_flatMap.symm

theorem renamed_append (rule : MigrationRule) (name : String) :
    renamed (rules ++ [rule]) name = rule.apply (renamed rules name) := by
  rw [renamed, List.foldl_append]
  rfl

theorem collapse_append (rule : MigrationRule) :
    collapse walk (rules ++ [rule]) = collapseRule walk (collapse walk rules) rule := by
  rw [collapse, List.foldl_append]
  rfl

theorem spell_insert (key new name : String) :
    Renames.spell (table.insert key new) name = if name = key then new else table.spell name := by
  rw [Renames.spell]
  split
  · next h => rw [h, AList.lookup_insert, Option.getD_some]
  · next h => rw [AList.lookup_insert_ne h, Renames.spell]

/-- The rule sets one name to `new`: one that stands at `old`, or `old` if no other name does. -/
theorem collapseRule_rename (walk : Walk) (table : Renames) (old new : String) :
    ∃ key, collapseRule walk table (.rename old new) = table.insert key new ∧
      (table.spell key = old ∨ key = old ∧ ∀ name, table.spell name ≠ old) := by
  rw [collapseRule]
  split
  · next e he =>
    have hmem := (walk.perm table).mem_iff.mp (List.mem_of_find?_eq_some he)
    have hval : e.2 = old := by simpa using List.find?_some he
    refine ⟨e.1, rfl, .inl ?_⟩
    rw [Renames.spell, AList.mem_lookup_iff.mpr hmem, Option.getD_some, hval]
  · next hnone =>
    have hno : ∀ key, table.lookup key ≠ some old := by
      intro key h
      have hmem := (walk.perm table).mem_iff.mpr (AList.mem_lookup_iff.mp h)
      simpa using List.find?_eq_none.mp hnone _ hmem
    refine ⟨old, rfl, ?_⟩
    cases hold : table.lookup old with
    | none => exact .inl (by rw [Renames.spell, hold, Option.getD_none])
    | some v =>
      refine .inr ⟨rfl, fun name hname => ?_⟩
      cases h : table.lookup name with
      | none =>
        rw [Renames.spell, h, Option.getD_none] at hname
        rw [hname, hold] at h
        cases h
      | some w =>
        rw [Renames.spell, h, Option.getD_some] at hname
        exact hno name (hname ▸ h)

/-- From a table that is right, one rule gives a right table exactly if it is traced. -/
theorem right_iff_traced (h : ∀ name, (collapse walk rules).spell name = renamed rules name)
    (rule : MigrationRule) :
    (∀ name, (collapse walk (rules ++ [rule])).spell name = renamed (rules ++ [rule]) name) ↔
      Traced rules rule := by
  simp only [collapse_append, renamed_append]
  cases rule with
  | other => exact ⟨fun _ => trivial, fun _ => h⟩
  | rename old new =>
    obtain ⟨key, heq, hkey⟩ := collapseRule_rename walk (collapse walk rules) old new
    simp only [heq, spell_insert, h, MigrationRule.apply] at hkey ⊢
    constructor
    · intro hright
      rcases hkey with hkey | ⟨rfl, hno⟩
      · by_cases hnew : old = new
        · exact .inr (.inr ⟨hnew, key, hkey⟩)
        -- any other name at `old` is renamed by the rule and left alone by the table
        refine .inl ⟨key, hkey, fun name hname => by_contra fun hne => hnew ?_⟩
        have := hright name
        rw [if_neg hne, if_pos hname] at this
        exact hname.symm.trans this
      · have := hright key
        rw [if_pos rfl, if_neg (hno key)] at this
        exact .inr (.inl ⟨this.symm, hno⟩)
    · intro htraced name
      rcases hkey with hkey | ⟨rfl, hno⟩
      · rcases htraced with ⟨n, _, huniq⟩ | ⟨_, hno⟩ | ⟨rfl, _⟩
        · have hiff : name = key ↔ renamed rules name = old :=
            ⟨fun heq => heq ▸ hkey, fun hname => (huniq _ hname).trans (huniq _ hkey).symm⟩
          simp only [hiff]
        · exact absurd hkey (hno key)
        · split <;> split <;> simp_all
      · rw [if_neg (hno name)]
        split
        · next heq =>
          rcases htraced with ⟨n, hn, _⟩ | ⟨hold, _⟩ | ⟨_, n, hn⟩
          · exact absurd hn (hno n)
          · rw [heq, hold]
          · exact absurd hn (hno n)
        · rfl

/-- The collapsed table answers like the renames applied in order, after each rule of the range,
exactly if every rule is traced; the table of the whole range then does so too. -/
theorem collapsed_renames_right_iff (walk : Walk) (migrations : List Migration) (since upto : Nat) :
    ((∀ rules, rules <+: rulesInRange migrations since upto → ∀ name,
        (collapse walk rules).spell name = renamed rules name) ↔
      ∀ rules rule, rules ++ [rule] <+: rulesInRange migrations since upto → Traced rules rule) ∧
    ((∀ rules rule, rules ++ [rule] <+: rulesInRange migrations since upto → Traced rules rule) →
      ∀ name, (collapsedRenames walk migrations since upto).spell name =
        renamed (rulesInRange migrations since upto) name) := by
  have hright : (∀ rules rule, rules ++ [rule] <+: rulesInRange migrations since upto → Traced rules rule) →
      ∀ rules, rules <+: rulesInRange migrations since upto → ∀ name,
        (collapse walk rules).spell name = renamed rules name := by
    intro htraced rules
    induction rules using List.reverseRecOn with
    | nil => exact fun _ _ => rfl
    | append_singleton rules rule ih =>
      intro hpre
      exact (right_iff_traced (ih ((List.prefix_append _ _).trans hpre)) rule).mpr (htraced _ _ hpre)
  refine ⟨⟨fun h rules rule hpre => ?_, hright⟩, fun htraced => ?_⟩
  · exact (right_iff_traced (h rules ((List.prefix_append _ _).trans hpre)) rule).mp (h _ hpre)
  · rw [collapsedRenames_eq]
    exact hright htraced _ (List.prefix_refl _)

/-- A hash map walked from its newest key, and one walked from its oldest. -/
def Walk.newest : Walk := ⟨AList.entries, fun _ => .refl _⟩

def Walk.oldest : Walk := ⟨fun table => table.entries.reverse, fun table => table.entries.reverse_perm⟩

/-- `a → b → c` leaves `b` as it is. After `a → c` and `b → c`, the rule `c → d` moves the one of `a`
and `b` that the walk comes to first. -/
theorem chain_leaves_middle :
    (collapsedRenames .newest [⟨1, [.rename "a" "b"]⟩, ⟨2, [.rename "b" "c"]⟩] 0 2).spell "b" = "b" ∧
    renamed (rulesInRange [⟨1, [.rename "a" "b"]⟩, ⟨2, [.rename "b" "c"]⟩] 0 2) "b" = "c" ∧
    (collapsedRenames .newest [⟨1, [.rename "a" "c", .rename "b" "c"]⟩, ⟨2, [.rename "c" "d"]⟩] 0 2).spell "a" = "c" ∧
    (collapsedRenames .oldest [⟨1, [.rename "a" "c", .rename "b" "c"]⟩, ⟨2, [.rename "c" "d"]⟩] 0 2).spell "a" = "d" := by
  decide

end Elle.Epoch

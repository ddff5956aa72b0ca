import Mathlib

/-! # Quasiquote

The expansion of a quasiquoted template to code that builds it (`syntax/expand/quasiquote.rs`).  The code calls `list`,
`array` and `append`: `append` joins two lists or two arrays and raises on a mixed pair.  `fill` is what a template
shows: each unquote of the outermost quasiquote replaced by its value, each of its splices in a list or array by the
elements of its value.  `faults` counts the places where the code builds something else.
-/

namespace Elle.Quasiquote

open List

variable {A : Type}

inductive Tmpl (A : Type)
  | atom (a : A)
  | symbol (s : String)
  | list (items : List (Tmpl A))
  | array (items : List (Tmpl A))
  | unquote (inner : Tmpl A)
  | unquoteSplicing (inner : Tmpl A)
  | quasiquote (inner : Tmpl A)

/-- A value; `syn` is the syntax object a template's symbol becomes. -/
inductive Val (A : Type)
  | atom (a : A)
  | sym (s : String)
  | syn (s : String)
  | list (vs : List (Val A))
  | array (vs : List (Val A))

inductive Fn
  | list | array | append

/-- Generated code; `expr` is an unquoted expression, expanded. -/
inductive Code (A : Type)
  | quote (t : Tmpl A)
  | literal (s : String)
  | expr (t : Tmpl A)
  | call (f : Fn) (args : List (Code A))

/-! ### The expansion -/

/-- An element of a list on its way into the code: one value, or a splice of several. -/
inductive Piece (A : Type)
  | item (c : Code A)
  | splice (c : Code A)

namespace Piece

def code : Piece A → Code A
  | item c | splice c => c

def isSplice : Piece A → Bool
  | item _ => false
  | splice _ => true

end Piece

/-- The segment collected so far, when there is one. -/
def flush (cur : List (Code A)) : List (Code A) := if cur.isEmpty then [] else [.call .list cur]

def segments : List (Piece A) → List (Code A) → List (Code A)
  | [], cur => flush cur
  | .item c :: ps, cur => segments ps (cur ++ [c])
  | .splice c :: ps, cur => flush cur ++ c :: segments ps []

/-- Binary `append` calls, nested to the right. -/
def nest : List (Code A) → Code A
  | [] => .call .list []
  | [c] => c
  | c :: c' :: cs => .call .append [c, nest (c' :: cs)]

def listToCode (ps : List (Piece A)) : Code A :=
  if ps.isEmpty then .quote (.list [])
  else if ps.any Piece.isSplice then nest (segments ps [])
  else .call .list (ps.map Piece.code)

mutual

def toCode (depth : Nat) : Tmpl A → Code A
  | .unquote t =>
    if depth = 1 then .expr t else .call .list [.quote (.symbol "unquote"), toCode (depth - 1) t]
  | .quasiquote t => .call .list [.quote (.symbol "quasiquote"), toCode (depth + 1) t]
  | .list items => listToCode (pieces depth items)
  | .array items => .call .array (codes depth items)
  | .symbol s => .literal s
  | .atom a => .quote (.atom a)
  | .unquoteSplicing t => .quote (.unquoteSplicing t)

def pieces (depth : Nat) : List (Tmpl A) → List (Piece A)
  | [] => []
  | .unquoteSplicing t :: ts =>
    .splice (if depth = 1 then .expr t else toCode (depth - 1) t) :: pieces depth ts
  | t :: ts => .item (toCode depth t) :: pieces depth ts

def codes (depth : Nat) : List (Tmpl A) → List (Code A)
  | [] => []
  | t :: ts => toCode depth t :: codes depth ts

end

/-! ### What the code evaluates to -/

mutual

/-- The value of a quoted template. -/
def datum : Tmpl A → Val A
  | .atom a => .atom a
  | .symbol s => .sym s
  | .list items => .list (data items)
  | .array items => .array (data items)
  | .unquote t => .list [.sym "unquote", datum t]
  | .unquoteSplicing t => .list [.sym "unquote-splicing", datum t]
  | .quasiquote t => .list [.sym "quasiquote", datum t]

def data : List (Tmpl A) → List (Val A)
  | [] => []
  | t :: ts => datum t :: data ts

end

section

variable (ev : Tmpl A → Val A) (join : A → A → Option A)

def Fn.apply : Fn → List (Val A) → Option (Val A)
  | list, vs => some (.list vs)
  | array, vs => some (.array vs)
  | append, [.list vs, .list ws] => some (.list (vs ++ ws))
  | append, [.array vs, .array ws] => some (.array (vs ++ ws))
  -- strings and bytes are atoms here
  | append, [.atom a, .atom b] => (join a b).map .atom
  | append, _ => none

mutual

/-- `ev` gives the values of the unquoted expressions. -/
def eval : Code A → Option (Val A)
  | .quote t => some (datum t)
  | .literal s => some (.syn s)
  | .expr t => some (ev t)
  | .call f args => (evals args).bind (f.apply join)

def evals : List (Code A) → Option (List (Val A))
  | [] => some []
  | c :: cs => (eval c).bind fun v => (evals cs).map (v :: ·)

end

end

/-! ### What the template shows -/

mutual

/-- A value without hygiene: a syntax object stands for its symbol. -/
def plain : Val A → Val A
  | .syn s => .sym s
  | .list vs => .list (plains vs)
  | .array vs => .array (plains vs)
  | .atom a => .atom a
  | .sym s => .sym s

def plains : List (Val A) → List (Val A)
  | [] => []
  | v :: vs => plain v :: plains vs

end

def elements : Val A → List (Val A)
  | .list vs | .array vs => vs
  | _ => []

section

variable (ev : Tmpl A → Val A)

mutual

def fill (depth : Nat) : Tmpl A → Val A
  | .atom a => .atom a
  | .symbol s => .sym s
  | .list items => .list (fills depth items)
  | .array items => .array (fills depth items)
  | .unquote t => if depth = 1 then plain (ev t) else .list [.sym "unquote", fill (depth - 1) t]
  | .unquoteSplicing t =>
    .list [.sym "unquote-splicing", if depth = 1 then datum t else fill (depth - 1) t]
  | .quasiquote t => .list [.sym "quasiquote", fill (depth + 1) t]

def fills (depth : Nat) : List (Tmpl A) → List (Val A)
  | [] => []
  | .unquoteSplicing t :: ts =>
    (if depth = 1 then elements (plain (ev t)) else [.list [.sym "unquote-splicing", fill (depth - 1) t]]) ++
      fills depth ts
  | t :: ts => fill depth t :: fills depth ts

end

end

mutual

/-- How many unquotes and splices of the outermost quasiquote a template holds. -/
def actives (depth : Nat) : Tmpl A → Nat
  | .atom _ | .symbol _ => 0
  | .list items | .array items => activesIn depth items
  | .unquote t => if depth = 1 then 1 else actives (depth - 1) t
  | .unquoteSplicing t => if depth = 1 then 0 else actives (depth - 1) t
  | .quasiquote t => actives (depth + 1) t

def activesIn (depth : Nat) : List (Tmpl A) → Nat
  | [] => 0
  | .unquoteSplicing t :: ts => (if depth = 1 then 1 else actives (depth - 1) t) + activesIn depth ts
  | t :: ts => actives depth t + activesIn depth ts

end

mutual

/-- The places where the code departs from the template: a splice in an array, which is quoted with all that stands in
it, and a splice of an inner quasiquote in a list, which is spliced. -/
def faults (depth : Nat) : Tmpl A → Nat
  | .atom _ | .symbol _ => 0
  | .list items => faultsInList depth items
  | .array items => faultsInArray depth items
  | .unquote t => if depth = 1 then 0 else faults (depth - 1) t
  | .unquoteSplicing t => if depth = 1 then 0 else actives (depth - 1) t
  | .quasiquote t => faults (depth + 1) t

def faultsInList (depth : Nat) : List (Tmpl A) → Nat
  | [] => 0
  | .unquoteSplicing _ :: ts => (if depth = 1 then 0 else 1) + faultsInList depth ts
  | t :: ts => faults depth t + faultsInList depth ts

def faultsInArray (depth : Nat) : List (Tmpl A) → Nat
  | [] => 0
  | .unquoteSplicing t :: ts => (if depth = 1 then 1 else actives (depth - 1) t) + faultsInArray depth ts
  | t :: ts => faults depth t + faultsInArray depth ts

end

mutual

/-- The expressions spliced into lists by the outermost quasiquote. -/
def spliced (depth : Nat) : Tmpl A → List (Tmpl A)
  | .atom _ | .symbol _ => []
  | .list items | .array items => splicedIn depth items
  | .unquote t | .unquoteSplicing t => if depth = 1 then [] else spliced (depth - 1) t
  | .quasiquote t => spliced (depth + 1) t

def splicedIn (depth : Nat) : List (Tmpl A) → List (Tmpl A)
  | [] => []
  | .unquoteSplicing t :: ts => (if depth = 1 then [t] else spliced (depth - 1) t) ++ splicedIn depth ts
  | t :: ts => spliced depth t ++ splicedIn depth ts

end

/-! ### A template without faults is built as shown -/

section

variable {ev : Tmpl A → Val A} {join : A → A → Option A}
variable {cs cur : List (Code A)} {vs ws : List (Val A)} {ps : List (Piece A)}

@[simp] theorem plains_eq_map (vs : List (Val A)) : plains vs = vs.map plain := by
  induction vs with
  | nil => rfl
  | cons v vs ih => rw [plains, ih, map_cons]

theorem evals_nil : evals ev join [] = some [] := rfl

theorem evals_cons {c : Code A} {v : Val A} (hc : eval ev join c = some v)
    (hcs : evals ev join cs = some vs) : evals ev join (c :: cs) = some (v :: vs) := by
  rw [evals, hc, Option.bind_some, hcs, Option.map_some]

theorem evals_cons_inv {c : Code A} (h : evals ev join (c :: cs) = some vs) :
    ∃ v ws, eval ev join c = some v ∧ evals ev join cs = some ws ∧ vs = v :: ws := by
  obtain ⟨v, hv, h⟩ := Option.bind_eq_some_iff.1 h
  obtain ⟨ws, hws, h⟩ := Option.map_eq_some_iff.1 h
  exact ⟨v, ws, hv, hws, h.symm⟩

theorem evals_append {cs' : List (Code A)} (h : evals ev join cs = some vs)
    (h' : evals ev join cs' = some ws) : evals ev join (cs ++ cs') = some (vs ++ ws) := by
  induction cs generalizing vs with
  | nil =>
    cases h
    exact h'
  | cons c cs ih =>
    obtain ⟨v, us, hv, hus, rfl⟩ := evals_cons_inv h
    exact evals_cons hv (ih hus)

theorem eval_call {f : Fn} (h : evals ev join cs = some vs) :
    eval ev join (.call f cs) = f.apply join vs := by
  rw [eval, h, Option.bind_some]

def Gives (ev : Tmpl A → Val A) (join : A → A → Option A) : Piece A → List (Val A) → Prop
  | .item c, vs => ∃ v, eval ev join c = some v ∧ vs = [v]
  | .splice c, vs => eval ev join c = some (.list vs)

theorem evals_flush (h : evals ev join cur = some ws) :
    ∃ wss : List (List (Val A)), evals ev join (flush cur) = some (wss.map .list) ∧ wss.flatten = ws := by
  cases cur with
  | nil =>
    cases h
    exact ⟨[], rfl, rfl⟩
  | cons c cs => exact ⟨[ws], evals_cons (eval_call h) rfl, by simp⟩

theorem evals_segments {vss : List (List (Val A))} (h : List.Forall₂ (Gives ev join) ps vss)
    (hcur : evals ev join cur = some ws) :
    ∃ wss : List (List (Val A)), evals ev join (segments ps cur) = some (wss.map .list) ∧
      wss.flatten = ws ++ vss.flatten := by
  induction h generalizing cur ws with
  | nil =>
    obtain ⟨wss, hwss, hflat⟩ := evals_flush hcur
    exact ⟨wss, hwss, by simpa using hflat⟩
  | @cons p vs ps vss hp _ ih =>
    cases p with
    | item c =>
      obtain ⟨v, hv, rfl⟩ := hp
      obtain ⟨wss, hwss, hflat⟩ := ih (evals_append hcur (evals_cons hv evals_nil))
      exact ⟨wss, hwss, by simpa using hflat⟩
    | splice c =>
      obtain ⟨front, hfront, hws⟩ := evals_flush hcur
      obtain ⟨rest, hrest, hflat⟩ := ih evals_nil
      refine ⟨front ++ vs :: rest, ?_, by simp [hws, hflat]⟩
      rw [map_append]
      exact evals_append hfront (evals_cons hp hrest)

theorem eval_nest : (cs : List (Code A)) → {wss : List (List (Val A))} →
    evals ev join cs = some (wss.map .list) → eval ev join (nest cs) = some (.list wss.flatten)
  | [], wss, h => by
    cases wss with
    | nil => rfl
    | cons => cases h
  | [c], wss, h => by
    obtain ⟨v, ws, hv, hws, h⟩ := evals_cons_inv h
    cases hws
    obtain ⟨us, rfl⟩ : ∃ us, wss = [us] := List.length_eq_one_iff.1 (by simpa using congrArg List.length h)
    simp only [map_cons, map_nil, List.cons.injEq, and_true] at h
    simp [nest, hv, h]
  | c :: c' :: cs, wss, h => by
    obtain ⟨v, vs, hv, hvs, h⟩ := evals_cons_inv h
    cases wss with
    | nil => cases h
    | cons ws wss =>
      simp only [map_cons, List.cons.injEq] at h
      have hrest := eval_nest (c' :: cs) (hvs.trans (congrArg some h.2.symm))
      rw [nest, eval_call (evals_cons hv (evals_cons hrest rfl)), ← h.1]
      rfl

theorem eval_listToCode {vss : List (List (Val A))} (h : List.Forall₂ (Gives ev join) ps vss) :
    eval ev join (listToCode ps) = some (.list vss.flatten) := by
  unfold listToCode
  split
  · have hps : ps = [] := by simpa using ‹ps.isEmpty = true›
    subst hps
    cases h
    rfl
  split
  · obtain ⟨wss, hwss, hflat⟩ := evals_segments h evals_nil
    rw [eval_nest _ hwss, hflat, nil_append]
  · next hno =>
    have hall : evals ev join (ps.map Piece.code) = some vss.flatten := by
      clear * - h hno
      induction h with
      | nil => rfl
      | @cons p vs ps vss hp _ ih =>
        cases p with
        | splice c => simp [Piece.isSplice] at hno
        | item c =>
          obtain ⟨v, hv, rfl⟩ := hp
          have hrest := ih (by simpa [Piece.isSplice] using hno)
          exact evals_cons hv hrest
    rw [eval_call hall]
    rfl

mutual

theorem plain_datum : (t : Tmpl A) → plain (datum t) = datum t
  | .atom _ | .symbol _ => rfl
  | .list items | .array items => by simp only [datum, plain, plains_data items]
  | .unquote t | .unquoteSplicing t | .quasiquote t => by simp [datum, plain, plain_datum t]

theorem plains_data : (ts : List (Tmpl A)) → plains (data ts) = data ts
  | [] => rfl
  | t :: ts => by rw [data, plains, plain_datum t, plains_data ts]

end

mutual

theorem fill_of_actives : (d : Nat) → (t : Tmpl A) → actives d t = 0 → fill ev d t = datum t
  | _, .atom _, _ | _, .symbol _, _ => rfl
  | d, .list items, h | d, .array items, h => by
    rw [fill, datum, fills_of_activesIn d items (by simpa [actives] using h)]
  | d, .unquote t, h => by
    rw [actives] at h
    split at h
    · cases h
    · next hd => rw [fill, if_neg hd, datum, fill_of_actives (d - 1) t h]
  | d, .unquoteSplicing t, h => by
    rw [actives] at h
    split at h
    · next hd => rw [fill, if_pos hd, datum]
    · next hd => rw [fill, if_neg hd, datum, fill_of_actives (d - 1) t h]
  | d, .quasiquote t, h => by rw [fill, datum, fill_of_actives (d + 1) t (by simpa [actives] using h)]

theorem fills_of_activesIn : (d : Nat) → (ts : List (Tmpl A)) → activesIn d ts = 0 → fills ev d ts = data ts
  | _, [], _ => rfl
  | d, t :: ts, h => by
    have iht := fill_of_actives d t
    have ihts := fills_of_activesIn d ts
    cases t with
    | unquoteSplicing u =>
      simp only [activesIn, Nat.add_eq_zero_iff] at h
      have hd : d ≠ 1 := fun hd => by simp [hd] at h
      rw [if_neg hd] at h
      have hu := iht (by rw [actives, if_neg hd, h.1])
      rw [fill, if_neg hd] at hu
      rw [fills, if_neg hd, hu, ihts h.2, data, singleton_append]
    | _ => simp_all [activesIn, fills, data]

end

mutual

theorem eval_toCode : (d : Nat) → (t : Tmpl A) → faults d t = 0 → (∀ e ∈ spliced d t, ∃ vs, ev e = .list vs) →
    ∃ v, eval ev join (toCode d t) = some v ∧ plain v = fill ev d t
  | _, .atom a, _, _ => ⟨.atom a, rfl, rfl⟩
  | _, .symbol s, _, _ => ⟨.syn s, rfl, rfl⟩
  | d, .list items, hf, hs => by
    obtain ⟨vss, hvss, hfill⟩ := eval_pieces d items (by simpa [faults] using hf) (by simpa [spliced] using hs)
    exact ⟨_, eval_listToCode hvss, by rw [plain, hfill, fill]⟩
  | d, .array items, hf, hs => by
    obtain ⟨vs, hvs, hfill⟩ := eval_codes d items (by simpa [faults] using hf) (by simpa [spliced] using hs)
    exact ⟨_, eval_call hvs, by rw [plain, hfill, fill]⟩
  | d, .unquote t, hf, hs => by
    rw [faults] at hf
    rw [spliced] at hs
    rw [toCode, fill]
    split at hf
    · next hd => exact ⟨ev t, by rw [if_pos hd]; rfl, by rw [if_pos hd]⟩
    · next hd =>
      rw [if_neg hd] at hs ⊢
      obtain ⟨v, hv, hfill⟩ := eval_toCode (d - 1) t hf hs
      exact ⟨_, eval_call (evals_cons rfl (evals_cons hv rfl)), by simp [if_neg hd, plain, datum, hfill]⟩
  | d, .unquoteSplicing t, hf, hs => by
    refine ⟨datum (.unquoteSplicing t), rfl, ?_⟩
    rw [plain_datum, fill_of_actives]
    rw [faults] at hf
    rwa [actives]
  | d, .quasiquote t, hf, hs => by
    obtain ⟨v, hv, hfill⟩ := eval_toCode (d + 1) t (by simpa [faults] using hf) (by simpa [spliced] using hs)
    exact ⟨_, eval_call (evals_cons rfl (evals_cons hv rfl)), by simp [plain, datum, fill, hfill]⟩

theorem eval_pieces : (d : Nat) → (ts : List (Tmpl A)) → faultsInList d ts = 0 →
    (∀ e ∈ splicedIn d ts, ∃ vs, ev e = .list vs) →
    ∃ vss, List.Forall₂ (Gives ev join) (pieces d ts) vss ∧ plains vss.flatten = fills ev d ts
  | _, [], _, _ => ⟨[], .nil, rfl⟩
  | d, t :: ts, hf, hs => by
    have iht := eval_toCode d t
    have ihts := eval_pieces d ts
    cases t with
    | unquoteSplicing u =>
      simp only [faultsInList, Nat.add_eq_zero_iff] at hf
      have hd : d = 1 := by
        by_contra hd
        simp [hd] at hf
      simp only [splicedIn, if_pos hd, singleton_append, forall_mem_cons] at hs
      obtain ⟨vs, hvs⟩ := hs.1
      obtain ⟨vss, hvss, hfill⟩ := ihts hf.2 hs.2
      refine ⟨vs :: vss, .cons ?_ hvss, ?_⟩
      · rw [Gives, if_pos hd, eval, hvs]
      · rw [fills, if_pos hd, hvs, ← hfill]
        simp [plain, elements]
    | _ =>
      simp only [faultsInList, Nat.add_eq_zero_iff, splicedIn, forall_mem_append] at hf hs
      obtain ⟨v, hv, hplain⟩ := iht hf.1 hs.1
      obtain ⟨vss, hvss, hfill⟩ := ihts hf.2 hs.2
      refine ⟨[v] :: vss, .cons ⟨v, hv, rfl⟩ hvss, ?_⟩
      simp [fills, ← hplain, ← hfill]

theorem eval_codes : (d : Nat) → (ts : List (Tmpl A)) → faultsInArray d ts = 0 →
    (∀ e ∈ splicedIn d ts, ∃ vs, ev e = .list vs) →
    ∃ vs, evals ev join (codes d ts) = some vs ∧ plains vs = fills ev d ts
  | _, [], _, _ => ⟨[], rfl, rfl⟩
  | d, t :: ts, hf, hs => by
    have iht := eval_toCode d t
    have ihts := eval_codes d ts
    cases t with
    | unquoteSplicing u =>
      simp only [faultsInArray, Nat.add_eq_zero_iff, splicedIn, forall_mem_append] at hf hs
      have hd : d ≠ 1 := fun hd => by simp [hd] at hf
      rw [if_neg hd] at hf hs
      obtain ⟨v, hv, hplain⟩ := iht (by rw [faults, if_neg hd, hf.1]) (by rw [spliced, if_neg hd]; exact hs.1)
      obtain ⟨vs, hvs, hfill⟩ := ihts hf.2 hs.2
      refine ⟨v :: vs, evals_cons hv hvs, ?_⟩
      rw [plains, hplain, hfill, fills, fill, if_neg hd, if_neg hd, singleton_append]
    | _ =>
      simp only [faultsInArray, Nat.add_eq_zero_iff, splicedIn, forall_mem_append] at hf hs
      obtain ⟨v, hv, hplain⟩ := iht hf.1 hs.1
      obtain ⟨vs, hvs, hfill⟩ := ihts hf.2 hs.2
      exact ⟨v :: vs, evals_cons hv hvs, by simp only [plains, hplain, hfill, fills]⟩

end

/-! ### A template with faults is not -/

mutual

def size : Val A → Nat
  | .atom _ | .sym _ | .syn _ => 1
  | .list vs | .array vs => 1 + sizes vs

def sizes : List (Val A) → Nat
  | [] => 0
  | v :: vs => size v + sizes vs

end

@[simp] theorem sizes_append (vs ws : List (Val A)) : sizes (vs ++ ws) = sizes vs + sizes ws := by
  induction vs with
  | nil => simp [sizes]
  | cons v vs ih => simp [sizes, ih, Nat.add_assoc]

theorem size_pos (v : Val A) : 0 < size v := by
  cases v <;> simp only [size] <;> omega

mutual

theorem size_plain : (v : Val A) → size (plain v) = size v
  | .atom _ | .sym _ | .syn _ => rfl
  | .list vs | .array vs => by simp only [plain, size, sizes_plains vs]

theorem sizes_plains : (vs : List (Val A)) → sizes (plains vs) = sizes vs
  | [] => rfl
  | v :: vs => by rw [plains, sizes, sizes, size_plain v, sizes_plains vs]

end

theorem size_apply_append {v w u : Val A} (h : Fn.append.apply join [v, w] = some u) :
    size u + 1 ≤ size v + size w := by
  have hv := size_pos v
  have hw := size_pos w
  cases v <;> cases w <;> simp only [Fn.apply, Option.some.injEq, reduceCtorEq] at h <;>
    first
    | (subst h; simp only [size, sizes_append]; omega)
    | (obtain ⟨a, -, rfl⟩ := Option.map_eq_some_iff.1 h; simp [size])

theorem size_nest : (cs : List (Code A)) → {u : Val A} → eval ev join (nest cs) = some u →
    ∃ vs, evals ev join cs = some vs ∧ size u + vs.length ≤ sizes vs + 1
  | [], u, h => by
    cases h
    exact ⟨[], rfl, by simp [size, sizes]⟩
  | [c], u, h => ⟨[u], evals_cons h rfl, by simp [sizes]⟩
  | c :: c' :: cs, u, h => by
    rw [nest, eval] at h
    obtain ⟨vs, hvs, happly⟩ := Option.bind_eq_some_iff.1 h
    obtain ⟨v, ws, hv, hws, rfl⟩ := evals_cons_inv hvs
    obtain ⟨w, ws, hw, hnil, rfl⟩ := evals_cons_inv hws
    cases hnil
    obtain ⟨us, hus, hsize⟩ := size_nest (c' :: cs) hw
    have := size_apply_append happly
    exact ⟨v :: us, evals_cons hv hus, by simp only [sizes, length_cons]; omega⟩

/-- What the values of pieces add to the size of their list. -/
def weights : List (Piece A) → List (Val A) → Nat
  | .item _ :: ps, v :: vs => size v + weights ps vs
  | .splice _ :: ps, v :: vs => size v - 1 + weights ps vs
  | _, _ => 0

theorem size_flush (h : evals ev join (flush cur) = some vs) :
    ∃ us, evals ev join cur = some us ∧ sizes vs = vs.length + sizes us := by
  cases cur with
  | nil =>
    cases h
    exact ⟨[], rfl, rfl⟩
  | cons c cs =>
    obtain ⟨v, ws, hv, hnil, rfl⟩ := evals_cons_inv h
    cases hnil
    obtain ⟨us, hus, happly⟩ := Option.bind_eq_some_iff.1 hv
    cases happly
    exact ⟨us, hus, by simp [sizes, size]⟩

theorem evals_append_inv {cs' : List (Code A)} (h : evals ev join (cs ++ cs') = some vs) :
    ∃ us ws, evals ev join cs = some us ∧ evals ev join cs' = some ws ∧ vs = us ++ ws := by
  induction cs generalizing vs with
  | nil => exact ⟨[], vs, rfl, h, rfl⟩
  | cons c cs ih =>
    obtain ⟨v, rest, hv, hrest, rfl⟩ := evals_cons_inv h
    obtain ⟨us, ws, hus, hws, rfl⟩ := ih hrest
    exact ⟨v :: us, ws, evals_cons hv hus, hws, rfl⟩

theorem size_segments (h : evals ev join (segments ps cur) = some vs) :
    ∃ us ws, evals ev join cur = some us ∧ evals ev join (ps.map Piece.code) = some ws ∧
      sizes vs = vs.length + sizes us + weights ps ws := by
  induction ps generalizing cur vs with
  | nil =>
    obtain ⟨us, hus, hsize⟩ := size_flush h
    exact ⟨us, [], hus, rfl, hsize⟩
  | cons p ps ih =>
    cases p with
    | item c =>
      obtain ⟨uvs, ws, huvs, hws, hsize⟩ := ih h
      obtain ⟨us, vc, hus, hvc, rfl⟩ := evals_append_inv huvs
      obtain ⟨v, none_, hv, hnone, rfl⟩ := evals_cons_inv hvc
      cases hnone
      refine ⟨us, v :: ws, hus, evals_cons hv hws, ?_⟩
      simp only [sizes_append, sizes, weights] at hsize ⊢
      omega
    | splice c =>
      obtain ⟨front, back, hfront, hback, rfl⟩ := evals_append_inv h
      obtain ⟨v, rest, hv, hrest, rfl⟩ := evals_cons_inv hback
      obtain ⟨us, hus, hsize⟩ := size_flush hfront
      obtain ⟨none_, ws, hnone, hws, hsize'⟩ := ih hrest
      cases hnone
      have := size_pos v
      refine ⟨us, v :: ws, hus, evals_cons hv hws, ?_⟩
      simp only [sizes_append, sizes, length_append, length_cons, weights] at hsize' ⊢
      omega

theorem size_listToCode {u : Val A} (h : eval ev join (listToCode ps) = some u) :
    ∃ ws, evals ev join (ps.map Piece.code) = some ws ∧ size u ≤ 1 + weights ps ws := by
  unfold listToCode at h
  split at h
  · have hps : ps = [] := by simpa using ‹ps.isEmpty = true›
    subst hps
    cases h
    exact ⟨[], rfl, by simp [datum, size, sizes, data]⟩
  split at h
  · obtain ⟨vs, hvs, hle⟩ := size_nest _ h
    obtain ⟨us, ws, hus, hws, hsize⟩ := size_segments hvs
    cases hus
    simp only [sizes] at hsize
    exact ⟨ws, hws, by omega⟩
  · next hno =>
    obtain ⟨ws, hws, happly⟩ := Option.bind_eq_some_iff.1 h
    cases happly
    refine ⟨ws, hws, ?_⟩
    rw [size, Nat.add_le_add_iff_left]
    clear * - hws hno
    induction ps generalizing ws with
    | nil =>
      cases hws
      simp [sizes]
    | cons p ps ih =>
      obtain ⟨v, vs, hv, hvs, rfl⟩ := evals_cons_inv hws
      cases p with
      | splice c => simp [Piece.isSplice] at hno
      | item c =>
        have := ih (by simpa [Piece.isSplice] using hno) vs hvs
        simp only [sizes, weights]
        omega

end

theorem eval_wrap {ev : Tmpl A → Val A} {join : A → A → Option A} {s : String} {c : Code A} {v : Val A}
    (h : eval ev join (.call .list [.quote (.symbol s), c]) = some v) :
    ∃ u, eval ev join c = some u ∧ v = .list [.sym s, u] := by
  obtain ⟨vs, hvs, happly⟩ := Option.bind_eq_some_iff.1 h
  obtain ⟨q, us, hq, hus, rfl⟩ := evals_cons_inv hvs
  obtain ⟨u, none_, hu, hnone, rfl⟩ := evals_cons_inv hus
  cases hq
  cases hnone
  cases happly
  exact ⟨u, hu, rfl⟩

/-! Every unquoted expression is given one long list: what the code quotes or drops is then too small. -/

section

variable {N : Nat}

def long (N : Nat) : Tmpl A → Val A := fun _ => .list (List.replicate N (.sym ""))

theorem sizes_replicate (n : Nat) : sizes (List.replicate n (.sym "" : Val A)) = n := by
  induction n with
  | zero => rfl
  | succ n ih => rw [replicate_succ, sizes, ih, size, Nat.add_comm]

theorem size_long (t : Tmpl A) : size (plain (long N t)) = 1 + N := by
  rw [size_plain, long, size, sizes_replicate]

theorem sizes_elements_long (t : Tmpl A) : sizes (elements (plain (long N t))) = N := by
  have h := size_long (N := N) t
  rw [long, plain, size] at h
  rw [long, plain, elements]
  omega

mutual

theorem size_datum : (d : Nat) → (t : Tmpl A) → size (datum t) < N →
    size (datum t) + actives d t ≤ size (fill (long N) d t)
  | _, .atom _, _ | _, .symbol _, _ => by simp [datum, fill, size, actives]
  | d, .list items, h | d, .array items, h => by
    simp only [datum, fill, size, actives] at h ⊢
    have := sizes_data d items (by omega)
    omega
  | d, .unquote t, h => by
    simp only [datum, fill, actives] at h ⊢
    split
    · rw [size_long]
      omega
    · simp only [size, sizes] at h ⊢
      have := size_datum (d - 1) t (by omega)
      omega
  | d, .unquoteSplicing t, h => by
    simp only [datum, fill, actives] at h ⊢
    split
    · exact Nat.le_refl _
    · simp only [size, sizes] at h ⊢
      have := size_datum (d - 1) t (by omega)
      omega
  | d, .quasiquote t, h => by
    simp only [datum, fill, actives, size, sizes] at h ⊢
    have := size_datum (d + 1) t (by omega)
    omega

theorem sizes_data : (d : Nat) → (ts : List (Tmpl A)) → sizes (data ts) < N →
    sizes (data ts) + activesIn d ts ≤ sizes (fills (long N) d ts)
  | _, [], _ => Nat.le_refl _
  | d, t :: ts, h => by
    simp only [data, sizes] at h ⊢
    have iht := size_datum d t (by omega)
    have ihts := sizes_data d ts (by omega)
    cases t with
    | unquoteSplicing u =>
      simp only [activesIn, fills, sizes_append]
      split
      · rw [sizes_elements_long]
        omega
      · next hd =>
        simp only [actives, fill, if_neg hd] at iht
        simp only [sizes]
        omega
    | _ =>
      simp only [activesIn, fills, sizes]
      omega

end

mutual

theorem size_toCode {join : A → A → Option A} : (d : Nat) → (t : Tmpl A) → size (datum t) < N → {v : Val A} →
    eval (long N) join (toCode d t) = some v → size v + faults d t ≤ size (fill (long N) d t)
  | _, .atom _, _, _, h | _, .symbol _, _, _, h => by
    cases h
    simp [datum, fill, size, faults]
  | d, .list items, hN, v, h => by
    simp only [datum, size] at hN
    obtain ⟨ws, hws, hle⟩ := size_listToCode h
    have := size_pieces d items (by omega) hws
    simp only [fill, size, faults]
    omega
  | d, .array items, hN, v, h => by
    simp only [datum, size] at hN
    rw [toCode, eval] at h
    obtain ⟨vs, hvs, happly⟩ := Option.bind_eq_some_iff.1 h
    cases happly
    have := size_codes d items (by omega) hvs
    simp only [fill, size, faults]
    omega
  | d, .unquote t, hN, v, h => by
    simp only [datum, size, sizes] at hN
    rw [toCode] at h
    simp only [fill, faults]
    split at h
    · next hd =>
      cases h
      simp [hd, size_plain]
    · next hd =>
      rw [if_neg hd, if_neg hd]
      obtain ⟨u, hu, rfl⟩ := eval_wrap h
      have := size_toCode (d - 1) t (by omega) hu
      simp only [size, sizes]
      omega
  | d, .unquoteSplicing t, hN, v, h => by
    cases h
    have := size_datum d (.unquoteSplicing t) hN
    rwa [actives] at this
  | d, .quasiquote t, hN, v, h => by
    simp only [datum, size, sizes] at hN
    obtain ⟨u, hu, rfl⟩ := eval_wrap h
    have := size_toCode (d + 1) t (by omega) hu
    simp only [fill, faults, size, sizes]
    omega

theorem size_pieces {join : A → A → Option A} : (d : Nat) → (ts : List (Tmpl A)) → sizes (data ts) < N →
    {ws : List (Val A)} → evals (long N) join ((pieces d ts).map Piece.code) = some ws →
    weights (pieces d ts) ws + faultsInList d ts ≤ sizes (fills (long N) d ts)
  | _, [], _, _, _ => by simp [pieces, weights, faultsInList]
  | d, t :: ts, hN, ws, h => by
    simp only [data, sizes] at hN
    have ihts {vs} : evals (long N) join ((pieces d ts).map Piece.code) = some vs → _ :=
      size_pieces d ts (by omega)
    cases t with
    | unquoteSplicing u =>
      simp only [pieces, map_cons] at h
      obtain ⟨v, vs, hv, hvs, rfl⟩ := evals_cons_inv h
      have := ihts hvs
      simp only [pieces, weights, faultsInList, fills, sizes_append]
      simp only [Piece.code] at hv
      split at hv
      · next hd =>
        cases hv
        have := size_long (N := N) u
        rw [size_plain] at this
        rw [if_pos hd, if_pos hd, sizes_elements_long]
        omega
      · next hd =>
        simp only [datum, size, sizes] at hN
        have := size_toCode (d - 1) u (by omega) hv
        rw [if_neg hd, if_neg hd]
        simp only [sizes, size]
        omega
    | _ =>
      simp only [pieces, map_cons] at h
      obtain ⟨v, vs, hv, hvs, rfl⟩ := evals_cons_inv h
      have := ihts hvs
      have := size_toCode d _ (by omega) hv
      simp only [pieces, weights, faultsInList, fills, sizes]
      omega

theorem size_codes {join : A → A → Option A} : (d : Nat) → (ts : List (Tmpl A)) → sizes (data ts) < N →
    {vs : List (Val A)} → evals (long N) join (codes d ts) = some vs →
    sizes vs + faultsInArray d ts ≤ sizes (fills (long N) d ts)
  | _, [], _, _, h => by
    cases h
    simp [faultsInArray, sizes]
  | d, t :: ts, hN, vs, h => by
    simp only [data, sizes] at hN
    rw [codes] at h
    obtain ⟨v, vs, hv, hvs, rfl⟩ := evals_cons_inv h
    have iht := size_toCode d t (by omega) hv
    have := size_codes d ts (by omega) hvs
    cases t with
    | unquoteSplicing u =>
      simp only [faultsInArray, fills, sizes_append, sizes]
      split
      · cases hv
        rw [sizes_elements_long]
        omega
      · next hd =>
        simp only [faults, fill, if_neg hd] at iht
        simp only [sizes]
        omega
    | _ =>
      simp only [faultsInArray, fills, sizes]
      omega

end

end

/-- The code a quasiquote expands to builds the template it shows, whatever lists are spliced into its lists, if and
only if no array of it holds a splice, no list of an inner quasiquote does, and no splice that stands elsewhere holds
an unquote of the outermost quasiquote. -/
theorem quasiquote_shows_iff (t : Tmpl A) (join : A → A → Option A) :
    (∀ ev : Tmpl A → Val A, (∀ e ∈ spliced 1 t, ∃ vs, ev e = .list vs) →
      (eval ev join (toCode 1 t)).map plain = some (fill ev 1 t)) ↔ faults 1 t = 0 := by
  constructor
  · intro h
    have hlong := h (long (size (datum t) + 1)) fun e _ => ⟨_, rfl⟩
    obtain ⟨v, hv, hplain⟩ := Option.map_eq_some_iff.1 hlong
    have := size_toCode 1 t (Nat.lt_succ_self _) hv
    rw [← hplain, size_plain] at this
    omega
  · intro hf ev hs
    obtain ⟨v, hv, hplain⟩ : ∃ v, eval ev join (toCode 1 t) = some v ∧ _ := eval_toCode 1 t hf hs
    rw [hv, Option.map_some, hplain]

/-- A splice in an array stays in the array as written. -/
theorem array_splice_stays :
    (eval (fun _ : Tmpl Unit => .list []) (fun _ _ => none)
      (toCode 1 (.array [.unquoteSplicing (.symbol "xs")]))).map plain =
        some (.array [.list [.sym "unquote-splicing", .sym "xs"]]) ∧
    fill (fun _ : Tmpl Unit => .list []) 1 (.array [.unquoteSplicing (.symbol "xs")]) = .array [] :=
  ⟨rfl, rfl⟩

end Elle.Quasiquote

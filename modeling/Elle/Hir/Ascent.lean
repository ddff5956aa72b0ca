import Elle.Hir.TypeInfer

/-! # The ascent stops at a fixpoint

A pass reads of the node map only what it wrote itself, so two passes that start from the same
binding and body types end with the same three maps (`pass_congr`). `Inv` relates the environments
of two such runs, and `Tri` carries it through a step of the transfer function. Run against itself,
the relation gives what a single pass keeps (`pass_spec`).

A round in which every entry is already pinned settles by its third pass, so the widening never
stops on an environment that still moves. -/

namespace Elle.TypeInfer

open List

variable {n m : Nat}

namespace Hir

/-- `Below h d`: `d` is `h` or a node under it. -/
def Below : Hir n m → Hir n m → Prop := Relation.ReflTransGen fun h c => c ∈ h.children

/-- The node records a function body's type for the binding. -/
def Records : Hir n m → Fin n → Prop
  | let_ _ bindings _, b => ∃ init, (b, init) ∈ bindings ∧ init.unwrapMakeCell.lambdaBody.isSome
  | assign _ target value, b | define _ target value, b => b = target ∧ value.unwrapMakeCell.lambdaBody.isSome
  | _, _ => False

theorem mem_mutated {h d : Hir n m} (hd : Below h d) {i : Fin m} {b : Fin n} {value : Hir n m}
    (hassign : d = assign i b value) : b ∈ h.collectMutatedBindings := by
  induction hd using Relation.ReflTransGen.head_induction_on with
  | refl => subst hassign; rw [collectMutatedBindings]; simp
  | head hc _ ih =>
    unfold collectMutatedBindings
    exact mem_append_right _ (List.mem_flatMap.mpr ⟨⟨_, hc⟩, mem_attach _ _, ih⟩)

abbrev Knows (b : Fin n) (ps : Fin n → Option (LambdaSig n)) : Prop := (ps b).isSome

theorem recordLambda_grows {ps : Fin n → Option (LambdaSig n)} {b : Fin n} (h : (ps b).isSome) (b' : Fin n)
    (value : Hir n m) : (recordLambda ps b' value b).isSome := by
  rw [recordLambda, Function.update_apply]
  split
  next hb => subst hb; simp [h]
  next => exact h

theorem recordLambda_self {ps : Fin n → Option (LambdaSig n)} {b : Fin n} {value : Hir n m}
    (h : value.unwrapMakeCell.lambdaBody.isSome) : (recordLambda ps b value b).isSome := by
  rw [recordLambda, Function.update_self]
  cases hv : value.unwrapMakeCell <;> rw [hv] at h <;> simp [lambdaBody, lambdaSig] at h ⊢

theorem foldl_keeps {α β : Type} {P : β → Prop} {f : β → α → β} {l : List α} {x : β} (hx : P x)
    (hf : ∀ a ∈ l, ∀ y, P y → P (f y a)) : P (l.foldl f x) := by
  induction l generalizing x with
  | nil => exact hx
  | cons a l ih => exact ih (hf a (by simp) x hx) fun c hc => hf c (by simp [hc])

theorem foldl_brings {α β : Type} {P : β → Prop} {f : β → α → β} {l : List α} {a : α} (ha : a ∈ l) {x : β}
    (hf : ∀ y, P (f y a)) (hkeep : ∀ c ∈ l, ∀ y, P y → P (f y c)) : P (l.foldl f x) := by
  obtain ⟨l₁, l₂, rfl⟩ := append_of_mem ha
  rw [foldl_append, foldl_cons]
  exact foldl_keeps (hf _) fun c hc => hkeep c (by simp [hc])

theorem collectLambdaInfo_grows {b : Fin n} (h : Hir n m) :
    ∀ {ps : Fin n → Option (LambdaSig n)}, (ps b).isSome → (h.collectLambdaInfo ps b).isSome := by
  induction h using induct with
  | step h ih =>
    intro ps hps
    unfold collectLambdaInfo
    split
    · refine ih _ (by simp [children]) (foldl_keeps (P := Knows b) hps fun c _ y hy => ?_)
      exact ih _ (by simpa [children] using .inl ⟨c.1.1, c.2⟩) (recordLambda_grows hy _ _)
    · exact ih _ (by simp [children]) (recordLambda_grows hps _ _)
    · exact foldl_keeps (P := Knows b) hps fun c _ y hy => ih _ c.2 hy

theorem collectLambdaInfo_covers {h d : Hir n m} (hd : Below h d) {b : Fin n} (hb : d.Records b)
    (hassign : ∀ i value, d ≠ assign i b value) :
    ∀ {ps : Fin n → Option (LambdaSig n)}, (h.collectLambdaInfo ps b).isSome := by
  induction hd using Relation.ReflTransGen.head_induction_on with
  | refl =>
    intro ps
    cases d <;> simp only [Records] at hb
    case assign => exact absurd (by rw [hb.1]) (hassign _ _)
    case let_ i bindings body =>
      obtain ⟨init, hmem, hfn⟩ := hb
      rw [collectLambdaInfo]
      refine collectLambdaInfo_grows _ (foldl_brings (P := Knows b)
        (mem_attach _ ⟨_, hmem⟩) (fun y => ?_) fun c _ y hy => ?_)
      · exact collectLambdaInfo_grows _ (recordLambda_self hfn)
      · exact collectLambdaInfo_grows _ (recordLambda_grows hy _ _)
    case define i b' value =>
      rw [collectLambdaInfo, hb.1]
      exact collectLambdaInfo_grows _ (recordLambda_self hb.2)
  | @head h c hc _ ih =>
    intro ps
    unfold collectLambdaInfo
    split
    · rcases List.mem_append.mp hc with hc | hc
      · obtain ⟨p, hp, rfl⟩ := List.mem_map.mp hc
        exact collectLambdaInfo_grows _ (foldl_brings (P := Knows b)
          (mem_attach _ ⟨p, hp⟩) (fun y => ih) fun c _ y hy =>
            collectLambdaInfo_grows _ (recordLambda_grows hy _ _))
      · rw [List.mem_singleton.mp hc] at ih
        exact ih
    · rw [children, mem_singleton] at hc
      exact hc ▸ ih
    · exact foldl_brings (P := Knows b) (mem_attach _ ⟨c, hc⟩) (fun y => ih) fun c _ y hy =>
        collectLambdaInfo_grows _ hy

end Hir

namespace CompUnit
variable (u : CompUnit n m)

def treeIds : Set (Fin m) := {i | ∃ d, Hir.Below u.hir d ∧ d.id = i}

/-- The bindings a pass records a body type for. -/
def functions : Set (Fin n) := {b | ∃ d, Hir.Below u.hir d ∧ d.Records b}

/-- Where no signature is known of a function, it is assigned to. -/
abbrev Known (b : Fin n) : Prop := b ∈ u.functions ∧ (u.lambdaParams b = none → u.mutated b)

theorem known_of_records {d : Hir n m} (hd : Hir.Below u.hir d) {b : Fin n} (hb : d.Records b) : u.Known b := by
  refine ⟨⟨d, hd, hb⟩, fun hnone => ?_⟩
  by_cases hassign : ∀ i value, d ≠ .assign i b value
  · have hsome : (u.lambdaParams b).isSome := Hir.collectLambdaInfo_covers hd hb hassign
    simp [hnone] at hsome
  · push Not at hassign
    obtain ⟨i, value, hd'⟩ := hassign
    simpa [mutated] using Hir.mem_mutated hd hd'

/-- What one environment keeps over the ascent. -/
structure Sound (s : Env n m) : Prop where
  inside : ∀ i ∉ u.treeIds, s.hirTypes i = none
  held : ∀ b, u.lambdaParams b = none → s.lambdaBodyType b = none ∨ s.lambdaBodyType b = some .top ∧ b ∈ u.functions

/-- Two runs of a pass under way. `K` are bindings that have an entry, `B` the open blocks; a mark of
`W` is a node both runs have typed or a function both have recorded. -/
structure Inv (K : Set (Fin n)) (B : Set Nat) (W : Set (Fin m ⊕ Fin n)) (s t : Env n m) : Prop where
  types : s.bindingTypes = t.bindingTypes
  bodies : s.lambdaBodyType = t.lambdaBodyType
  joins : s.paramJoins = t.paramJoins
  breaks : ∀ i ∈ B, s.breakTypes i = t.breakTypes i
  kept : ∀ b ∈ K, (s.bindingTypes b).isSome
  nodes : ∀ i, .inl i ∈ W → s.hirTypes i = t.hirTypes i
  recorded : ∀ b, .inr b ∈ W → (s.lambdaBodyType b).isSome
  left : u.Sound s
  right : u.Sound t

/-- Both runs of a step answer alike, the answer satisfies `Q`, and the runs go on related. -/
def Tri (K : Set (Fin n)) (B : Set Nat) (W : Set (Fin m ⊕ Fin n)) {α : Type} (run : Infer n m α)
    (W' : Set (Fin m ⊕ Fin n)) (Q : α → Prop) : Prop :=
  ∀ s t, u.Inv K B W s t → (run s).1 = (run t).1 ∧ Q (run s).1 ∧ u.Inv K B W' (run s).2 (run t).2

abbrev Alike (K : Set (Fin n)) (B : Set Nat) (W : Set (Fin m ⊕ Fin n)) {α : Type} (run : Infer n m α)
    (W' : Set (Fin m ⊕ Fin n)) : Prop := u.Tri K B W run W' fun _ => True

namespace Tri
variable {u} {K : Set (Fin n)} {B : Set Nat} {W W' W'' : Set (Fin m ⊕ Fin n)} {α β : Type} {Q : α → Prop}
  {Q' : β → Prop} {run : Infer n m α}

theorem pure {a : α} (hQ : Q a) : u.Tri K B W (Pure.pure a) W Q := fun _ _ h => ⟨rfl, hQ, h⟩

theorem bind {next : α → Infer n m β} (h : u.Tri K B W run W' Q)
    (hn : ∀ a, Q a → u.Tri K B W' (next a) W'' Q') : u.Tri K B W (run >>= next) W'' Q' := by
  intro s t hst
  obtain ⟨heq, hq, hst'⟩ := h s t hst
  have := hn _ hq _ _ hst'
  change (next (run s).1 (run s).2).1 = (next (run t).1 (run t).2).1 ∧ Q' (next (run s).1 (run s).2).1 ∧
    u.Inv K B W'' (next (run s).1 (run s).2).2 (next (run t).1 (run t).2).2
  rw [← heq]
  exact this

theorem last {f : α → β} (h : u.Tri K B W run W' Q) : u.Alike K B W (run >>= fun a => Pure.pure (f a)) W' :=
  h.bind fun _ _ => pure trivial

theorem mono (h : u.Tri K B W run W' Q) (hW : W'' ⊆ W') : u.Tri K B W run W'' Q := by
  intro s t hst
  obtain ⟨heq, hq, hi⟩ := h s t hst
  exact ⟨heq, hq, { hi with nodes := fun i hx => hi.nodes i (hW hx), recorded := fun b hx => hi.recorded b (hW hx) }⟩

theorem forM {l : List α} {f : α → Infer n m Unit} (h : ∀ a ∈ l, u.Alike K B W (f a) W) :
    u.Alike K B W (l.forM f) W := by
  induction l with
  | nil => exact pure trivial
  | cons a l ih => exact (h a (by simp)).bind fun _ _ => ih fun c hc => h c (by simp [hc])

theorem onTypes {f : (Fin n → Option Ty) → α × (Fin n → Option Ty)}
    (hf : ∀ g, (∀ b ∈ K, (g b).isSome) → Q (f g).1 ∧ ∀ b ∈ K, ((f g).2 b).isSome) :
    u.Tri K B W (fun s => ((f s.bindingTypes).1, { s with bindingTypes := (f s.bindingTypes).2 })) W Q := by
  intro s t h
  refine ⟨by simp only [h.types], (hf _ h.kept).1, { h with types := ?_, kept := (hf _ h.kept).2, left := ?_, right := ?_ }⟩
  · simp only [h.types]
  · exact { h.left with }
  · exact { h.right with }

theorem typeOr (b : Fin n) (ty : Ty) : u.Alike K B W (typeOr b ty) W :=
  onTypes (f := fun g => ((g b).getD ty, g)) fun _ hg => ⟨trivial, hg⟩

theorem update_isSome {g : Fin n → Option Ty} (hg : ∀ b ∈ K, (g b).isSome) {b : Fin n} {x : Option Ty}
    (hx : b ∈ K → x.isSome) : ∀ c ∈ K, (Function.update g b x c).isSome := by
  intro c hc
  rw [Function.update_apply]
  split
  next h => exact hx (h ▸ hc)
  next => exact hg c hc

theorem setType (b : Fin n) (ty : Ty) : u.Alike K B W (setType b ty) W :=
  onTypes (f := fun g => ((), Function.update g b (some ty))) fun _ hg => ⟨trivial, update_isSome hg (by simp)⟩

theorem joinType (b : Fin n) (ty : Ty) (floor : Ty → Ty) : u.Alike K B W (joinType b ty floor) W :=
  (typeOr b _).bind fun _ _ => setType b _

/-- A saved entry of a binding of `K` has a type to go back to. -/
def Backed (K : Set (Fin n)) (x : Narrowed n) : Prop := x.binding ∈ K → x.prior.isSome

theorem narrowType (b : Fin n) (ty : Ty) : u.Tri K B W (narrowType b ty) W (Backed K) :=
  onTypes (f := fun g => ((⟨b, g b, ty⟩ : Narrowed n), Function.update g b (some ty))) fun _ hg =>
    ⟨fun hb => hg b hb, update_isSome hg (by simp)⟩

theorem applyTypeFacts (facts : List (Fin n × Ty)) :
    u.Tri K B W (applyTypeFacts facts) W fun saved => ∀ x ∈ saved, Backed K x := by
  induction facts with
  | nil => exact pure (by simp)
  | cons fact facts ih =>
    refine (typeOr _ _).bind fun old _ => (narrowType _ _).bind fun x hx => ih.bind fun saved hs => pure ?_
    simpa using ⟨hx, hs⟩

theorem restoreTypeFacts {saved : List (Narrowed n)} (h : ∀ x ∈ saved, Backed K x) :
    u.Alike K B W (restoreTypeFacts saved) W := by
  refine forM fun x hx => onTypes (f := fun g => ((), Function.update g x.binding
    (if g x.binding = some x.narrowed then x.prior
      else some ((x.prior.getD .top).join ((g x.binding).getD .top))))) fun g hg => ⟨trivial, ?_⟩
  refine update_isSome hg fun hb => ?_
  split
  · exact h x (List.mem_reverse.mp hx) hb
  · rfl

theorem joinParam (p : Fin n) (ty : Ty) : u.Alike K B W (joinParam p ty) W := fun _ _ h =>
  ⟨rfl, trivial, { h with joins := by simp only [TypeInfer.joinParam, h.joins], left := { h.left with }, right := { h.right with } }⟩

theorem note {i : Fin m} {run : Infer n m Ty} {Q : Ty → Prop} (h : u.Tri K B W run W' Q) (hi : i ∈ u.treeIds) :
    u.Tri K B W (note i run) (insert (.inl i) W') Q := by
  intro s t hst
  obtain ⟨heq, hq, h'⟩ := h s t hst
  have hinside {e : Env n m} (he : u.Sound e) (ty : Ty) :
      u.Sound { e with hirTypes := Function.update e.hirTypes i (some ty) } := by
    refine ⟨fun j hj => ?_, he.held⟩
    exact (Function.update_of_ne (ne_of_mem_of_not_mem hi hj).symm _ _).trans (he.inside j hj)
  refine ⟨heq, hq, { h' with nodes := ?_, recorded := ?_, left := hinside h'.left _, right := hinside h'.right _ }⟩
  · intro j hj
    by_cases hji : j = i
    · subst hji
      simpa [TypeInfer.note] using heq
    · simp only [TypeInfer.note, Function.update_of_ne hji]
      exact h'.nodes j (by simpa [hji] using hj)
  · exact fun b hb => h'.recorded b (by simpa using hb)

theorem nodeTypes {ids : List (Fin m)} (h : ∀ i ∈ ids, .inl i ∈ W) : u.Alike K B W (nodeTypes ids) W :=
  fun _ _ hst => ⟨map_congr_left fun i hi => by rw [hst.nodes i (h i hi)], trivial, hst⟩

theorem joinBreak (blockId : Nat) (ty : Ty) : u.Alike K B W (joinBreak blockId ty) W := by
  refine fun s t h => ⟨rfl, trivial, { h with breaks := fun i hi => ?_, left := { h.left with }, right := { h.right with } }⟩
  by_cases hb : i = blockId
  · subst hb
    simp only [CompUnit.joinBreak, Function.update_self, h.breaks i hi]
  · simpa only [CompUnit.joinBreak, Function.update_of_ne hb] using h.breaks i hi

theorem withBreaks {blockId : Nat} {run : Infer n m Ty}
    (h : u.Alike K (insert blockId B) W run W') : u.Alike K B W (withBreaks blockId run) W' := by
  intro s t hst
  have hopen : u.Inv K (insert blockId B) W { s with breakTypes := Function.update s.breakTypes blockId none }
      { t with breakTypes := Function.update t.breakTypes blockId none } := by
    refine { hst with breaks := fun i hi => ?_, left := { hst.left with }, right := { hst.right with } }
    by_cases hb : i = blockId
    · simp [hb]
    · simpa [hb] using hst.breaks i (by simpa [hb] using hi)
  obtain ⟨heq, _, h'⟩ := h _ _ hopen
  refine ⟨?_, trivial, { h' with breaks := fun i hi => ?_, left := { h'.left with }, right := { h'.right with } }⟩
  · simp only [CompUnit.withBreaks, heq, h'.breaks blockId (by simp)]
  · by_cases hb : i = blockId
    · subst hb
      simpa [CompUnit.withBreaks] using hst.breaks i hi
    · simpa [CompUnit.withBreaks, hb] using h'.breaks i (by simp [hi])

theorem recordLambdaBodyType {b : Fin n} {init : Hir n m}
    (hb : init.unwrapMakeCell.lambdaBody.isSome → u.Known b)
    (hW : ∀ i ∈ init.unwrapMakeCell.lambdaBody, .inl i ∈ W) :
    u.Alike K B W (u.recordLambdaBodyType b init)
      {x | x ∈ W ∨ x = .inr b ∧ init.unwrapMakeCell.lambdaBody.isSome} := by
  intro s t h
  unfold CompUnit.recordLambdaBodyType
  cases hbody : init.unwrapMakeCell.lambdaBody with
  | none => exact ⟨rfl, trivial, by simpa using h⟩
  | some i =>
    rw [hbody] at hb hW
    obtain ⟨hfn, hmut⟩ := hb rfl
    have hnode := h.nodes i (hW i rfl)
    have hsound {e : Env n m} (he : u.Sound e) (ty : Ty) (hty : u.mutated b → ty = .top) :
        u.Sound { e with lambdaBodyType := Function.update e.lambdaBodyType b (some ty) } := by
      refine ⟨he.inside, fun c hc => ?_⟩
      by_cases hcb : c = b
      · subst hcb
        simp [hty (hmut hc), hfn]
      · simpa [hcb] using he.held c hc
    have hty {e : Env n m} : u.mutated b → (if u.mutated b then Ty.top else (e.hirTypes i).getD .top) = .top :=
      fun hm => if_pos hm
    refine ⟨rfl, trivial, { h with
        bodies := ?_, recorded := ?_, nodes := ?_, left := hsound h.left _ hty, right := hsound h.right _ hty }⟩
    · simp only [h.bodies, hnode]
    · exact fun j hj => h.nodes j (by simpa using hj)
    · intro c hc
      by_cases hcb : c = b
      · simp [hcb]
      · simpa [hcb] using h.recorded c (by simpa [hcb] using hc)

theorem callResult (func : Hir n m) (argTypes : List Ty) (spliced : List Bool) :
    u.Alike K B W (u.callResult func argTypes spliced) W := by
  rw [CompUnit.callResult]
  split
  · exact pure trivial
  · split
    · refine bind (Q := fun _ => True) ?_ fun _ _ s t h => ⟨by rw [h.bodies], trivial, h⟩
      split
      · exact pure trivial
      · exact forM fun _ _ => joinParam _ _
    · exact pure trivial

end Tri

/-! ## The transfer function keeps two runs together -/

/-- The marks of a node's run: the nodes under it, and the functions recorded there. -/
def marks (h : Hir n m) : Set (Fin m ⊕ Fin n) :=
  {x | (∃ c ∈ h.children, ∃ d, Hir.Below c d ∧ x = .inl d.id) ∨ ∃ d, Hir.Below h d ∧ ∃ b, d.Records b ∧ x = .inr b}

/-- The marks after running the nodes `hs` one after the other. -/
def plus (W : Set (Fin m ⊕ Fin n)) (hs : List (Hir n m)) : Set (Fin m ⊕ Fin n) :=
  {x | x ∈ W ∨ ∃ h ∈ hs, x = .inl h.id ∨ x ∈ marks h}

theorem plus_nil (W : Set (Fin m ⊕ Fin n)) : plus W ([] : List (Hir n m)) = W := by
  ext x; simp [plus]

theorem plus_plus (W : Set (Fin m ⊕ Fin n)) (hs hs' : List (Hir n m)) : plus (plus W hs) hs' = plus W (hs ++ hs') := by
  ext x; simp [plus, or_and_right, exists_or, or_assoc]

theorem union_marks_subset {W : Set (Fin m ⊕ Fin n)} {h : Hir n m} :
    W ∪ marks h ⊆ {x | x ∈ plus W h.children ∨ ∃ b, h.Records b ∧ x = .inr b} := by
  rintro x (hx | ⟨c, hc, d, hd, rfl⟩ | ⟨d, hd, b, hb, rfl⟩)
  · exact .inl (.inl hx)
  · refine .inl (.inr ⟨c, hc, ?_⟩)
    rcases hd.cases_head with rfl | ⟨c', hc', hd⟩
    · exact .inl rfl
    · exact .inr (.inl ⟨c', hc', d, hd, rfl⟩)
  · rcases hd.cases_head with rfl | ⟨c, hc, hd⟩
    · exact .inr ⟨b, hb, rfl⟩
    · exact .inl (.inr ⟨c, hc, .inr (.inr ⟨d, hd, b, hb, rfl⟩)⟩)

/-- The node belongs to the unit and its run keeps two runs together. -/
def Good (K : Set (Fin n)) (h : Hir n m) : Prop :=
  h.id ∈ u.treeIds ∧ ∀ B W, u.Alike K B W (u.infer h) (W ∪ marks h)

section Lists
variable {u} {K : Set (Fin n)} {B : Set Nat} {W : Set (Fin m ⊕ Fin n)}

theorem Good.note {h : Hir n m} (hh : u.Good K h) : u.Alike K B W (note h.id (u.infer h)) (plus W [h]) :=
  (Tri.note (hh.2 B W) hh.1).mono fun x hx => by simpa [plus, or_left_comm] using hx

theorem tri_inferAll {hs : List (Hir n m)} (hg : ∀ h ∈ hs, u.Good K h) :
    u.Alike K B W (u.inferAll hs) (plus W hs) := by
  induction hs generalizing W with
  | nil => rw [inferAll, plus_nil]; exact .pure trivial
  | cons h hs ih =>
    rw [inferAll, ← singleton_append, ← plus_plus]
    exact (hg h (by simp)).note.bind fun _ _ => (ih fun c hc => hg c (by simp [hc])).last

theorem tri_inferArgs {args : List (Hir n m × Bool)} (hg : ∀ a ∈ args, u.Good K a.1) :
    u.Alike K B W (u.inferArgs args) (plus W (args.map Prod.fst)) := by
  induction args generalizing W with
  | nil => rw [inferArgs, map_nil, plus_nil]; exact .pure trivial
  | cons a args ih =>
    rw [inferArgs, map_cons, ← singleton_append, ← plus_plus]
    exact (hg a (by simp)).note.bind fun _ _ => (ih fun c hc => hg c (by simp [hc])).last

theorem tri_inferSequence {hs : List (Hir n m)} (hg : ∀ h ∈ hs, u.Good K h) {ty : Ty} {saved : List (Narrowed n)}
    (hsaved : ∀ x ∈ saved, Tri.Backed K x) : u.Alike K B W (u.inferSequence hs ty saved) (plus W hs) := by
  induction hs generalizing W ty saved with
  | nil =>
    rw [inferSequence, plus_nil]
    exact (Tri.restoreTypeFacts hsaved).last
  | cons h hs ih =>
    rw [inferSequence, ← singleton_append, ← plus_plus]
    refine (hg h (by simp)).note.bind fun _ _ => (Tri.applyTypeFacts _).bind fun more hmore =>
      ih (fun c hc => hg c (by simp [hc])) fun x hx => ?_
    exact (List.mem_append.mp hx).elim (hsaved x) (hmore x)

theorem tri_inferClauses {cs : List (Hir n m × Hir n m)} (hg : ∀ c ∈ cs, u.Good K c.1 ∧ u.Good K c.2) {ty : Ty}
    {saved : List (Narrowed n)} (hsaved : ∀ x ∈ saved, Tri.Backed K x) :
    u.Tri K B W (u.inferClauses cs ty saved) (plus W (cs.flatMap fun c => [c.1, c.2]))
      fun r => ∀ x ∈ r.2, Tri.Backed K x := by
  induction cs generalizing W ty saved with
  | nil => rw [inferClauses, flatMap_nil, plus_nil]; exact .pure hsaved
  | cons c cs ih =>
    obtain ⟨htest, hbody⟩ := hg c (by simp)
    rw [inferClauses, flatMap_cons, ← plus_plus, ← singleton_append, ← plus_plus W]
    refine htest.note.bind fun _ _ => (Tri.applyTypeFacts _).bind fun once honce => hbody.note.bind fun _ _ =>
      (Tri.restoreTypeFacts honce).bind fun _ _ => (Tri.applyTypeFacts _).bind fun more hmore =>
        ih (fun c hc => hg c (by simp [hc])) fun x hx => ?_
    exact (List.mem_append.mp hx).elim (hsaved x) (hmore x)

theorem tri_inferElse {e : Option (Hir n m)} (hg : ∀ h ∈ e, u.Good K h) {ty : Ty} :
    u.Alike K B W (u.inferElse e ty) (plus W e.toList) := by
  cases e with
  | none => rw [inferElse, Option.toList_none, plus_nil]; exact .pure trivial
  | some h => rw [inferElse]; exact (hg h rfl).note.last

theorem tri_inferGuard {e : Option (Hir n m)} (hg : ∀ h ∈ e, u.Good K h) :
    u.Alike K B W (u.inferGuard e) (plus W e.toList) := by
  cases e with
  | none => rw [inferGuard, Option.toList_none, plus_nil]; exact .pure trivial
  | some h => rw [inferGuard]; exact (hg h rfl).note.last

theorem tri_narrowSubject (subject : Option (Fin n)) (pat : Option Ty) :
    u.Tri K B W (narrowSubject subject pat) W fun saved => ∀ x ∈ saved, Tri.Backed K x := by
  rw [narrowSubject.eq_def]
  split
  · exact (Tri.narrowType _ _).bind fun _ hx => .pure (by simpa using hx)
  · exact .pure (by simp)

theorem tri_inferArms {subject : Option (Fin n)} {arms : List (Option Ty × Option (Hir n m) × Hir n m)}
    (hg : ∀ a ∈ arms, (∀ g ∈ a.2.1, u.Good K g) ∧ u.Good K a.2.2) {ty : Ty} :
    u.Alike K B W (u.inferArms subject arms ty) (plus W (arms.flatMap fun a => a.2.1.toList ++ [a.2.2])) := by
  induction arms generalizing W ty with
  | nil => rw [inferArms, flatMap_nil, plus_nil]; exact .pure trivial
  | cons a arms ih =>
    obtain ⟨hguard, hbody⟩ := hg a (by simp)
    rw [inferArms, flatMap_cons, ← plus_plus, ← plus_plus W]
    exact (tri_inferGuard hguard).bind fun _ _ => (tri_narrowSubject _ _).bind fun _ hsaved =>
      hbody.note.bind fun _ _ => (Tri.restoreTypeFacts hsaved).bind fun _ _ => ih fun c hc => hg c (by simp [hc])

theorem lambdaBody_mem_marks {init : Hir n m} : ∀ i ∈ init.unwrapMakeCell.lambdaBody, .inl i ∈ marks init := by
  intro i hi
  refine .inl ?_
  cases init <;> simp only [Hir.unwrapMakeCell, Hir.lambdaBody, Option.mem_def, Option.some.injEq, reduceCtorEq] at hi
  case makeCell j value =>
    refine ⟨value, by simp [Hir.children], ?_⟩
    cases value <;> simp only [Option.some.injEq, reduceCtorEq] at hi
    case lambda ps r c body => exact ⟨body, .single (by simp [Hir.children]), by rw [hi]⟩
  case lambda ps r c body => exact ⟨body, by simp [Hir.children], body, .refl, by rw [hi]⟩

theorem tri_bindLet {b : Fin n} {init : Hir n m} {ty : Ty}
    (hrec : init.unwrapMakeCell.lambdaBody.isSome → u.Known b) :
    u.Alike K B (plus W [init]) (u.bindLet b init ty)
      {x | x ∈ plus W [init] ∨ x = .inr b ∧ init.unwrapMakeCell.lambdaBody.isSome} := by
  refine (Tri.recordLambdaBodyType hrec fun i hi => ?_).bind fun _ _ => ?_
  · exact .inr ⟨init, by simp, .inr (lambdaBody_mem_marks i hi)⟩
  · split
    · exact .pure trivial
    · exact Tri.joinType _ _ _

theorem tri_inferBindings_loop {bs : List (Fin n × Hir n m)} (hg : ∀ p ∈ bs, u.Good K p.2) :
    u.Alike K B W (u.inferBindings bindLoop bs) (plus W (bs.map Prod.snd)) := by
  induction bs generalizing W with
  | nil => rw [inferBindings, map_nil, plus_nil]; exact .pure trivial
  | cons p bs ih =>
    rw [inferBindings, map_cons, ← singleton_append, ← plus_plus]
    exact (hg p (by simp)).note.bind fun _ _ => (Tri.joinType _ _ _).bind fun _ _ => ih fun c hc => hg c (by simp [hc])

theorem tri_inferBindings_let {bs : List (Fin n × Hir n m)} (hg : ∀ p ∈ bs, u.Good K p.2)
    (hrec : ∀ p ∈ bs, p.2.unwrapMakeCell.lambdaBody.isSome → u.Known p.1) :
    u.Alike K B W (u.inferBindings u.bindLet bs) {x | x ∈ plus W (bs.map Prod.snd) ∨
      ∃ p ∈ bs, p.2.unwrapMakeCell.lambdaBody.isSome ∧ x = .inr p.1} := by
  induction bs generalizing W with
  | nil => rw [inferBindings, map_nil, plus_nil]; simpa using .pure trivial
  | cons p bs ih =>
    rw [inferBindings, map_cons, ← singleton_append, ← plus_plus]
    refine Tri.mono ((hg p (by simp)).note.bind fun ty _ => (tri_bindLet (hrec p (by simp))).bind fun _ _ =>
      ih (fun c hc => hg c (by simp [hc])) fun c hc => hrec c (by simp [hc])) ?_
    rintro x ((hx | hx) | ⟨q, hq, hfn, rfl⟩)
    · exact .inl (.inl (.inl hx))
    · exact .inl (.inr hx)
    · rcases List.mem_cons.mp hq with rfl | hq
      · exact .inl (.inl (.inr ⟨rfl, hfn⟩))
      · exact .inr ⟨q, hq, hfn, rfl⟩

end Lists

section Forms
variable {u} {K : Set (Fin n)} {B : Set Nat} {W : Set (Fin m ⊕ Fin n)}

theorem tri_define {b : Fin n} {value : Hir n m} (hg : u.Good K value)
    (hrec : value.unwrapMakeCell.lambdaBody.isSome → u.Known b) :
    u.Alike K B W (do
      let ty ← u.infer value
      u.recordLambdaBodyType b value
      let ty ← note value.id (pure ty)
      joinType b ty (fun t => t)
      return ty)
      {x | x ∈ plus W [value] ∨ x = .inr b ∧ value.unwrapMakeCell.lambdaBody.isSome} := by
  refine Tri.mono ((hg.2 B W).bind fun ty _ =>
    (Tri.recordLambdaBodyType hrec fun i hi => .inr (lambdaBody_mem_marks i hi)).bind fun _ _ =>
      (Tri.note (Q := fun _ => True) (.pure trivial) hg.1).bind fun ty' _ => (Tri.joinType _ _ _).last) ?_
  intro x hx
  simp only [plus, mem_singleton, exists_eq_left, Set.mem_ofPred_eq, Set.mem_insert_iff, Set.mem_union] at hx ⊢
  tauto

attribute [local simp] Hir.children

/-- One case per form: the runs of the parts compose, and the marks are those of the children. -/
theorem tri_infer {h : Hir n m} (hg : ∀ c ∈ h.children, u.Good K c)
    (hrec : ∀ b, h.Records b → u.Known b) :
    u.Alike K B W (u.infer h) {x | x ∈ plus W h.children ∨ ∃ b, h.Records b ∧ x = .inr b} := by
  cases h
  case let_ i bs body =>
    have hbs : ∀ p ∈ bs, u.Good K p.2 := fun p hp => hg _ (by simpa using .inl ⟨p.1, hp⟩)
    rw [infer, Hir.children, ← plus_plus]
    refine ((tri_inferBindings_let hbs fun p hp hfn => hrec p.1 ⟨p.2, hp, hfn⟩).bind fun _ _ =>
      (hg body (by simp)).note).mono ?_
    rintro x ((hx | hx) | ⟨b, ⟨init, hmem, hfn⟩, rfl⟩)
    · exact .inl (.inl hx)
    · exact .inr hx
    · exact .inl (.inr ⟨_, hmem, hfn, rfl⟩)
  case assign i b value | define i b value =>
    refine (tri_define (hg value (by simp)) fun hfn => hrec b ⟨rfl, hfn⟩).mono fun x hx => ?_
    exact hx.imp_right fun ⟨_, ⟨hb, hfn⟩, hx⟩ => ⟨hb ▸ hx, hfn⟩
  -- the other forms record no function
  all_goals
    refine Tri.mono ?_ fun x hx => hx.elim id fun ⟨_, hb, _⟩ => hb.elim
  case const => rw [Hir.children, plus_nil]; exact .pure trivial
  case var => rw [Hir.children, plus_nil]; exact .typeOr _ _
  case intrinsic i op args =>
    refine (tri_inferAll hg).bind fun _ _ => (Tri.nodeTypes fun j hj => ?_).last
    obtain ⟨a, ha, rfl⟩ := List.mem_map.mp hj
    exact .inr ⟨a, ha, .inl rfl⟩
  case loop i bs body =>
    have hbs : ∀ p ∈ bs, u.Good K p.2 := fun p hp => hg _ (by simpa using .inl ⟨p.1, hp⟩)
    rw [Hir.children, ← plus_plus]
    exact (tri_inferBindings_loop hbs).bind fun _ _ => (hg body (by simp)).note
  case makeCell i value | return_ i value => exact (hg value (by simp)).note
  case derefCell i cell =>
    refine (hg cell (by simp)).note.bind fun _ _ => ?_
    rw [cellType.eq_def]
    split
    · exact .typeOr _ _
    · exact .pure trivial
  case setCell i cell value =>
    rw [Hir.children, ← singleton_append, ← plus_plus]
    refine (hg cell (by simp)).note.bind fun _ _ => (hg value (by simp)).note.bind
      fun _ _ => Tri.bind (Q := fun _ => True) ?_ fun _ _ => .pure trivial
    rw [joinCell.eq_def]
    split
    · exact .joinType _ _ _
    · exact .pure trivial
  case if_ i c t e =>
    rw [Hir.children, show [c, t, e] = [c] ++ [t] ++ [e] from rfl, ← plus_plus, ← plus_plus]
    exact (hg c (by simp)).note.bind fun _ _ => (Tri.applyTypeFacts _).bind fun _ h₁ =>
      (hg t (by simp)).note.bind fun _ _ => (Tri.restoreTypeFacts h₁).bind fun _ _ =>
        (Tri.applyTypeFacts _).bind fun _ h₂ => (hg e (by simp)).note.bind fun _ _ =>
          (Tri.restoreTypeFacts h₂).last
  case match_ i value arms =>
    rw [Hir.children, ← singleton_append, ← plus_plus]
    refine (hg value (by simp)).note.bind fun _ _ => (tri_inferArms fun a ha => ⟨fun g hgd => hg g ?_,
      hg a.2.2 ?_⟩).last
    · exact mem_cons_of_mem _ (List.mem_flatMap.mpr ⟨a, ha, by simp [Option.mem_def.mp hgd]⟩)
    · exact mem_cons_of_mem _ (List.mem_flatMap.mpr ⟨a, ha, by simp⟩)
  case cond i clauses e =>
    rw [Hir.children, ← plus_plus]
    refine (tri_inferClauses (fun c hc => ⟨hg c.1 ?_, hg c.2 ?_⟩) (by simp)).bind fun _ hsaved =>
      (tri_inferElse fun h hh => hg h ?_).bind fun _ _ => (Tri.restoreTypeFacts hsaved).last
    · exact mem_append_left _ (List.mem_flatMap.mpr ⟨c, hc, by simp⟩)
    · exact mem_append_left _ (List.mem_flatMap.mpr ⟨c, hc, by simp⟩)
    · exact mem_append_right _ (Option.mem_toList.mpr hh)
  case begin_ => exact tri_inferSequence hg (by simp)
  case block => exact (tri_inferSequence hg (by simp)).withBreaks
  case break_ i blockId value => exact (hg value (by simp)).note.bind fun _ _ => (Tri.joinBreak _ _).last
  case shortCircuit | other => exact (tri_inferAll hg).last
  case call i func args =>
    refine Tri.mono ((hg func (by simp)).note.bind fun _ _ => (tri_inferArgs fun a ha => hg a.1 ?_).bind
      fun _ _ => Tri.callResult _ _ _) ?_
    · exact mem_append_left _ (mem_map_of_mem ha)
    · rw [plus_plus]
      exact fun x hx => hx.imp_right fun ⟨h, hh, hx⟩ => ⟨h, by simpa [or_comm] using hh, hx⟩
  case lambda i ps rest collects body =>
    refine Tri.bind (Q := fun _ => True) (Tri.forM fun p _ => (Tri.typeOr _ _).bind fun _ _ => Tri.setType _ _) fun _ _ =>
      (hg body (by simp)).note.last
  case destructure i written value =>
    exact (hg value (by simp)).note.bind fun _ _ => (Tri.forM fun b _ => Tri.setType b _).last

theorem good_of_below {h : Hir n m} (hh : Hir.Below u.hir h) : u.Good K h := by
  induction h using Hir.induct with
  | step h ih =>
    exact ⟨⟨h, hh, rfl⟩, fun B W => (tri_infer (fun c hc => ih c hc (hh.tail hc)) fun b hb =>
      u.known_of_records hh hb).mono union_marks_subset⟩

end Forms

/-! ## One pass -/

section Pass
variable {u} {K : Set (Fin n)} {W : Set (Fin m ⊕ Fin n)} {w : Finset (Fin n)} {s t : Env n m}

theorem mem_plus_hir {x : Fin m ⊕ Fin n} (hx : (∃ i ∈ u.treeIds, x = .inl i) ∨ ∃ b ∈ u.functions, x = .inr b) :
    x ∈ plus W [u.hir] := by
  refine .inr ⟨u.hir, by simp, ?_⟩
  rcases hx with ⟨_, ⟨d, hd, rfl⟩, rfl⟩ | ⟨b, ⟨d, hd, hb⟩, rfl⟩
  · rcases hd.cases_head with rfl | ⟨c, hc, hd⟩
    · exact .inl rfl
    · exact .inr (.inl ⟨c, hc, d, hd, rfl⟩)
  · exact .inr (.inr ⟨d, hd, b, hb, rfl⟩)

theorem Inv.hirTypes_eq {B : Set Nat} (h : u.Inv K B W s t) (hW : ∀ i ∈ u.treeIds, .inl i ∈ W) :
    s.hirTypes = t.hirTypes := by
  funext i
  by_cases hi : i ∈ u.treeIds
  · exact h.nodes i (hW i hi)
  · rw [h.left.inside i hi, h.right.inside i hi]

theorem tri_joinGraftedOperands (hW : ∀ i ∈ u.treeIds, .inl i ∈ W) :
    u.Alike K ∅ W u.joinGraftedOperands W := by
  refine Tri.forM fun ⟨c, i⟩ _ => ?_
  dsimp only
  split
  · exact .pure trivial
  · intro s t h
    have : operandType s c.operand = operandType t c.operand := by
      simp only [operandType.eq_def, h.types, h.hirTypes_eq hW]
    dsimp only
    rw [this]
    exact Tri.joinParam _ _ s t h

theorem exists_run (hs : u.Sound s) (ht : u.Sound t) (htypes : s.bindingTypes = t.bindingTypes)
    (hbodies : s.lambdaBodyType = t.lambdaBodyType) (w : Finset (Fin n)) :
    ∃ s' t', u.pass w s = u.close w s' ∧ u.pass w t = u.close w t' ∧
      u.Inv {b | (s.bindingTypes b).isSome} ∅ (plus {x | ∃ b, (s.lambdaBodyType b).isSome ∧ x = .inr b} [u.hir]) s' t' := by
  have hrun := (good_of_below (u := u) (K := {b | (s.bindingTypes b).isSome}) .refl).note.bind (B := ∅)
    (W := {x | ∃ b, (s.lambdaBodyType b).isSome ∧ x = .inr b}) fun _ _ =>
      tri_joinGraftedOperands fun i hi => mem_plus_hir (.inl ⟨i, hi, rfl⟩)
  exact ⟨_, _, rfl, rfl, (hrun { s with paramJoins := fun _ => none } { t with paramJoins := fun _ => none }
    { types := htypes, bodies := hbodies, joins := rfl, breaks := by simp, kept := fun _ hb => hb, nodes := by simp
      recorded := by simp, left := { hs with }, right := { ht with } }).2.2⟩

/-- The three maps an ascent compares. -/
structure Same (s t : Env n m) : Prop where
  hirTypes : s.hirTypes = t.hirTypes
  bindingTypes : s.bindingTypes = t.bindingTypes
  lambdaBodyType : s.lambdaBodyType = t.lambdaBodyType

theorem pass_congr (hs : u.Sound s) (ht : u.Sound t) (htypes : s.bindingTypes = t.bindingTypes)
    (hbodies : s.lambdaBodyType = t.lambdaBodyType) : Same (u.pass w s) (u.pass w t) := by
  obtain ⟨s', t', hs', ht', h⟩ := exists_run hs ht htypes hbodies w
  rw [hs', ht']
  refine ⟨h.hirTypes_eq fun i hi => mem_plus_hir (.inl ⟨i, hi, rfl⟩), ?_, ?_⟩
  · simp only [close, h.types, h.joins]
  · simp only [close, h.bodies]

/-- What one pass keeps and what it leaves. -/
structure Passed (u : CompUnit n m) (w : Finset (Fin n)) (s s' : Env n m) : Prop where
  sound : u.Sound s'
  types : ∀ b, (s.bindingTypes b).isSome → (s'.bindingTypes b).isSome
  bodies : ∀ b, (s.lambdaBodyType b).isSome ∨ b ∈ u.functions → (s'.lambdaBodyType b).isSome
  pinned : ∀ b ∈ w, s'.bindingTypes b = some .top ∧ ((u.lambdaParams b).isSome → s'.lambdaBodyType b = some .top)

theorem pass_spec (hs : u.Sound s) (w : Finset (Fin n)) : Passed u w s (u.pass w s) := by
  obtain ⟨s', _, hs', -, h⟩ := exists_run hs hs rfl rfl w
  rw [hs']
  refine ⟨⟨h.left.inside, fun b hb => ?_⟩, fun b hb => ?_, fun b hb => ?_, fun b hb => ?_⟩
  · simpa [close, hb] using h.left.held b hb
  · have := h.kept b hb
    simp only [close]
    split
    · rfl
    · split
      · split
        · exact this
        · rfl
      · exact this
  · have : (s'.lambdaBodyType b).isSome := h.recorded b <| hb.elim (fun hb => .inl ⟨b, hb, rfl⟩) fun hb =>
      mem_plus_hir (.inr ⟨b, hb, rfl⟩)
    simp only [close]
    split
    · rfl
    · exact this
  · exact ⟨if_pos hb, fun hl => if_pos ⟨hb, hl⟩⟩

theorem Passed.keys_subset {s' : Env n m} (h : Passed u w s s') : keys s ⊆ keys s' := by
  intro b hb
  simp only [keys, Finset.mem_filter, Finset.mem_univ, true_and] at hb ⊢
  exact hb.imp (h.types b) fun hb => h.bodies b (.inl hb)

/-! ## The ascent -/

theorem pinned_agree {s₁ s₂ : Env n m} (h₁ : Passed u w s s₁) (h₂ : Passed u w s₁ s₂) (hw : keys s₂ ⊆ w) :
    s₁.bindingTypes = s₂.bindingTypes ∧ s₁.lambdaBodyType = s₂.lambdaBodyType := by
  have hout {b : Fin n} (hb : b ∉ w) {e : Env n m} (he : keys e ⊆ w) :
      e.bindingTypes b = none ∧ e.lambdaBodyType b = none := by
    by_contra hne
    refine hb (he ?_)
    simp only [keys, Finset.mem_filter, Finset.mem_univ, true_and, Option.isSome_iff_ne_none]
    tauto
  have hw₁ := h₂.keys_subset.trans hw
  refine ⟨funext fun b => ?_, funext fun b => ?_⟩ <;> by_cases hb : b ∈ w
  · rw [(h₁.pinned b hb).1, (h₂.pinned b hb).1]
  · rw [(hout hb hw₁).1, (hout hb hw).1]
  · cases hl : u.lambdaParams b with
    | some sig => rw [(h₁.pinned b hb).2 (by simp [hl]), (h₂.pinned b hb).2 (by simp [hl])]
    | none =>
      -- no parameter signature: recorded in every pass or in none, and then at `top`
      have hall {e e' : Env n m} (h : Passed u w e e') (hf : b ∈ u.functions) : e'.lambdaBodyType b = some .top := by
        rcases h.sound.held b hl with hn | ht
        · simpa [hn] using h.bodies b (.inr hf)
        · exact ht.1
      by_cases hf : b ∈ u.functions
      · rw [hall h₁ hf, hall h₂ hf]
      · rw [(h₁.sound.held b hl).resolve_right (fun h => hf h.2), (h₂.sound.held b hl).resolve_right (fun h => hf h.2)]
  · rw [(hout hb hw₁).2, (hout hb hw).2]

/-- How an ascent ends: on an environment a pass has just left as it was, or with the budget spent. -/
theorem ascend_spec (hs : u.Sound s) (w moving : Finset (Fin n)) (k : Nat) :
    (u.ascend w k moving s).1 ≤ k ∧
      match (u.ascend w k moving s).2 with
      | (none, s') => ∃ e, u.Sound e ∧ s' = u.pass w e ∧ Same e s'
      | (some _, s') => u.Sound s' ∧ keys s ⊆ keys s' := by
  induction k generalizing s moving with
  | zero => exact ⟨Nat.le_refl _, hs, Finset.Subset.refl _⟩
  | succ k ih =>
    rw [ascend]
    have hp := pass_spec hs w
    split
    next h => exact ⟨by simp, s, hs, rfl, h.1, h.2.1, h.2.2⟩
    next =>
      obtain ⟨hle, hend⟩ := ih hp.sound (moved s.bindingTypes (u.pass w s).bindingTypes ∪
        moved s.lambdaBodyType (u.pass w s).lambdaBodyType)
      refine ⟨Nat.succ_le_succ hle, ?_⟩
      dsimp only
      split at hend
      · exact hend
      · exact ⟨hend.1, hp.keys_subset.trans hend.2⟩

theorem ascend_some (hs : u.Sound s) {k passes : Nat} {moving moving' : Finset (Fin n)} {s' : Env n m}
    (h : u.ascend w (k + 3) moving s = (passes, some moving', s')) : ¬ keys s' ⊆ w := by
  intro hw
  have h₁ := pass_spec hs w
  have h₂ := pass_spec h₁.sound w
  have h₃ := pass_spec h₂.sound w
  rw [ascend, ascend, ascend] at h
  split at h
  · simp at h
  · split at h
    · simp at h
    · split at h
      · simp at h
      next hne =>
        -- the passes went on to `s'`, whose entries include those of the second
        have hend := (ascend_spec h₃.sound w (moved (u.pass w (u.pass w s)).bindingTypes
          (u.pass w (u.pass w (u.pass w s))).bindingTypes ∪ moved (u.pass w (u.pass w s)).lambdaBodyType
            (u.pass w (u.pass w (u.pass w s))).lambdaBodyType) k).2
        simp only [Prod.mk.injEq] at h
        rw [h.2] at hend
        obtain ⟨htypes, hbodies⟩ := pinned_agree h₁ h₂ ((h₃.keys_subset.trans hend.2).trans hw)
        have hsame := pass_congr (w := w) h₁.sound h₂.sound htypes hbodies
        exact hne ⟨hsame.hirTypes, hsame.bindingTypes, hsame.lambdaBodyType⟩

theorem card_lt_widen {moving : Finset (Fin n)} (h : ¬ keys s ⊆ w) : w.card < (widen w moving s).card := by
  rw [widen]
  split
  · refine Finset.card_lt_card ⟨by grind, fun hsub => h ?_⟩
    exact Finset.subset_union_right.trans hsub
  next hne => exact lt_of_le_of_ne (Finset.card_le_card Finset.subset_union_left) (Ne.symm hne)

/-- The environment before its `bottom`s are raised: a pass changes nothing, and every widened
binding is at `top`. -/
structure Fixed (u : CompUnit n m) (w : Finset (Fin n)) (e : Env n m) : Prop where
  sound : u.Sound e
  same : Same e (u.pass w e)
  pinned : ∀ b ∈ w, e.bindingTypes b = some .top ∧ ((u.lambdaParams b).isSome → e.lambdaBodyType b = some .top)

theorem solveFrom_spec (w : Finset (Fin n)) (s : Env n m) (hs : u.Sound s) :
    (u.solveFrom w s).passes ≤ maxIters * (n - w.card + 1) ∧
      ∃ e, Fixed u (u.solveFrom w s).widened e ∧ (u.solveFrom w s).env = settle e := by
  induction w, s using solveFrom.induct u with
  | case1 w s passes s' hasc =>
    have hspec := ascend_spec hs w ∅ maxIters
    rw [hasc] at hspec
    obtain ⟨hle, e, he, rfl, hsame⟩ := hspec
    have hpass := pass_spec he w
    have hsame' := pass_congr (w := w) he hpass.sound hsame.bindingTypes hsame.lambdaBodyType
    rw [solveFrom, hasc]
    exact ⟨Nat.le_trans hle (Nat.le_mul_of_pos_right _ (by omega)), _, ⟨hpass.sound, hsame', hpass.pinned⟩, rfl⟩
  | case2 w s passes moving s' hasc hlt ih =>
    have hspec := ascend_spec hs w ∅ maxIters
    rw [hasc] at hspec
    obtain ⟨hle, e, hfixed, henv⟩ := ih hspec.2.1
    have hcard := Finset.card_le_univ (widen w moving s')
    rw [Fintype.card_fin] at hcard
    rw [solveFrom, hasc]
    simp only [if_pos hlt]
    refine ⟨?_, e, hfixed, henv⟩
    calc passes + (u.solveFrom (widen w moving s') s').passes
        ≤ maxIters + maxIters * (n - (widen w moving s').card + 1) := Nat.add_le_add hspec.1 hle
      _ = maxIters * (n - (widen w moving s').card + 2) := (Nat.add_comm _ _).trans (Nat.mul_succ _ _).symm
      _ ≤ maxIters * (n - w.card + 1) := Nat.mul_le_mul_left _ (by omega)
  | case3 w s passes moving s' hasc hnlt => exact absurd (card_lt_widen (ascend_some hs (k := 7) hasc)) hnlt

end Pass

theorem sound_start : u.Sound u.start := ⟨fun _ _ => rfl, fun _ _ => .inl rfl⟩

/-- The ascent takes at most one budget of passes for each binding and one more, and where it stops
another pass changes no binding type, no body type and no node type but those `settle` raised. -/
theorem solve_is_fixpoint :
    u.solve.passes ≤ maxIters * (n + 1) ∧
      (u.pass u.solve.widened u.solve.env).bindingTypes = u.solve.env.bindingTypes ∧
      (u.pass u.solve.widened u.solve.env).lambdaBodyType = u.solve.env.lambdaBodyType ∧
      (∀ i, (u.pass u.solve.widened u.solve.env).hirTypes i = u.solve.env.hirTypes i ∨
        (u.pass u.solve.widened u.solve.env).hirTypes i = some .bottom ∧ u.solve.env.hirTypes i = some .top) ∧
      ∀ b ∈ u.solve.widened, u.solve.env.bindingTypes b = some .top ∧
        ((u.lambdaParams b).isSome → u.solve.env.lambdaBodyType b = some .top) := by
  obtain ⟨hpasses, e, he, henv⟩ := solveFrom_spec (u := u) ∅ u.start u.sound_start
  rw [solve, henv]
  have hsettled : u.Sound (settle e) := ⟨fun i hi => by simp [settle, he.sound.inside i hi], he.sound.held⟩
  have hsame := pass_congr (w := (u.solveFrom ∅ u.start).widened) hsettled he.sound rfl rfl
  refine ⟨hpasses, ?_, ?_, fun i => ?_, he.pinned⟩
  · rw [hsame.bindingTypes, ← he.same.bindingTypes]
    rfl
  · rw [hsame.lambdaBodyType, ← he.same.lambdaBodyType]
    rfl
  · rw [hsame.hirTypes, ← he.same.hirTypes]
    cases hi : e.hirTypes i with
    | none => simp [settle, hi]
    | some ty => by_cases hty : ty = .bottom <;> simp [settle, hi, hty]

theorem solveFrom_passes_pos (w : Finset (Fin n)) (s : Env n m) : 0 < (u.solveFrom w s).passes := by
  have hpos : 0 < (u.ascend w maxIters ∅ s).1 := by
    rw [maxIters, ascend]
    split <;> simp
  rw [solveFrom]
  split
  next h => simpa [h] using hpos
  next h =>
    rw [h] at hpos
    split
    · exact Nat.add_pos_left hpos _
    · exact hpos

/-- A unit of one literal, with no binding at all. -/
def literalUnit : CompUnit 0 1 where
  hir := .const 0 .int
  declaredNumeric := fun _ => false
  valueUsed := fun _ => false
  record := []
  prior := fun _ => .top
  condFacts := fun _ => ([], [])
  factsAfterStatement := fun _ => []
  intrinsicReturnType := fun _ _ => .top
  primitiveReturnType := fun _ _ => .top
  typeofSubject := fun _ => none

theorem literal_exceeds_bindings_times_budget : maxIters * 0 < literalUnit.solve.passes :=
  literalUnit.solveFrom_passes_pos ∅ _

end CompUnit

end Elle.TypeInfer

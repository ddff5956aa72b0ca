import Mathlib

/-! # The formatter's layout engine

The document algebra (`formatter/doc.rs`) and its renderer (`formatter/render.rs`).  The output is the text written so
far; columns count its bytes.  `Woven` says how an output is put together from a document's texts and line breaks.
-/

namespace Elle.Formatter

open List

inductive Doc
  | empty
  | text (s : List Char)
  | concat (docs : List Doc)
  | nest (n : Nat) (inner : Doc)
  | break_
  | space
  | group (inner : Doc)
  | hardBreak
  | commentBreak
  | freshLine
  | blankLine
  | align (inner : Doc)
  | hang (first rest : Doc)

inductive Mode
  | flat | broken

structure Ctx where
  indentWidth : Nat
  lineWidth : Nat

/-- The renderer between two nodes: the column, whether a comment break ended the line and no separator has answered it
yet, whether the line holds nothing but its indent, and the output. -/
structure State where
  col : Nat
  afterComment : Bool
  atStart : Bool
  out : List Char

def width (s : List Char) : Nat := (s.map Char.utf8Size).sum

mutual

def measureFlat : Doc → Option Nat
  | .empty | .blankLine => some 0
  | .text s => some (width s)
  | .concat docs => measureAll docs
  | .nest _ inner | .group inner | .align inner => measureFlat inner
  | .break_ | .space => some 1
  | .hardBreak | .commentBreak | .freshLine => none
  | .hang first rest => do
    let w ← measureFlat first
    let w' ← measureFlat rest
    some (1 + w + w')

def measureAll : List Doc → Option Nat
  | [] => some 0
  | d :: ds => do
    let w ← measureFlat d
    let w' ← measureAll ds
    some (w + w')

end

namespace State

/-- The separator of a `Space`, or of a `Break` laid out flat. -/
def separate (s : State) : State :=
  if s.afterComment then { s with afterComment := false }
  else { s with atStart := false, out := s.out ++ [' '], col := s.col + 1 }

def emitNewline (s : State) (indent : Nat) : State :=
  { s with atStart := true, out := s.out ++ '\n' :: List.replicate indent ' ', col := indent }

def newlineUnlessAbsorbed (s : State) (indent : Nat) : State :=
  if s.afterComment then { s with afterComment := false } else s.emitNewline indent

def text (s : State) (t : List Char) : State :=
  { col := s.col + width t
    afterComment := s.afterComment && t.isEmpty
    atStart := s.atStart && t.isEmpty
    out := s.out ++ t }

end State

mutual

def layout (ctx : Ctx) : Doc → Nat → Mode → State → State
  | .empty, _, _, s => s
  | .text t, _, _, s => s.text t
  | .concat docs, indent, mode, s => layoutAll ctx docs indent mode s
  | .nest n inner, indent, mode, s => layout ctx inner (indent + n * ctx.indentWidth) mode s
  | .break_, indent, .broken, s => s.newlineUnlessAbsorbed indent
  | .break_, _, .flat, s => s.separate
  | .space, _, _, s => s.separate
  | .group inner, indent, _, s =>
    match measureFlat inner with
    | some w => if s.col + w ≤ ctx.lineWidth then layout ctx inner indent .flat s else layout ctx inner indent .broken s
    | none => layout ctx inner indent .broken s
  | .hardBreak, indent, _, s => s.newlineUnlessAbsorbed indent
  | .commentBreak, indent, _, s => if s.afterComment then s else { s with afterComment := true }.emitNewline indent
  | .freshLine, indent, _, s => if s.atStart then s else s.emitNewline indent
  | .blankLine, indent, _, s => if s.atStart then s.emitNewline indent else s
  | .align inner, _, mode, s => layout ctx inner s.col mode s
  | .hang first rest, indent, mode, s =>
    let start := s.col + 1
    let aligned := s.afterComment || decide (start ≤ ctx.lineWidth / 2)
    let joined := aligned || (measureFlat first).any fun w => decide (start + w ≤ ctx.lineWidth)
    let s := if joined then s.separate else s.emitNewline indent
    let indent := if aligned then s.col else indent
    layout ctx rest indent mode (layout ctx first indent mode s)

def layoutAll (ctx : Ctx) : List Doc → Nat → Mode → State → State
  | [], _, _, s => s
  | d :: ds, indent, mode, s => layoutAll ctx ds indent mode (layout ctx d indent mode s)

end

def render (doc : Doc) (ctx : Ctx) : List Char := (layout ctx doc 0 .flat ⟨0, false, true, []⟩).out

/-! ### Flat layout -/

/-- A line break of a document that is never laid out flat, or a text of it. -/
inductive Mark
  | text (s : List Char)
  | brk

mutual

/-- The texts and breaks of a document in order. -/
def marks : Doc → List Mark
  | .text s => if s.isEmpty then [] else [.text s]
  | .concat docs => marksAll docs
  | .nest _ inner | .group inner | .align inner => marks inner
  | .hardBreak | .commentBreak | .freshLine => [.brk]
  | .hang first rest => marks first ++ marks rest
  | .empty | .break_ | .space | .blankLine => []

def marksAll : List Doc → List Mark
  | [] => []
  | d :: ds => marks d ++ marksAll ds

end

/-- The texts among marks, one after another. -/
def texts : List Mark → List Char
  | [] => []
  | .text s :: ms => s ++ texts ms
  | .brk :: ms => texts ms

mutual

def noBlank : Doc → Bool
  | .blankLine => false
  | .concat docs => noBlankAll docs
  | .nest _ inner | .group inner | .align inner => noBlank inner
  | .hang first rest => noBlank first && noBlank rest
  | _ => true

def noBlankAll : List Doc → Bool
  | [] => true
  | d :: ds => noBlank d && noBlankAll ds

end

/-- `s'` is `s` after writing `w` bytes on the same line, with the newlines of `ms` and no other. -/
structure Writes (s s' : State) (w : Nat) (ms : List Mark) : Prop where
  col : s'.col = s.col + w
  afterComment : s'.afterComment = false
  out : ∃ o, s'.out = s.out ++ o ∧ width o = w ∧ o.count '\n' = (texts ms).count '\n'

@[simp] theorem width_append (s t : List Char) : width (s ++ t) = width s + width t := by simp [width]

@[simp] theorem texts_append (ms ms' : List Mark) : texts (ms ++ ms') = texts ms ++ texts ms' := by
  induction ms with
  | nil => rfl
  | cons m ms ih => cases m <;> simp [texts, ih]

theorem texts_marks_text (t : List Char) : texts (marks (.text t)) = t := by
  cases t <;> simp [marks, texts]

theorem Writes.refl {s : State} (h : s.afterComment = false) : Writes s s 0 [] :=
  ⟨rfl, h, [], by simp, rfl, rfl⟩

theorem Writes.trans {s s' s'' : State} {w w' : Nat} {ms ms' : List Mark} (h : Writes s s' w ms)
    (h' : Writes s' s'' w' ms') : Writes s s'' (w + w') (ms ++ ms') := by
  obtain ⟨o, hout, hwidth, hnl⟩ := h.out
  obtain ⟨o', hout', hwidth', hnl'⟩ := h'.out
  exact ⟨by rw [h'.col, h.col, Nat.add_assoc], h'.afterComment, o ++ o', by rw [hout', hout, append_assoc],
    by rw [width_append, hwidth, hwidth'], by rw [count_append, hnl, hnl', texts_append, count_append]⟩

theorem writes_separate {s : State} (h : s.afterComment = false) : Writes s s.separate 1 [] := by
  rw [State.separate, h]
  exact ⟨rfl, rfl, [' '], rfl, rfl, rfl⟩

mutual

theorem layout_flat (ctx : Ctx) : (d : Doc) → {w : Nat} → measureFlat d = some w → noBlank d →
    (indent : Nat) → {s : State} → s.afterComment = false → s.col + w ≤ ctx.lineWidth →
    Writes s (layout ctx d indent .flat s) w (marks d)
  | .empty, w, hw, _, _, s, hs, _ => by
    cases hw
    exact .refl hs
  | .blankLine, _, _, hb, _, _, _, _ => by cases hb
  | .text t, w, hw, _, _, s, hs, _ => by
    cases hw
    exact ⟨rfl, by simp [layout, State.text, hs], t, rfl, rfl, by rw [texts_marks_text]⟩
  | .concat docs, _, hw, hb, indent, _, hs, hfit => layoutAll_flat ctx docs hw hb indent hs hfit
  | .nest _ inner, _, hw, hb, _, _, hs, hfit | .align inner, _, hw, hb, _, _, hs, hfit =>
    layout_flat ctx inner hw hb _ hs hfit
  | .break_, w, hw, _, _, s, hs, _ | .space, w, hw, _, _, s, hs, _ => by
    cases hw
    exact writes_separate hs
  | .group inner, w, hw, hb, indent, s, hs, hfit => by
    rw [measureFlat] at hw
    rw [layout, hw]
    simp only [if_pos hfit]
    exact layout_flat ctx inner hw hb indent hs hfit
  | .hardBreak, _, hw, _, _, _, _, _ | .commentBreak, _, hw, _, _, _, _, _ | .freshLine, _, hw, _, _, _, _, _ => by
    cases hw
  | .hang first rest, w, hw, hb, indent, s, hs, hfit => by
    rw [measureFlat] at hw
    obtain ⟨w₁, hw₁, hw⟩ := Option.bind_eq_some_iff.1 hw
    obtain ⟨w₂, hw₂, hw⟩ := Option.bind_eq_some_iff.1 hw
    cases hw
    rw [noBlank, Bool.and_eq_true] at hb
    -- the first argument fits where it would be joined, so it is joined
    have hjoined : ((s.afterComment || decide (s.col + 1 ≤ ctx.lineWidth / 2)) ||
        (measureFlat first).any fun w => decide (s.col + 1 + w ≤ ctx.lineWidth)) := by
      rw [hw₁, Option.any_some, Bool.or_eq_true]
      exact .inr (decide_eq_true (by omega))
    simp only [layout, hjoined, if_true, marks]
    have hsep := writes_separate hs
    have hfirst := layout_flat ctx first hw₁ hb.1
      (if (s.afterComment || decide (s.col + 1 ≤ ctx.lineWidth / 2)) then s.separate.col else indent)
      hsep.afterComment (by rw [hsep.col]; omega)
    have hrest := layout_flat ctx rest hw₂ hb.2
      (if (s.afterComment || decide (s.col + 1 ≤ ctx.lineWidth / 2)) then s.separate.col else indent)
      hfirst.afterComment (by rw [hfirst.col, hsep.col]; omega)
    exact (hsep.trans hfirst).trans hrest

theorem layoutAll_flat (ctx : Ctx) : (ds : List Doc) → {w : Nat} → measureAll ds = some w → noBlankAll ds →
    (indent : Nat) → {s : State} → s.afterComment = false → s.col + w ≤ ctx.lineWidth →
    Writes s (layoutAll ctx ds indent .flat s) w (marksAll ds)
  | [], w, hw, _, _, s, hs, _ => by
    cases hw
    exact .refl hs
  | d :: ds, w, hw, hb, indent, s, hs, hfit => by
    rw [measureAll] at hw
    obtain ⟨w₁, hw₁, hw⟩ := Option.bind_eq_some_iff.1 hw
    obtain ⟨w₂, hw₂, hw⟩ := Option.bind_eq_some_iff.1 hw
    cases hw
    rw [noBlankAll, Bool.and_eq_true] at hb
    have hd := layout_flat ctx d hw₁ hb.1 indent hs (by omega)
    exact hd.trans (layoutAll_flat ctx ds hw₂ hb.2 indent hd.afterComment (by rw [hd.col]; omega))

end

/-! ### What a layout writes -/

def blank (c : Char) : Bool := c == ' ' || c == '\n'

/-- The output `o` holds the texts of the marks in order with blanks between them, and at the place of a break there has
been a newline since the last text (`nl`, at the start). -/
def Woven : Bool → List Mark → List Char → Prop
  | _, [], o => ∀ c ∈ o, blank c
  | _, .text t :: ms, o => ∃ gap rest, o = gap ++ (t ++ rest) ∧ (∀ c ∈ gap, blank c) ∧ Woven false ms rest
  | nl, .brk :: ms, o => ∃ gap rest, o = gap ++ rest ∧ (∀ c ∈ gap, blank c) ∧ (nl ∨ '\n' ∈ gap) ∧
      Woven true ms rest

theorem Woven.blank_cons {nl : Bool} {ms : List Mark} {o : List Char} {c : Char} (hc : blank c)
    (h : Woven (nl || c == '\n') ms o) : Woven nl ms (c :: o) := by
  match ms, h with
  | [], h => exact List.forall_mem_cons.2 ⟨hc, h⟩
  | .text t :: ms, ⟨gap, rest, ho, hgap, h⟩ =>
    exact ⟨c :: gap, rest, by rw [ho, cons_append], List.forall_mem_cons.2 ⟨hc, hgap⟩, h⟩
  | .brk :: ms, ⟨gap, rest, ho, hgap, hnl, h⟩ =>
    refine ⟨c :: gap, rest, by rw [ho, cons_append], List.forall_mem_cons.2 ⟨hc, hgap⟩, ?_, h⟩
    rcases hnl with hnl | hnl
    · rcases Bool.or_eq_true_iff.1 hnl with hnl | hnl
      · exact .inl hnl
      · exact .inr (by simp [eq_of_beq hnl])
    · exact .inr (mem_cons_of_mem _ hnl)

theorem Woven.newline {nl : Bool} {ms : List Mark} {o : List Char} (n : Nat) (h : Woven true ms o) :
    Woven nl ms ('\n' :: List.replicate n ' ' ++ o) := by
  refine Woven.blank_cons rfl ?_
  rw [beq_self_eq_true, Bool.or_true]
  induction n with
  | zero => exact h
  | succ n ih => exact Woven.blank_cons rfl ih

theorem Woven.filter : {ms : List Mark} → {nl : Bool} → {o : List Char} → Woven nl ms o →
    o.filter (!blank ·) = (texts ms).filter (!blank ·)
  | [], _, o, h => by simpa [texts, Woven] using h
  | .text t :: ms, _, _, ⟨gap, rest, ho, hgap, h⟩ => by
    have hnil : gap.filter (!blank ·) = [] := by simpa using hgap
    rw [ho, texts, filter_append, hnil, nil_append, filter_append, filter_append, h.filter]
  | .brk :: ms, _, _, ⟨gap, rest, ho, hgap, _, h⟩ => by
    have hnil : gap.filter (!blank ·) = [] := by simpa using hgap
    rw [ho, texts, filter_append, hnil, nil_append, h.filter]

/-- From `s` to `s'` the marks `ms` are woven in.  A line that a comment break ended or that is still empty has seen a
newline since the last text. -/
def Weaves (s s' : State) (ms : List Mark) : Prop :=
  ∀ nl, ((s.afterComment || s.atStart) = true → nl = true) → ∃ o nl', s'.out = s.out ++ o ∧
    ((s'.afterComment || s'.atStart) = true → nl' = true) ∧
    ∀ ms' rest, Woven nl' ms' rest → Woven nl (ms ++ ms') (o ++ rest)

namespace Weaves

variable {s s' s'' : State} {ms ms' : List Mark}

theorem refl (s : State) : Weaves s s [] := fun nl hnl => ⟨[], nl, by simp, hnl, fun _ _ h => h⟩

theorem trans (h : Weaves s s' ms) (h' : Weaves s' s'' ms') : Weaves s s'' (ms ++ ms') := by
  intro nl hnl
  obtain ⟨o, nl', hout, hnl', hw⟩ := h nl hnl
  obtain ⟨o', nl'', hout', hnl'', hw'⟩ := h' nl' hnl'
  refine ⟨o ++ o', nl'', by rw [hout', hout, append_assoc], hnl'', fun rs rest hr => ?_⟩
  rw [append_assoc, append_assoc]
  exact hw _ _ (hw' _ _ hr)

theorem brk (h : (s.afterComment || s.atStart)) : Weaves s s [.brk] := by
  intro nl hnl
  refine ⟨[], true, by simp, fun _ => rfl, fun _ _ hr => ⟨[], _, rfl, by simp, .inl (hnl h), hr⟩⟩

theorem text (s : State) (t : List Char) : Weaves s (s.text t) (marks (.text t)) := by
  intro nl hnl
  cases t with
  | nil => exact ⟨[], nl, by simp [State.text], by simpa [State.text] using hnl, fun _ _ h => h⟩
  | cons c t =>
    exact ⟨c :: t, false, rfl, by simp [State.text], fun _ rest hr => ⟨[], rest, rfl, by simp, hr⟩⟩

theorem emitNewline (s : State) (ended : Bool) (indent : Nat) :
    Weaves s ({ s with afterComment := ended }.emitNewline indent) [] := fun _ _ =>
  ⟨_, true, rfl, fun _ => rfl, fun _ _ hr => hr.newline indent⟩

theorem absorb (s : State) : Weaves s { s with afterComment := false } [] := fun nl hnl =>
  ⟨[], nl, by simp, fun h => hnl (by simp_all), fun _ _ h => h⟩

theorem separate (s : State) : Weaves s s.separate [] := by
  unfold State.separate
  split
  · exact absorb s
  · next hs =>
    intro nl _
    exact ⟨[' '], nl, rfl, by simp [hs], fun _ _ hr => Woven.blank_cons rfl (by simpa using hr)⟩

theorem newline (s : State) (indent : Nat) : Weaves s (s.newlineUnlessAbsorbed indent) [] := by
  unfold State.newlineUnlessAbsorbed
  split
  · exact absorb s
  · exact emitNewline s _ indent

theorem newline_brk (s : State) (ended : Bool) (indent : Nat) :
    Weaves s ({ s with afterComment := ended }.emitNewline indent) [.brk] :=
  (emitNewline s ended indent).trans (brk (by simp [State.emitNewline]))

end Weaves

mutual

theorem layout_weaves (ctx : Ctx) : (d : Doc) → (indent : Nat) → (mode : Mode) → (s : State) →
    Weaves s (layout ctx d indent mode s) (marks d)
  | .empty, _, _, s => .refl s
  | .text t, _, _, s => .text s t
  | .concat docs, indent, mode, s => layoutAll_weaves ctx docs indent mode s
  | .nest _ inner, _, mode, s | .align inner, _, mode, s => layout_weaves ctx inner _ mode s
  | .break_, indent, .broken, s => .newline s indent
  | .break_, _, .flat, s | .space, _, _, s => .separate s
  | .group inner, indent, mode, s => by
    rw [layout, marks]
    split
    · split <;> exact layout_weaves ctx inner indent _ s
    · exact layout_weaves ctx inner indent _ s
  | .hardBreak, indent, _, s => by
    rw [layout, State.newlineUnlessAbsorbed]
    split
    · next hs => exact (Weaves.brk (by simp [hs])).trans (.absorb s)
    · exact .newline_brk s _ indent
  | .commentBreak, indent, _, s => by
    rw [layout]
    split
    · next hs => exact .brk (by simp [hs])
    · exact .newline_brk s true indent
  | .freshLine, indent, _, s => by
    rw [layout]
    split
    · next hs => exact .brk (by simp [hs])
    · exact .newline_brk s _ indent
  | .blankLine, indent, _, s => by
    rw [layout]
    split
    · exact .emitNewline s _ indent
    · exact .refl s
  | .hang first rest, indent, mode, s => by
    simp only [layout, marks]
    have hargs (s' : State) (indent : Nat) (h : Weaves s s' []) :
        Weaves s (layout ctx rest indent mode (layout ctx first indent mode s')) (marks first ++ marks rest) :=
      h.trans ((layout_weaves ctx first indent mode s').trans (layout_weaves ctx rest indent mode _))
    refine hargs _ _ ?_
    split
    · exact .separate s
    · exact .emitNewline s _ indent

theorem layoutAll_weaves (ctx : Ctx) : (ds : List Doc) → (indent : Nat) → (mode : Mode) → (s : State) →
    Weaves s (layoutAll ctx ds indent mode s) (marksAll ds)
  | [], _, _, s => .refl s
  | d :: ds, indent, mode, s => (layout_weaves ctx d indent mode s).trans (layoutAll_weaves ctx ds indent mode _)

end

theorem render_woven (doc : Doc) (ctx : Ctx) : Woven true (marks doc) (render doc ctx) := by
  obtain ⟨o, nl, hout, -, hw⟩ := layout_weaves ctx doc 0 .flat ⟨0, false, true, []⟩ true fun _ => rfl
  have h := hw [] [] (by simp [Woven])
  rw [append_nil, append_nil] at h
  rwa [render, hout, nil_append]

/-- A group judged to fit, on a line that no comment has ended, is laid out flat in exactly the measured width, within
the line, with no newline that is not in a text; and every document is written as its texts in order with blanks
between them, a newline between a text that a line break of the document follows, as every comment, and the next. -/
theorem layout_keeps_measure (ctx : Ctx) (d : Doc) (indent : Nat) (mode : Mode) (s : State) :
    (∀ w, measureFlat d = some w → s.col + w ≤ ctx.lineWidth → noBlank d = true → s.afterComment = false →
      Writes s (layout ctx (.group d) indent mode s) w (marks d) ∧
      (layout ctx (.group d) indent mode s).col ≤ ctx.lineWidth) ∧
    Woven true (marks d) (render d ctx) ∧
    (render d ctx).filter (!blank ·) = (texts (marks d)).filter (!blank ·) := by
  refine ⟨fun w hw hfit hb hs => ?_, render_woven d ctx, (render_woven d ctx).filter⟩
  have heq : layout ctx (.group d) indent mode s = layout ctx d indent .flat s := by
    rw [layout, hw]
    exact if_pos hfit
  have hwrites := layout_flat ctx d hw hb indent hs hfit
  rw [heq]
  exact ⟨hwrites, hwrites.col ▸ hfit⟩

/-- A text with a newline in it is measured as one line. -/
theorem group_fits_newline :
    measureFlat (.text ['a', '\n', 'b']) = some 3 ∧
    (render (.group (.text ['a', '\n', 'b'])) ⟨2, 80⟩).count '\n' = 1 := by
  decide

end Elle.Formatter

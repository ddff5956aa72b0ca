import Elle.Gun.Graph
import Elle.Lib.Assoc
import Elle.Lib.Latest
import Elle.Lib.Answers

/-!
# Gun graphs converge

The verdict is the strict part of one order, by state and then by encoding, with a missing field below
all. So every field of a graph is a register in which the last writer wins, and what a collection of writes
leaves does not depend on their order, on how they are grouped, or on repetition.
-/

namespace Elle.Gun

open Latest List

variable {F : Type}

/-- The part of a field the merge compares. -/
def Field.content (f : Field F) : Int × Value F := (f.state, f.value)

variable [FiniteFloat F]

/-! ## The order behind the verdict -/

instance : LinearOrder (Int ×ₗ Text) :=
  @Prod.Lex.instLinearOrder Int Text Int.instLinearOrder List.instLinearOrder

instance : LinearOrder (WithBot (Int ×ₗ Text)) := WithBot.linearOrder

instance : LT (WithBot (Int ×ₗ Text)) := LinearOrder.toPartialOrder.toPreorder.toLT

instance : LE (WithBot (Int ×ₗ Text)) := LinearOrder.toPartialOrder.toPreorder.toLE

/-- By state, then by encoding. -/
def Field.rank (f : Field F) : Int ×ₗ Text := toLex (f.state, encode f.value)

/-- A missing field is below all. -/
def rank : Option (Field F) → WithBot (Int ×ₗ Text)
  | none => ⊥
  | some f => f.rank

theorem Field.rank_inj {f f' : Field F} : f.rank = f'.rank ↔ f.content = f'.content := by
  constructor
  · intro h
    obtain ⟨hstate, hvalue⟩ := Prod.mk.inj (toLex.injective h)
    exact Prod.ext hstate (encode_injective hvalue)
  · intro h
    obtain ⟨hstate, hvalue⟩ := Prod.mk.inj h
    rw [Field.rank, Field.rank, hstate, hvalue]

theorem rank_inj {a b : Option (Field F)} :
    rank a = rank b ↔ a.map Field.content = b.map Field.content := by
  cases a <;> cases b <;> simp [rank, Field.rank_inj]

theorem verdict_eq_future {now st : Int} {v cv : Value F} {cs : Option Int} :
    verdict now st v cs cv = .future ↔ now < st := by
  unfold verdict
  by_cases h : now < st
  · simp [stateBefore, h]
  · have hdue : stateBefore now st = false := by simp [stateBefore, h]
    simp only [hdue, Bool.false_eq_true, if_false, h, iff_false]
    repeat' split
    all_goals exact Verdict.noConfusion

theorem judge_eq_future {current : Node F} {now : Int} {key : Text} {f : Field F} :
    judge current now key f = .future ↔ now < f.state :=
  verdict_eq_future

theorem judge_eq_accept {current : Node F} {now : Int} {key : Text} {f : Field F}
    (hnow : f.state ≤ now) :
    judge current now key f = .accept ↔ rank (current key) < rank (some f) := by
  have hdue : ¬now < f.state := Int.not_lt.2 hnow
  unfold judge verdict
  cases hcur : current key with
  | none => simp [stateBefore, hdue, rank]
  | some cur =>
    simp only [stateBefore, hdue, Option.map_some, Option.getD_some, rank, Field.rank,
      WithBot.coe_lt_coe, Prod.Lex.toLex_lt_toLex, valueBefore]
    rcases Int.lt_trichotomy f.state cur.state with h | h | h
    · simp [h, Int.lt_asymm h, Int.ne_of_gt h]
    · simp [h]
    · simp [h, Int.lt_asymm h]

/-! ## One merge -/

def Fields.Due (fields : Fields F) (now : Int) : Prop := ∀ e ∈ fields.entries, e.2.state ≤ now

theorem accepted_of_due {current : Node F} {soul : Text} {now : Int} {entries : List (Text × Field F)}
    (h : ∀ e ∈ entries, e.2.state ≤ now) :
    accepted current soul now entries =
      .ok (entries.filter fun e => decide (rank (current e.1) < rank (some e.2))) := by
  induction entries with
  | nil => rfl
  | cons e rest ih =>
    obtain ⟨key, f⟩ := e
    have hf : f.state ≤ now := h (key, f) mem_cons_self
    have hrest := ih fun e he => h e (mem_cons_of_mem _ he)
    have hfuture : judge current now key f ≠ .future := fun hj =>
      absurd (judge_eq_future.1 hj) (Int.not_lt.2 hf)
    by_cases hlt : rank (current key) < rank (some f)
    · simp [accepted, (judge_eq_accept hf).2 hlt, hrest, hlt, Except.map]
    · have haccept : judge current now key f ≠ .accept := fun hj => hlt ((judge_eq_accept hf).1 hj)
      rw [accepted]
      split
      · next hj => exact absurd hj hfuture
      · next hj => exact absurd hj haccept
      · simp [hrest, hlt]

omit [FiniteFloat F] in
theorem future_of_tail {now : Int} {e : Text × Field F} {rest : List (Text × Field F)}
    (h : ∃ e' ∈ e :: rest, now < e'.2.state) (he : ¬now < e.2.state) :
    ∃ e' ∈ rest, now < e'.2.state := by
  obtain ⟨e', hmem, hlt⟩ := h
  rcases List.mem_cons.1 hmem with rfl | hmem
  · exact absurd hlt he
  · exact ⟨e', hmem, hlt⟩

theorem accepted_of_future (current : Node F) (soul : Text) {now : Int}
    {entries : List (Text × Field F)} (h : ∃ e ∈ entries, now < e.2.state) :
    ∃ error, accepted current soul now entries = .error error := by
  induction entries with
  | nil => obtain ⟨_, he, _⟩ := h; cases he
  | cons e rest ih =>
    obtain ⟨key, f⟩ := e
    rw [accepted]
    split
    · exact ⟨_, rfl⟩
    · next hj =>
      obtain ⟨error, herror⟩ := ih (future_of_tail h fun hf => by simp [judge_eq_future.2 hf] at hj)
      exact ⟨error, by rw [herror]; rfl⟩
    · next hj _ =>
      exact ih (future_of_tail h fun hf => hj (judge_eq_future.2 hf))

omit [FiniteFloat F] in
theorem foldl_put {diff : List (Text × Field F)} (h : (diff.map Prod.fst).Nodup) (n : Node F)
    (key : Text) :
    diff.foldl (fun n (key, f) => put n key f) n key = (diff.lookup key).or (n key) := by
  rw [← Assoc.foldl_update h]
  simp only [beq_iff_eq]
  rfl

/-- What is in the diff of a write that is due. -/
def diffOf (g : Graph F) (soul : Text) (fields : Fields F) : List (Text × Field F) :=
  fields.entries.filter fun e => decide (rank (fieldAt g soul e.1) < rank (some e.2))

omit [FiniteFloat F] in
theorem current_eq (g : Graph F) (soul key : Text) :
    ((g soul).getD fun _ => none) key = fieldAt g soul key := by
  cases h : g soul <;> simp [fieldAt, h]

/-- A write that is due answers the fields that are above those of the graph, and puts them. -/
theorem mergeNode_of_due (g : Graph F) (soul : Text) {fields : Fields F} {now : Int}
    (h : fields.Due now) :
    (mergeNode g soul fields now).1 = .ok (diffOf g soul fields) ∧
      (diffOf g soul fields = [] → (mergeNode g soul fields now).2 = g) ∧
      ∀ soul' key, fieldAt (mergeNode g soul fields now).2 soul' key =
        if soul' = soul then ((diffOf g soul fields).lookup key).or (fieldAt g soul key)
        else fieldAt g soul' key := by
  have hdiff : accepted ((g soul).getD fun _ => none) soul now fields.entries =
      .ok (diffOf g soul fields) := by
    rw [accepted_of_due h, diffOf]
    simp only [current_eq]
  have hnodup : ((diffOf g soul fields).map Prod.fst).Nodup :=
    fields.nodup.sublist ((filter_sublist).map _)
  unfold mergeNode
  simp only [hdiff]
  by_cases hempty : diffOf g soul fields = []
  · simp only [hempty, isEmpty_nil, if_true, lookup_nil, Option.none_or, true_and,
      implies_true]
    intro soul' key
    split
    · next hsoul => rw [hsoul]
    · rfl
  · rw [if_neg (by simpa using hempty)]
    refine ⟨rfl, fun h => absurd h hempty, fun soul' key => ?_⟩
    by_cases hsoul : soul' = soul
    · subst hsoul
      simp only [fieldAt, put, if_true, Option.bind_some]
      rw [foldl_put hnodup, current_eq]
      rfl
    · simp [fieldAt, put, hsoul]

theorem mergeNode_of_future {g : Graph F} {soul : Text} {fields : Fields F} {now : Int}
    (h : ¬fields.Due now) : ∃ error, mergeNode g soul fields now = (.error error, g) := by
  have hfuture : ∃ e ∈ fields.entries, now < e.2.state := by
    simpa [Fields.Due] using h
  obtain ⟨error, herror⟩ := accepted_of_future ((g soul).getD fun _ => none) soul hfuture
  exact ⟨error, by simp only [mergeNode, herror]⟩

theorem fieldAt_mergeNode {g : Graph F} {soul : Text} {fields : Fields F} {now : Int}
    (h : fields.Due now) (key : Text) :
    fieldAt (mergeNode g soul fields now).2 soul key =
      match fields.get key with
      | none => fieldAt g soul key
      | some f => later rank (fieldAt g soul key) (some f) := by
  rw [(mergeNode_of_due g soul h).2.2, if_pos rfl, diffOf, Assoc.lookup_filter fields.nodup]
  change (Option.filter _ (fields.get key)).or _ = _
  cases fields.get key with
  | none => rfl
  | some f =>
    dsimp only [later]
    by_cases hlt : rank (fieldAt g soul key) < rank (some f)
    · simp [Option.filter_some, hlt]
    · simp [Option.filter_some, hlt]

/-! ## Runs of merges -/

/-- One merge: a write to a node, and the latest state it may carry. -/
structure Merge (F : Type) where
  soul : Text
  fields : Fields F
  now : Int

namespace Merge

/-- No state of the write is after now. -/
def Due (m : Merge F) : Prop := m.fields.Due m.now

def offer (m : Merge F) (soul key : Text) : Option (Field F) :=
  if m.soul = soul then m.fields.get key else none

end Merge

def Graph.merge (g : Graph F) (m : Merge F) : Except FutureState (List (Text × Field F)) × Graph F :=
  mergeNode g m.soul m.fields m.now

/-- The answers to merges one after the other, and the graph after them. -/
abbrev mergeAll (g : Graph F) (merges : List (Merge F)) :
    List (Except FutureState (List (Text × Field F))) × Graph F :=
  Answers.run Graph.merge g merges

theorem fieldAt_merge {g : Graph F} {m : Merge F} (h : m.Due) (soul key : Text) :
    fieldAt (g.merge m).2 soul key =
      match m.offer soul key with
      | none => fieldAt g soul key
      | some f => later rank (fieldAt g soul key) (some f) := by
  unfold Merge.offer
  by_cases hsoul : m.soul = soul
  · subst hsoul
    rw [if_pos rfl]
    exact fieldAt_mergeNode h key
  · rw [if_neg hsoul]
    exact ((mergeNode_of_due g m.soul h).2.2 soul key).trans (if_neg fun hs => hsoul hs.symm)

theorem fieldAt_mergeAll {g : Graph F} {merges : List (Merge F)} (h : ∀ m ∈ merges, m.Due)
    (soul key : Text) :
    fieldAt (mergeAll g merges).2 soul key =
      latest rank (fieldAt g soul key) ((merges.filterMap fun m => m.offer soul key).map some) := by
  induction merges generalizing g with
  | nil => rfl
  | cons m merges ih =>
    have hrest := ih (g := (g.merge m).2) fun m' hm' => h m' (mem_cons_of_mem _ hm')
    refine hrest.trans ?_
    rw [fieldAt_merge (h m mem_cons_self)]
    cases hoffer : m.offer soul key with
    | none => simp only [filterMap_cons, hoffer]
    | some f => simp only [filterMap_cons, hoffer]; rfl

/-- The fields a run may choose from: the one it starts from and those written. -/
def Offered (g : Graph F) (merges : List (Merge F)) (soul key : Text) (f : Field F) : Prop :=
  fieldAt g soul key = some f ∨ ∃ m ∈ merges, m.soul = soul ∧ (key, f) ∈ m.fields.entries

omit [FiniteFloat F] in
theorem offered_iff {g : Graph F} {merges : List (Merge F)} {soul key : Text} {f : Field F} :
    Offered g merges soul key f ↔
      some f ∈ fieldAt g soul key :: (merges.filterMap fun m => m.offer soul key).map some := by
  have hoffer (m : Merge F) : m.offer soul key = some f ↔ m.soul = soul ∧ (key, f) ∈ m.fields.entries := by
    rw [← Assoc.lookup_eq_some m.fields.nodup, Merge.offer, Fields.get]
    split <;> simp_all
  simp only [Offered, mem_cons, mem_map, mem_filterMap, Option.some.injEq,
    exists_eq_right, hoffer]
  exact or_congr_left eq_comm

theorem mergeAll_greatest {g : Graph F} {merges : List (Merge F)} (h : ∀ m ∈ merges, m.Due)
    (soul key : Text) :
    (∀ f, fieldAt (mergeAll g merges).2 soul key = some f → Offered g merges soul key f) ∧
      ∀ f, Offered g merges soul key f →
        (f.rank : WithBot _) ≤ rank (fieldAt (mergeAll g merges).2 soul key) := by
  rw [fieldAt_mergeAll h]
  constructor
  · intro f hf
    rw [offered_iff, ← hf]
    exact latest_mem _ _ _
  · intro f hf
    exact rank_le_latest rank (offered_iff.1 hf)

theorem content_eq_of_offers {g : Graph F} {merges merges' : List (Merge F)}
    (h : ∀ m ∈ merges, m.Due) (h' : ∀ m ∈ merges', m.Due) {soul key : Text}
    (hoffers : ∀ c, (∃ f, Offered g merges soul key f ∧ f.content = c) ↔
      ∃ f, Offered g merges' soul key f ∧ f.content = c) :
    (fieldAt (mergeAll g merges).2 soul key).map Field.content =
      (fieldAt (mergeAll g merges').2 soul key).map Field.content := by
  -- each run's field is among the other's offers, so neither is above the other
  have hle : ∀ {ms ms' : List (Merge F)}, (∀ m ∈ ms, m.Due) → (∀ m ∈ ms', m.Due) →
      (∀ c, (∃ f, Offered g ms soul key f ∧ f.content = c) →
        ∃ f, Offered g ms' soul key f ∧ f.content = c) →
      rank (fieldAt (mergeAll g ms).2 soul key) ≤ rank (fieldAt (mergeAll g ms').2 soul key) := by
    intro ms ms' hms hms' hsub
    cases hfield : fieldAt (mergeAll g ms).2 soul key with
    | none => exact bot_le
    | some f =>
      obtain ⟨f', hoffered, hcontent⟩ := hsub _ ⟨f, (mergeAll_greatest hms soul key).1 f hfield, rfl⟩
      have hbound := (mergeAll_greatest hms' soul key).2 f' hoffered
      rwa [Field.rank_inj.2 hcontent] at hbound
  exact rank_inj.1 (le_antisymm (hle h h' fun c => (hoffers c).1) (hle h' h fun c => (hoffers c).2))

/-! ## Diffs -/

theorem mem_diffOf {g : Graph F} {soul key : Text} {fields : Fields F} {f : Field F} :
    (key, f) ∈ diffOf g soul fields ↔
      (key, f) ∈ fields.entries ∧ rank (fieldAt g soul key) < rank (some f) := by
  rw [diffOf, mem_filter, decide_eq_true_iff]

theorem merge_diff {g : Graph F} {m : Merge F} (h : m.Due) :
    ∃ diff, (g.merge m).1 = .ok diff ∧
      (∀ key f, (key, f) ∈ diff → fieldAt (g.merge m).2 m.soul key = some f) ∧
      ∀ soul key, fieldAt (g.merge m).2 soul key ≠ fieldAt g soul key ↔
        soul = m.soul ∧ ∃ f, (key, f) ∈ diff := by
  obtain ⟨hanswer, _, hfield⟩ := mergeNode_of_due g m.soul h
  have hnodup : ((diffOf g m.soul m.fields).map Prod.fst).Nodup :=
    m.fields.nodup.sublist ((filter_sublist).map _)
  have hput : ∀ key f, (key, f) ∈ diffOf g m.soul m.fields → fieldAt (g.merge m).2 m.soul key = some f := by
    intro key f hmem
    refine (hfield m.soul key).trans ?_
    rw [if_pos rfl, (Assoc.lookup_eq_some hnodup).2 hmem, Option.some_or]
  refine ⟨_, hanswer, hput, fun soul key => ⟨fun hne => ?_, ?_⟩⟩
  · have hsoul : soul = m.soul := by
      by_contra hs
      exact hne ((hfield soul key).trans (if_neg hs))
    subst hsoul
    refine ⟨rfl, ?_⟩
    cases hlookup : (diffOf g m.soul m.fields).lookup key with
    | none =>
      refine absurd ?_ hne
      refine (hfield m.soul key).trans ?_
      rw [if_pos rfl, hlookup, Option.none_or]
    | some f => exact ⟨f, (Assoc.lookup_eq_some hnodup).1 hlookup⟩
  · rintro ⟨rfl, f, hmem⟩ heq
    rw [hput key f hmem] at heq
    have hlt := (mem_diffOf.1 hmem).2
    rw [← heq] at hlt
    exact lt_irrefl _ hlt

theorem merge_settled {g : Graph F} {m : Merge F} (h : m.Due)
    (hsettled : ∀ key f, (key, f) ∈ m.fields.entries → rank (some f) ≤ rank (fieldAt g m.soul key)) :
    g.merge m = (.ok [], g) := by
  have hempty : diffOf g m.soul m.fields = [] := by
    refine List.eq_nil_iff_forall_not_mem.2 fun ⟨key, f⟩ hmem => ?_
    obtain ⟨hentry, hlt⟩ := mem_diffOf.1 hmem
    exact absurd hlt (not_lt.2 (hsettled key f hentry))
  obtain ⟨hanswer, hgraph, _⟩ := mergeNode_of_due g m.soul h
  rw [hempty] at hanswer
  exact Prod.ext hanswer (hgraph hempty)

theorem merge_again {g : Graph F} {m : Merge F} {merges : List (Merge F)} (hm : m.Due)
    (h : ∀ m' ∈ merges, m'.Due) :
    (mergeAll g (m :: merges)).2.merge m = (.ok [], (mergeAll g (m :: merges)).2) := by
  have hall : ∀ m' ∈ m :: merges, m'.Due := by
    intro m' hm'
    rcases List.mem_cons.1 hm' with rfl | hm'
    · exact hm
    · exact h m' hm'
  refine merge_settled hm fun key f hentry => ?_
  exact (mergeAll_greatest hall m.soul key).2 f (.inr ⟨m, mem_cons_self, rfl, hentry⟩)

/-- Merges that are due converge: a field ends with the greatest of what it is offered, by state and then by
encoding, and two runs with the same offers end with the same states and values. The diffs are the
fields that changed, a write merged again changes nothing, and a write of the future is refused. -/
theorem graphs_converge (g : Graph F) :
    (∀ merges : List (Merge F), (∀ m ∈ merges, m.Due) → ∀ soul key,
      (∀ f, fieldAt (mergeAll g merges).2 soul key = some f → Offered g merges soul key f) ∧
        ∀ f, Offered g merges soul key f →
          ∃ best, fieldAt (mergeAll g merges).2 soul key = some best ∧ f.rank ≤ best.rank) ∧
    (∀ merges merges' : List (Merge F), (∀ m ∈ merges, m.Due) → (∀ m ∈ merges', m.Due) →
      ∀ soul key, (∀ c, (∃ f, Offered g merges soul key f ∧ f.content = c) ↔
          ∃ f, Offered g merges' soul key f ∧ f.content = c) →
        (fieldAt (mergeAll g merges).2 soul key).map Field.content =
          (fieldAt (mergeAll g merges').2 soul key).map Field.content) ∧
    (∀ m : Merge F, m.Due → ∃ diff, (g.merge m).1 = .ok diff ∧
      (∀ key f, (key, f) ∈ diff → fieldAt (g.merge m).2 m.soul key = some f) ∧
      ∀ soul key, fieldAt (g.merge m).2 soul key ≠ fieldAt g soul key ↔
        soul = m.soul ∧ ∃ f, (key, f) ∈ diff) ∧
    (∀ (m : Merge F) (merges : List (Merge F)), m.Due → (∀ m' ∈ merges, m'.Due) →
      (mergeAll g (m :: merges)).2.merge m = (.ok [], (mergeAll g (m :: merges)).2)) ∧
    ∀ m : Merge F, ¬m.Due → ∃ error, g.merge m = (.error error, g) := by
  refine ⟨fun merges h soul key => ?_, fun merges merges' h h' soul key => content_eq_of_offers h h',
    fun m => merge_diff, fun m merges => merge_again, fun m => mergeNode_of_future⟩
  obtain ⟨hmem, hbound⟩ := mergeAll_greatest h soul key
  refine ⟨hmem, fun f hf => ?_⟩
  have hle := hbound f hf
  cases hfield : fieldAt (mergeAll g merges).2 soul key with
  | none =>
    rw [hfield] at hle
    exact absurd hle (not_le.2 (WithBot.bot_lt_coe _))
  | some best =>
    rw [hfield] at hle
    exact ⟨best, rfl, WithBot.coe_le_coe.1 hle⟩

/-- A host without floats. -/
instance : FiniteFloat Empty := ⟨Empty.elim, fun x => x.elim⟩

/-- Two writes of one field at one state. -/
def fiveAtOne : Merge Empty := ⟨['a'], ⟨[(['k'], ⟨1, .integer 5, none⟩)], by decide⟩, 2⟩

def xAtOne : Merge Empty := ⟨['a'], ⟨[(['k'], ⟨1, .string ['x'], none⟩)], by decide⟩, 1⟩

theorem graphs_converge_either_way :
    (fieldAt (mergeAll (fun _ => none) [fiveAtOne, xAtOne]).2 ['a'] ['k']).map Field.content =
      (fieldAt (mergeAll (fun _ => none) [xAtOne, fiveAtOne]).2 ['a'] ['k']).map Field.content := by
  have hfive : fiveAtOne.Due := by simp [fiveAtOne, Merge.Due, Fields.Due]
  have hx : xAtOne.Due := by simp [xAtOne, Merge.Due, Fields.Due]
  have hmem (m : Merge Empty) : m ∈ [fiveAtOne, xAtOne] ↔ m ∈ [xAtOne, fiveAtOne] :=
    (List.Perm.swap xAtOne fiveAtOne []).mem_iff
  refine (graphs_converge fun _ => none).2.1 _ _ (by simp [hfive, hx]) (by simp [hfive, hx]) _ _ ?_
  simp only [Offered, hmem, implies_true]

end Elle.Gun

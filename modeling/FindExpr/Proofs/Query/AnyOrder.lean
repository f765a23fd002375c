import FindExpr.Proofs.Grammar.Value
import FindExpr.Proofs.Query.Capture
import FindExpr.Proofs.Query.Leaves
import FindExpr.Proofs.Recognizer.Counts

namespace FindExpr

open Grammar

namespace Event

@[simp] def field? : Event → Option String
  | selectField name => some name.unescaped
  | _ => none

@[simp] def omits? : Event → Option Bool
  | filter omits _ => some omits
  | _ => none

@[simp] def sortKey? : Event → Option SortKey
  | sortKey field direction => some ⟨field.unescaped, direction⟩
  | _ => none

@[simp] def limit? : Event → Option UInt64
  | limit l => countOf l
  | _ => none

@[simp] def offset? : Event → Option UInt64
  | offset l => countOf l
  | _ => none

end Event

def Frame.joined : Frame → Option Condition
  | condition joined _ | conjunction joined => joined

namespace Builder

def afterAll (es : List Event) : Builder := es.foldl (fun b e => (add e b).1) .empty

def leavesOf : List Frame → List Comparison
  | [] => []
  | f :: outer => leavesOf outer ++ f.joined.elim [] Condition.leaves

variable {told es : List Event} {b : Builder} {e : Event} {d : Diagnostic} {c term : Condition}
  {frames : List Frame}

theorem leavesOf_addTerm :
    (leavesOf (addTerm term frames)).Sublist (leavesOf frames ++ term.leaves) := by
  unfold addTerm
  split
  · simp [leavesOf, Frame.joined]
  · simp [leavesOf, Frame.joined, Condition.leaves]
  · exact List.sublist_append_left ..

theorem leavesOf_addConjunction :
    (leavesOf (addConjunction term frames)).Sublist (leavesOf frames ++ term.leaves) := by
  unfold addConjunction
  split
  · simp [leavesOf, Frame.joined, Condition.leaves]
  · exact (List.sublist_append_left ..).append_right _
  · exact List.sublist_append_left ..

theorem leavesOf_endConjunction : (leavesOf (endConjunction frames)).Sublist (leavesOf frames) := by
  unfold endConjunction
  split
  · exact leavesOf_addConjunction
  · exact List.sublist_append_left ..
  · exact List.Sublist.refl _

theorem leavesOf_setConnective (op : Connective) :
    leavesOf (setConnective op frames) = leavesOf frames := by
  unfold setConnective
  split <;> rfl

/-- A condition that ends is all there is, or its comparisons stay on the stack if it is not left
out. -/
theorem endCondition_cases (b : Builder) :
    (∃ c op, b.frames = [.condition (some c) op] ∧
      b.endCondition = ⟨{ b.query with condition := some c }, []⟩) ∨
    ∃ frames, b.endCondition = { b with frames } ∧
      (leavesOf frames).Sublist (leavesOf b.frames) := by
  unfold endCondition
  split
  · next c op h => exact .inl ⟨c, op, h, rfl⟩
  · next c op outer _ h =>
      refine .inr ⟨_, rfl, ?_⟩
      rw [h]
      exact leavesOf_addTerm
  · next f outer _ _ h =>
      refine .inr ⟨outer, rfl, ?_⟩
      rw [h]
      exact List.sublist_append_left ..
  · next h => exact .inr ⟨b.frames, rfl, List.Sublist.refl _⟩

theorem query_add (e : Event) (b : Builder) :
    (add e b).1.query =
      { fields := b.query.fields ++ e.field?.toList
        omits := e.omits?.getD b.query.omits
        condition := (add e b).1.query.condition
        sort := b.query.sort ++ e.sortKey?.toList
        limit := e.limit?.or b.query.limit
        offset := e.offset?.or b.query.offset } := by
  cases e with
  | conditionEnd =>
      rw [add]
      rcases endCondition_cases b with ⟨c, op, -, h⟩ | ⟨frames, h, -⟩ <;> rw [h] <;> simp
  | limit l | offset l =>
      rw [add, count_eq]
      cases h : countOf l <;> simp [h]
  | _ => simp [add]

theorem condition_add (h : (add e b).1.query.condition = some c) :
    b.query.condition = some c ∨ c.leaves.Sublist (leavesOf b.frames) := by
  cases e with
  | conditionEnd =>
      rw [add] at h
      rcases endCondition_cases b with ⟨c', op, hf, he⟩ | ⟨frames, he, -⟩
      · obtain rfl : c' = c := by simpa [he] using h
        simp [hf, leavesOf, Frame.joined]
      · exact .inl (by simpa [he] using h)
  | limit l | offset l =>
      rw [add] at h
      cases hl : count l <;> exact .inl (by simpa [hl] using h)
  | _ => exact .inl h

theorem leavesOf_add (e : Event) (b : Builder) :
    (leavesOf (add e b).1.frames).Sublist (leavesOf b.frames ++ e.comparison?.toList) := by
  cases e with
  | comparison field op value => exact leavesOf_addTerm
  | conditionEnd =>
      rw [add]
      rcases endCondition_cases b with ⟨c, op, -, h⟩ | ⟨frames, h, hl⟩
      · rw [h]
        exact List.nil_sublist _
      · rw [h]
        exact hl.trans (List.sublist_append_left ..)
  | conjunctionEnd => exact leavesOf_endConjunction.trans (List.sublist_append_left ..)
  | connective op place => simp [add, leavesOf_setConnective]
  | limit l | offset l =>
      rw [add]
      cases count l <;> exact List.sublist_append_left ..
  | conditionStart | conjunctionStart => simp [add, leavesOf, Frame.joined]
  | _ => exact List.sublist_append_left ..

theorem state_of_rejected (h : (add e b).2 = some d) : (add e b).1 = b := by
  cases e with
  | limit l | offset l =>
      rw [add] at h ⊢
      cases hl : count l with
      | ok n => simp [hl] at h
      | error d => rfl
  | _ => cases h

theorem accepted_iff :
    (add e b).2 = none ↔ ∀ l, e.count? = some l → (countOf l).isSome = true := by
  cases e with
  | limit l | offset l =>
      rw [add, count_eq]
      cases hl : countOf l <;> simp [Event.count?, hl]
  | _ => simp [add, Event.count?]

/-- What a builder holds of the events that it has been told. -/
structure Keeps (told : List Event) (b : Builder) : Prop where
  fields_eq : b.query.fields = told.filterMap Event.field?
  omits_eq : b.query.omits = (told.filterMap Event.omits?).getLast?.getD false
  sort_eq : b.query.sort = told.filterMap Event.sortKey?
  limit_eq : b.query.limit = (told.filterMap Event.limit?).getLast?
  offset_eq : b.query.offset = (told.filterMap Event.offset?).getLast?
  frames_sublist : (leavesOf b.frames).Sublist (comparisonsTold told)
  condition_sublist : ∀ c, b.query.condition = some c → c.leaves.Sublist (comparisonsTold told)

theorem filterMap_snoc {α : Type} (f : Event → Option α) :
    (told ++ [e]).filterMap f = told.filterMap f ++ (f e).toList := by
  rw [List.filterMap_append]
  cases h : f e <;> simp [h]

theorem comparisonsTold_snoc :
    comparisonsTold (told ++ [e]) = comparisonsTold told ++ e.comparison?.toList :=
  filterMap_snoc _

theorem getLast?_filterMap_snoc {α : Type} (f : Event → Option α) :
    ((told ++ [e]).filterMap f).getLast? = (f e).or (told.filterMap f).getLast? := by
  rw [filterMap_snoc, List.getLast?_append]
  cases f e <;> rfl

theorem Keeps.add (h : Keeps told b) (e : Event) : Keeps (told ++ [e]) (add e b).1 := by
  have hf := (leavesOf_add e b).trans (h.frames_sublist.append_right _)
  have hq := query_add e b
  constructor
  · rw [hq, filterMap_snoc, h.fields_eq]
  · rw [hq, getLast?_filterMap_snoc, h.omits_eq]
    cases e.omits? <;> rfl
  · rw [hq, filterMap_snoc, h.sort_eq]
  · rw [hq, getLast?_filterMap_snoc, h.limit_eq]
  · rw [hq, getLast?_filterMap_snoc, h.offset_eq]
  · rw [comparisonsTold_snoc]
    exact hf
  · intro c hc
    rw [comparisonsTold_snoc]
    have hs : c.leaves.Sublist (comparisonsTold told) := by
      rcases condition_add hc with hc | hc
      · exact h.condition_sublist c hc
      · exact hc.trans h.frames_sublist
    exact hs.trans (List.sublist_append_left ..)

theorem Keeps.foldl (h : Keeps told b) (es : List Event) :
    Keeps (told ++ es) (es.foldl (fun b e => (Builder.add e b).1) b) := by
  induction es generalizing told b with
  | nil => rwa [List.append_nil]
  | cons e es ih =>
      rw [List.append_cons]
      exact ih (h.add e)

theorem keeps_afterAll (es : List Event) : Keeps es (afterAll es) := by
  have h : Keeps [] .empty := ⟨rfl, rfl, rfl, rfl, rfl, List.Sublist.refl _, fun _ hc => nomatch hc⟩
  exact h.foldl es

/-- Whatever a builder is told, and in which order, its query holds all fields and sort keys, the
last word on whether records are left out, the last limit and offset that are counts, and in its
condition comparisons that have been told, in the order in which they were and none of them twice.
Only counts are rejected, and then nothing has changed. -/
theorem told_in_any_order (es : List Event) :
    let b := afterAll es
    b.query.fields = es.filterMap Event.field? ∧
    b.query.sort = es.filterMap Event.sortKey? ∧
    b.query.omits = (es.filterMap Event.omits?).getLast?.getD false ∧
    b.query.limit = (es.filterMap Event.limit?).getLast? ∧
    b.query.offset = (es.filterMap Event.offset?).getLast? ∧
    (∀ c, b.query.condition = some c → c.comparisons.Sublist (comparisonsTold es)) ∧
    (∀ e, (add e b).2 = none ↔ ∀ l, e.count? = some l → (countOf l).isSome = true) ∧
    ∀ e d, (add e b).2 = some d → (add e b).1 = b := by
  intro b
  have h : Keeps es b := keeps_afterAll es
  refine ⟨h.fields_eq, h.sort_eq, h.omits_eq, h.limit_eq, h.offset_eq, fun c hc => ?_,
    fun e => accepted_iff, fun e d => state_of_rejected⟩
  rw [Condition.comparisons_eq_leaves]
  exact h.condition_sublist c hc

theorem told_in_any_order_unbalanced :
    let literal (value : String) : Literal := ⟨value, none, .start, .start⟩
    let es : List Event := [.comparison (literal "a") .eq (literal "1"), .conditionStart,
      .conjunctionStart, .comparison (literal "b") .eq (literal "2"), .conjunctionEnd,
      .conditionEnd, .conditionEnd]
    let c : Condition := .comparison ⟨"b", .eq, "2"⟩
    (afterAll es).query.condition = some c ∧ c.comparisons.Sublist (comparisonsTold es) ∧
      (add (.limit (literal "x")) (afterAll es)).1 = afterAll es := by
  intro literal es c
  obtain ⟨-, -, -, -, -, hc, -, hr⟩ := told_in_any_order es
  have hl : (add (.limit (literal "x")) (afterAll es)).2 =
      some ((literal "x").invalid "expected a non-negative integer") := by decide
  exact ⟨rfl, hc c rfl, hr _ _ hl⟩

end Builder

end FindExpr

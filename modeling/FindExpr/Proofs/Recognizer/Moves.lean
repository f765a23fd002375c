import FindExpr.Recognizer.Step

namespace FindExpr.Recognizer

namespace State

def expectsTerm : State → Bool
  | afterWhere _ | expectTerm _ => true
  | _ => false

def clauses : State → List Keyword
  | start => [.select, .filter, .orderBy, .limit, .offset]
  | afterField => [.filter, .orderBy, .limit, .offset]
  | afterTerm [] => [.orderBy, .limit, .offset]
  | afterSortField _ | afterSortKey => [.limit, .offset]
  | afterLimit => [.offset]
  | _ => []

/-- The events that the next token tells before it is judged. -/
def owed : State → List Event
  | afterWhere place => [.filter false place, .conditionStart, .conjunctionStart]
  | afterTerm _ => [.conjunctionEnd, .conditionEnd]
  | afterSortField field => [.sortKey field none]
  | _ => []

end State

inductive Move (limit : Nat) : State → Token → List Event → State → Prop
  | select {q t} (hq : .select ∈ q.clauses) (ht : t.kind = .keyword .select) :
      Move limit q t q.owed .expectField
  | filter {q t} (hq : .filter ∈ q.clauses) (ht : t.kind = .keyword .filter) :
      Move limit q t q.owed (.afterWhere t.start)
  | orderBy {q t} (hq : .orderBy ∈ q.clauses) (ht : t.kind = .keyword .orderBy) :
      Move limit q t q.owed .expectSortField
  | limit {q t} (hq : .limit ∈ q.clauses) (ht : t.kind = .keyword .limit) :
      Move limit q t q.owed .expectLimit
  | offset {q t} (hq : .offset ∈ q.clauses) (ht : t.kind = .keyword .offset) :
      Move limit q t q.owed .expectOffset
  | field {t} (ht : t.kind = .literal) :
      Move limit .expectField t [.selectField t.literal] .afterField
  | nextField {t} (ht : t.kind = .symbol .comma) : Move limit .afterField t [] .expectField
  | omits {place t} (ht : t.kind = .keyword .omits) :
      Move limit (.afterWhere place) t [.filter true place, .conditionStart, .conjunctionStart]
        (.expectTerm [])
  | operand {q t} (hq : q.expectsTerm = true) (ht : t.kind = .literal) :
      Move limit q t q.owed (.expectComparator t.literal q.opened)
  | group {q t} (hq : q.expectsTerm = true) (ht : t.kind = .symbol .leftParen)
      (hd : q.depth < limit) :
      Move limit q t (q.owed ++ [.groupStart t.start, .conditionStart, .conjunctionStart])
        (.expectTerm (t :: q.opened))
  | comparator {field opened t op} (ht : t.kind.comparator? = some op) :
      Move limit (.expectComparator field opened) t [] (.expectValue field op opened)
  | value {field op opened t} (ht : t.kind = .literal) :
      Move limit (.expectValue field op opened) t [.comparison field op t.literal]
        (.afterTerm opened)
  | and {opened t} (ht : t.kind = .keyword .and) :
      Move limit (.afterTerm opened) t [.connective .and t.start] (.expectTerm opened)
  | alternative {opened t op} (ht : t.kind.alternative? = some op) :
      Move limit (.afterTerm opened) t
        [.conjunctionEnd, .connective op t.start, .conjunctionStart] (.expectTerm opened)
  | close {paren outer t} (ht : t.kind = .symbol .rightParen) :
      Move limit (.afterTerm (paren :: outer)) t
        [.conjunctionEnd, .conditionEnd, .groupEnd t.start] (.afterTerm outer)
  | sortField {t} (ht : t.kind = .literal) :
      Move limit .expectSortField t [] (.afterSortField t.literal)
  | direction {field t d} (ht : t.kind.direction? = some d) :
      Move limit (.afterSortField field) t [.sortKey field (some d)] .afterSortKey
  | nextUndirected {field t} (ht : t.kind = .symbol .comma) :
      Move limit (.afterSortField field) t [.sortKey field none] .expectSortField
  | nextDirected {t} (ht : t.kind = .symbol .comma) :
      Move limit .afterSortKey t [] .expectSortField
  | limitCount {t} (ht : t.kind = .literal) :
      Move limit .expectLimit t [.limit t.literal] .afterLimit
  | offsetCount {t} (ht : t.kind = .literal) :
      Move limit .expectOffset t [.offset t.literal] .afterOffset

namespace Step

/-- The step is a move, or ends the run and tells what is owed. -/
def Moves (limit : Nat) (q : State) (t : Token) (s : Step) : Prop :=
  match s.verdict with
  | .continue r => Move limit q t s.events r
  | _ => s.events = q.owed

variable {limit : Nat} {q r : State} {t : Token} {events : List Event} {d : Diagnostic}

@[simp] theorem moves_continue :
    Moves limit q t ⟨events, .continue r⟩ ↔ Move limit q t events r := Iff.rfl

@[simp] theorem moves_accept : Moves limit q t ⟨events, .accept⟩ ↔ events = q.owed := Iff.rfl

@[simp] theorem moves_reject : Moves limit q t ⟨events, .reject d⟩ ↔ events = q.owed := Iff.rfl

end Step

variable {limit : Nat} {q r : State} {t : Token} {es : List Event}

theorem moves_betweenClauses {allowed : List Keyword} (hq : q.clauses = allowed) :
    ((betweenClauses allowed t).precededBy q.owed).Moves limit q t := by
  -- Three ways out: the end is accepted, a clause that may begin is entered, and all else rejected.
  have hr (d : Diagnostic) : ((Step.reject d).precededBy q.owed).Moves limit q t :=
    List.append_nil _
  have hs {r : State} (h : Move limit q t q.owed r) :
      ((Step.silent r).precededBy q.owed).Moves limit q t := by
    simpa [Step.precededBy, Step.silent] using h
  unfold betweenClauses
  split
  · exact List.append_nil _
  · next k hk =>
      split
      · next hm =>
          subst hq
          cases k with
          | select => exact hs (.select hm hk)
          | filter => exact hs (.filter hm hk)
          | orderBy => exact hs (.orderBy hm hk)
          | limit => exact hs (.limit hm hk)
          | offset => exact hs (.offset hm hk)
          | like | and | or | omits | asc | desc => exact hr _
      · exact hr _
  · exact hr _

theorem moves_withLiteral {k : Literal → Step} (ho : q.owed = [])
    (hk : t.kind = .literal → (k t.literal).Moves limit q t) :
    (withLiteral t k).Moves limit q t := by
  unfold withLiteral
  split
  · next h => exact hk h
  · exact ho.symm

theorem moves_beginTerm (hq : q.expectsTerm = true) :
    ((beginTerm limit q.opened t).precededBy q.owed).Moves limit q t := by
  unfold beginTerm
  split
  · next h => simpa [Step.precededBy, Step.silent] using Move.operand hq h
  · split
    · next h =>
        split
        · exact List.append_nil _
        · next hd => exact .group hq h (Nat.not_le.1 hd)
    · exact List.append_nil _

theorem moves_continueCondition (opened : List Token) :
    (continueCondition opened t).Moves limit (.afterTerm opened) t := by
  unfold continueCondition
  split
  · next h => exact .and h
  · split
    · next h => exact .alternative h
    · cases opened with
      | nil => exact moves_betweenClauses rfl
      | cons paren outer =>
          rw [endCondition]
          split
          · next h => exact .close h
          · exact List.append_nil _

theorem moves_continueSort (hq : q.clauses = [.limit, .offset])
    (hc : t.kind = .symbol .comma → Move limit q t q.owed .expectSortField) :
    ((continueSort t).precededBy q.owed).Moves limit q t := by
  unfold continueSort
  split
  · next h => simpa [Step.precededBy, Step.silent] using hc h
  · exact moves_betweenClauses hq

theorem moves_step (limit : Nat) (q : State) (t : Token) : (step limit q t).Moves limit q t := by
  cases q with
  | start | afterLimit | afterOffset => exact moves_betweenClauses rfl
  | expectField => exact moves_withLiteral rfl .field
  | expectValue => exact moves_withLiteral rfl .value
  | expectSortField => exact moves_withLiteral rfl .sortField
  | expectLimit => exact moves_withLiteral rfl .limitCount
  | expectOffset => exact moves_withLiteral rfl .offsetCount
  | afterField =>
      rw [step]
      split
      · next h => exact .nextField h
      · exact moves_betweenClauses rfl
  | afterWhere place =>
      rw [step]
      split
      · next h => exact .omits h
      · exact moves_beginTerm rfl
  | expectTerm opened => exact moves_beginTerm rfl
  | expectComparator field opened =>
      rw [step, readComparator]
      split
      · next h => exact .comparator h
      · exact rfl
  | afterTerm opened => exact moves_continueCondition opened
  | afterSortField field =>
      rw [step]
      split
      · next h => exact .direction h
      · exact moves_continueSort rfl .nextUndirected
  | afterSortKey => exact moves_continueSort rfl .nextDirected

theorem move_of_continue (h : (step limit q t).verdict = .continue r) :
    Move limit q t (step limit q t).events r := by
  have hm := moves_step limit q t
  unfold Step.Moves at hm
  simpa only [h] using hm

theorem move_of_step (h : step limit q t = ⟨es, .continue r⟩) : Move limit q t es r := by
  have hm := move_of_continue (congrArg Step.verdict h)
  rwa [h] at hm

theorem events_of_stop (hs : ∀ r, (step limit q t).verdict ≠ .continue r) :
    (step limit q t).events = q.owed := by
  have hm := moves_step limit q t
  unfold Step.Moves at hm
  cases hv : (step limit q t).verdict with
  | «continue» r => exact absurd hv (hs r)
  | accept | reject => simpa only [hv] using hm

end FindExpr.Recognizer

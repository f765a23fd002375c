import FindExpr.Proofs.Grammar.Basic
import FindExpr.Recognizer.Step

namespace FindExpr.Recognizer

open Grammar Grammar.Phrase

namespace State

abbrev afterOrderBy : Phrase := seq (opt (rule .limit)) (opt (rule .offset))

abbrev afterFilter : Phrase := seq (opt (rule .orderBy)) afterOrderBy

abbrev afterSelect : Phrase := seq (opt (rule .filter)) afterFilter

def behindTerm : List Token → List Phrase
  | [] => [moreTerms, moreConjunctions, afterFilter]
  | _ :: outer => moreTerms :: moreConjunctions :: sign .rightParen :: behindTerm outer

/-- What may follow in a state. -/
def remainder : State → List Phrase
  | .start => [rule .query]
  | .expectField => [string, moreFields, afterSelect]
  | .afterField => [moreFields, afterSelect]
  | .afterWhere _ => [opt (word .omits), rule .condition, afterFilter]
  | .expectTerm opened => rule .term :: behindTerm opened
  | .expectComparator _ opened => rule .comparator :: string :: behindTerm opened
  | .expectValue _ _ opened => string :: behindTerm opened
  | .afterTerm opened => behindTerm opened
  | .expectSortField => [sortKey, moreSortKeys, afterOrderBy]
  | .afterSortField _ => [opt (alt (word .asc) (word .desc)), moreSortKeys, afterOrderBy]
  | .afterSortKey => [moreSortKeys, afterOrderBy]
  | .expectLimit => [string, opt (rule .offset)]
  | .afterLimit => [opt (rule .offset)]
  | .expectOffset => [string]
  | .afterOffset => []

end State

namespace Step

def Admits (s : Step) (w : List TokenKind) : Prop :=
  match s.verdict with
  | .continue q => DerivesAll q.remainder w
  | _ => False

variable {w : List TokenKind}

@[simp] theorem admits_continue {events : List Event} {q : State} :
    Admits ⟨events, .continue q⟩ w ↔ DerivesAll q.remainder w := Iff.rfl

@[simp] theorem admits_silent {q : State} : (silent q).Admits w ↔ DerivesAll q.remainder w :=
  Iff.rfl

@[simp] theorem not_admits_accept {events : List Event} : ¬ Admits ⟨events, .accept⟩ w := id

@[simp] theorem not_admits_reject {d : Diagnostic} : ¬ (reject d).Admits w := id

@[simp] theorem admits_precededBy {s : Step} {events : List Event} :
    (s.precededBy events).Admits w ↔ s.Admits w := Iff.rfl

end Step

open State

variable {t : Token} {w : List TokenKind}

theorem admits_withLiteral {k : Literal → Step} {ps : List Phrase}
    (hk : ∀ l, (k l).Admits w ↔ DerivesAll ps w) :
    (withLiteral t k).Admits w ↔ DerivesAll (string :: ps) (t.kind :: w) := by
  by_cases h : t.kind = .literal <;> simp [withLiteral, h, hk]

theorem admits_start :
    (betweenClauses [.select, .filter, .orderBy, .limit, .offset] t).Admits w ↔
      DerivesAll [rule .query] (t.kind :: w) := by
  cases h : t.kind with
  | endOfInput | symbol | literal => simp [betweenClauses, h]
  | keyword k => cases k <;> simp [betweenClauses, h, enter, remainder]

theorem admits_afterSelect :
    (betweenClauses [.filter, .orderBy, .limit, .offset] t).Admits w ↔
      DerivesAll [afterSelect] (t.kind :: w) := by
  cases h : t.kind with
  | endOfInput | symbol | literal => simp [betweenClauses, h]
  | keyword k => cases k <;> simp [betweenClauses, h, enter, remainder]

theorem admits_afterFilter :
    (betweenClauses [.orderBy, .limit, .offset] t).Admits w ↔
      DerivesAll [afterFilter] (t.kind :: w) := by
  cases h : t.kind with
  | endOfInput | symbol | literal => simp [betweenClauses, h]
  | keyword k => cases k <;> simp [betweenClauses, h, enter, remainder]

theorem admits_afterOrderBy :
    (betweenClauses [.limit, .offset] t).Admits w ↔ DerivesAll [afterOrderBy] (t.kind :: w) := by
  cases h : t.kind with
  | endOfInput | symbol | literal => simp [betweenClauses, h]
  | keyword k => cases k <;> simp [betweenClauses, h, enter, remainder]

theorem admits_afterLimit :
    (betweenClauses [.offset] t).Admits w ↔ DerivesAll [opt (rule .offset)] (t.kind :: w) := by
  cases h : t.kind with
  | endOfInput | symbol | literal => simp [betweenClauses, h]
  | keyword k => cases k <;> simp [betweenClauses, h, enter, remainder]

theorem admits_afterOffset : (betweenClauses [] t).Admits w ↔ DerivesAll [] (t.kind :: w) := by
  cases h : t.kind <;> simp [betweenClauses, h]

theorem admits_beginTerm {limit : Nat} {opened : List Token}
    (h : t.kind = .symbol .leftParen → opened.length < limit) :
    (beginTerm limit opened t).Admits w ↔
      DerivesAll (rule .term :: behindTerm opened) (t.kind :: w) := by
  by_cases hl : t.kind = .literal
  · simp [beginTerm, hl, remainder]
  · by_cases hp : t.kind = .symbol .leftParen
    · have hd : ¬ limit ≤ opened.length := Nat.not_le.2 (h hp)
      simp [beginTerm, hp, hd, remainder, behindTerm]
    · simp [beginTerm, hl, hp]

theorem admits_readComparator {field : Literal} {opened : List Token} :
    (readComparator field opened t).Admits w ↔
      DerivesAll (rule .comparator :: string :: behindTerm opened) (t.kind :: w) := by
  cases h : t.kind with
  | endOfInput | literal => simp [readComparator, h, TokenKind.comparator?]
  | symbol s => cases s <;> simp [readComparator, h, TokenKind.comparator?, remainder]
  | keyword k => cases k <;> simp [readComparator, h, TokenKind.comparator?, remainder]

theorem admits_continueCondition {opened : List Token} :
    (continueCondition opened t).Admits w ↔ DerivesAll (behindTerm opened) (t.kind :: w) := by
  have hend : (endCondition opened t).Admits w ↔
      DerivesAll ((behindTerm opened).drop 2) (t.kind :: w) := by
    cases opened with
    | nil => exact admits_afterFilter
    | cons paren outer =>
        by_cases h : t.kind = .symbol .rightParen <;> simp [endCondition, h, behindTerm, remainder]
  cases opened <;> cases h : t.kind with
  | endOfInput | literal | symbol =>
      simp [continueCondition, h, TokenKind.alternative?, behindTerm, hend]
  | keyword k =>
      cases k <;>
        simp [continueCondition, h, TokenKind.alternative?, behindTerm, remainder, hend]

theorem admits_continueSort :
    (continueSort t).Admits w ↔ DerivesAll [moreSortKeys, afterOrderBy] (t.kind :: w) := by
  by_cases h : t.kind = .symbol .comma
  · simp [continueSort, h, remainder]
  · simp only [continueSort, h, if_false, admits_afterOrderBy]
    simp [h]

/-- One step, as long as it does not nest parentheses too deeply: the phrases that may follow in
the state derive the kind of the token and then what the step goes on with. -/
theorem admits_step {limit : Nat} {q : State}
    (h : t.kind = .symbol .leftParen → q.depth < limit) :
    (step limit q t).Admits w ↔ DerivesAll q.remainder (t.kind :: w) := by
  cases q with
  | start => exact admits_start
  | expectField => exact admits_withLiteral fun _ => Iff.rfl
  | afterField =>
      by_cases hc : t.kind = .symbol .comma
      · simp [step, hc, remainder]
      · simp only [step, hc, if_false, admits_afterSelect]
        simp [hc, remainder]
  | afterWhere place =>
      by_cases ho : t.kind = .keyword .omits
      · simp [step, ho, remainder, behindTerm]
      · have hb : (beginTerm limit [] t).Admits w ↔ _ := admits_beginTerm h
        simp only [step, ho, if_false, Step.admits_precededBy, hb]
        simp [ho, remainder, behindTerm]
  | expectTerm opened => exact admits_beginTerm h
  | expectComparator field opened => exact admits_readComparator
  | expectValue field op opened => exact admits_withLiteral fun _ => Iff.rfl
  | afterTerm opened => exact admits_continueCondition
  | expectSortField =>
      exact (admits_withLiteral fun _ => Iff.rfl).trans (by simp [remainder])
  | afterSortField field =>
      cases hk : t.kind with
      | endOfInput | literal | symbol =>
          simp [step, hk, TokenKind.direction?, remainder, admits_continueSort]
      | keyword k =>
          cases k <;> simp [step, hk, TokenKind.direction?, remainder, admits_continueSort]
  | afterSortKey => exact admits_continueSort
  | expectLimit => exact admits_withLiteral fun _ => Iff.rfl
  | afterLimit => exact admits_afterLimit
  | expectOffset => exact admits_withLiteral fun _ => Iff.rfl
  | afterOffset => exact admits_afterOffset

end FindExpr.Recognizer

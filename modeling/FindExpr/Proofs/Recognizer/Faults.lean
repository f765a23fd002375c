import FindExpr.Proofs.Diagnostic
import FindExpr.Proofs.Recognizer.Completion

namespace FindExpr.Recognizer

open State

def Mismatch (t : Token) (d : Diagnostic) : Prop :=
  d.start = t.start ∧ ∃ expected, d.cause =
    if t.isEnd = true then .unexpectedEnd expected else .unexpectedToken expected t.description

def Trails (t : Token) (d : Diagnostic) : Prop :=
  d.start = t.start ∧ t.isEnd = false ∧ d.cause = .trailingInput t.description

/-- The diagnostic says why a token fits in no way in a state. -/
def Blames (limit : Nat) (q : State) (t : Token) (d : Diagnostic) : Prop :=
  if q.complete = true then Trails t d
  else if q.expectsTerm = true ∧ t.kind = .symbol .leftParen then
    d.start = t.start ∧ d.cause = .nestingTooDeep limit
  else Mismatch t d

variable {t : Token} {d : Diagnostic} {limit : Nat} {q : State}

theorem mismatch_unexpected (expected : List TokenKind) : Mismatch t (t.unexpected expected) := by
  unfold Mismatch Token.unexpected
  cases he : t.isEnd with
  | true => exact ⟨rfl, _, rfl⟩
  | false =>
      simp only [Bool.false_eq_true, if_false]
      split
      · exact ⟨by simp, expected.map TokenKind.display, by simp⟩
      · exact ⟨by simp, expected.map TokenKind.display, by simp⟩

theorem Mismatch.help (h : Mismatch t d) (message : String) : Mismatch t (d.help message) := h

theorem Mismatch.noteAt (h : Mismatch t d) (message : String) (place : Position) :
    Mismatch t (d.noteAt message place) := h

theorem trails_trailing (h : t.isEnd = false) : Trails t t.trailing := by
  unfold Trails Token.trailing
  split <;> simp [h]

theorem start_tooDeep : (t.tooDeep limit).start = t.start := by simp [Token.tooDeep]

theorem cause_tooDeep : (t.tooDeep limit).cause = .nestingTooDeep limit := by
  simp [Token.tooDeep]

namespace Step

/-- What the verdict of a step on a token has to be: only a token at the end is accepted and never
read on from, and diagnostics have a given property. -/
def Judges (s : Step) (t : Token) (complete : Bool) (P : Diagnostic → Prop) : Prop :=
  match s.verdict with
  | .continue _ => t.isEnd = false
  | .accept => t.isEnd = true ∧ complete = true
  | .reject d => P d

variable {complete : Bool} {P : Diagnostic → Prop} {events : List Event}

@[simp] theorem judges_continue {q : State} :
    Judges ⟨events, .continue q⟩ t complete P ↔ t.isEnd = false := Iff.rfl

@[simp] theorem judges_silent {q : State} :
    (silent q).Judges t complete P ↔ t.isEnd = false := Iff.rfl

@[simp] theorem judges_accept :
    Judges ⟨events, .accept⟩ t complete P ↔ t.isEnd = true ∧ complete = true := Iff.rfl

@[simp] theorem judges_reject : (reject d).Judges t complete P ↔ P d := Iff.rfl

@[simp] theorem judges_precededBy {s : Step} :
    (s.precededBy events).Judges t complete P ↔ s.Judges t complete P := Iff.rfl

end Step

theorem judges_enter {k : Keyword} (h : t.isEnd = false) :
    (enter k t).Judges t true (Trails t) := by
  cases k <;> simp [enter, h, trails_trailing h]

theorem judges_betweenClauses {allowed : List Keyword} :
    (betweenClauses allowed t).Judges t true (Trails t) := by
  cases h : t.kind with
  | endOfInput => simp [betweenClauses, h, Token.isEnd]
  | literal | symbol =>
      have he : t.isEnd = false := by simp [Token.isEnd, h]
      simp [betweenClauses, h, trails_trailing he]
  | keyword k =>
      have he : t.isEnd = false := by simp [Token.isEnd, h]
      by_cases hk : k ∈ allowed <;>
        simp [betweenClauses, h, hk, judges_enter he, trails_trailing he]

theorem judges_withLiteral {k : Literal → Step} {complete : Bool}
    (hk : ∀ l, (k l).Judges t complete (Mismatch t) ↔ t.isEnd = false) :
    (withLiteral t k).Judges t complete (Mismatch t) := by
  by_cases h : t.kind = .literal
  · simp [withLiteral, h, hk, Token.isEnd]
  · simp [withLiteral, h, mismatch_unexpected]

theorem judges_beginTerm {opened : List Token} (hq : q.complete = false)
    (he : q.expectsTerm = true) : (beginTerm limit opened t).Judges t false (Blames limit q t) := by
  by_cases hl : t.kind = .literal
  · simp [beginTerm, hl, Token.isEnd]
  · by_cases hp : t.kind = .symbol .leftParen
    · by_cases hd : limit ≤ opened.length
      · simp [beginTerm, hp, hd, Blames, hq, he, start_tooDeep, cause_tooDeep]
      · simp [beginTerm, hp, hd, Token.isEnd]
    · simp [beginTerm, hl, hp, Blames, hq, mismatch_unexpected]

theorem judges_readComparator {field : Literal} {opened : List Token} :
    (readComparator field opened t).Judges t false (Mismatch t) := by
  unfold readComparator
  cases ho : t.kind.comparator? with
  | some op =>
      rw [Step.judges_silent]
      cases h : t.kind with
      | endOfInput => simp [h, TokenKind.comparator?] at ho
      | keyword | symbol | literal => simp [Token.isEnd, h]
  | none =>
      have hm := mismatch_unexpected (t := t) comparatorKinds
      rw [Step.judges_reject]
      split
      · exact hm.help _
      · exact hm

theorem judges_endCondition {opened : List Token} :
    (endCondition opened t).Judges t (afterTerm opened).complete
      (Blames limit (.afterTerm opened) t) := by
  cases opened with
  | nil => exact judges_betweenClauses
  | cons paren outer =>
      by_cases h : t.kind = .symbol .rightParen
      · simp [endCondition, h, Token.isEnd]
      · simp only [endCondition, h, if_false, Step.judges_reject]
        exact (mismatch_unexpected (t := t) [.symbol .rightParen]).noteAt ..

theorem judges_continueCondition {opened : List Token} :
    (continueCondition opened t).Judges t (afterTerm opened).complete
      (Blames limit (.afterTerm opened) t) := by
  have he : (endCondition opened t).Judges t (afterTerm opened).complete
      (Blames limit (.afterTerm opened) t) := judges_endCondition
  cases h : t.kind with
  | endOfInput | literal | symbol => simp [continueCondition, h, TokenKind.alternative?, he]
  | keyword k =>
      cases k <;> simp [continueCondition, h, TokenKind.alternative?, he, Token.isEnd]

theorem judges_continueSort : (continueSort t).Judges t true (Trails t) := by
  by_cases h : t.kind = .symbol .comma
  · simp [continueSort, h, Token.isEnd]
  · simp [continueSort, h, judges_betweenClauses]

theorem judges_step (limit : Nat) (q : State) (t : Token) :
    (step limit q t).Judges t q.complete (Blames limit q t) := by
  cases q with
  | start | afterLimit | afterOffset => exact judges_betweenClauses
  | expectField | expectValue | expectSortField | expectLimit | expectOffset =>
      exact judges_withLiteral fun _ => Iff.rfl
  | afterField =>
      by_cases hc : t.kind = .symbol .comma
      · simp [step, hc, Token.isEnd]
      · simp only [step, hc, if_false]
        exact judges_betweenClauses
  | afterWhere place =>
      by_cases ho : t.kind = .keyword .omits
      · simp [step, ho, Token.isEnd]
      · simp only [step, ho, if_false, Step.judges_precededBy]
        exact judges_beginTerm rfl rfl
  | expectTerm opened => exact judges_beginTerm rfl rfl
  | expectComparator field opened => exact judges_readComparator
  | afterTerm opened => exact judges_continueCondition
  | afterSortField field =>
      cases h : t.kind with
      | endOfInput | literal | symbol =>
          simp only [step, h, TokenKind.direction?, Step.judges_precededBy]
          exact judges_continueSort
      | keyword k =>
          have hs : (continueSort t).Judges t true (Trails t) := judges_continueSort
          cases k <;> simp [step, h, TokenKind.direction?, Token.isEnd] <;> exact hs
  | afterSortKey => exact judges_continueSort

theorem verdict_of_isEnd (limit : Nat) (q : State) (ht : t.isEnd = true) :
    (step limit q t).verdict = .accept ∧ q.complete = true ∨
      ∃ d, (step limit q t).verdict = .reject d ∧ q.complete = false ∧ Mismatch t d := by
  have hj := judges_step limit q t
  unfold Step.Judges at hj
  cases hv : (step limit q t).verdict with
  | «continue» r => simp [hv, ht] at hj
  | accept =>
      simp only [hv] at hj
      exact .inl ⟨rfl, hj.2⟩
  | reject d =>
      simp only [hv, Blames] at hj
      refine .inr ⟨d, rfl, ?_⟩
      split at hj
      · exact absurd ht (by simp [hj.2.1])
      · next hc =>
          split at hj
          · next hp => simp [Token.isEnd, hp.2] at ht
          · exact ⟨Bool.eq_false_iff.2 hc, hj⟩

theorem verdict_of_stop (ht : t.isEnd = false)
    (hs : ∀ r, (step limit q t).verdict ≠ .continue r) :
    ∃ d, (step limit q t).verdict = .reject d ∧ Blames limit q t d := by
  have hj := judges_step limit q t
  unfold Step.Judges at hj
  cases hv : (step limit q t).verdict with
  | «continue» r => exact absurd hv (hs r)
  | accept => simp [hv, ht] at hj
  | reject d => exact ⟨d, rfl, by simpa only [hv] using hj⟩

theorem Path.isEnd_eq_false {r : State} {ts : List Token} {es : List Event}
    (p : Path limit q ts es r) : ∀ t ∈ ts, t.isEnd = false := by
  induction p with
  | nil => simp
  | @cons q t e r ts es s h _ ih =>
      have hj := judges_step limit q t
      rw [h, Step.judges_continue] at hj
      exact List.forall_mem_cons.2 ⟨hj, ih⟩

end FindExpr.Recognizer

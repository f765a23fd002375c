import FindExpr.Proofs.Lexer.Items
import FindExpr.Proofs.Recognizer.Faults
import FindExpr.Proofs.Recognizer.Trace

namespace FindExpr.Recognizer

open Grammar

namespace State

/-- The kinds that messages name as the ones of which one should come next. -/
def expected : State → List TokenKind
  | afterWhere _ | expectTerm _ => [.symbol .leftParen, .literal]
  | expectComparator .. => comparatorKinds
  | afterTerm (_ :: _) => [.symbol .rightParen]
  | expectField | expectValue .. | expectSortField | expectLimit | expectOffset => [.literal]
  | _ => []

end State

inductive Rejection (limit : Nat) : State → Token → Diagnostic → Prop
  | trailing {q t} (hq : q.complete = true) (ht : t.isEnd = false) : Rejection limit q t t.trailing
  | tooDeep {q t} (hq : q.expectsTerm = true) (ht : t.kind = .symbol .leftParen) :
      Rejection limit q t (t.tooDeep limit)
  | misfit {q t} (hq : q.complete = false) (hn : ∀ opened, q ≠ .afterTerm opened)
      (ht : t.kind ∉ q.expected) : Rejection limit q t (t.unexpected q.expected)
  | spaces {field opened t} (ht : t.kind = .literal) :
      Rejection limit (.expectComparator field opened) t
        ((t.unexpected comparatorKinds).help Token.spacesHelp)
  | unclosed {paren outer t}
      (ht : t.kind ∉ [.symbol .rightParen, .keyword .and, .keyword .or, .keyword .omits]) :
      Rejection limit (.afterTerm (paren :: outer)) t
        ((t.unexpected [.symbol .rightParen]).noteAt "unmatched `(` opened here" paren.start)

inductive Remark (q : State) (t : Token) : Note → Prop
  | quoting (hq : .literal ∈ q.expected) (ht : t.kind.isKeyword = true) :
      Remark q t ⟨.help, t.quotingHelp, none⟩
  | clauses : Remark q t ⟨.help, Token.clauseHelp, none⟩
  | spaces : Remark q t ⟨.help, Token.spacesHelp, none⟩
  | unclosed {paren outer} (hq : q = .afterTerm (paren :: outer))
      (ht : t.kind ∉ [.symbol .rightParen, .keyword .and, .keyword .or, .keyword .omits]) :
      Remark q t ⟨.note, "unmatched `(` opened here", some paren.start⟩

namespace Step

def Rejects (limit : Nat) (q : State) (t : Token) (s : Step) : Prop :=
  ∀ d, s.verdict = .reject d → Rejection limit q t d

variable {limit : Nat} {q r : State} {t : Token} {events : List Event} {d : Diagnostic} {s : Step}

@[simp] theorem rejects_continue : Rejects limit q t ⟨events, .continue r⟩ := nofun

@[simp] theorem rejects_silent : (silent r).Rejects limit q t := nofun

@[simp] theorem rejects_accept : Rejects limit q t ⟨events, .accept⟩ := nofun

@[simp] theorem rejects_reject : (reject d).Rejects limit q t ↔ Rejection limit q t d := by
  simp [Rejects, reject]

@[simp] theorem rejects_precededBy :
    (s.precededBy events).Rejects limit q t ↔ s.Rejects limit q t := Iff.rfl

end Step

variable {limit : Nat} {q r : State} {t : Token} {d : Diagnostic} {k : TokenKind}
  {ts : List Token} {es : List Event}

theorem rejects_betweenClauses {allowed : List Keyword} (hq : q.complete = true) :
    (betweenClauses allowed t).Rejects limit q t := by
  have hr (k : Keyword) (hk : t.kind = .keyword k) : Rejection limit q t t.trailing :=
    .trailing hq (by simp [Token.isEnd, hk])
  cases h : t.kind with
  | endOfInput => simp [betweenClauses, h]
  | literal | symbol =>
      simp only [betweenClauses, h, Step.rejects_reject]
      exact .trailing hq (by simp [Token.isEnd, h])
  | keyword k =>
      by_cases hk : k ∈ allowed
      · cases k <;> simp [betweenClauses, h, hk, enter, hr _ h]
      · simp [betweenClauses, h, hk, hr k h]

theorem rejects_withLiteral {k : Literal → Step} (hq : q.complete = false)
    (he : q.expected = [.literal]) (hk : ∀ l, (k l).Rejects limit q t) :
    (withLiteral t k).Rejects limit q t := by
  by_cases h : t.kind = .literal
  · simp [withLiteral, h, hk]
  · have hn (opened : List Token) : q ≠ .afterTerm opened := by
      rintro rfl
      cases opened <;> simp [State.expected] at he
    have hr : Rejection limit q t (t.unexpected q.expected) := .misfit hq hn (by simp [he, h])
    rw [he] at hr
    simp [withLiteral, h, hr]

theorem rejects_beginTerm {opened : List Token} (hq : q.expectsTerm = true) :
    (beginTerm limit opened t).Rejects limit q t := by
  have hc : q.complete = false := by
    rw [Bool.eq_false_iff]
    exact fun h => by simp [State.expectsTerm_of_complete h] at hq
  have he : q.expected = [.symbol .leftParen, .literal] := by
    cases q with
    | afterWhere | expectTerm => rfl
    | _ => cases hq
  by_cases hl : t.kind = .literal
  · simp [beginTerm, hl]
  · by_cases hp : t.kind = .symbol .leftParen
    · have hr : Rejection limit q t (t.tooDeep limit) := .tooDeep hq hp
      by_cases hd : limit ≤ opened.length <;> simp [beginTerm, hp, hd, hr]
    · have hn (opened : List Token) : q ≠ .afterTerm opened := by
        rintro rfl
        cases hq
      have hr : Rejection limit q t (t.unexpected q.expected) :=
        .misfit hc hn (by simp [he, hl, hp])
      rw [he] at hr
      simp [beginTerm, hl, hp, hr]

theorem comparator?_eq_none_iff : k.comparator? = none ↔ k ∉ comparatorKinds := by
  cases k with
  | endOfInput | literal => simp [TokenKind.comparator?, comparatorKinds]
  | keyword w => cases w <;> simp [TokenKind.comparator?, comparatorKinds]
  | symbol s => cases s <;> simp [TokenKind.comparator?, comparatorKinds]

theorem rejects_readComparator {field : Literal} {opened : List Token} :
    (readComparator field opened t).Rejects limit (.expectComparator field opened) t := by
  unfold readComparator
  split
  · simp
  · next h =>
      rw [Step.rejects_reject]
      split
      · next ht => exact .spaces ht
      · exact .misfit rfl nofun (comparator?_eq_none_iff.1 h)

theorem rejects_continueCondition (opened : List Token) :
    (continueCondition opened t).Rejects limit (.afterTerm opened) t := by
  unfold continueCondition
  split
  · simp
  · next ha =>
      split
      · simp
      · next ho =>
          rw [Step.rejects_precededBy]
          cases opened with
          | nil => exact rejects_betweenClauses rfl
          | cons paren outer =>
              rw [endCondition]
              split
              · simp
              · next hp =>
                  rw [Step.rejects_reject]
                  refine .unclosed ?_
                  cases hk : t.kind with
                  | endOfInput | literal | symbol => simp_all
                  | keyword k => cases k <;> simp_all [TokenKind.alternative?]

theorem rejects_continueSort (hq : q.complete = true) : (continueSort t).Rejects limit q t := by
  unfold continueSort
  split
  · simp
  · exact rejects_betweenClauses hq

theorem rejects_step (limit : Nat) (q : State) (t : Token) :
    (step limit q t).Rejects limit q t := by
  cases q with
  | start | afterLimit | afterOffset => exact rejects_betweenClauses rfl
  | expectField | expectValue | expectSortField | expectLimit | expectOffset =>
      exact rejects_withLiteral rfl rfl fun _ => nofun
  | afterField =>
      rw [step]
      split
      · simp
      · exact rejects_betweenClauses rfl
  | afterWhere place =>
      rw [step]
      split
      · simp
      · exact rejects_beginTerm rfl
  | expectTerm opened => exact rejects_beginTerm rfl
  | expectComparator field opened => exact rejects_readComparator
  | afterTerm opened => exact rejects_continueCondition opened
  | afterSortField field =>
      rw [step]
      split
      · simp
      · exact rejects_continueSort rfl
  | afterSortKey => exact rejects_continueSort rfl

theorem rejection_of_step (h : (step limit q t).verdict = .reject d) : Rejection limit q t d :=
  rejects_step limit q t d h

theorem Rejection.start_eq (h : Rejection limit q t d) : d.start = t.start := by
  cases h with
  | trailing _ ht => exact (trails_trailing ht).1
  | tooDeep => exact start_tooDeep
  | misfit | spaces | unclosed => exact (mismatch_unexpected _).1

theorem cause_unexpected (expected : List TokenKind) :
    (t.unexpected expected).cause =
      let names := expected.map TokenKind.display
      if t.isEnd = true then .unexpectedEnd names else .unexpectedToken names t.description := by
  unfold Token.unexpected
  cases t.isEnd with
  | true => rfl
  | false =>
      simp only [Bool.false_eq_true, if_false]
      split <;> simp

theorem stop_unexpected (expected : List TokenKind)
    (ht : t.isEnd = false → t.start.precedes t.stop = true) :
    (t.unexpected expected).stop = if t.isEnd = true then t.start else t.stop := by
  unfold Token.unexpected
  cases he : t.isEnd with
  | true => rfl
  | false =>
      simp only [Bool.false_eq_true, if_false]
      split <;> exact Diagnostic.stop_spanningTo _ _ (ht he)

theorem Rejection.cause_cases (h : Rejection limit q t d) :
    t.isEnd = false ∧ (d.cause = .trailingInput t.description ∨ d.cause = .nestingTooDeep limit) ∨
    t.kind ∉ q.expected ∧ d.cause =
      let names := q.expected.map TokenKind.display
      if t.isEnd = true then .unexpectedEnd names else .unexpectedToken names t.description := by
  cases h with
  | trailing _ ht => exact .inl ⟨ht, .inl (trails_trailing ht).2.2⟩
  | tooDeep _ ht => exact .inl ⟨by simp [Token.isEnd, ht], .inr cause_tooDeep⟩
  | misfit _ _ ht => exact .inr ⟨ht, cause_unexpected _⟩
  | spaces ht => exact .inr ⟨by simp [State.expected, comparatorKinds, ht], cause_unexpected _⟩
  | unclosed ht =>
      exact .inr ⟨fun hm => ht (List.mem_cons.2 (.inl (List.mem_singleton.1 hm))),
        cause_unexpected _⟩

theorem Rejection.cause_of_token (h : Rejection limit q t d) (ht : t.isEnd = false) :
    d.category = .syntactic ∧ ∀ expected, d.cause ≠ .unexpectedEnd expected := by
  rcases h.cause_cases with ⟨-, hc | hc⟩ | ⟨-, hc⟩
  · exact ⟨congrArg Cause.category hc, by simp [hc]⟩
  · exact ⟨congrArg Cause.category hc, by simp [hc]⟩
  · rw [ht] at hc
    exact ⟨congrArg Cause.category hc, by simp [hc]⟩

theorem Rejection.stop_eq (h : Rejection limit q t d)
    (ht : t.isEnd = false → t.start.precedes t.stop = true) :
    d.stop = if t.isEnd = true then t.start else t.stop := by
  have hs (hf : t.isEnd = false) (d : Diagnostic) (hd : d.start = t.start) :
      (d.spanningTo t.stop).stop = if t.isEnd = true then t.start else t.stop := by
    rw [hf]
    exact Diagnostic.stop_spanningTo _ _ (hd ▸ ht hf)
  cases h with
  | trailing _ hf =>
      unfold Token.trailing
      split <;> exact hs hf _ rfl
  | tooDeep _ hk => exact hs (by simp [Token.isEnd, hk]) _ rfl
  | misfit | spaces | unclosed => exact stop_unexpected _ ht

theorem of_mem_notes_unexpected {n : Note} {expected : List TokenKind}
    (h : n ∈ (t.unexpected expected).notes) :
    .literal ∈ expected ∧ t.kind.isKeyword = true ∧ n = ⟨.help, t.quotingHelp, none⟩ := by
  unfold Token.unexpected at h
  cases he : t.isEnd with
  | true => simp [he] at h
  | false =>
      simp only [he, Bool.false_eq_true, if_false] at h
      split at h
      · next hq =>
          rw [Bool.and_eq_true, List.contains_iff_mem] at hq
          exact ⟨hq.1, hq.2, by simpa using h⟩
      · simp at h

theorem Rejection.remark {n : Note} (h : Rejection limit q t d) (hn : n ∈ d.notes) :
    Remark q t n := by
  cases h with
  | trailing =>
      unfold Token.trailing at hn
      split at hn
      · obtain rfl : n = ⟨.help, Token.clauseHelp, none⟩ := by simpa using hn
        exact .clauses
      · simp at hn
  | tooDeep => simp [Token.tooDeep] at hn
  | misfit =>
      obtain ⟨hq, ht, rfl⟩ := of_mem_notes_unexpected hn
      exact .quoting hq ht
  | spaces =>
      rcases List.mem_append.1 hn with hn | hn
      · exact absurd (of_mem_notes_unexpected hn).1 (by decide)
      · obtain rfl := List.mem_singleton.1 hn
        exact .spaces
  | unclosed ht =>
      rcases List.mem_append.1 hn with hn | hn
      · exact absurd (of_mem_notes_unexpected hn).1 (by decide)
      · obtain rfl := List.mem_singleton.1 hn
        exact .unclosed rfl ht

theorem exists_rejection {source : String} (h : check limit source = .error d) :
    .error d ∈ tokenize source ∨ ∃ ts es q t rest, tokenize source = ts.map .ok ++ .ok t :: rest ∧
      Path limit .start ts es q ∧ Rejection limit q t d := by
  obtain ⟨ts, es, q, rest, ht, p, hs⟩ := exists_stop limit .start (tokenize source)
  rw [check, checkItems_eq, trace, ht, traceFrom_append p] at h
  rcases rest with _ | ⟨e | t, rest⟩
  · exact absurd rfl (rest_ne_nil ht p.isEnd_eq_false)
  · obtain rfl : e = d := Except.error.inj h
    exact .inl (by simp [ht])
  · refine .inr ⟨ts, es, q, t, rest, ht, p, rejection_of_step ?_⟩
    cases hv : (step limit q t).verdict with
    | «continue» r => exact absurd hv (hs r)
    | accept => simp [traceFrom, hv] at h
    | reject e => simpa [traceFrom, hv] using h

theorem State.exists_of_mem_expected (h : k ∈ q.expected) :
    ∃ w, DerivesAll q.remainder (k :: w) := by
  have hc := derivesAll_closing
  cases q with
  | expectField | expectValue | expectSortField | expectLimit | expectOffset =>
      obtain rfl := List.mem_singleton.1 h
      exact ⟨_, derivesAll_completion _⟩
  | afterWhere | expectTerm =>
      simp only [expected, List.mem_cons, List.not_mem_nil, or_false] at h
      rcases h with rfl | rfl
      · exact expectsTerm_iff.2 rfl
      · exact ⟨_, derivesAll_completion _⟩
  | expectComparator field opened =>
      refine ⟨.literal :: closing opened, ?_⟩
      simp only [expected, comparatorKinds, List.mem_cons, List.not_mem_nil, or_false] at h
      rcases h with rfl | rfl | rfl | rfl | rfl | rfl <;> simpa [remainder] using hc opened
  | afterTerm opened =>
      cases opened with
      | nil => cases h
      | cons paren outer =>
          obtain rfl := List.mem_singleton.1 h
          exact ⟨closing outer, by simpa [remainder, behindTerm] using hc outer⟩
  | _ => cases h

theorem Path.exists_derives_of_mem_expected (p : Path limit .start ts es q) (h : k ∈ q.expected) :
    ∃ w, Derives (.rule .query) (kinds ts ++ k :: w) := by
  obtain ⟨w, hw⟩ := State.exists_of_mem_expected h
  have hd := p.derivesAll_iff.2 hw
  rw [State.remainder, DerivesAll.singleton_iff] at hd
  exact ⟨w, hd⟩

theorem exists_continue_of_literal (hq : .literal ∈ q.expected) (ht : t.kind = .literal) :
    ∃ r, (step limit q t).verdict = .continue r := by
  cases q with
  | expectField | expectValue | expectSortField | expectLimit | expectOffset | expectTerm =>
      simp [step, withLiteral, beginTerm, ht, Step.silent]
  | afterWhere place => simp [step, beginTerm, ht, Step.silent, Step.precededBy]
  | expectComparator => simp [State.expected, comparatorKinds] at hq
  | afterTerm opened => cases opened <;> simp [State.expected] at hq
  | _ => cases hq

end FindExpr.Recognizer

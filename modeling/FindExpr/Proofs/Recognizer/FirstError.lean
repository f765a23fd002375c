import FindExpr.Proofs.Lexer.Items
import FindExpr.Proofs.Recognizer.Acceptance

namespace FindExpr.Recognizer

open Grammar

variable {limit : Nat} {t : Token} {d : Diagnostic}

/-- What a diagnostic about the token behind `before` tells, and what it may be relied on for. -/
structure SyntaxError (limit : Nat) (before : List TokenKind) (t : Token) (d : Diagnostic) :
    Prop where
  category_eq : d.category = .syntactic
  start_eq : d.start = t.start
  not_sentence : t.isEnd = true → ¬ Sentence limit before
  not_viable : t.isEnd = false → ¬ Viable limit (before ++ [t.kind])
  unexpectedEnd_iff : (∃ expected, d.cause = .unexpectedEnd expected) ↔ t.isEnd = true
  trailingInput_iff :
    d.cause = .trailingInput t.description ↔ t.isEnd = false ∧ Sentence limit before
  nestingTooDeep_iff : d.cause = .nestingTooDeep limit ↔
    t.kind = .symbol .leftParen ∧ ∃ m, Viable m (before ++ [t.kind])
  unexpectedToken_iff : (∃ expected, d.cause = .unexpectedToken expected t.description) ↔
    t.isEnd = false ∧ ¬ Sentence limit before ∧
      ¬ (t.kind = .symbol .leftParen ∧ ∃ m, Viable m (before ++ [t.kind]))

/-- What a diagnostic tells about the item behind `before`: it is that item, or it is about the
token there. -/
def ErrorAt (limit : Nat) (before : List TokenKind) (d : Diagnostic) : Item → Prop
  | .error e => d = e ∧ d.category = .lexical
  | .ok t => SyntaxError limit before t d

variable {ts : List Token} {es : List Event} {r : State} {place : Position} {rest : List Item}

theorem Path.syntaxError (p : Path limit .start ts es r)
    (hs : ∀ s, (step limit r t).verdict ≠ .continue s) (hb : Blames limit r t d) :
    SyntaxError limit (kinds ts) t d := by
  have hv := p.not_viable hs
  have hc := p.sentence_iff_complete
  have hp : (t.kind = .symbol .leftParen ∧ ∃ m, Viable m (kinds ts ++ [t.kind])) ↔
      r.expectsTerm = true ∧ t.kind = .symbol .leftParen := by
    rw [← p.viable_leftParen_iff, and_comm]
    exact and_congr_left fun hk => by rw [hk]
  unfold Blames at hb
  split at hb
  · next hq =>
      obtain ⟨hd, ht, he⟩ := hb
      have hn : r.expectsTerm = false := State.expectsTerm_of_complete hq
      refine ⟨?_, hd, ?_, fun _ => hv, ?_, ?_, ?_, ?_⟩ <;>
        simp [Diagnostic.category, Cause.category, he, ht, hc, hq, hp, hn]
  · next hq =>
      split at hb
      · next hl =>
          obtain ⟨hd, he⟩ := hb
          have ht : t.isEnd = false := by simp [Token.isEnd, hl.2]
          refine ⟨congrArg Cause.category he, hd, ?_, fun _ => hv, ?_, ?_, ?_, ?_⟩
          · simp [ht]
          · simp [he, ht]
          · simp [he, hc, hq]
          · rw [hp]
            exact iff_of_true he hl
          · rw [hp]
            simp [he, hl]
      · next hl =>
          obtain ⟨hd, expected, he⟩ := hb
          cases ht : t.isEnd with
          | true =>
              rw [ht, if_pos rfl] at he
              refine ⟨?_, hd, ?_, fun _ => hv, ?_, ?_, ?_, ?_⟩ <;>
                simp [Diagnostic.category, Cause.category, he, ht, hc, hq, hp, hl]
          | false =>
              rw [ht, if_neg Bool.false_ne_true] at he
              refine ⟨?_, hd, ?_, fun _ => hv, ?_, ?_, ?_, ?_⟩ <;>
                simp [Diagnostic.category, Cause.category, he, ht, hc, hq, hp, hl]

theorem blames_of_stop (hs : ∀ s, (step limit r t).verdict ≠ .continue s)
    (hr : (traceFrom limit r place (.ok t :: rest)).result = .error d) : Blames limit r t d := by
  have hj := judges_step limit r t
  unfold Step.Judges at hj
  cases hv : (step limit r t).verdict with
  | «continue» s => exact absurd hv (hs s)
  | accept => simp [traceFrom, hv] at hr
  | reject e =>
      obtain rfl : e = d := by simpa [traceFrom, hv] using hr
      simpa only [hv] using hj

/-- A source is rejected at an item up to which it can be completed. Either this item is a
diagnostic of the lexer, or it is the first token with which it cannot, and the cause says in which
way. -/
theorem check_error_first {source : String} (h : check limit source = .error d) :
    ∃ (before : List Token) (item : Item) (after : List Item),
      tokenize source = before.map .ok ++ item :: after ∧ Viable limit (kinds before) ∧
        ErrorAt limit (kinds before) d item := by
  obtain ⟨ts, es, r, rest, ht, p, hs⟩ := exists_stop limit .start (tokenize source)
  rw [check, checkItems_eq, trace, ht, traceFrom_append p] at h
  cases rest with
  | nil => exact absurd rfl (rest_ne_nil ht p.isEnd_eq_false)
  | cons item rest =>
      refine ⟨ts, item, rest, ht, p.viable, ?_⟩
      cases item with
      | error e =>
          obtain rfl : e = d := by simpa [traceFrom] using h
          have he : .error e ∈ tokenize source := by
            rw [ht]
            exact List.mem_append_right _ (List.mem_cons_self ..)
          exact ⟨rfl, category_of_error he⟩
      | ok t => exact p.syntaxError hs (blames_of_stop hs h)

theorem check_error_first_tooDeep :
    let d := (⟨.symbol .leftParen, "(", none, ⟨6, 6⟩, ⟨7, 7⟩⟩ : Token).tooDeep 0
    check 0 "WHERE (a=1)" = .error d ∧
      ∃ (before : List Token) (item : Item) (after : List Item),
        tokenize "WHERE (a=1)" = before.map .ok ++ item :: after ∧ Viable 0 (kinds before) ∧
          ErrorAt 0 (kinds before) d item :=
  ⟨rfl, check_error_first rfl⟩

end FindExpr.Recognizer

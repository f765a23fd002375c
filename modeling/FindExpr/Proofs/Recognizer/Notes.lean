import FindExpr.Proofs.Lexer.Order
import FindExpr.Proofs.Lexer.Runaway
import FindExpr.Proofs.Recognizer.Groups
import FindExpr.Proofs.Recognizer.Rejections

namespace FindExpr.Recognizer

open Grammar

/-- The diagnostic begins at a token behind a parenthesis and a whole condition, where the token
neither closes the group nor goes on with the condition. -/
def UnclosedAt (source : String) (d : Diagnostic) (paren : Token) : Prop :=
  ∃ (outer inner : List Token) (t : Token) (rest : List Item),
    tokenize source = (outer ++ paren :: inner).map .ok ++ .ok t :: rest ∧ d.start = t.start ∧
      paren.kind = .symbol .leftParen ∧ Derives (.rule .condition) (kinds inner) ∧
      t.kind ∉ [.symbol .rightParen, .keyword .and, .keyword .or, .keyword .omits]

variable {limit : Nat} {source : String} {q : State} {t paren : Token} {d : Diagnostic} {n : Note}
  {outer : List Token}

theorem Remark.place_cases (h : Remark q t n) :
    n.place = none ∧ n.message ≠ "unmatched `(` opened here" ∨
    ∃ paren outer, q = .afterTerm (paren :: outer) ∧ n.place = some paren.start ∧
      t.kind ∉ [.symbol .rightParen, .keyword .and, .keyword .or, .keyword .omits] := by
  cases h with
  | quoting =>
      refine .inl ⟨rfl, fun hm => ?_⟩
      have hh := congrArg (fun s => s.toList.head?) hm
      simp [Token.quotingHelp] at hh
  | clauses | spaces => exact .inl ⟨rfl, by decide⟩
  | unclosed hq ht => exact .inr ⟨_, _, hq, rfl, ht⟩

theorem message_ne_of_runaway {text lead blanks body : List Char} {style : QuoteStyle}
    (h : Runaway text style lead blanks body d) (hn : n ∈ d.notes) :
    n.message ≠ "unmatched `(` opened here" := by
  have hs : "string started here" ≠ "unmatched `(` opened here" := by decide
  simp only [h.notes_eq, List.mem_cons, List.not_mem_nil, or_false] at hn
  rcases hn with rfl | rfl
  · exact hs
  · intro hm
    have hh := congrArg (fun s => s.toList.head?) hm
    simp at hh

theorem exists_unclosedAt (h : check limit source = .error d) (hn : n ∈ d.notes)
    (hm : n.message = "unmatched `(` opened here") :
    ∃ paren, UnclosedAt source d paren ∧ n.place = some paren.start := by
  rcases exists_rejection h with hd | ⟨ts, es, q, t, rest, hi, p, hr⟩
  · obtain ⟨style, lead, blanks, text, hd⟩ := exists_runaway_of_mem hd
    exact absurd hm (message_ne_of_runaway hd hn)
  · rcases (hr.remark hn).place_cases with ⟨-, hne⟩ | ⟨paren, outer, rfl, hp, ht⟩
    · exact absurd hm hne
    · obtain ⟨us, cs, rfl, hk, hc⟩ := p.exists_group
      exact ⟨paren, ⟨us, cs, t, rest, hi, hr.start_eq, hk, hc, ht⟩, hp⟩

theorem Rejection.exists_unmatched (h : Rejection limit (.afterTerm (paren :: outer)) t d) :
    ∃ n ∈ d.notes, n.message = "unmatched `(` opened here" := by
  cases h with
  | trailing hq | tooDeep hq => cases hq
  | misfit _ hn => exact absurd rfl (hn _)
  | unclosed => exact ⟨_, List.mem_append_right _ (List.mem_singleton_self _), rfl⟩

theorem UnclosedAt.exists_unmatched (hu : UnclosedAt source d paren)
    (h : check limit source = .error d) :
    ∃ n ∈ d.notes, n.message = "unmatched `(` opened here" := by
  obtain ⟨outer, inner, t, rest, hi, hs, hp, hc, -⟩ := hu
  -- Where a diagnostic begins says which item it is about.
  rcases exists_rejection h with hd | ⟨ts, es, q, t', rest', hi', p, hr⟩
  · obtain ⟨us, vs, he⟩ := List.append_of_mem hd
    obtain ⟨-, hne, -⟩ := eq_of_start_eq he hi hs
    cases hne
  · obtain ⟨he, -, -⟩ := eq_of_start_eq hi' hi (hr.start_eq.symm.trans hs)
    obtain rfl := (List.map_inj_right fun _ _ => Except.ok.inj).1 he
    obtain ⟨outer, rfl⟩ := p.afterTerm_of_group hp hc
    exact hr.exists_unmatched

/-- A diagnostic notes a parenthesis that is not closed if and only if it is about a token behind a
whole condition in a group that neither closes the group nor goes on with the condition. The note
is on the innermost parenthesis that is open in front of that token. -/
theorem unmatched_note_iff (h : check limit source = .error d) :
    ((∃ n ∈ d.notes, n.message = "unmatched `(` opened here") ↔
      ∃ paren, UnclosedAt source d paren) ∧
    ∀ n ∈ d.notes, n.message = "unmatched `(` opened here" →
      ∃ (before : List Token) (t paren : Token) (rest : List Item),
        tokenize source = before.map .ok ++ .ok t :: rest ∧ d.start = t.start ∧
          InnermostOpen before paren ∧ n.place = some paren.start := by
  refine ⟨⟨?_, ?_⟩, ?_⟩
  · rintro ⟨n, hn, hm⟩
    obtain ⟨paren, hu, -⟩ := exists_unclosedAt h hn hm
    exact ⟨paren, hu⟩
  · rintro ⟨paren, hu⟩
    exact hu.exists_unmatched h
  · intro n hn hm
    obtain ⟨paren, ⟨outer, inner, t, rest, hi, hs, hp, hc, -⟩, hpl⟩ := exists_unclosedAt h hn hm
    exact ⟨_, t, paren, rest, hi, hs, innermostOpen_of_condition hp hc, hpl⟩

theorem unmatched_note_iff_outer :
    let d := ((Token.endOfInput ⟨19, 19⟩ ⟨19, 19⟩).unexpected [.symbol .rightParen]).noteAt
      "unmatched `(` opened here" ⟨6, 6⟩
    check 2 "WHERE ((a=1)and b=2" = .error d ∧
      (∃ paren, UnclosedAt "WHERE ((a=1)and b=2" d paren) ∧
      ∃ (before : List Token) (t paren : Token) (rest : List Item),
        tokenize "WHERE ((a=1)and b=2" = before.map .ok ++ .ok t :: rest ∧ d.start = t.start ∧
          InnermostOpen before paren ∧ some ⟨6, 6⟩ = some paren.start := by
  intro d
  have h : check 2 "WHERE ((a=1)and b=2" = .error d := rfl
  have hn : (⟨.note, "unmatched `(` opened here", some ⟨6, 6⟩⟩ : Note) ∈ d.notes :=
    List.mem_singleton_self _
  have hu := unmatched_note_iff h
  exact ⟨h, hu.1.1 ⟨_, hn, rfl⟩, hu.2 _ hn rfl⟩

end FindExpr.Recognizer

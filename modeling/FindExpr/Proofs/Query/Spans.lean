import FindExpr.Proofs.Lexer.Spans
import FindExpr.Proofs.Query.Agreement
import FindExpr.Proofs.Recognizer.Notes

namespace FindExpr

open Recognizer Grammar

/-- What the places of a diagnostic are in its source. -/
structure Diagnostic.PointsInto (source : String) (d : Diagnostic) : Prop where
  start_isIn : d.start.IsIn source.toList
  stop_isIn : d.stop.IsIn source.toList
  notes_isIn : ∀ n ∈ d.notes, ∀ p, n.place = some p → p.IsIn source.toList
  start_le_stop : d.start = d.stop ∨ d.start.precedes d.stop = true
  unexpectedEnd : ∀ expected, d.cause = .unexpectedEnd expected →
    d.start = .behind source.toList ∧ d.stop = .behind source.toList
  token : d.category = .syntactic → (∀ expected, d.cause ≠ .unexpectedEnd expected) →
    ∃ t, .ok t ∈ tokenize source ∧ t.isEnd = false ∧ d.start = t.start ∧ d.stop = t.stop
  unterminated : d.cause = .unterminatedString → d.stop = .behind source.toList ∧
    ∃ (style : QuoteStyle) (lead blanks text : List Char) (n : Note) (ns : List Note),
      source.toList = lead ++ blanks ++ style.mark :: text ∧ blanks.all Text.isBlank = true ∧
        d.start = .behind lead ∧ style.body? text = none ∧ d.notes = n :: ns ∧
        n.place = some (.behind (lead ++ blanks))
  unmatched : ∀ n ∈ d.notes, n.message = "unmatched `(` opened here" →
    ∃ before after, source.toList = before ++ '(' :: after ∧ n.place = some (.behind before) ∧
      (Position.behind before).precedes d.start = true

/-- The note has no place, or it is on a parenthesis in front of the diagnostic. -/
def Note.Placed (source : List Char) (d : Diagnostic) (n : Note) : Prop :=
  n.place = none ∧ n.message ≠ "unmatched `(` opened here" ∨
    ∃ before after, source = before ++ '(' :: after ∧ n.place = some (.behind before) ∧
      (Position.behind before).precedes d.start = true

variable {limit : Nat} {source : String} {q r : State} {t paren : Token} {d : Diagnostic} {n : Note}
  {ts us cs : List Token} {es : List Event} {rest : List Item} {text : List Char}

theorem Note.Placed.isIn {p : Position} (h : n.Placed text d) (hp : n.place = some p) :
    p.IsIn text := by
  rcases h with ⟨hn, -⟩ | ⟨before, after, hs, hb, -⟩
  · cases hn.symm.trans hp
  · obtain rfl := Option.some.inj (hb.symm.trans hp)
    exact Position.isIn_behind hs

theorem Runaway.pointsInto {style : QuoteStyle} {lead blanks text : List Char}
    (h : Runaway source.toList style lead blanks text d) : d.PointsInto source := by
  have hs := h.source_eq
  have hl : source.toList = lead ++ (blanks ++ style.mark :: text) := by rw [hs, List.append_assoc]
  have hd := h.eq_unterminated
  have hn := h.notes_eq
  refine ⟨?_, ?_, fun n hm p hp => ?_, .inr ?_, ?_, ?_, fun _ => ⟨?_, ?_⟩, fun n hn hm => ?_⟩
  · rw [hd]
    exact Position.isIn_behind hl
  · rw [hd]
    exact Position.isIn_behind (List.append_nil _).symm
  · simp only [hn, List.mem_cons, List.not_mem_nil, or_false] at hm
    rcases hm with rfl | rfl
    · obtain rfl := Option.some.inj hp
      exact Position.isIn_behind hs
    · cases hp
  · rw [hd, hl]
    exact Position.behind_precedes (by simp) lead
  · rw [hd]
    exact nofun
  · rw [hd]
    exact nofun
  · rw [hd]
    rfl
  · have hstart : d.start = .behind lead := congrArg Diagnostic.start hd
    exact ⟨style, lead, blanks, text, _, _, hs, h.blanks_blank, hstart, h.unclosed, hn, rfl⟩
  · exact absurd hm (message_ne_of_runaway h hn)

theorem pointsInto_of_token (hm : .ok t ∈ tokenize source)
    (ht : t.isEnd = false) (hs : d.start = t.start) (hp : d.stop = t.stop)
    (hc : d.category = .syntactic) (he : ∀ expected, d.cause ≠ .unexpectedEnd expected)
    (hn : ∀ n ∈ d.notes, n.Placed source.toList d) : d.PointsInto source := by
  obtain ⟨us, rest, hi⟩ := exists_before hm ht
  obtain ⟨before, lead, trail, after, hl, -⟩ := exists_liesIn hi ht
  refine ⟨?_, ?_, fun n hm p => (hn n hm).isIn, .inr ?_, fun e h => absurd h (he e),
    fun _ _ => ⟨t, hm, ht, hs, hp⟩, fun h => ?_, fun n hm h => (hn n hm).resolve_left (·.2 h)⟩
  · rw [hs, hl.start_eq]
    have hb := hl.source_eq
    rw [List.append_assoc, List.append_assoc, List.append_assoc] at hb
    exact Position.isIn_behind hb
  · rw [hp, hl.stop_eq]
    exact Position.isIn_behind hl.source_eq
  · rw [hs, hp]
    exact start_precedes_stop hm ht
  · rw [Diagnostic.category, h] at hc
    cases hc

theorem pointsInto_of_end {expected : List String} (hs : d.start = .behind source.toList)
    (hp : d.stop = .behind source.toList) (hc : d.cause = .unexpectedEnd expected)
    (hn : ∀ n ∈ d.notes, n.Placed source.toList d) : d.PointsInto source := by
  have hb : (Position.behind source.toList).IsIn source.toList :=
    Position.isIn_behind (List.append_nil _).symm
  exact ⟨hs ▸ hb, hp ▸ hb, fun n hm p => (hn n hm).isIn, .inl (hs.trans hp.symm),
    fun _ _ => ⟨hs, hp⟩, fun _ he => absurd hc (he expected), fun h => (nomatch hc.symm.trans h),
    fun n hm h => (hn n hm).resolve_left (·.2 h)⟩

namespace Recognizer

theorem Path.ne_nil_of_leftParen (p : Path limit .start (us ++ paren :: cs) es r)
    (hp : paren.kind = .symbol .leftParen) : us ≠ [] := by
  rintro rfl
  cases p with
  | cons h _ =>
      have hs := congrArg Step.verdict h
      simp [step, betweenClauses, hp, Step.reject] at hs

theorem Rejection.ne_nil (h : Rejection limit q t d) (p : Path limit .start ts es q)
    (ht : t.isEnd = true) : ts ≠ [] := by
  rintro rfl
  cases p
  cases h with
  | trailing _ hf => cases hf.symm.trans ht
  | tooDeep hq | misfit hq => cases hq

theorem Path.exists_paren (p : Path limit .start (us ++ paren :: cs) es r)
    (hp : paren.kind = .symbol .leftParen)
    (hi : tokenize source = (us ++ paren :: cs).map .ok ++ rest) :
    ∃ before after, source.toList = before ++ '(' :: after ∧ paren.start = .behind before := by
  have he : paren.isEnd = false := by simp [Token.isEnd, hp]
  have hm : .ok paren ∈ tokenize source := by simp [hi]
  rw [List.map_append, List.map_cons, List.append_assoc, List.cons_append] at hi
  obtain ⟨before, lead, trail, after, hl, hn⟩ := exists_liesIn hi he
  obtain rfl := hn (p.ne_nil_of_leftParen hp)
  have hw : paren.written.toList = ['('] := by
    rw [← Token.written_lexeme]
    exact (printable_of_mem hm he).written_symbol hp
  refine ⟨before, trail ++ after, ?_, hl.start_eq⟩
  simpa [hw] using hl.source_eq

theorem Remark.placed (h : Remark q t n) (p : Path limit .start ts es q)
    (hi : tokenize source = ts.map .ok ++ rest) (hd : check limit source = .error d) :
    n.Placed source.toList d := by
  rcases h.place_cases with hn | ⟨paren, outer, rfl, hp, -⟩
  · exact .inl hn
  · obtain ⟨us, cs, rfl, hk, -⟩ := p.exists_group
    obtain ⟨before, after, hs, hb⟩ := p.exists_paren hk hi
    have hlt := precedes_of_check hi p hd paren (by simp)
    exact .inr ⟨before, after, hs, hb ▸ hp, hb ▸ hlt⟩

end Recognizer

theorem pointsInto_of_check (h : check limit source = .error d) : d.PointsInto source := by
  rcases exists_rejection h with hd | ⟨ts, es, q, t, rest, hi, p, hr⟩
  · obtain ⟨style, lead, blanks, text, hd⟩ := exists_runaway_of_mem hd
    exact hd.pointsInto
  have hn : ∀ n ∈ d.notes, n.Placed source.toList d := fun n hn => (hr.remark hn).placed p hi h
  have hm : .ok t ∈ tokenize source := by simp [hi]
  have hs := hr.start_eq
  have hp := hr.stop_eq (start_precedes_stop hm)
  cases ht : t.isEnd with
  | true =>
      obtain ⟨hb, -⟩ := eq_behind_of_isEnd hi ht (hr.ne_nil p ht)
      rw [ht, if_pos rfl] at hp
      rcases hr.cause_cases with ⟨hf, -⟩ | ⟨-, hc⟩
      · cases hf.symm.trans ht
      · rw [ht] at hc
        exact pointsInto_of_end (hs.trans hb) (hp.trans hb) hc hn
  | false =>
      rw [ht, if_neg Bool.false_ne_true] at hp
      obtain ⟨hc, he⟩ := hr.cause_of_token ht
      exact pointsInto_of_token hm ht hs hp hc he hn

theorem pointsInto_of_parse (h : Query.parse limit source = .error d) : d.PointsInto source := by
  rcases parse_cases limit source with ⟨q, -, hq⟩ | ⟨e, he, hp⟩ | ⟨e, t, hp, hi, hc, -⟩
  · cases hq.symm.trans h
  · obtain rfl : e = d := Except.error.inj (hp.symm.trans h)
    exact pointsInto_of_check he
  · obtain rfl : e = d := Except.error.inj (hp.symm.trans h)
    have hd := (Builder.invalid_of_count hc).2
    obtain ⟨us, u, vs, hv, -, ht⟩ := hi.countLiteral
    have hn : e.notes = [] := by simp [hd, Literal.invalid]
    exact pointsInto_of_token (by simp [hv]) (by simp [Token.isEnd, ht]) hi.start_eq hi.stop_eq
      (congrArg Cause.category hi.cause_eq) (by simp [hi.cause_eq]) (by simp [hn])

/-- Every diagnostic points into its source, whether the lexer gives it, in whatever way it is
asked, or the recognizer or the reader of queries. -/
theorem diagnostics_pointInto (source : String) (limit : Nat) (d : Diagnostic)
    (h : (∃ cs : List Call, some (.error d) ∈ (Lexer.ofSource source).answers cs) ∨
      check limit source = .error d ∨ Query.parse limit source = .error d) :
    d.PointsInto source := by
  rcases h with ⟨cs, hd⟩ | hd | hd
  · obtain ⟨style, lead, blanks, text, hr⟩ :=
      (Lexer.standsBehind_ofSource source).exists_runaway_of_answers hd
    exact hr.pointsInto
  · exact pointsInto_of_check hd
  · exact pointsInto_of_parse hd

theorem diagnostics_pointInto_unclosed :
    let d := ((Token.endOfInput ⟨11, 12⟩ ⟨11, 12⟩).unexpected [.symbol .rightParen]).noteAt
      "unmatched `(` opened here" ⟨6, 6⟩
    check 1 "WHERE (é=1 " = .error d ∧ d.PointsInto "WHERE (é=1 " := by
  intro d
  have h : check 1 "WHERE (é=1 " = .error d := rfl
  exact ⟨h, diagnostics_pointInto "WHERE (é=1 " 1 d (.inr (.inl h))⟩

end FindExpr

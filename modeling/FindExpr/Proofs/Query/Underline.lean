import FindExpr.Proofs.Query.Report

namespace FindExpr

open Recognizer

/-- Wherever a report is printed, its carets end below a character of the line that is shown above
them, or there is one caret right behind that line, for the end of the source. -/
def Diagnostic.UnderlineStays (source : String) (d : Diagnostic) : Prop :=
  ∀ lines, d.reportLines? (some source.toList) = some lines →
    ∃ line underline, lines[3]? = some line ∧ lines[4]? = some underline ∧
      (underline.length ≤ line.length ∨
        (∃ expected, d.cause = .unexpectedEnd expected) ∧ d.carets source.toList = ['^'] ∧
          underline.length = line.length + 1)

namespace Spot

variable {source line marks : List Char} {s : Spot}

theorem length_numberedLine (h : s.numberedLine? source = some line) :
    line.length = s.gutter + 3 + (s.lineOf source).length := by
  have hw : (Text.alignRight s.gutter s.number).length = s.gutter :=
    Text.length_alignRight (Nat.le_max_right ..)
  rw [(numberedLine?_eq_some_iff.1 h).2, List.length_append, List.length_append, hw]
  rfl

theorem length_markLine (h : s.markLine? marks = some line) :
    line.length = s.gutter + 3 + (s.column + marks.length) := by
  rw [(markLine?_eq_some_iff.1 h).2, List.length_append, List.length_append, List.length_append,
    List.length_replicate, List.length_replicate, Nat.add_assoc _ s.column]
  rfl

end Spot

variable {before lead text trail after tail row : List Char} {d : Diagnostic} {source : String}

namespace Diagnostic

theorem exists_underlined {source : List Char} {lines : List (List Char)}
    (h : d.reportLines? (some source) = some lines) :
    ∃ line underline, (d.spot source).numberedLine? source = some line ∧
      (d.spot source).markLine? (d.carets source) = some underline ∧
      lines[3]? = some line ∧ lines[4]? = some underline := by
  obtain ⟨snippet, notes, hs, -, rfl⟩ := reportLines?_eq_some_iff.1 h
  simp only [snippet?, Option.bind_eq_bind, Option.bind_eq_some_iff, Option.some.injEq] at hs
  obtain ⟨gutter, -, line, hl, underline, hu, rfl⟩ := hs
  exact ⟨line, underline, hl, hu, rfl, rfl⟩

theorem underlineStays_iff_of_printed {lines : List (List Char)} {line underline : List Char}
    (h : d.reportLines? (some source.toList) = some lines) (hl : lines[3]? = some line)
    (hu : lines[4]? = some underline) :
    d.UnderlineStays source ↔ underline.length ≤ line.length ∨
      (∃ expected, d.cause = .unexpectedEnd expected) ∧ d.carets source.toList = ['^'] ∧
        underline.length = line.length + 1 := by
  constructor
  · intro hs
    obtain ⟨line', underline', hl', hu', hle⟩ := hs lines h
    obtain rfl := Option.some.inj (hl.symm.trans hl')
    obtain rfl := Option.some.inj (hu.symm.trans hu')
    exact hle
  · intro hle lines' h'
    obtain rfl := Option.some.inj (h.symm.trans h')
    exact ⟨line, underline, hl, hu, hle⟩

/-- Both lines begin with the same gutter, so what counts is how much they hold behind it. -/
theorem Marks.underlineStays_iff (h : d.Marks source.toList before lead text trail after)
    (hl : Text.OnLine (before ++ lead) (text ++ (trail ++ after)) tail row) :
    d.UnderlineStays source ↔ d.report? (some source) = none ∨
      tail.length + max 1 text.length ≤ row.length ∨
        (∃ expected, d.cause = .unexpectedEnd expected) ∧ max 1 text.length = 1 ∧
          tail.length + max 1 text.length = row.length + 1 := by
  cases hr : d.reportLines? (some source.toList) with
  | none => simp [UnderlineStays, report?, hr]
  | some lines =>
      obtain ⟨line, underline, hn, hm, hline, hunder⟩ := exists_underlined hr
      have hp : d.report? (some source) ≠ none := by simp [report?, hr]
      have hs : source.toList = (before ++ lead) ++ (text ++ (trail ++ after)) := by
        simp [h.source_eq]
      have hrow := Spot.lineOf_onLine hl tail.length
      rw [← hs] at hrow
      have hone : List.replicate (max 1 text.length) '^' = ['^'] ↔ max 1 text.length = 1 :=
        ⟨fun he => by simpa using congrArg List.length he, fun he => by rw [he]; rfl⟩
      have hlen := Spot.length_numberedLine hn
      have hlen' := Spot.length_markLine hm
      simp only [h.spot_eq hl, hrow, carets, h.highlighted_eq, List.length_replicate] at hlen hlen'
      simp only [underlineStays_iff_of_printed hr hline hunder, hp, false_or, carets,
        h.highlighted_eq, hone]
      refine or_congr ?_ (and_congr_right fun _ => and_congr_right fun _ => ?_)
      all_goals omega

theorem About.after_eq_nil (h : d.About source before text after) (ht : text = []) :
    after = [] := by
  obtain ⟨expected, he⟩ := h.text_eq_nil_iff.1 ht
  cases h with
  | endOfInput => rfl
  | token _ hn => exact absurd he (hn expected)
  | unterminated hc => cases hc.symm.trans he

/-- The text that a report is about goes on behind a line break only if it is quoted, an ORDER BY
with the line break in between, or never closed. -/
theorem About.breaks (h : d.About source before text after) (hn : '\n' ∈ text) :
    d.cause = .unterminatedString ∨ ∃ t, .ok t ∈ tokenize source ∧ d.start = t.start ∧
      text = t.written.toList ∧ (t.quote ≠ none ∨ t.kind = .keyword .orderBy) := by
  cases h with
  | endOfInput => cases hn
  | unterminated hc => exact .inl hc
  | @token t before lead trail after hc he hm ht hs hp hl =>
      rw [← Token.written_lexeme] at hn
      exact .inr ⟨t, hm, hs, rfl, (printable_of_mem hm ht).quote_or_orderBy hn⟩

end Diagnostic

/-- The carets of a report stay on the line above them if the text that the report is about breaks
no line, and only then, unless there is no report. -/
theorem underline_stays_iff (source : String) (limit : Nat) (d : Diagnostic)
    (h : check limit source = .error d ∨ Query.parse limit source = .error d) :
    ∃ before text after, d.About source before text after ∧
      source.toList = before ++ text ++ after ∧
      (d.UnderlineStays source ↔ '\n' ∉ text ∨ d.report? (some source) = none) ∧
      ('\n' ∈ text → d.cause = .unterminatedString ∨
        ∃ t, .ok t ∈ tokenize source ∧ d.start = t.start ∧ text = t.written.toList ∧
          (t.quote ≠ none ∨ t.kind = .keyword .orderBy)) := by
  have hc : d.category = .syntactic ∨ d.cause = .unterminatedString :=
    h.elim cause_cases_of_check cause_cases_of_parse
  have hd : d.PointsInto source := h.elim pointsInto_of_check pointsInto_of_parse
  obtain ⟨before, text, after, ha⟩ := hd.exists_about hc
  obtain ⟨pre, lead, trail, post, hm, rfl, rfl⟩ := ha.exists_marks hd
  obtain ⟨tail, row, hl⟩ := Text.exists_onLine (pre ++ lead) (text ++ (trail ++ post))
  refine ⟨_, text, _, ha, by rw [hm.source_eq]; simp, ?_, ha.breaks⟩
  rw [hm.underlineStays_iff hl, ← ha.text_eq_nil_iff, or_comm]
  refine or_congr ?_ Iff.rfl
  by_cases ht : text = []
  · -- Behind the end of the source the line has no more than stands before that.
    subst ht
    rw [ha.after_eq_nil rfl] at hl
    simp [hl.eq_of_nil]
  · have hone : max 1 text.length = text.length :=
      Nat.max_eq_right (List.length_pos_iff.2 ht)
    rw [hone, ← hl.length_le_iff ht hm.trimmed, List.length_append]
    simp [ht]

theorem underline_stays_iff_orderBy :
    let source := "SELECT a, ORDER\nBY b"
    ∃ d, check 1 source = .error d ∧
      ∃ before text after, d.About source before text after ∧
        source.toList = before ++ text ++ after ∧
        (d.UnderlineStays source ↔ '\n' ∉ text ∨ d.report? (some source) = none) ∧
        ('\n' ∈ text → d.cause = .unterminatedString ∨
          ∃ t, .ok t ∈ tokenize source ∧ d.start = t.start ∧ text = t.written.toList ∧
            (t.quote ≠ none ∨ t.kind = .keyword .orderBy)) :=
  ⟨_, rfl, underline_stays_iff _ 1 _ (.inl rfl)⟩

/-- A quoted field on two lines where a clause should begin: five carets stand below `'b`. -/
theorem underline_leaves_line :
    let source := "SELECT a 'b\nc'"
    ∃ d, check 64 source = .error d ∧ Query.parse 64 source = .error d ∧
      ¬ d.UnderlineStays source := by
  refine ⟨(Token.mk .literal "b\nc" (some .single) ⟨9, 9⟩ ⟨14, 14⟩).trailing, rfl, rfl, ?_⟩
  intro h
  obtain ⟨line, underline, hl, hu, hle⟩ := h _ rfl
  cases hl
  cases hu
  rcases hle with hle | ⟨⟨_, he⟩, -⟩
  · exact absurd hle (by decide)
  · cases he

end FindExpr

import FindExpr.Proofs.Query.Spans
import FindExpr.Proofs.Report

namespace FindExpr

open Recognizer

/-- What a diagnostic is about: a text of the source, and what the source holds before and behind
it. -/
inductive Diagnostic.About (source : String) (d : Diagnostic) :
    List Char → List Char → List Char → Prop
  | endOfInput {expected} (hc : d.cause = .unexpectedEnd expected) :
      About source d source.toList [] []
  | token {t before lead trail after} (hc : d.category = .syntactic)
      (he : ∀ expected, d.cause ≠ .unexpectedEnd expected) (hm : .ok t ∈ tokenize source)
      (ht : t.isEnd = false) (hs : d.start = t.start) (hp : d.stop = t.stop)
      (hl : t.LiesIn source.toList before lead trail after) :
      About source d (before ++ lead) t.written.toList (trail ++ after)
  | unterminated {style : QuoteStyle} {lead blanks text after rest}
      (hc : d.cause = .unterminatedString) (hs : source.toList = lead ++ blanks ++ (text ++ after))
      (hr : text ++ after = style.mark :: rest) (hu : style.body? rest = none)
      (hd : d.start = .behind lead) (hb : blanks.all Text.isBlank = true)
      (ha : after.all Text.isBlank = true) (ht : Text.trimEnd text = text) :
      About source d (lead ++ blanks) text after

variable {limit : Nat} {source : String} {d : Diagnostic} {t : Token}
  {before text after : List Char}

theorem QuoteStyle.isBlank_mark (style : QuoteStyle) : Text.isBlank style.mark = false := by
  cases style <;> decide

theorem Diagnostic.PointsInto.exists_about (h : d.PointsInto source)
    (hc : d.category = .syntactic ∨ d.cause = .unterminatedString) :
    ∃ before text after, d.About source before text after := by
  by_cases he : ∃ expected, d.cause = .unexpectedEnd expected
  · obtain ⟨expected, he⟩ := he
    exact ⟨_, _, _, .endOfInput he⟩
  · rcases hc with hc | hc
    · have he (expected) : d.cause ≠ .unexpectedEnd expected := fun h => he ⟨expected, h⟩
      obtain ⟨t, hm, ht, hs, hp⟩ := h.token hc he
      obtain ⟨us, rest, hi⟩ := exists_before hm ht
      obtain ⟨before, lead, trail, after, hl, -⟩ := exists_liesIn hi ht
      exact ⟨_, _, _, .token hc he hm ht hs hp hl⟩
    · obtain ⟨-, style, lead, blanks, text, -, -, hs, hb, hd, hu, -⟩ := h.unterminated hc
      obtain ⟨after, hr, ha⟩ := Text.exists_append_of_trimEnd (style.mark :: text)
      exact ⟨_, _, _, .unterminated hc (hr ▸ hs) hr.symm hu hd hb ha (Text.trimEnd_trimEnd _)⟩

theorem written_of_mem (hm : .ok t ∈ tokenize source) (ht : t.isEnd = false) :
    Text.trimEnd t.written.toList = t.written.toList ∧
      ∃ c w, t.written.toList = c :: w ∧ Text.isBlank c = false := by
  have hp := printable_of_mem hm ht
  rw [← Token.written_lexeme]
  obtain ⟨v, c, hv, hc⟩ := hp.exists_snoc
  exact ⟨by rw [hv, Text.trimEnd_snoc hc], hp.proper.begins⟩

theorem Diagnostic.About.exists_marks (h : d.About source before text after)
    (hd : d.PointsInto source) :
    ∃ pre lead trail post, d.Marks source.toList pre lead text trail post ∧
      before = pre ++ lead ∧ after = trail ++ post := by
  cases h with
  | endOfInput hc =>
      obtain ⟨hs, hp⟩ := hd.unexpectedEnd _ hc
      exact ⟨source.toList, [], [], [], ⟨by simp, hs, by simpa using hp, rfl, rfl, rfl,
        .inl ⟨rfl, rfl, rfl⟩⟩, by simp, rfl⟩
  | @token t before lead trail after hc he hm ht hs hp hl =>
      obtain ⟨hw, hb⟩ := written_of_mem hm ht
      exact ⟨before, lead, trail, after, ⟨hl.source_eq, hs.trans hl.start_eq, hp.trans hl.stop_eq,
        hl.lead_blank, hl.trail_blank, hw, .inr hb⟩, rfl, rfl⟩
  | @unterminated style lead blanks _ _ rest hc hs hr hu hd' hb ha ht =>
      obtain ⟨hp, -⟩ := hd.unterminated hc
      obtain ⟨w, hw⟩ := Text.exists_trimEnd_cons style.isBlank_mark rest
      rw [← hr, Text.trimEnd_append ha, ht] at hw
      refine ⟨lead, blanks, after, [],
        ⟨?_, hd', ?_, hb, ha, ht, .inr ⟨_, w, hw, style.isBlank_mark⟩⟩, rfl, by simp⟩
      · simp [hs]
      · simp [hp, hs]

theorem Diagnostic.About.text_eq_nil_iff (h : d.About source before text after) :
    text = [] ↔ ∃ expected, d.cause = .unexpectedEnd expected := by
  cases h with
  | endOfInput hc => exact ⟨fun _ => ⟨_, hc⟩, fun _ => rfl⟩
  | token hc he hm ht hs hp hl =>
      exact ⟨fun h => absurd h hl.written_ne, fun ⟨expected, h⟩ => absurd h (he expected)⟩
  | @unterminated style _ _ _ _ rest hc hs hr hu hd hb ha ht =>
      refine ⟨?_, fun ⟨expected, h⟩ => nomatch hc.symm.trans h⟩
      rintro rfl
      rw [List.nil_append] at hr
      rw [hr, List.all_cons, style.isBlank_mark] at ha
      cases ha

theorem cause_cases_of_check (h : check limit source = .error d) :
    d.category = .syntactic ∨ d.cause = .unterminatedString := by
  cases hc : d.category with
  | syntactic => exact .inl rfl
  | lexical =>
      obtain ⟨style, lead, blanks, text, hd⟩ := exists_runaway_of_mem (error_mem_of_check h hc)
      exact .inr hd.cause_eq

theorem cause_cases_of_parse (h : Query.parse limit source = .error d) :
    d.category = .syntactic ∨ d.cause = .unterminatedString := by
  rcases parse_cases limit source with ⟨q, -, hq⟩ | ⟨e, he, hp⟩ | ⟨e, t, hp, hi, -⟩
  · cases hq.symm.trans h
  · obtain rfl : e = d := Except.error.inj (hp.symm.trans h)
    exact cause_cases_of_check he
  · obtain rfl : e = d := Except.error.inj (hp.symm.trans h)
    exact .inl (congrArg Cause.category hi.cause_eq)

section Indented

variable (limit n : Nat)

/-- A parenthesis behind `n` blanks, which is no query. -/
def indented : String := String.ofList (List.replicate n ' ' ++ [')'])

theorem toList_indented : (indented n).toList = List.replicate n ' ' ++ [')'] :=
  String.toList_ofList

theorem blank_replicate : (List.replicate n ' ').all Text.isBlank = true :=
  List.all_eq_true.2 fun _ hc => List.eq_of_mem_replicate hc ▸ rfl

theorem exists_items_indented :
    ∃ items, tokenize (indented n) = .ok (Lexeme.token ⟨.symbol .rightParen, [')'], none⟩
      (.behind []) (.behind (List.replicate n ' ' ++ [')']))) :: items := by
  let l := Lexer.ofSource (indented n)
  have hr : l.rest = List.replicate n ' ' ++ [')'] := toList_indented n
  have hb := blank_replicate n
  have hk : Text.skipBlank [')'] = [')'] := rfl
  have hx : Lexeme.first? (Text.skipBlank l.rest) =
      some (⟨.symbol .rightParen, [')'], none⟩, []) := by
    rw [hr, Text.skipBlank_append hb, hk]
    rfl
  have hs : l.position = .behind [] := rfl
  have hp := Lexer.position_behind hs ⟨.symbol .rightParen, [')'], none⟩ []
  rw [hr, Text.leadingBlank_append hb hk, List.nil_append, Text.leadingBlank, List.takeWhile_nil,
    List.append_nil] at hp
  have ht := Lexer.take_some (indented n).toList.length rfl hx
  rw [hp] at ht
  exact ⟨_, ht⟩

theorem exists_marks_indented :
    ∃ d, check limit (indented n) = .error d ∧
      d.Marks (indented n).toList [] (List.replicate n ' ') [')'] [] [] := by
  obtain ⟨items, hi⟩ := exists_items_indented n
  have hn : List.replicate n ' ' ++ [')'] ≠ [] := by simp
  have hp := Position.behind_precedes hn []
  have hs : (indented n).toList = [] ++ List.replicate n ' ' ++ [')'] ++ [] ++ [] := by
    simp [toList_indented]
  refine ⟨_, by rw [check, checkItems, hi]; rfl, hs, Diagnostic.start_spanningTo .., ?_,
    blank_replicate n, rfl, rfl, .inr ⟨_, _, rfl, by decide⟩⟩
  exact (Diagnostic.stop_spanningTo _ _ hp).trans (by simp; rfl)

variable {n} in
theorem exists_indented_unreported (hn : Text.maxWidth < n) :
    ∃ d, check limit (indented n) = .error d ∧ d.report? (some (indented n)) = none := by
  obtain ⟨d, hc, hm⟩ := exists_marks_indented limit n
  refine ⟨d, hc, hm.report?_eq_none ?_ ?_⟩
  · simp
  · simpa using hn

end Indented

example :
    (Token.mk .literal "é" none ⟨0, 0⟩ ⟨4, 5⟩).trailing.report? (some "\n é = 1") =
      some ("error: Syntax error: unexpected string `é`\n" ++
        "  --> <query>:2:2\n   |\n 2 |  é = 1\n   |  ^\n") := by
  decide +kernel

end FindExpr

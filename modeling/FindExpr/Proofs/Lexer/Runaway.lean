import FindExpr.Proofs.Lexer.MaximalMunch
import FindExpr.Proofs.Lexer.Tiling

namespace FindExpr

/-- The diagnostic of a quote in a source, behind `lead` and some blanks, that is never closed. -/
structure Runaway (source : List Char) (style : QuoteStyle) (lead blanks text : List Char)
    (d : Diagnostic) : Prop where
  source_eq : source = lead ++ blanks ++ style.mark :: text
  blanks_blank : blanks.all Text.isBlank = true
  unclosed : style.body? text = none
  eq_unterminated : d = MaximalMunch.unterminated style.mark (.behind lead)
    (.behind (lead ++ blanks)) (.behind source)

variable {source before : List Char} {d : Diagnostic} {l : Lexer}

theorem Runaway.cause_eq {style : QuoteStyle} {lead blanks text : List Char}
    (h : Runaway source style lead blanks text d) : d.cause = .unterminatedString :=
  congrArg Diagnostic.cause h.eq_unterminated

theorem Runaway.notes_eq {style : QuoteStyle} {lead blanks text : List Char}
    (h : Runaway source style lead blanks text d) :
    d.notes = [⟨.note, "string started here", some (.behind (lead ++ blanks))⟩,
      ⟨.help, "add a closing `" ++ String.singleton style.mark ++ "`", none⟩] :=
  congrArg Diagnostic.notes h.eq_unterminated

theorem Lexeme.first?_mark_eq_none_iff {style : QuoteStyle} {text : List Char} :
    first? (style.mark :: text) = none ↔ style.body? text = none := by
  rw [first?_mark, quoted?, QuoteStyle.quoted?, if_pos rfl, Option.map_eq_none_iff]

namespace Lexer

theorem StandsBehind.exists_runaway (h : l.StandsBehind source before)
    (hd : l.nextToken.1 = .error d) :
    ∃ style lead blanks text, Runaway source style lead blanks text d := by
  cases hr : Text.skipBlank l.rest with
  | nil =>
      rw [nextToken_of_blank hr] at hd
      cases hd
  | cons c text =>
      cases hx : Lexeme.first? (Text.skipBlank l.rest) with
      | some split =>
          rw [nextToken_of_some hx] at hd
          cases hd
      | none =>
          rw [nextToken_of_none (by simp [hr]) hx] at hd
          rw [hr] at hx
          have hc := (MaximalMunch.first?_eq (Text.isBlank_of_skipBlank hr) text).trans hx
          obtain ⟨style, rfl, -⟩ := MaximalMunch.first?_eq_none_iff.1 hc
          refine ⟨style, before, Text.leadingBlank l.rest, text, ?_, Text.all_leadingBlank _,
            Lexeme.first?_mark_eq_none_iff.1 hx, ?_⟩
          · rw [List.append_assoc, ← hr, Text.leadingBlank_append_skipBlank]
            exact h.source_eq
          · rw [h.source_eq, ← fault_skipBlank h.position_eq hr]
            exact (Except.error.inj hd).symm

theorem StandsBehind.exists_runaway_of_answers (h : l.StandsBehind source before)
    {cs : List Call} (hd : some (.error d) ∈ l.answers cs) :
    ∃ style lead blanks text, Runaway source style lead blanks text d := by
  induction cs generalizing l before with
  | nil => cases hd
  | cons c cs ih =>
      obtain ⟨before', h'⟩ := h.call c
      rcases List.mem_cons.1 hd with hd | hd
      · refine h.exists_runaway ?_
        cases c with
        | nextToken => exact (Option.some.inj hd).symm
        | next =>
            cases hf : l.finished with
            | true => simp [Lexer.call, next?_of_finished hf] at hd
            | false =>
                rw [Lexer.call, next?_of_unfinished hf] at hd
                exact (Option.some.inj hd).symm
      · exact ih h' hd

end Lexer

theorem exists_runaway_of_mem {source : String} (h : .error d ∈ tokenize source) :
    ∃ style lead blanks text, Runaway source.toList style lead blanks text d := by
  obtain ⟨ha, -⟩ := Lexer.answers_next (l := .ofSource source) (source.toList.length + 1) rfl
    (Nat.lt_succ_self _)
  have hm : some (.error d) ∈ (tokenize source).map some := List.mem_map_of_mem h
  rw [tokenize, ← ha] at hm
  exact (Lexer.standsBehind_ofSource source).exists_runaway_of_answers hm

end FindExpr

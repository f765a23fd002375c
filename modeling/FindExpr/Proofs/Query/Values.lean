import FindExpr.Proofs.Lexer.Tiling
import FindExpr.Proofs.Query.Reconstruction

namespace FindExpr

namespace Lexeme

variable {x : Lexeme} {text rest : List Char}

theorem no_keyword_of_literal (h : first? text = some (x, rest)) (hx : x.kind = .literal) :
    orderBy? text = none ∧ ∀ k ∈ keywords, keyword? k text = none := by
  simp only [first?, Option.orElse_eq_orElse, Option.orElse_eq_or, Option.or_eq_some_iff] at h
  rcases h with h | ⟨-, h | ⟨ho, h | ⟨hk, -⟩⟩⟩
  · obtain ⟨s, -, hs⟩ := List.exists_of_findSome?_eq_some h
    rw [sign?] at hs
    split at hs
    · obtain ⟨rfl, -⟩ := Prod.mk.inj (Option.some.inj hs)
      cases hx
    · cases hs
  · obtain ⟨_, -, h⟩ := Option.bind_eq_some_iff.1 h
    dsimp only at h
    split at h
    · cases h
    · obtain ⟨_, -, h⟩ := Option.map_eq_some_iff.1 h
      obtain ⟨rfl, -⟩ := Prod.mk.inj h
      cases hx
  · obtain ⟨k, -, hs⟩ := List.exists_of_findSome?_eq_some h
    obtain ⟨_, -, hs⟩ := Option.map_eq_some_iff.1 hs
    obtain ⟨rfl, -⟩ := Prod.mk.inj hs
    cases hx
  · exact ⟨ho, List.findSome?_eq_none_iff.1 hk⟩

theorem written_ofValue (value : String) : (ofValue value).written = renderValue value := by
  unfold ofValue renderValue
  split <;> rfl

end Lexeme

/-- What reading a value in front of a rest comes to: a literal that is written like the value and
stands for it, and the lexer behind the blanks of the rest. No keyword begins where the value does,
not even one that the rest would be a part of. -/
structure Lexer.ReadsValue (l : Lexer) (value : String) (rest : List Char) (t : Token)
    (l' : Lexer) : Prop where
  nextToken_eq : l.nextToken = (.ok t, l')
  kind_eq : t.kind = .literal
  unescaped_eq : t.unescaped = value
  written_eq : t.written.toList = renderValue value
  start_eq : t.start = l.position
  stop_eq : t.stop = l'.position
  rest_eq : l'.rest = Text.skipBlank rest
  position_eq : l'.position = l.position.after (renderValue value ++ Text.leadingBlank rest)
  finished_eq : l'.finished = l.finished
  orderBy_eq_none : Lexeme.orderBy? l.rest = none
  keyword_eq_none : ∀ k ∈ Lexeme.keywords, Lexeme.keyword? k l.rest = none

/-- A value is read back whole from in front of every rest that is empty or begins with a character
which ends a bare word. -/
theorem reads_value (l : Lexer) (value : String) (rest : List Char)
    (hl : l.rest = renderValue value ++ rest)
    (hr : rest = [] ∨ ∃ c tail, rest = c :: tail ∧ isBare c = false) :
    ∃ t l', l.ReadsValue value rest t l' := by
  have he : wordEnds rest = true := by
    rcases hr with rfl | ⟨c, tail, rfl, hc⟩
    · rfl
    · simp [wordEnds, hc]
  have hf : Lexeme.first? l.rest = some (.ofValue value, rest) := by
    rw [hl, first?_renderValue value he]
  have hs : Text.skipBlank l.rest = l.rest := Lexeme.skipBlank_of_first? hf
  have hp : (l.behind (.ofValue value) rest).position =
      l.position.after (renderValue value ++ Text.leadingBlank rest) := by
    rw [Position.after_append, ← Lexeme.written_ofValue]
    simp only [Lexer.behind, Lexer.skipBlank, Lexer.advance, Text.leadingBlank_of_skipBlank hs,
      Position.after_nil]
  obtain ⟨hk, hv⟩ := Grammar.unescaped_of_ofValue
    (Lexeme.lexeme_token (.ofValue value) l.position (l.behind (.ofValue value) rest).position)
  obtain ⟨ho, hw⟩ := Lexeme.no_keyword_of_literal hf hk
  refine ⟨_, _, Lexer.nextToken_of_some (hs.symm ▸ hf), hk, hv, ?_, rfl, rfl, rfl, hp, rfl, ho, hw⟩
  rw [Lexeme.written_token, Lexeme.written_ofValue]

theorem reads_value_order :
    let l : Lexer := ⟨⟨2, 3⟩, "\"order\" BY é".toList, false⟩
    l.rest = renderValue "order" ++ " BY é".toList ∧
      ∃ t l', l.ReadsValue "order" " BY é".toList t l' := by
  intro l
  have hl : l.rest = renderValue "order" ++ " BY é".toList := by decide
  exact ⟨hl, reads_value l "order" _ hl (.inr ⟨' ', "BY é".toList, rfl, by decide⟩)⟩

end FindExpr

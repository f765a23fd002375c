import FindExpr.Proofs.Lexer.Words

namespace FindExpr

namespace QuoteStyle

variable {c : Char}

theorem mark_ne_backslash (style : QuoteStyle) : style.mark ≠ '\\' := by
  cases style <;> decide

@[simp] theorem body?_mark (style : QuoteStyle) (text : List Char) :
    style.body? (style.mark :: text) = some ([], text) := by
  cases text <;> simp [body?]

@[simp] theorem body?_backslash (style : QuoteStyle) (c : Char) (text : List Char) :
    style.body? ('\\' :: c :: text) =
      (style.body? text).map fun split => ('\\' :: c :: split.1, split.2) := by
  simp [body?, (mark_ne_backslash style).symm]

theorem body?_cons (style : QuoteStyle) (hm : c ≠ style.mark) (hb : c ≠ '\\') (text : List Char) :
    style.body? (c :: text) =
      (style.body? text).map fun split => (c :: split.1, split.2) := by
  cases text <;> simp [body?, hm, hb]

/-- A character of quoted text, or a backslash together with the character behind it. -/
inductive BodyUnit (style : QuoteStyle) : List Char → Prop
  | plain {d} (hm : d ≠ style.mark) (hb : d ≠ '\\') : BodyUnit style [d]
  | escaped (d) : BodyUnit style ['\\', d]

theorem body?_flatten {style : QuoteStyle} {us : List (List Char)} (hu : ∀ u ∈ us, style.BodyUnit u)
    (rest : List Char) :
    style.body? (us.flatten ++ style.mark :: rest) = some (us.flatten, rest) := by
  induction us with
  | nil => exact style.body?_mark rest
  | cons u us ih =>
      rw [List.forall_mem_cons] at hu
      have ih := ih hu.2
      cases hu.1 with
      | plain hm hb => simp [style.body?_cons hm hb, ih]
      | escaped c => simp [ih]

end QuoteStyle

namespace Lexeme

variable {rest : List Char}

theorem first?_sign (s : Symbol) (h : s = .lt ∨ s = .gt → rest.head? ≠ some '=') :
    first? (s.text.toList ++ rest) = some (⟨.symbol s, s.text.toList, none⟩, rest) := by
  cases s with
  | lt | gt =>
      cases rest with
      | nil => rfl
      | cons c rest =>
          have hc : c ≠ '=' := by simpa using h
          simp [first?, signs, sign?, Symbol.text, hc.symm]
  | _ => rfl

theorem first?_mark (style : QuoteStyle) (text : List Char) :
    first? (style.mark :: text) = quoted? style (style.mark :: text) := by
  have h (split : Option (Lexeme × List Char)) : (split <|> none) = split := by simp
  cases style with
  | double => exact h (quoted? .double ('\x22' :: text))
  | single => exact h (quoted? .single ('\x27' :: text))

theorem first?_enclose {style : QuoteStyle} {us : List (List Char)}
    (hu : ∀ u ∈ us, style.BodyUnit u) (rest : List Char) :
    first? (style.enclose us.flatten ++ rest) =
      some (⟨.literal, us.flatten, some style⟩, rest) := by
  have he : style.enclose us.flatten ++ rest =
      style.mark :: (us.flatten ++ style.mark :: rest) := by
    simp [QuoteStyle.enclose]
  rw [he, first?_mark]
  simp [quoted?, QuoteStyle.quoted?, QuoteStyle.body?_flatten hu]

theorem first?_escape (text rest : List Char) :
    first? (QuoteStyle.double.enclose (escape text) ++ rest) =
      some (⟨.literal, escape text, some .double⟩, rest) := by
  refine first?_enclose (fun u hu => ?_) rest
  obtain ⟨c, -, rfl⟩ := List.mem_map.1 hu
  split
  · exact .escaped c
  · next h => exact .plain (fun hm => h (.inl hm)) (fun hb => h (.inr hb))

end Lexeme

end FindExpr

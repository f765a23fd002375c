import FindExpr.Proofs.Lexer.Items

namespace FindExpr

def Token.lexeme (t : Token) : Lexeme := ⟨t.kind, t.value.toList, t.quote⟩

@[simp] theorem Lexeme.lexeme_token (x : Lexeme) (start stop : Position) :
    (x.token start stop).lexeme = x := by
  simp [token, Token.lexeme]

/-- Reading from a text, with blanks before any lexeme, up to the last argument. -/
inductive Scans : List Char → List Lexeme → List Char → Prop
  | done {text} : Scans text [] text
  | blank {c text xs rest} (hc : Text.isBlank c = true) (h : Scans text xs rest) :
      Scans (c :: text) xs rest
  | next {text x text' xs rest} (hx : Lexeme.first? text = some (x, text'))
      (h : Scans text' xs rest) : Scans text (x :: xs) rest

variable {text text' rest : List Char} {x : Lexeme} {xs ys : List Lexeme}

namespace Scans

theorem append (h : Scans text xs text') (h' : Scans text' ys rest) :
    Scans text (xs ++ ys) rest := by
  induction h with
  | done => exact h'
  | blank hc _ ih => exact .blank hc (ih h')
  | next hx _ ih => exact .next hx (ih h')

theorem single (hx : Lexeme.first? text = some (x, rest)) : Scans text [x] rest :=
  .next hx .done

theorem space (h : Scans text xs rest) : Scans (' ' :: text) xs rest :=
  .blank (by decide) h

theorem blanks {sep : List Char} (hs : sep.all Text.isBlank = true) (h : Scans text xs rest) :
    Scans (sep ++ text) xs rest := by
  induction sep with
  | nil => exact h
  | cons c sep ih =>
      rw [List.all_cons, Bool.and_eq_true] at hs
      exact .blank hs.1 (ih hs.2)

end Scans

theorem Lexeme.skipBlank_of_first? (hx : first? text = some (x, rest)) :
    Text.skipBlank text = text := by
  obtain ⟨c, w, hw, hc⟩ := (proper_of_first? hx).begins
  rw [eq_append_of_first? hx, hw]
  exact List.dropWhile_cons_of_neg (by simp [hc])

theorem Lexer.take_of_scans (h : Scans text xs rest) (hr : Text.skipBlank rest = []) {l : Lexer}
    (hl : Text.skipBlank l.rest = Text.skipBlank text) (hf : l.finished = false) {n : Nat}
    (hn : l.rest.length < n) :
    ∃ (ts : List Token) (last : Token), l.take n = ts.map .ok ++ [.ok last] ∧
      last.isEnd = true ∧ ts.map Token.lexeme = xs := by
  -- The lexer has skipped blanks that the text may still have, so the two agree only behind them.
  induction h generalizing l n with
  | done =>
      obtain ⟨n, rfl⟩ := Nat.exists_eq_add_of_lt hn
      rw [hr] at hl
      exact ⟨[], _, take_last _ hf (nextToken_of_blank hl) rfl, rfl, rfl⟩
  | blank hc _ ih => exact ih hr (hl.trans (Text.skipBlank_cons hc _)) hf hn
  | @next text x text' xs rest hx _ ih =>
      obtain ⟨n, rfl⟩ := Nat.exists_eq_add_of_lt hn
      rw [Lexeme.skipBlank_of_first? hx] at hl
      rw [← hl] at hx
      have hlt := length_behind_lt hx
      obtain ⟨ts, last, ht, he, hts⟩ :=
        ih hr (l := l.behind x text') (Text.skipBlank_skipBlank text') hf (n := l.rest.length + n)
          (by omega)
      refine ⟨x.token l.position (l.behind x text').position :: ts, last, ?_, he, ?_⟩
      · rw [take_some _ hf hx, ht]
        rfl
      · rw [List.map_cons, Lexeme.lexeme_token, hts]

theorem tokenize_of_scans {source : String} (h : Scans source.toList xs []) :
    ∃ (ts : List Token) (last : Token), tokenize source = ts.map .ok ++ [.ok last] ∧
      last.isEnd = true ∧ ts.map Token.lexeme = xs :=
  Lexer.take_of_scans h rfl rfl rfl (Nat.lt_succ_self _)

end FindExpr

import FindExpr.Lexer
import FindExpr.Proofs.Diagnostic
import FindExpr.Proofs.Lexer.Words

namespace FindExpr

namespace Lexeme

variable {text rest : List Char} {x : Lexeme}

structure Proper (x : Lexeme) : Prop where
  kind_ne : x.kind ≠ .endOfInput
  begins : ∃ c w, x.written = c :: w ∧ Text.isBlank c = false

theorem Proper.written_ne (h : x.Proper) : x.written ≠ [] := by
  obtain ⟨c, w, hx, -⟩ := h.begins
  rw [hx]
  exact List.cons_ne_nil c w

theorem proper_of_sign? {s : Symbol} (h : sign? s text = some (x, rest)) : x.Proper := by
  rw [sign?] at h
  split at h
  · simp only [Option.some.injEq, Prod.mk.injEq] at h
    obtain ⟨rfl, -⟩ := h
    exact ⟨by simp, by cases s <;> exact ⟨_, _, rfl, by decide⟩⟩
  · exact absurd h (by simp)

theorem proper_of_orderBy? (h : orderBy? text = some (x, rest)) : x.Proper := by
  obtain ⟨⟨order, behind⟩, ho, h⟩ := Option.bind_eq_some_iff.1 h
  obtain ⟨c, order', rfl, hc⟩ := Text.exists_cons_of_splitFolded? (by decide) ho
  dsimp only at h
  split at h
  · exact absurd h (by simp)
  · obtain ⟨⟨word, rest'⟩, -, he⟩ := Option.map_eq_some_iff.1 h
    simp only [Prod.mk.injEq] at he
    obtain ⟨rfl, -⟩ := he
    exact ⟨by simp, c, _, rfl, hc⟩

theorem proper_of_keyword? {k : Keyword} (h : keyword? k text = some (x, rest)) : x.Proper := by
  obtain ⟨⟨value, rest'⟩, hw, he⟩ := Option.map_eq_some_iff.1 h
  simp only [Prod.mk.injEq] at he
  obtain ⟨rfl, -⟩ := he
  have hk : ∃ u us, k.text.toList = u :: us ∧ u.isUpper = true := by
    cases k <;> exact ⟨_, _, rfl, by decide⟩
  obtain ⟨u, us, hk, hu⟩ := hk
  have hs := (Option.filter_eq_some_iff.1 hw).1
  rw [hk] at hs
  obtain ⟨c, value', rfl, hc⟩ := Text.exists_cons_of_splitFolded? hu hs
  exact ⟨by simp, c, value', rfl, hc⟩

theorem proper_of_quoted? {style : QuoteStyle} (h : quoted? style text = some (x, rest)) :
    x.Proper := by
  obtain ⟨⟨body, rest'⟩, -, he⟩ := Option.map_eq_some_iff.1 h
  simp only [Prod.mk.injEq] at he
  obtain ⟨rfl, -⟩ := he
  exact ⟨by simp, style.mark, _, rfl, by cases style <;> decide⟩

theorem proper_of_bare? (h : bare? text = some (x, rest)) : x.Proper := by
  rw [bare?] at h
  split at h
  · exact absurd h (by simp)
  · next hn =>
      simp only [Option.some.injEq, Prod.mk.injEq] at h
      obtain ⟨rfl, -⟩ := h
      obtain ⟨c, w, hw⟩ := List.exists_cons_of_ne_nil hn
      have hc : c ∈ text.takeWhile isBare := by
        rw [hw]
        exact List.mem_cons_self
      exact ⟨by simp, c, w, hw, isBlank_of_isBare (List.all_eq_true.1 List.all_takeWhile c hc)⟩

theorem proper_of_first? (h : first? text = some (x, rest)) : x.Proper := by
  simp only [first?, Option.orElse_eq_orElse, Option.orElse_eq_or, Option.or_eq_some_iff] at h
  rcases h with h | ⟨-, h | ⟨-, h | ⟨-, h | ⟨-, h | ⟨-, h | ⟨-, h⟩⟩⟩⟩⟩⟩
  · obtain ⟨s, -, hs⟩ := List.exists_of_findSome?_eq_some h
    exact proper_of_sign? hs
  · exact proper_of_orderBy? h
  · obtain ⟨k, -, hk⟩ := List.exists_of_findSome?_eq_some h
    exact proper_of_keyword? hk
  · exact proper_of_sign? h
  · exact proper_of_quoted? h
  · exact proper_of_quoted? h
  · exact proper_of_bare? h

theorem length_lt_of_first? (h : first? text = some (x, rest)) : rest.length < text.length := by
  have hw := List.length_pos_iff.2 (proper_of_first? h).written_ne
  have ht := congrArg List.length (eq_append_of_first? h)
  rw [List.length_append] at ht
  omega

def token (x : Lexeme) (start stop : Position) : Token :=
  ⟨x.kind, String.ofList x.value, x.quote, start, stop⟩

theorem isEnd_token (h : x.Proper) (start stop : Position) :
    (x.token start stop).isEnd = false := by
  simpa [Token.isEnd, token] using h.kind_ne

end Lexeme

namespace Lexer

variable {l : Lexer} {x : Lexeme} {rest : List Char}

def behind (l : Lexer) (x : Lexeme) (rest : List Char) : Lexer :=
  (l.skipBlank.advance x.written rest).skipBlank

theorem nextToken_of_blank (h : Text.skipBlank l.rest = []) :
    l.nextToken = (.ok (.endOfInput l.position l.skipBlank.position), l.skipBlank) := by
  have hb : l.skipBlank.rest = [] := h
  simp [nextToken, hb]

theorem nextToken_of_none (hb : Text.skipBlank l.rest ≠ [])
    (h : Lexeme.first? (Text.skipBlank l.rest) = none) :
    l.nextToken =
      (.error (l.skipBlank.fault l.position), { l.skipBlank with finished := true }) := by
  have hr : l.skipBlank.rest = Text.skipBlank l.rest := rfl
  simp [nextToken, hr, hb, h]

theorem nextToken_of_some (h : Lexeme.first? (Text.skipBlank l.rest) = some (x, rest)) :
    l.nextToken = (.ok (x.token l.position (l.behind x rest).position), l.behind x rest) := by
  have hr : l.skipBlank.rest = Text.skipBlank l.rest := rfl
  have hb : Text.skipBlank l.rest ≠ [] := by
    intro hn
    have hlt := Lexeme.length_lt_of_first? h
    rw [hn] at hlt
    exact absurd hlt (Nat.not_lt_zero _)
  simp [nextToken, hr, hb, h, behind, Lexeme.token]

theorem length_behind_lt (h : Lexeme.first? (Text.skipBlank l.rest) = some (x, rest)) :
    (l.behind x rest).rest.length < l.rest.length := by
  have h₁ := Text.length_skipBlank_le l.rest
  have h₂ := Lexeme.length_lt_of_first? h
  have h₃ : (l.behind x rest).rest.length ≤ rest.length := Text.length_skipBlank_le rest
  omega

theorem take_finished (n : Nat) (h : l.finished = true) : l.take n = [] := by
  cases n <;> simp [take, next?, h]

theorem take_last (n : Nat) {item : Item} {l' : Lexer} (hf : l.finished = false)
    (h : l.nextToken = (item, l')) (hl : isLast item = true) : l.take (n + 1) = [item] := by
  simp [take, next?, hf, h, hl, take_finished]

theorem take_some (n : Nat) (hf : l.finished = false)
    (h : Lexeme.first? (Text.skipBlank l.rest) = some (x, rest)) :
    l.take (n + 1) =
      .ok (x.token l.position (l.behind x rest).position) :: (l.behind x rest).take n := by
  have hl : isLast (.ok (x.token l.position (l.behind x rest).position)) = false :=
    Lexeme.isEnd_token (Lexeme.proper_of_first? h) ..
  have hb : (l.behind x rest).finished = false := hf
  simp only [take, next?, hf, nextToken_of_some h, hl, Bool.false_eq_true, if_false, hb,
    Bool.or_false]
  rw [← hb]

theorem category_fault (start : Position) (l : Lexer) : (l.fault start).category = .lexical := by
  unfold fault Diagnostic.category
  split
  · simp [Cause.category]
  · split
    · simp [Cause.category]
    · rfl

theorem take_ends (n : Nat) (hf : l.finished = false) (hn : l.rest.length < n) :
    ∃ (ts : List Token) (last : Item), l.take n = ts.map .ok ++ [last] ∧
      (∀ t ∈ ts, t.isEnd = false) ∧ isLast last = true ∧
      ∀ d, last = .error d → d.category = .lexical := by
  induction n generalizing l with
  | zero => exact absurd hn (Nat.not_lt_zero _)
  | succ n ih =>
      by_cases hb : Text.skipBlank l.rest = []
      · refine ⟨[], _, take_last n hf (nextToken_of_blank hb) rfl, by simp, rfl, by simp⟩
      · cases hx : Lexeme.first? (Text.skipBlank l.rest) with
        | none =>
            refine ⟨[], _, take_last n hf (nextToken_of_none hb hx) rfl, by simp, rfl, ?_⟩
            rintro d ⟨⟩
            exact category_fault ..
        | some split =>
            obtain ⟨x, rest⟩ := split
            have hlt := length_behind_lt hx
            obtain ⟨ts, last, ht, hts, hl, hd⟩ := ih (l := l.behind x rest) hf (by omega)
            refine ⟨x.token l.position (l.behind x rest).position :: ts, last, ?_, ?_, hl, hd⟩
            · rw [take_some n hf hx, ht]
              rfl
            · exact List.forall_mem_cons.2 ⟨Lexeme.isEnd_token (Lexeme.proper_of_first? hx) .., hts⟩

end Lexer

theorem tokenize_ends (source : String) :
    ∃ (ts : List Token) (last : Item), tokenize source = ts.map .ok ++ [last] ∧
      (∀ t ∈ ts, t.isEnd = false) ∧ Lexer.isLast last = true ∧
      ∀ d, last = .error d → d.category = .lexical :=
  Lexer.take_ends _ rfl (Nat.lt_succ_self _)

theorem rest_ne_nil {source : String} {ts : List Token} {rest : List Item}
    (h : tokenize source = ts.map .ok ++ rest) (ht : ∀ t ∈ ts, t.isEnd = false) : rest ≠ [] := by
  rintro rfl
  obtain ⟨us, last, hu, -, hl, -⟩ := tokenize_ends source
  have hm : last ∈ ts.map .ok := by
    rw [← List.append_nil (ts.map _), ← h, hu]
    exact List.mem_append_right _ (List.mem_singleton_self _)
  obtain ⟨t, hts, rfl⟩ := List.mem_map.1 hm
  simp [Lexer.isLast, ht t hts] at hl

theorem category_of_error {source : String} {d : Diagnostic} (h : .error d ∈ tokenize source) :
    d.category = .lexical := by
  obtain ⟨us, last, hu, -, -, hd⟩ := tokenize_ends source
  rw [hu] at h
  rcases List.mem_append.1 h with hm | hm
  · obtain ⟨t, -, he⟩ := List.mem_map.1 hm
    cases he
  · exact hd d (List.mem_singleton.1 hm).symm

theorem eq_of_isEnd {source : String} {ts : List Token} {t : Token} {rest : List Item}
    (h : tokenize source = ts.map .ok ++ .ok t :: rest) (ht : t.isEnd = true) : rest = [] := by
  obtain ⟨us, last, hu, hus, -⟩ := tokenize_ends source
  rw [hu] at h
  clear hu
  induction us generalizing ts with
  | nil =>
      cases ts with
      | nil => exact (List.cons.inj h).2.symm
      | cons t' ts => simp at h
  | cons u us ih =>
      rw [List.forall_mem_cons] at hus
      cases ts with
      | nil =>
          obtain rfl : u = t := Except.ok.inj (List.cons.inj h).1
          simp [hus.1] at ht
      | cons t' ts => exact ih (List.cons.inj h).2 hus.2

end FindExpr

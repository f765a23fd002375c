import FindExpr.Proofs.Lexer.Layout
import FindExpr.Proofs.Query.Rejection
import FindExpr.Proofs.Recognizer.Erasure
import FindExpr.Query.Builder

namespace FindExpr

open Recognizer

/-- Lexemes that differ at most in how a keyword is spelled. -/
def Lexeme.Alike (x y : Lexeme) : Prop := x.kind = y.kind ∧ (x.kind = .literal → x = y)

/-- Sources that are read as the same query, or are rejected for the same cause at the same one of
their items. -/
inductive ReadAlike (limit : Nat) (source source' : String) : Prop
  | accepted {q : Query} (h : Query.parse limit source = .ok q)
      (h' : Query.parse limit source' = .ok q)
  | rejected {d d' : Diagnostic} {n : Nat} {t t' : Token}
      (h : Query.parse limit source = .error d) (h' : Query.parse limit source' = .error d')
      (ht : (tokenize source)[n]? = some (.ok t)) (ht' : (tokenize source')[n]? = some (.ok t'))
      (hs : d.start = t.start) (hs' : d'.start = t'.start) (hc : d.cause.erase = d'.cause.erase)

theorem Builder.blind_add : Blind Builder.add := by
  intro e b
  have hc (l : Literal) : (∃ n, count l.erase = .ok n ∧ count l = .ok n) ∨
      ∃ d d', count l.erase = .error d' ∧ count l = .error d ∧ d'.erase = d.erase := by
    have hu : l.erase.unescaped = l.unescaped := rfl
    unfold count
    rw [hu]
    split
    · exact .inl ⟨_, rfl, rfl⟩
    · exact .inr ⟨_, _, rfl, rfl, by simp [Literal.invalid, Diagnostic.erase, Literal.erase]⟩
  cases e with
  | limit l | offset l =>
      rcases hc l with ⟨n, h, h'⟩ | ⟨d, d', h, h', he⟩
      · simp [Event.erase, add, h, h']
      · simp [Event.erase, add, h, h', he]
  | _ => exact ⟨rfl, rfl⟩

theorem Token.erase_of_alike {t u : Token} (h : t.lexeme.Alike u.lexeme) : t.erase = u.erase := by
  obtain ⟨hk, hl⟩ := h
  simp only [lexeme] at hk hl
  by_cases ht : t.kind = .literal
  · obtain ⟨-, hv, hq⟩ := Lexeme.mk.inj (hl ht)
    rw [erase, erase, if_pos ht, if_pos (hk ▸ ht), String.toList_inj.1 hv, hq]
  · rw [erase, erase, if_neg ht, if_neg (hk ▸ ht), hk]

theorem readAlike_of_erase_eq (limit : Nat) {source source' : String} {ts ts' : List Token}
    {last last' : Token} (h : tokenize source = (ts ++ [last]).map .ok)
    (h' : tokenize source' = (ts' ++ [last']).map .ok) (hl : last.isEnd = true)
    (hl' : last'.isEnd = true)
    (he : (ts ++ [last]).map Token.erase = (ts' ++ [last']).map Token.erase) :
    ReadAlike limit source source' := by
  have hi : (tokenize source).map eraseItem = (tokenize source').map eraseItem := by
    have hm (us : List Token) : (us.map .ok).map eraseItem = (us.map Token.erase).map .ok := by
      rw [List.map_map, List.map_map]
      rfl
    rw [h, h', hm, hm, he]
  have ho : (run limit Builder.add (tokenize source) .empty).erase =
      (run limit Builder.add (tokenize source') .empty).erase :=
    runFrom_of_erase_eq Builder.blind_add rfl hi _ _ _
  have hs := congrArg Outcome.state ho
  have hr := congrArg Outcome.result ho
  have hu := congrArg (List.length ∘ Outcome.unread) ho
  simp only [Outcome.erase, Function.comp, List.length_map] at hs hr hu
  cases h₁ : (run limit Builder.add (tokenize source) .empty).result with
  | ok =>
      cases h₂ : (run limit Builder.add (tokenize source') .empty).result with
      | ok =>
          exact .accepted (by rw [Query.parse, Query.ofItems, h₁]; rfl)
            (by rw [Query.parse, Query.ofItems, h₂, hs]; rfl)
      | error d' => simp [h₁, h₂, eraseResult] at hr
  | error d =>
      cases h₂ : (run limit Builder.add (tokenize source') .empty).result with
      | ok => simp [h₁, h₂, eraseResult] at hr
      | error d' =>
          have hc : d.erase = d'.erase := by simpa [h₁, h₂, eraseResult] using hr
          have hn := congrArg List.length he
          rw [h] at h₁ hu
          rw [h'] at h₂ hu
          -- Both runs have left as many items unread, so they have ended at the same one.
          obtain ⟨before, t, after, hb, ht, ha⟩ := Builder.start_of_run hl ts .start h₁
          obtain ⟨before', t', after', hb', ht', ha'⟩ := Builder.start_of_run hl' ts' .start h₂
          rw [run, run, ha, ha', List.length_map, List.length_map] at hu
          rw [hb, hb'] at hn
          have hn : before.length = before'.length := by simpa [hu] using hn
          refine .rejected (n := before.length) ?_ ?_ ?_ ?_ ht ht' (congrArg Diagnostic.cause hc)
          · rw [Query.parse, Query.ofItems, h, h₁]
            rfl
          · rw [Query.parse, Query.ofItems, h', h₂]
            rfl
          · simp [h, hb]
          · simp [h', hb', hn]

theorem Token.erase_of_isEnd {t u : Token} (ht : t.isEnd = true) (hu : u.isEnd = true) :
    t.erase = u.erase := by
  have ht : t.kind = .endOfInput := eq_of_beq ht
  have hu : u.kind = .endOfInput := eq_of_beq hu
  simp [erase, ht, hu]

/-- The lexer reads the lexemes of a layout back, and then the end of the input. Layouts of lexemes
that differ at most in how keywords are spelled are read alike. -/
theorem layouts_read_alike :
    (∀ l : Layout, ∃ (ts : List Token) (last : Token), tokenize l.text = ts.map .ok ++ [.ok last] ∧
      last.isEnd = true ∧ ts.map Token.lexeme = l.lexemes) ∧
    ∀ (limit : Nat) (l l' : Layout), List.Forall₂ Lexeme.Alike l.lexemes l'.lexemes →
      ReadAlike limit l.text l'.text := by
  refine ⟨Layout.tokenize_text, fun limit l l' h => ?_⟩
  obtain ⟨ts, last, ht, hl, hx⟩ := l.tokenize_text
  obtain ⟨ts', last', ht', hl', hx'⟩ := l'.tokenize_text
  rw [← List.map_singleton, ← List.map_append] at ht ht'
  rw [← hx, ← hx', List.forall₂_map_left_iff, List.forall₂_map_right_iff] at h
  refine readAlike_of_erase_eq limit ht ht' hl hl' ?_
  have he : ts.map Token.erase = ts'.map Token.erase := by
    rw [← List.forall₂_eq_eq_eq, List.forall₂_map_left_iff, List.forall₂_map_right_iff]
    exact h.imp fun _ _ => Token.erase_of_alike
  rw [List.map_append, List.map_append, he, List.map_singleton, List.map_singleton,
    Token.erase_of_isEnd hl hl']

theorem layouts_read_alike_words : ∃ l l' : Layout,
    l.text = "WHERE a<=\"=\"ORDER BY by" ∧ l'.text = " where\u3000a <= \"=\"order\t\nBy by " ∧
      List.Forall₂ Lexeme.Alike l.lexemes l'.lexemes ∧ ReadAlike 0 l.text l'.text := by
  have ha : Lexeme.Printable ⟨.literal, ['a'], none⟩ := .bare (by decide) (by decide) (by decide)
  have hb : Lexeme.Printable ⟨.literal, ['b', 'y'], none⟩ :=
    .bare (by decide) (by decide) (by decide)
  have hq : Lexeme.Printable ⟨.literal, ['='], some .double⟩ := by
    have hu : ∀ u ∈ [['=']], QuoteStyle.double.BodyUnit u := by
      rintro u (_ | ⟨_, ⟨⟩⟩)
      exact .plain (by decide) (by decide)
    exact .quoted .double hu
  have hf (w : String) (hw : w.toList.map Char.toUpper = Keyword.filter.text.toList) :
      Lexeme.Printable ⟨.keyword .filter, w.toList, none⟩ := .keyword (by decide) hw
  have ho (o blanks b : List Char) (h : o.map Char.toUpper = "ORDER".toList ∧ blanks ≠ [] ∧
      blanks.all Text.isBlank = true ∧ b.map Char.toUpper = "BY".toList) :
      Lexeme.Printable ⟨.keyword .orderBy, o ++ blanks ++ b, none⟩ :=
    .orderBy h.1 h.2.1 h.2.2.1 h.2.2.2
  let l : Layout :=
    { lead := []
      pieces := [(⟨.keyword .filter, "WHERE".toList, none⟩, [' ']), (⟨.literal, ['a'], none⟩, []),
        (⟨.symbol .le, Symbol.le.text.toList, none⟩, []), (⟨.literal, ['='], some .double⟩, []),
        (⟨.keyword .orderBy, "ORDER".toList ++ [' '] ++ "BY".toList, none⟩, [' ']),
        (⟨.literal, ['b', 'y'], none⟩, [])]
      lead_blank := rfl
      printable := by
        simp only [List.forall_mem_cons]
        exact ⟨⟨hf "WHERE" rfl, rfl⟩, ⟨ha, rfl⟩, ⟨.sign .le, rfl⟩, ⟨hq, rfl⟩,
          ⟨ho _ _ _ (by decide), rfl⟩, ⟨hb, rfl⟩, by simp⟩
      separated := by decide }
  let l' : Layout :=
    { lead := [' ']
      pieces := [(⟨.keyword .filter, "where".toList, none⟩, ['\u3000']),
        (⟨.literal, ['a'], none⟩, [' ']), (⟨.symbol .le, Symbol.le.text.toList, none⟩, [' ']),
        (⟨.literal, ['='], some .double⟩, []),
        (⟨.keyword .orderBy, "order".toList ++ ['\t', '\n'] ++ "By".toList, none⟩, [' ']),
        (⟨.literal, ['b', 'y'], none⟩, [' '])]
      lead_blank := rfl
      printable := by
        simp only [List.forall_mem_cons]
        exact ⟨⟨hf "where" rfl, rfl⟩, ⟨ha, rfl⟩, ⟨.sign .le, rfl⟩, ⟨hq, rfl⟩,
          ⟨ho _ _ _ (by decide), rfl⟩, ⟨hb, rfl⟩, by simp⟩
      separated := by decide }
  have h : List.Forall₂ Lexeme.Alike l.lexemes l'.lexemes := by
    have hw {x y : Lexeme} (hk : x.kind = y.kind) (hl : x.kind ≠ .literal) : x.Alike y :=
      ⟨hk, fun h => absurd h hl⟩
    have hs (x : Lexeme) : x.Alike x := ⟨rfl, fun _ => rfl⟩
    exact .cons (hw rfl (by decide)) <| .cons (hs _) <| .cons (hs _) <| .cons (hs _) <|
      .cons (hw rfl (by decide)) <| .cons (hs _) .nil
  exact ⟨l, l', rfl, rfl, h, layouts_read_alike.2 0 l l' h⟩

end FindExpr

import FindExpr.Proofs.Lexer.MaximalMunch
import FindExpr.Proofs.Lexer.Spans

namespace FindExpr

variable {text text' rest rest' seen sep next : List Char} {x y y' : Lexeme} {ts : List Token}
  {t : Token} {more : List Item}

/-- Whether a lexeme is the other one, or quoted text in the place of it. -/
def Lexeme.Replaces (y' y : Lexeme) : Prop := y' = y ∨ y'.kind = .literal ∧ y'.quote ≠ none

def BeginsQuoted (text : List Char) : Prop :=
  ∃ y rest, Lexeme.first? text = some (y, rest) ∧ y.kind = .literal ∧ y.quote ≠ none

def InPlaceOf (text' text : List Char) : Prop :=
  ∃ y rest y' rest', Lexeme.first? text = some (y, rest) ∧
    Lexeme.first? text' = some (y', rest') ∧ y'.Replaces y

theorem Lexeme.Replaces.separated {p : Lexeme × List Char} {sep sep' : List Char}
    (hy : y'.Replaces y) (h : Separated p (y, sep)) : Separated p (y', sep') := by
  rcases hy with rfl | ⟨hk, hq⟩
  · exact h
  · refine ⟨?_, fun hb => hq hb.2.2.1⟩
    rintro (⟨-, hw⟩ | ⟨-, hs⟩)
    · obtain ⟨style, hq⟩ := Option.ne_none_iff_exists'.1 hq
      simp [Lexeme.isWord, hk, hq] at hw
    · cases hk.symm.trans hs

theorem Lexeme.EndsBefore.replace (h : x.EndsBefore (sep ++ text))
    (hs : sep.all Text.isBlank = true) (ht : InPlaceOf text' text) :
    x.EndsBefore (sep ++ text') := by
  obtain ⟨y, rest, y', rest', hf, hf', hy⟩ := ht
  have hp : Separated (x, sep) (y, []) := separated_of_endsBefore hs hf h
  have hp' : Separated (x, sep) (y', []) := hy.separated hp
  exact endsBefore_of_separated hs (readable_of_first? hf').1 hf' hp'

namespace MaximalMunch

theorem items_of_first? (h : Lexeme.first? (Text.skipBlank rest) = some (x, next))
    (seen : List Char) :
    let seen' := seen ++ Text.leadingBlank rest ++ x.written ++ Text.leadingBlank next
    items seen rest =
      .ok (x.token (.behind seen) (.behind seen')) :: items seen' (Text.skipBlank next) := by
  rw [items]
  split
  · next hr =>
      rw [hr] at h
      cases h
  · next c text hr =>
      have hc := first?_eq (Text.isBlank_of_skipBlank hr) text
      rw [← hr, h] at hc
      split
      · next hx => cases hc.symm.trans hx
      · next x' next' hx =>
          obtain ⟨rfl, rfl⟩ := Prod.mk.inj (Option.some.inj (hc.symm.trans hx))
          rfl

theorem items_append {lead sep : List Char} (hl : lead.all Text.isBlank = true)
    (hs : sep.all Text.isBlank = true) (ht : Text.skipBlank text = text)
    (hx : Lexeme.first? (x.written ++ (sep ++ text)) = some (x, sep ++ text)) (seen : List Char) :
    let seen' := seen ++ lead ++ x.written ++ sep
    items seen (lead ++ (x.written ++ (sep ++ text))) =
      .ok (x.token (.behind seen) (.behind seen')) :: items seen' text := by
  have hk := Lexeme.skipBlank_of_first? hx
  rw [← hk, ← Text.skipBlank_append hl] at hx
  have hi := items_of_first? hx seen
  rwa [Text.leadingBlank_append hl hk, Text.leadingBlank_append hs ht, Text.skipBlank_append hs,
    ht] at hi

theorem exists_first?_of_items (h : items seen rest = .ok t :: more) (ht : t.isEnd = false) :
    ∃ x next, Lexeme.first? (Text.skipBlank rest) = some (x, next) ∧
      let seen' := seen ++ Text.leadingBlank rest ++ x.written ++ Text.leadingBlank next
      t = x.token (.behind seen) (.behind seen') ∧ more = items seen' (Text.skipBlank next) := by
  cases hx : Lexeme.first? (Text.skipBlank rest) with
  | some split =>
      rw [items_of_first? hx] at h
      obtain ⟨ht, hm⟩ := List.cons.inj h
      exact ⟨split.1, split.2, rfl, (Except.ok.inj ht).symm, hm.symm⟩
  | none =>
      rw [items] at h
      split at h
      · obtain rfl := Except.ok.inj (List.cons.inj h).1
        cases ht
      · next c text hr =>
          have hc := first?_eq (Text.isBlank_of_skipBlank hr) text
          rw [← hr, hx] at hc
          split at h
          · cases (List.cons.inj h).1
          · next hx' => cases hc.symm.trans hx'

/-- The tokens before a token are read in the same way if quoted text takes the place of that token
and of all behind it. -/
theorem exists_items_append (h : items seen rest = ts.map .ok ++ .ok t :: more)
    (hts : ∀ u ∈ ts, u.isEnd = false) (ht : t.isEnd = false) :
    ∃ mid tail, rest = mid ++ tail ∧ items (seen ++ mid) tail = .ok t :: more ∧
      (ts ≠ [] ∨ Text.skipBlank rest = rest → Text.skipBlank tail = tail) ∧
      ∀ tail', BeginsQuoted tail' →
        items seen (mid ++ tail') = ts.map .ok ++ items (seen ++ mid) tail' ∧
          (Text.skipBlank rest = rest → InPlaceOf (mid ++ tail') rest) := by
  -- What a token ends before is the next token, so the induction also says with what the text
  -- begins once the tail is another one.
  induction ts generalizing seen rest with
  | nil =>
      refine ⟨[], rest, rfl, by simpa using h, fun hb => hb.resolve_left (· rfl),
        fun tail' hq => ⟨by simp, fun hb => ?_⟩⟩
      obtain ⟨y, next, hy, -⟩ := exists_first?_of_items h ht
      obtain ⟨y', next', hy', hq⟩ := hq
      rw [hb] at hy
      exact ⟨y, next, y', next', hy, hy', .inr hq⟩
  | cons u ts ih =>
      obtain ⟨hu, hts⟩ := List.forall_mem_cons.1 hts
      obtain ⟨x, next, hx, hut, hm⟩ := exists_first?_of_items h hu
      obtain ⟨mid, tail, hr, hi, hb, hq⟩ := ih hm.symm hts
      have hw := Lexeme.eq_append_of_first? hx
      refine ⟨Text.leadingBlank rest ++ x.written ++ Text.leadingBlank next ++ mid, tail, ?_, ?_,
        fun _ => hb (.inr (Text.skipBlank_skipBlank next)), fun tail' hq' => ?_⟩
      · rw [List.append_assoc, ← hr, List.append_assoc, Text.leadingBlank_append_skipBlank,
          List.append_assoc, ← hw, Text.leadingBlank_append_skipBlank]
      · simpa only [List.append_assoc] using hi
      · obtain ⟨hn, hf⟩ := hq tail' hq'
        have hz := hf (Text.skipBlank_skipBlank next)
        have hl := Text.all_leadingBlank next
        obtain ⟨hp, he⟩ := Lexeme.readable_of_first? hx
        rw [← Text.leadingBlank_append_skipBlank next] at he
        have hx' := hp.first?_append (he.replace hl hz)
        simp only [List.append_assoc]
        constructor
        · obtain ⟨_, _, _, _, -, hz, -⟩ := hz
          have hi := items_append (Text.all_leadingBlank rest) hl
            (Lexeme.skipBlank_of_first? hz) hx' seen
          simp only [List.append_assoc] at hi hn hut
          rw [hi, hn, hut]
          rfl
        · intro hr
          rw [hr] at hx
          rw [Text.leadingBlank_of_skipBlank hr, List.nil_append]
          exact ⟨x, next, x, _, hx, hx', .inl rfl⟩

end MaximalMunch

theorem QuoteStyle.first?_enclose_plain {style : QuoteStyle} {w : List Char}
    (hw : ∀ c ∈ w, style.BodyUnit [c]) (rest : List Char) :
    Lexeme.first? (style.enclose w ++ rest) = some (⟨.literal, w, some style⟩, rest) := by
  have hu : ∀ u ∈ w.map fun c => [c], style.BodyUnit u := List.forall_mem_map.2 hw
  have hx := Lexeme.first?_enclose hu rest
  rwa [← List.flatMap_def, List.flatMap_singleton'] at hx

/-- A keyword behind other tokens may be put into quotes. Then it is a literal, at the same place
and behind the same tokens. -/
theorem tokenize_enclose {source : String} (h : tokenize source = ts.map .ok ++ .ok t :: more)
    (hn : ts ≠ []) (hts : ∀ u ∈ ts, u.isEnd = false) {k : Keyword} (hk : t.kind = .keyword k)
    (style : QuoteStyle) :
    ∃ front back, source.toList = front ++ t.value.toList ++ back ∧ t.start = .behind front ∧
      ∃ t' more', t'.kind = .literal ∧ t'.start = t.start ∧
        tokenize (String.ofList (front ++ style.enclose t.value.toList ++ back)) =
          ts.map .ok ++ .ok t' :: more' := by
  have ht : t.isEnd = false := by simp [Token.isEnd, hk]
  rw [tokenize_eq_items] at h
  obtain ⟨front, tail, hs, hi, hb, hq⟩ := MaximalMunch.exists_items_append h hts ht
  obtain ⟨x, next, hx, htx, -⟩ := MaximalMunch.exists_first?_of_items hi ht
  rw [hb (.inl hn)] at hx
  obtain ⟨rfl, hp, -⟩ := Lexeme.first?_eq_some_iff.1 hx
  obtain ⟨hxq, hw⟩ := hp.plain_of_keyword ((congrArg Token.kind htx).symm.trans hk) style
  have hv : t.value.toList = x.value := by
    rw [htx]
    exact String.toList_ofList
  have hx' := QuoteStyle.first?_enclose_plain hw next
  have hi' := (hq _ ⟨_, _, hx', rfl, by simp⟩).1
  rw [← Lexeme.skipBlank_of_first? hx'] at hx'
  rw [MaximalMunch.items_of_first? hx', ← List.append_assoc] at hi'
  refine ⟨front, next, ?_, congrArg Token.start htx, ?_⟩
  · rw [hv, hs, Lexeme.written, hxq, List.append_assoc]
  · rw [hv, htx, tokenize_eq_items, String.toList_ofList, hi']
    refine ⟨_, _, ?_, ?_, rfl⟩ <;> rfl

end FindExpr

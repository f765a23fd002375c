import FindExpr.Proofs.Lexer.Layout

namespace FindExpr

theorem QuoteStyle.exists_units {style : QuoteStyle} {text body tail : List Char}
    (h : style.body? text = some (body, tail)) :
    ∃ us : List (List Char), body = us.flatten ∧ ∀ u ∈ us, style.BodyUnit u := by
  fun_induction body? style text generalizing body tail with
  | case1 | case3 => cases h
  | case2 | case4 =>
      cases h
      exact ⟨[], rfl, by simp⟩
  | case5 d rest _ ih =>
      obtain ⟨⟨body', tail'⟩, hb, he⟩ := Option.map_eq_some_iff.1 h
      obtain ⟨us, rfl, hu⟩ := ih hb
      obtain ⟨rfl, -⟩ := Prod.mk.inj he
      exact ⟨['\\', d] :: us, rfl, List.forall_mem_cons.2 ⟨.escaped d, hu⟩⟩
  | case6 c d rest hm hb ih =>
      obtain ⟨⟨body', tail'⟩, hb', he⟩ := Option.map_eq_some_iff.1 h
      obtain ⟨us, rfl, hu⟩ := ih hb'
      obtain ⟨rfl, -⟩ := Prod.mk.inj he
      exact ⟨[c] :: us, rfl, List.forall_mem_cons.2 ⟨.plain hm hb, hu⟩⟩

namespace Lexeme

variable {x : Lexeme} {text rest w : List Char} {s : Symbol} {k : Keyword}

theorem readable_of_quoted? {style : QuoteStyle} (h : quoted? style text = some (x, rest)) :
    x.Printable ∧ x.EndsBefore rest := by
  obtain ⟨⟨body, rest'⟩, hq, he⟩ := Option.map_eq_some_iff.1 h
  obtain ⟨rfl, -⟩ := Prod.mk.inj he
  cases text with
  | nil => cases hq
  | cons c text =>
      rw [QuoteStyle.quoted?] at hq
      split at hq
      · obtain ⟨us, rfl, hu⟩ := QuoteStyle.exists_units hq
        have hn : ¬ (⟨.literal, us.flatten, some style⟩ : Lexeme).BareText "ORDER" :=
          fun h => absurd h.2.1 (by simp)
        exact ⟨.quoted style hu, ⟨by simp [isWord], by simp, fun h => absurd h hn⟩⟩
      · cases hq

/-- In front of a rest on which a word ends, `BY` is looked for only behind blanks. -/
theorem wholeWord?_of_orderBy? (hw : w.all isBare = true) (hr : wordEnds rest = true)
    (h : orderBy? (w ++ rest) = none) (ho : w.map Char.toUpper = "ORDER".toList) :
    wholeWord? "BY".toList (Text.skipBlank rest) = none := by
  rw [orderBy?_append hw hr] at h
  split at h
  · exact Option.map_eq_none_iff.1 h
  · next hn =>
      have hb : Text.leadingBlank rest = [] := by
        by_contra hb
        exact hn ⟨ho, hb⟩
      have hs := Text.leadingBlank_append_skipBlank rest
      rw [hb, List.nil_append] at hs
      have ht : rest.takeWhile isBare = [] := takeWhile_isBare (w := []) rfl hr
      rw [hs, wholeWord?_eq (by decide), ht]
      rfl

theorem readable_of_word (hn : w ≠ []) (hw : w.all isBare = true) (hr : wordEnds rest = true)
    {rest' : List Char} (h : first? (w ++ rest) = some (x, rest')) :
    x.Printable ∧ x.EndsBefore rest' := by
  rw [first?_word hn hw hr] at h
  cases ho : orderBy? (w ++ rest) with
  | some split =>
      obtain rfl : split = (x, rest') := by simpa [ho] using h
      rw [orderBy?_append hw hr] at ho
      split at ho
      · next hb =>
          obtain ⟨⟨b, rest''⟩, hs, he⟩ := Option.map_eq_some_iff.1 ho
          obtain ⟨rfl, rfl⟩ := Prod.mk.inj he
          obtain ⟨hs, he⟩ := Option.filter_eq_some_iff.1 hs
          obtain ⟨-, hu⟩ := Text.splitFolded?_eq_some_iff.1 hs
          exact ⟨.orderBy hb.1 hb.2 (Text.all_leadingBlank rest) hu,
            ⟨fun _ => he, nofun, fun h => nomatch h.1⟩⟩
      · cases ho
  | none =>
      obtain ⟨rfl, rfl⟩ : word w = x ∧ rest = rest' := by simpa [ho] using h
      have he : (word w).EndsBefore rest :=
        ⟨fun _ => hr, fun h => by
          unfold word classify at h
          split at h <;> simp at h, fun h => wholeWord?_of_orderBy? hw hr ho h.2.2⟩
      refine ⟨?_, he⟩
      unfold word classify
      split
      · next k hk =>
          have hs : spells w k = true := List.find?_some hk
          exact .keyword (List.mem_of_find?_eq_some hk) (eq_of_beq hs)
      · next hk =>
          refine .bare hn hw fun k hm hs => ?_
          exact List.find?_eq_none.1 hk k hm (beq_iff_eq.2 hs)

theorem readable_of_sign (hs : s = .lt ∨ s = .gt → text.head? ≠ some '=')
    (h : first? (s.text.toList ++ text) = some (x, rest)) : x.Printable ∧ x.EndsBefore rest := by
  rw [first?_sign s hs] at h
  cases h
  exact ⟨.sign s, ⟨nofun, by simpa using hs, fun h => nomatch h.1⟩⟩

theorem readable_of_first? (h : first? text = some (x, rest)) :
    x.Printable ∧ x.EndsBefore rest := by
  obtain ⟨c, w, hw, hb⟩ := (proper_of_first? h).begins
  have ht := eq_append_of_first? h
  rw [hw, List.cons_append] at ht
  generalize w ++ rest = tail at ht
  subst ht
  by_cases hc : isBare c = true
  · have hr : (c :: tail).takeWhile isBare ≠ [] := by simp [hc]
    rw [← List.takeWhile_append_dropWhile (p := isBare) (l := c :: tail)] at h
    exact readable_of_word hr List.all_takeWhile (wordEnds_dropWhile _) h
  · have hd : c ∈ delimiters := by simpa [isBare, hb] using hc
    have hq (style : QuoteStyle) (h : first? (style.mark :: tail) = some (x, rest)) :=
      readable_of_quoted? ((first?_mark style tail).symm.trans h)
    simp only [delimiters, List.mem_cons, List.not_mem_nil, or_false] at hd
    rcases hd with rfl | rfl | rfl | rfl | rfl | rfl | rfl | rfl
    · exact readable_of_sign (s := .leftParen) (by simp) h
    · exact readable_of_sign (s := .rightParen) (by simp) h
    · exact readable_of_sign (s := .eq) (by simp) h
    · by_cases he : tail.head? = some '='
      · obtain ⟨tail, rfl⟩ := List.head?_eq_some_iff.1 he
        exact readable_of_sign (s := .le) (by simp) h
      · exact readable_of_sign (s := .lt) (fun _ => he) h
    · by_cases he : tail.head? = some '='
      · obtain ⟨tail, rfl⟩ := List.head?_eq_some_iff.1 he
        exact readable_of_sign (s := .ge) (by simp) h
      · exact readable_of_sign (s := .gt) (fun _ => he) h
    · exact readable_of_sign (s := .comma) (by simp) h
    · exact hq .double h
    · exact hq .single h

theorem first?_eq_some_iff :
    first? text = some (x, rest) ↔ text = x.written ++ rest ∧ x.Printable ∧ x.EndsBefore rest := by
  constructor
  · intro h
    exact ⟨eq_append_of_first? h, readable_of_first? h⟩
  · rintro ⟨rfl, hx, he⟩
    exact hx.first?_append he

theorem Printable.written_symbol (h : x.Printable) (hs : x.kind = .symbol s) :
    x.written = s.text.toList := by
  cases h with
  | sign s' =>
      obtain rfl : s' = s := TokenKind.symbol.inj hs
      rfl
  | _ => cases hs

theorem wholeWord?_of_bareText (h : first? text = some (x, rest)) (hx : x.BareText "BY") :
    wholeWord? "BY".toList text = some (x.value, rest) := by
  obtain ⟨hk, hq, hu⟩ := hx
  obtain ⟨ht, -, he⟩ := first?_eq_some_iff.1 h
  have hr : wordEnds rest = true := he.word (by simp [isWord, hk, hq])
  have hw := (bare_of_spelled (by decide) (by decide) hu).2
  rw [ht, written, hq, wholeWord?_append (by decide) hw hr, if_pos hu]

theorem separated_of_endsBefore {y : Lexeme} {sep sep' : List Char}
    (hs : sep.all Text.isBlank = true) (hf : first? text = some (y, rest))
    (h : x.EndsBefore (sep ++ text)) : Separated (x, sep) (y, sep') := by
  obtain ⟨ht, hy, -⟩ := first?_eq_some_iff.1 hf
  obtain ⟨c, cs, hw, hc, -⟩ := hy.isBare_head
  constructor
  · rintro (⟨hx, hy'⟩ | ⟨hx, hk⟩) rfl
    · have hr := h.word hx
      simp [wordEnds, ht, hw, hc, hy'] at hr
    · refine h.sign hx ?_
      rw [List.nil_append, ht, hy.written_symbol hk]
      rfl
  · rintro ⟨hx, hy'⟩
    have ho := h.order hx
    rw [Text.skipBlank_append hs, skipBlank_of_first? hf, wholeWord?_of_bareText hf hy'] at ho
    cases ho

theorem Printable.proper (h : x.Printable) : x.Proper := by
  have he : x.EndsBefore [] := ⟨fun _ => rfl, fun _ => nofun, fun _ => rfl⟩
  exact proper_of_first? (first?_eq_some_iff.2 ⟨(List.append_nil _).symm, h, he⟩)

theorem exists_snoc_of_bare (hn : w ≠ []) (hw : w.all isBare = true) :
    ∃ v c, w = v ++ [c] ∧ Text.isBlank c = false :=
  ⟨w.dropLast, w.getLast hn, (List.dropLast_append_getLast hn).symm,
    isBlank_of_isBare (List.all_eq_true.1 hw _ (List.getLast_mem hn))⟩

theorem Printable.exists_snoc (h : x.Printable) :
    ∃ v c, x.written = v ++ [c] ∧ Text.isBlank c = false := by
  cases h with
  | sign s => cases s <;> exact ⟨_, _, (List.dropLast_append_getLast (by decide)).symm, by decide⟩
  | keyword hk hs =>
      obtain ⟨hn, ha⟩ := bare_of_keyword hk hs
      exact exists_snoc_of_bare hn ha
  | @orderBy o blanks b _ _ _ hb =>
      obtain ⟨hn, ha⟩ := bare_of_spelled (by decide) (by decide) hb
      obtain ⟨v, c, rfl, hc⟩ := exists_snoc_of_bare hn ha
      exact ⟨o ++ blanks ++ v, c, by simp [written], hc⟩
  | bare hn ha _ => exact exists_snoc_of_bare hn ha
  | quoted style _ => exact ⟨_, style.mark, rfl, by cases style <;> decide⟩

theorem Printable.quote_or_orderBy (h : x.Printable) (hn : '\n' ∈ x.written) :
    x.quote ≠ none ∨ x.kind = .keyword .orderBy := by
  have hb {w : List Char} (hw : w.all isBare = true) : '\n' ∉ w := fun hm =>
    absurd (List.all_eq_true.1 hw _ hm) (by decide)
  cases h with
  | sign s => cases s <;> exact absurd hn (by decide)
  | keyword hk hw => exact absurd hn (hb (bare_of_keyword hk hw).2)
  | orderBy => exact .inr rfl
  | bare _ hw => exact absurd hn (hb hw)
  | quoted => exact .inl nofun

theorem plain_of_isAlphanum {style : QuoteStyle} {c : Char} (h : c.isAlphanum = true) :
    style.BodyUnit [c] := by
  refine .plain ?_ ?_
  · rintro rfl
    cases style <;> exact absurd h (by decide)
  · rintro rfl
    exact absurd h (by decide)

theorem plain_of_isBlank {style : QuoteStyle} {c : Char} (h : Text.isBlank c = true) :
    style.BodyUnit [c] := by
  refine .plain ?_ ?_
  · rintro rfl
    cases style <;> exact absurd h (by decide)
  · rintro rfl
    exact absurd h (by decide)

theorem Printable.plain_of_keyword (h : x.Printable) (hk : x.kind = .keyword k)
    (style : QuoteStyle) : x.quote = none ∧ ∀ c ∈ x.value, style.BodyUnit [c] := by
  have hs {w capitals : List Char} (hu : capitals.all Char.isUpper = true)
      (hw : w.map Char.toUpper = capitals) : ∀ c ∈ w, style.BodyUnit [c] := by
    intro c hc
    have hm : c.toUpper ∈ capitals := hw ▸ List.mem_map_of_mem hc
    exact plain_of_isAlphanum
      (Text.isAlphanum_of_isUpper_toUpper (List.all_eq_true.1 hu _ hm))
  cases h with
  | keyword hm hw =>
      have hu : ∀ k ∈ keywords, k.text.toList.all Char.isUpper = true := by decide
      exact ⟨rfl, hs (hu _ hm) hw⟩
  | orderBy ho _ hb hb' =>
      refine ⟨rfl, fun c hc => ?_⟩
      rcases List.mem_append.1 hc with hc | hc
      · rcases List.mem_append.1 hc with hc | hc
        · exact hs (by decide) ho c hc
        · exact plain_of_isBlank (List.all_eq_true.1 hb c hc)
      · exact hs (by decide) hb' c hc
  | _ => cases hk

end Lexeme

end FindExpr

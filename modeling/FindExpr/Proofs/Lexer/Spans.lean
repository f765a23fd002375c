import FindExpr.Proofs.Lexer.MaximalMunch
import FindExpr.Proofs.Lexer.Order
import FindExpr.Proofs.Lexer.Readable

namespace FindExpr

variable {source before lead trail after stop rest : List Char} {t : Token} {us vs ts : List Token}
  {text : String} {rest' : List Item}

theorem Tiles.exists_liesIn (h : Tiles source before ts stop) (ht : ts = us ++ t :: vs) :
    ∃ mid lead trail after, t.LiesIn source mid lead trail after ∧
      (us ≠ [] ∨ before ≠ [] → lead = []) := by
  induction h generalizing us with
  | done => simp at ht
  | @next before lead trail after u ts stop hu hl _ ih =>
      cases us with
      | nil =>
          obtain ⟨rfl, rfl⟩ := List.cons.inj ht
          exact ⟨before, lead, trail, after, hu, fun hn => hl (hn.resolve_left (· rfl))⟩
      | cons u' us =>
          obtain ⟨rfl, rfl⟩ := List.cons.inj ht
          obtain ⟨mid, lead', trail', after', hm, hb⟩ := ih rfl
          exact ⟨mid, lead', trail', after', hm, fun _ => hb (.inr (by simp [hu.written_ne]))⟩

theorem Tiles.not_blank (h : Tiles source before ts stop) (hn : ts ≠ [])
    (hs : source = stop ++ rest) : ∀ c, rest.head? = some c → Text.isBlank c = false := by
  induction h with
  | done => exact absurd rfl hn
  | @next before lead trail after u ts stop hu _ h' ih =>
      cases ts with
      | nil =>
          cases h'
          obtain rfl := List.append_cancel_left (hu.source_eq.symm.trans hs)
          exact hu.not_blank
      | cons u' ts => exact ih (List.cons_ne_nil _ _) hs

theorem exists_liesIn (h : tokenize text = us.map .ok ++ .ok t :: rest') (ht : t.isEnd = false) :
    ∃ before lead trail after, t.LiesIn text.toList before lead trail after ∧
      (us ≠ [] → lead = []) := by
  obtain ⟨ts, last, stop, hi, hs, he⟩ := exists_tiles text
  obtain ⟨vs, hv⟩ : ∃ vs, ts = us ++ t :: vs := by
    rcases List.eq_nil_or_concat rest' with rfl | ⟨rest', last', rfl⟩
    · obtain ⟨-, hl⟩ := List.append_inj' (hi.symm.trans h) rfl
      obtain rfl := (List.cons.inj hl).1
      simp [Item.EndsAt, ht] at he
    · rw [List.concat_eq_append, ← List.cons_append, ← List.append_assoc] at h
      obtain ⟨hl, -⟩ := List.append_inj' (hi.symm.trans h) rfl
      obtain ⟨us', vs', rfl, hu, hv⟩ := List.map_eq_append_iff.1 hl
      obtain ⟨t', vs, rfl, ht', -⟩ := List.map_eq_cons_iff.1 hv
      obtain rfl := (List.map_inj_right fun _ _ => Except.ok.inj).1 hu
      obtain rfl : t' = t := Except.ok.inj ht'
      exact ⟨vs, rfl⟩
  obtain ⟨mid, lead, trail, after, hl, hb⟩ := hs.exists_liesIn hv
  exact ⟨mid, lead, trail, after, hl, fun hn => hb (.inl hn)⟩

theorem exists_before (h : .ok t ∈ tokenize text) (ht : t.isEnd = false) :
    ∃ (us : List Token) (rest' : List Item), tokenize text = us.map .ok ++ .ok t :: rest' := by
  obtain ⟨ts, last, stop, hi, -, he⟩ := exists_tiles text
  rw [hi, List.mem_append, List.mem_singleton] at h
  rcases h with h | rfl
  · obtain ⟨u, hu, hut⟩ := List.mem_map.1 h
    obtain rfl : u = t := Except.ok.inj hut
    obtain ⟨us, vs, rfl⟩ := List.append_of_mem hu
    exact ⟨us, vs.map .ok ++ [last], by simp [hi]⟩
  · simp [Item.EndsAt, ht] at he

theorem eq_behind_of_isEnd (h : tokenize text = us.map .ok ++ .ok t :: rest')
    (ht : t.isEnd = true) (hn : us ≠ []) :
    t.start = .behind text.toList ∧ t.stop = .behind text.toList := by
  obtain ⟨ts, last, stop, hi, hs, he⟩ := exists_tiles text
  obtain rfl := eq_of_isEnd h ht
  obtain ⟨hu, hl⟩ := List.append_inj' (hi.symm.trans h) rfl
  obtain rfl := (List.map_inj_right fun _ _ => Except.ok.inj).1 hu
  obtain rfl := (List.cons.inj hl).1
  obtain ⟨-, hstart, hstop, blanks, hb, ha⟩ := he
  have hc := hs.not_blank hn hb
  cases blanks with
  | nil =>
      rw [List.append_nil] at hb
      exact ⟨hb ▸ hstart, hstop⟩
  | cons c blanks =>
      rw [List.all_cons, hc c rfl] at ha
      cases ha

theorem MaximalMunch.printable_of_mem {seen rest : List Char} (h : .ok t ∈ items seen rest)
    (ht : t.isEnd = false) : t.lexeme.Printable := by
  fun_induction items seen rest with
  | case1 =>
      obtain rfl := Except.ok.inj (List.mem_singleton.1 h)
      cases ht
  | case2 => cases List.mem_singleton.1 h
  | case3 seen rest blanks c text hr x next hx hlt seen' ih =>
      rcases List.mem_cons.1 h with h | h
      · obtain rfl := Except.ok.inj h
        rw [first?_eq (Text.isBlank_of_skipBlank hr)] at hx
        have hp := (Lexeme.readable_of_first? hx).1
        rwa [← Lexeme.lexeme_token x (.behind seen) (.behind seen')] at hp
      · exact ih h

theorem tokenize_eq_items (source : String) :
    tokenize source = MaximalMunch.items [] source.toList :=
  Lexer.take_eq_items rfl rfl (Nat.lt_succ_self _)

theorem printable_of_mem (h : .ok t ∈ tokenize text) (ht : t.isEnd = false) :
    t.lexeme.Printable :=
  MaximalMunch.printable_of_mem (tokenize_eq_items text ▸ h) ht

theorem Token.written_lexeme (t : Token) : t.lexeme.written = t.written.toList := by
  obtain ⟨kind, value, _ | style, start, stop⟩ := t
  · rfl
  · exact String.toList_ofList.symm

end FindExpr

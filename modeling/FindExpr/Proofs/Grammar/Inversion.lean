import FindExpr.Proofs.Grammar.Events

namespace FindExpr.Grammar.Derivation

open Phrase

theorem exists_token_seq {k : TokenKind} {p : Phrase} (d : Derivation (.seq (.token k) p)) :
    ∃ t h e, d = .seq (.token t h) e := by
  obtain ⟨t, e, rfl⟩ := d.exists_seq
  obtain ⟨t, h, rfl⟩ := t.exists_token
  exact ⟨t, h, e, rfl⟩

theorem exists_query (d : Derivation (.rule .query)) :
    ∃ s f o l x, d = .rule (.seq s (.seq f (.seq o (.seq l x)))) := by
  obtain ⟨d, rfl⟩ := d.exists_rule
  obtain ⟨s, d, rfl⟩ := d.exists_seq
  obtain ⟨f, d, rfl⟩ := d.exists_seq
  obtain ⟨o, d, rfl⟩ := d.exists_seq
  obtain ⟨l, x, rfl⟩ := d.exists_seq
  exact ⟨s, f, o, l, x, rfl⟩

theorem exists_select (d : Derivation (.rule .select)) :
    ∃ w hw f hf e, d = .rule (.seq (.token w hw) (.seq (.token f hf) e)) := by
  obtain ⟨d, rfl⟩ := d.exists_rule
  obtain ⟨w, hw, d, rfl⟩ := d.exists_token_seq
  obtain ⟨f, hf, e, rfl⟩ := d.exists_token_seq
  exact ⟨w, hw, f, hf, e, rfl⟩

theorem exists_filter (d : Derivation (.rule .filter)) :
    ∃ w hw o c, d = .rule (.seq (.token w hw) (.seq o c)) := by
  obtain ⟨d, rfl⟩ := d.exists_rule
  obtain ⟨w, hw, d, rfl⟩ := d.exists_token_seq
  obtain ⟨o, c, rfl⟩ := d.exists_seq
  exact ⟨w, hw, o, c, rfl⟩

theorem group_or_comparison (d : Derivation (body .term)) :
    (∃ l hl c r hr, d = .left (.seq (.token l hl) (.seq c (.token r hr)))) ∨
      ∃ f hf c v hv, d = .right (.seq (.token f hf) (.seq c (.token v hv))) := by
  rcases d.left_or_right with ⟨d, rfl⟩ | ⟨d, rfl⟩
  · obtain ⟨l, hl, d, rfl⟩ := d.exists_token_seq
    obtain ⟨c, r, rfl⟩ := d.exists_seq
    obtain ⟨r, hr, rfl⟩ := r.exists_token
    exact .inl ⟨l, hl, c, r, hr, rfl⟩
  · obtain ⟨f, hf, d, rfl⟩ := d.exists_token_seq
    obtain ⟨c, v, rfl⟩ := d.exists_seq
    obtain ⟨v, hv, rfl⟩ := v.exists_token
    exact .inr ⟨f, hf, c, v, hv, rfl⟩

theorem exists_orderBy (d : Derivation (.rule .orderBy)) :
    ∃ w hw k e, d = .rule (.seq (.token w hw) (.seq k e)) := by
  obtain ⟨d, rfl⟩ := d.exists_rule
  obtain ⟨w, hw, d, rfl⟩ := d.exists_token_seq
  obtain ⟨k, e, rfl⟩ := d.exists_seq
  exact ⟨w, hw, k, e, rfl⟩

theorem exists_limit (d : Derivation (.rule .limit)) :
    ∃ w hw l hl, d = .rule (.seq (.token w hw) (.token l hl)) := by
  obtain ⟨d, rfl⟩ := d.exists_rule
  obtain ⟨w, hw, l, rfl⟩ := d.exists_token_seq
  obtain ⟨l, hl, rfl⟩ := l.exists_token
  exact ⟨w, hw, l, hl, rfl⟩

theorem exists_offset (d : Derivation (.rule .offset)) :
    ∃ w hw l hl, d = .rule (.seq (.token w hw) (.token l hl)) := by
  obtain ⟨d, rfl⟩ := d.exists_rule
  obtain ⟨w, hw, l, rfl⟩ := d.exists_token_seq
  obtain ⟨l, hl, rfl⟩ := l.exists_token
  exact ⟨w, hw, l, hl, rfl⟩

theorem exists_alternative (d : Derivation (alt (word .or) (word .omits))) :
    ∃ s : Token ⊕ Token, d.tokens = [(alternativeOf s).2] ∧
      (alternativeOf s).2.kind.alternative? = some (alternativeOf s).1 ∧
      ∀ {Sem : Nonterminal → Type} (act : ∀ n, Meaning Sem (body n) → Sem n), d.fold act = s := by
  rcases d.left_or_right with ⟨d, rfl⟩ | ⟨d, rfl⟩
  · obtain ⟨t, h, rfl⟩ := d.exists_token
    exact ⟨.inl t, rfl, congrArg TokenKind.alternative? h, fun _ => rfl⟩
  · obtain ⟨t, h, rfl⟩ := d.exists_token
    exact ⟨.inr t, rfl, congrArg TokenKind.alternative? h, fun _ => rfl⟩

theorem exists_direction (d : Derivation (alt (word .asc) (word .desc))) :
    ∃ t, ∃ s : Token ⊕ Token, d.tokens = [t] ∧ t.kind.direction? = some (directionOf s) ∧
      ∀ {Sem : Nonterminal → Type} (act : ∀ n, Meaning Sem (body n) → Sem n), d.fold act = s := by
  rcases d.left_or_right with ⟨d, rfl⟩ | ⟨d, rfl⟩
  · obtain ⟨t, h, rfl⟩ := d.exists_token
    exact ⟨t, .inl t, rfl, congrArg TokenKind.direction? h, fun _ => rfl⟩
  · obtain ⟨t, h, rfl⟩ := d.exists_token
    exact ⟨t, .inr t, rfl, congrArg TokenKind.direction? h, fun _ => rfl⟩

theorem exists_comparator (d : Derivation (.rule .comparator)) :
    ∃ t, ∃ s : Token ⊕ Token ⊕ Token ⊕ Token ⊕ Token ⊕ Token, d.tokens = [t] ∧
      t.kind.comparator? = some (comparatorOf s) ∧
      ∀ {Sem : Nonterminal → Type} (act : ∀ n, Meaning Sem (body n) → Sem n),
        d.fold act = act .comparator s := by
  obtain ⟨d, rfl⟩ := d.exists_rule
  rcases d.left_or_right with ⟨d, rfl⟩ | ⟨d, rfl⟩
  · obtain ⟨t, h, rfl⟩ := d.exists_token
    exact ⟨t, .inl t, rfl, congrArg TokenKind.comparator? h, fun _ => rfl⟩
  rcases d.left_or_right with ⟨d, rfl⟩ | ⟨d, rfl⟩
  · obtain ⟨t, h, rfl⟩ := d.exists_token
    exact ⟨t, .inr (.inl t), rfl, congrArg TokenKind.comparator? h, fun _ => rfl⟩
  rcases d.left_or_right with ⟨d, rfl⟩ | ⟨d, rfl⟩
  · obtain ⟨t, h, rfl⟩ := d.exists_token
    exact ⟨t, .inr (.inr (.inl t)), rfl, congrArg TokenKind.comparator? h, fun _ => rfl⟩
  rcases d.left_or_right with ⟨d, rfl⟩ | ⟨d, rfl⟩
  · obtain ⟨t, h, rfl⟩ := d.exists_token
    exact ⟨t, .inr (.inr (.inr (.inl t))), rfl, congrArg TokenKind.comparator? h, fun _ => rfl⟩
  rcases d.left_or_right with ⟨d, rfl⟩ | ⟨d, rfl⟩
  · obtain ⟨t, h, rfl⟩ := d.exists_token
    exact ⟨t, .inr (.inr (.inr (.inr (.inl t)))), rfl, congrArg TokenKind.comparator? h,
      fun _ => rfl⟩
  obtain ⟨t, h, rfl⟩ := d.exists_token
  exact ⟨t, .inr (.inr (.inr (.inr (.inr t)))), rfl, congrArg TokenKind.comparator? h, fun _ => rfl⟩

end FindExpr.Grammar.Derivation

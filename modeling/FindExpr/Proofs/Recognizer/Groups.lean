import FindExpr.Proofs.Recognizer.Limit
import FindExpr.Proofs.Recognizer.Reading

namespace FindExpr.Recognizer

open Grammar Grammar.Phrase

namespace State

/-- What has to follow before the condition may end that a state is in. -/
def inner : State → List Phrase
  | expectTerm _ => [rule .term, moreTerms, moreConjunctions]
  | expectComparator .. => [rule .comparator, string, moreTerms, moreConjunctions]
  | expectValue .. => [string, moreTerms, moreConjunctions]
  | afterTerm _ => [moreTerms, moreConjunctions]
  | _ => []

end State

/-- Tokens read while parentheses are open, the innermost first. Behind that one they are the
beginning of a condition, which the given phrases complete, and in front of it they are such a
beginning as far as the next one is concerned, to be gone on with by a term. -/
inductive Within : List Token → List Phrase → List Token → Prop
  | outside {ps ts} : Within [] ps ts
  | group {paren outer ps us cs} (hp : paren.kind = .symbol .leftParen)
      (ho : Within outer [rule .term, moreTerms, moreConjunctions] us)
      (hc : ∀ w, DerivesAll ps w → Derives (.rule .condition) (kinds cs ++ w)) :
      Within (paren :: outer) ps (us ++ paren :: cs)

variable {limit : Nat} {q r : State} {t paren : Token} {ts us cs opened outer : List Token}
  {es : List Event} {ps ps' : List Phrase}

namespace Within

theorem append (h : Within opened ps ts)
    (hd : ∀ w, DerivesAll ps' w → DerivesAll ps (kinds us ++ w)) :
    Within opened ps' (ts ++ us) := by
  cases h with
  | outside => exact .outside
  | group hp ho hc =>
      rw [List.append_assoc, List.cons_append]
      refine .group hp ho fun w hw => ?_
      rw [kinds_append, List.append_assoc]
      exact hc _ (hd w hw)

theorem snoc (h : Within opened ps ts)
    (hd : ∀ w, DerivesAll ps' w → DerivesAll ps (t.kind :: w)) : Within opened ps' (ts ++ [t]) :=
  h.append hd

theorem close (h : Within (paren :: outer) [moreTerms, moreConjunctions] ts)
    (ht : t.kind = .symbol .rightParen) :
    Within outer [moreTerms, moreConjunctions] (ts ++ [t]) := by
  cases h with
  | @group _ _ _ us cs hp ho hc =>
      have hd : Derives (.rule .condition) (kinds cs) := by
        simpa using hc [] (by simp [DerivesAll.many_iff])
      rw [List.append_assoc, List.cons_append]
      refine ho.append fun w hw => ?_
      have hg : DerivesAll [rule .condition, sign .rightParen, moreTerms, moreConjunctions]
          (kinds cs ++ .symbol .rightParen :: w) :=
        ⟨kinds cs, _, hd, DerivesAll.token_iff.2 ⟨rfl, hw⟩, rfl⟩
      simpa [hp, ht] using hg

end Within

theorem Move.within (h : Move limit q t es r) (hw : Within q.opened q.inner ts) :
    Within r.opened r.inner (ts ++ [t]) := by
  -- In front of a term nothing else may be owed to the condition around it.
  have hq (hq : q.expectsTerm = true) :
      Within q.opened [rule .term, moreTerms, moreConjunctions] ts := by
    cases q with
    | afterWhere place => exact .outside
    | expectTerm opened => exact hw
    | _ => cases hq
  cases h with
  | operand he ht => exact (hq he).snoc fun w hd => by simpa [ht, State.inner] using hd
  | group he ht _ =>
      refine .group ht (hq he) fun w hd => ?_
      rwa [kinds_nil, List.nil_append, ← DerivesAll.singleton_iff, DerivesAll.condition_iff]
  | comparator ht =>
      refine Within.snoc hw fun w hd => ?_
      have hd : DerivesAll [string, moreTerms, moreConjunctions] w := hd
      cases hk : t.kind with
      | endOfInput | literal => simp [hk, TokenKind.comparator?] at ht
      | symbol s => cases s <;> simp_all [TokenKind.comparator?, State.inner]
      | keyword k => cases k <;> simp_all [TokenKind.comparator?, State.inner]
  | value ht => exact Within.snoc hw fun w hd => by simpa [ht, State.inner] using hd
  | and ht => exact Within.snoc hw fun w hd => by simpa [ht, State.inner] using hd
  | alternative ht =>
      refine Within.snoc hw fun w hd => ?_
      have hd : DerivesAll [rule .term, moreTerms, moreConjunctions] w := hd
      cases hk : t.kind with
      | endOfInput | literal | symbol => simp [hk, TokenKind.alternative?] at ht
      | keyword k => cases k <;> simp_all [TokenKind.alternative?, State.inner]
  | close ht => exact Within.close hw ht
  | _ => exact .outside

namespace Path

theorem within (p : Path limit q us es r) (hw : Within q.opened q.inner ts) :
    Within r.opened r.inner (ts ++ us) := by
  induction p generalizing ts with
  | nil => rwa [List.append_nil]
  | cons h _ ih =>
      rw [List.append_cons]
      exact ih ((move_of_step h).within hw)

theorem exists_group (p : Path limit .start ts es (.afterTerm (paren :: outer))) :
    ∃ us cs, ts = us ++ paren :: cs ∧ paren.kind = .symbol .leftParen ∧
      Derives (.rule .condition) (kinds cs) := by
  have hs : Within State.start.opened State.start.inner [] := .outside
  have hw : Within (paren :: outer) [moreTerms, moreConjunctions] ts := p.within hs
  cases hw with
  | @group _ _ _ us cs hp ho hc =>
      refine ⟨us, cs, rfl, hp, ?_⟩
      simpa using hc [] (by simp [DerivesAll.many_iff])

end Path

theorem exists_path_of_condition (hc : Derives (.rule .condition) (kinds cs))
    (opened : List Token) :
    ∃ m es, Path m (.expectTerm opened) cs es (.afterTerm opened) := by
  obtain ⟨d, rfl⟩ := Derivation.exists_iff_derives.2 hc
  obtain ⟨es, -, p⟩ : ∃ es, _ ∧ Path _ (.expectTerm opened) d.tokens es (.afterTerm opened) :=
    reads d opened (Nat.le_refl _)
  exact ⟨_, es, p⟩

theorem Move.eq_of_leftParen (h : Move limit q t es r) (ht : t.kind = .symbol .leftParen) :
    r = .expectTerm (t :: q.opened) := by
  cases h with
  | group => rfl
  | _ => simp_all [TokenKind.comparator?, TokenKind.alternative?, TokenKind.direction?]

theorem Path.afterTerm_of_group (p : Path limit .start (us ++ paren :: cs) es r)
    (hp : paren.kind = .symbol .leftParen) (hc : Derives (.rule .condition) (kinds cs)) :
    ∃ outer, r = .afterTerm (paren :: outer) := by
  obtain ⟨s, _, _, _, p, -⟩ := p.split
  cases p with
  | cons h p =>
      obtain rfl := (move_of_step h).eq_of_leftParen hp
      obtain ⟨m, _, p'⟩ := exists_path_of_condition hc (paren :: s.opened)
      exact ⟨s.opened, ((p.mono (Nat.le_max_left limit m)).deterministic
        (p'.mono (Nat.le_max_right limit m))).2⟩

/-- Whether a parenthesis in front of these kinds of token is open behind them: at no place among
them more parentheses have been closed than opened. -/
def Unmatched (behind : List TokenKind) : Prop :=
  ∀ w, w <+: behind → w.count (.symbol .rightParen) ≤ w.count (.symbol .leftParen)

/-- The parenthesis is the last one among the tokens that no later one closes. -/
def InnermostOpen (ts : List Token) (paren : Token) : Prop :=
  ∃ us cs, ts = us ++ paren :: cs ∧ paren.kind = .symbol .leftParen ∧ Unmatched (kinds cs) ∧
    ∀ vs l ws, cs = vs ++ l :: ws → l.kind = .symbol .leftParen → ¬ Unmatched (kinds ws)

theorem unmatched_of_condition (hc : Derives (.rule .condition) (kinds cs)) :
    Unmatched (kinds cs) := by
  rintro w ⟨v, hw⟩
  obtain ⟨us, vs, rfl, rfl, -⟩ := List.map_eq_append_iff.1 hw.symm
  obtain ⟨m, es, p⟩ := exists_path_of_condition hc []
  obtain ⟨s, _, _, pu, -⟩ := p.split
  have hn : 0 + _ = _ := pu.count_leftParen
  exact Nat.le_of_add_left_le (Nat.le_of_eq (hn.symm.trans (Nat.zero_add _)))

theorem count_of_condition (hc : Derives (.rule .condition) (kinds cs)) :
    (kinds cs).count (.symbol .leftParen) = (kinds cs).count (.symbol .rightParen) := by
  obtain ⟨m, es, p⟩ := exists_path_of_condition hc []
  exact Nat.add_left_cancel p.count_leftParen

theorem innermostOpen_of_condition (hp : paren.kind = .symbol .leftParen)
    (hc : Derives (.rule .condition) (kinds cs)) : InnermostOpen (us ++ paren :: cs) paren := by
  refine ⟨us, cs, rfl, hp, unmatched_of_condition hc, ?_⟩
  rintro vs l ws rfl hl hu
  -- As many are closed as opened, but no more in front of `l` and, if it is open, behind it.
  have hn := count_of_condition hc
  have hv := unmatched_of_condition hc (kinds vs) (by simp)
  have hw := hu (kinds ws) (List.prefix_refl _)
  simp only [kinds_append, kinds_cons, List.count_append, List.count_cons, hl] at hn
  simp at hn
  omega

end FindExpr.Recognizer

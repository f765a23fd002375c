import FindExpr.Proofs.Grammar.Basic

namespace FindExpr.Grammar

inductive Derivation : Phrase → Type
  | token {k} (t : Token) (h : t.kind = k) : Derivation (.token k)
  | rule {n} (d : Derivation (body n)) : Derivation (.rule n)
  | seq {p q} (d : Derivation p) (e : Derivation q) : Derivation (.seq p q)
  | left {p q} (d : Derivation p) : Derivation (.alt p q)
  | right {p q} (d : Derivation q) : Derivation (.alt p q)
  | absent {p} : Derivation (.opt p)
  | present {p} (d : Derivation p) : Derivation (.opt p)
  | done {p} : Derivation (.many p)
  | more {p} (d : Derivation p) (e : Derivation (.many p)) : Derivation (.many p)

namespace Derivation

def tokens {p : Phrase} : Derivation p → List Token
  | token t _ => [t]
  | rule d => d.tokens
  | seq d e => d.tokens ++ e.tokens
  | left d => d.tokens
  | right d => d.tokens
  | absent => []
  | present d => d.tokens
  | done => []
  | more d e => d.tokens ++ e.tokens

variable {p : Phrase} {w : List TokenKind} {ts us vs : List Token}

theorem derives (d : Derivation p) : Derives p (kinds d.tokens) := by
  induction d with
  | token t h => exact h ▸ .token t.kind
  | rule d ih => exact .rule ih
  | seq d e ihd ihe =>
      rw [tokens, kinds_append]
      exact .seq ihd ihe
  | left d ih => exact .left ih
  | right d ih => exact .right ih
  | absent => exact .absent
  | present d ih => exact .present ih
  | done => exact .done
  | more d e ihd ihe =>
      rw [tokens, kinds_append]
      exact .more ihd ihe

theorem exists_of_derives (h : Derives p w) (hw : kinds ts = w) :
    ∃ d : Derivation p, d.tokens = ts := by
  induction h generalizing ts with
  | token k =>
      obtain ⟨t, rfl, ht⟩ := List.map_eq_singleton_iff.1 hw
      exact ⟨.token t ht, rfl⟩
  | rule _ ih =>
      obtain ⟨d, hd⟩ := ih hw
      exact ⟨.rule d, hd⟩
  | seq _ _ ihu ihv =>
      obtain ⟨us, vs, rfl, hu, hv⟩ := List.map_eq_append_iff.1 hw
      obtain ⟨d, rfl⟩ := ihu hu
      obtain ⟨e, rfl⟩ := ihv hv
      exact ⟨.seq d e, rfl⟩
  | left _ ih =>
      obtain ⟨d, hd⟩ := ih hw
      exact ⟨.left d, hd⟩
  | right _ ih =>
      obtain ⟨d, hd⟩ := ih hw
      exact ⟨.right d, hd⟩
  | absent => exact ⟨.absent, (List.map_eq_nil_iff.1 hw).symm⟩
  | present _ ih =>
      obtain ⟨d, hd⟩ := ih hw
      exact ⟨.present d, hd⟩
  | done => exact ⟨.done, (List.map_eq_nil_iff.1 hw).symm⟩
  | more _ _ ihu ihv =>
      obtain ⟨us, vs, rfl, hu, hv⟩ := List.map_eq_append_iff.1 hw
      obtain ⟨d, rfl⟩ := ihu hu
      obtain ⟨e, rfl⟩ := ihv hv
      exact ⟨.more d e, rfl⟩

/-- Phrases derive the kinds of exactly those tokens for which there is a tree. -/
theorem exists_iff_derives : (∃ d : Derivation p, d.tokens = ts) ↔ Derives p (kinds ts) := by
  constructor
  · rintro ⟨d, rfl⟩
    exact d.derives
  · intro h
    exact exists_of_derives h rfl

end Derivation

/-- What a phrase is made of, once the rules in it have meanings in `Sem`. -/
@[reducible] def Meaning (Sem : Nonterminal → Type) : Phrase → Type
  | .token _ => Token
  | .rule n => Sem n
  | .seq p q => Meaning Sem p × Meaning Sem q
  | .alt p q => Meaning Sem p ⊕ Meaning Sem q
  | .opt p => Option (Meaning Sem p)
  | .many p => List (Meaning Sem p)

namespace Derivation

variable {Sem : Nonterminal → Type} (act : ∀ n, Meaning Sem (body n) → Sem n)

/-- The meaning of a tree, where `act` says what a rule means by the meaning of its right side. -/
def fold {p : Phrase} : Derivation p → Meaning Sem p
  | token t _ => t
  | rule (n := n) d => act n (fold d)
  | seq d e => (fold d, fold e)
  | left d => .inl (fold d)
  | right d => .inr (fold d)
  | absent => none
  | present d => some (fold d)
  | done => []
  | more d e => fold d :: fold e

variable {p q : Phrase} {k : TokenKind} {n : Nonterminal}

theorem exists_token (d : Derivation (.token k)) : ∃ t h, d = token t h := by
  cases d with
  | token t h => exact ⟨t, h, rfl⟩

theorem exists_rule (d : Derivation (.rule n)) : ∃ e, d = rule e := by
  cases d with
  | rule e => exact ⟨e, rfl⟩

theorem exists_seq (d : Derivation (.seq p q)) : ∃ e f, d = seq e f := by
  cases d with
  | seq e f => exact ⟨e, f, rfl⟩

theorem left_or_right (d : Derivation (.alt p q)) : (∃ e, d = left e) ∨ ∃ e, d = right e := by
  cases d with
  | left e => exact .inl ⟨e, rfl⟩
  | right e => exact .inr ⟨e, rfl⟩

theorem absent_or_present (d : Derivation (.opt p)) : d = absent ∨ ∃ e, d = present e := by
  cases d with
  | absent => exact .inl rfl
  | present e => exact .inr ⟨e, rfl⟩

theorem many_induction {P : Derivation (.many p) → Prop} (done : P .done)
    (more : ∀ d e, P e → P (.more d e)) (d : Derivation (.many p)) : P d := by
  have h : ∀ {q : Phrase} (d : Derivation q) (hq : q = .many p), P (hq ▸ d) := by
    intro q d
    induction d with
    | done =>
        rintro ⟨⟩
        exact done
    | more d e ihd ihe =>
        rintro ⟨⟩
        exact more d e (ihe rfl)
    | _ => exact fun hq => by cases hq
  exact h d rfl

theorem exists_snoc (d : Derivation (.many p)) (e : Derivation p) :
    ∃ f : Derivation (.many p), f.tokens = d.tokens ++ e.tokens ∧
      (f.fold act : List (Meaning Sem p)) = d.fold act ++ [e.fold act] := by
  induction d using many_induction with
  | done => exact ⟨.more e .done, by simp [tokens], rfl⟩
  | more d _ ih =>
      obtain ⟨f, hf, hv⟩ := ih
      exact ⟨.more d f, by simp [tokens, hf], by simp [fold, hv]⟩

def Below (P : ∀ n, Derivation (.rule n) → Prop) {p : Phrase} : Derivation p → Prop
  | token _ _ => True
  | rule (n := n) d => P n (.rule d)
  | seq d e => Below P d ∧ Below P e
  | left d => Below P d
  | right d => Below P d
  | absent => True
  | present d => Below P d
  | done => True
  | more d e => Below P d ∧ Below P e

theorem below_rule {P : ∀ n, Derivation (.rule n) → Prop} {d : Derivation (.rule n)} :
    d.Below P ↔ P n d := by
  cases d
  exact Iff.rfl

theorem below_induction {P : ∀ n, Derivation (.rule n) → Prop}
    (h : ∀ n (d : Derivation (body n)), d.Below P → P n (.rule d)) {p : Phrase}
    (d : Derivation p) : d.Below P := by
  induction d with
  | token | absent | done => trivial
  | rule d ih => exact h _ d ih
  | seq d e ihd ihe | more d e ihd ihe => exact ⟨ihd, ihe⟩
  | left d ih | right d ih | present d ih => exact ih

theorem rule_induction {P : ∀ n, Derivation (.rule n) → Prop}
    (h : ∀ n (d : Derivation (body n)), d.Below P → P n (.rule d)) (d : Derivation (.rule n)) :
    P n d :=
  below_rule.1 (below_induction h d)

end Derivation

end FindExpr.Grammar

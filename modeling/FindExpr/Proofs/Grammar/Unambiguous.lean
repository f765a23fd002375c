import FindExpr.Proofs.Grammar.Derivation

namespace FindExpr.Grammar

def firstOf : Nonterminal → List TokenKind
  | .query =>
    [.keyword .select, .keyword .filter, .keyword .orderBy, .keyword .limit, .keyword .offset]
  | .select => [.keyword .select]
  | .filter => [.keyword .filter]
  | .condition | .conjunction | .term => [.symbol .leftParen, .literal]
  | .comparator =>
    [.symbol .eq, .symbol .lt, .symbol .gt, .symbol .le, .symbol .ge, .keyword .like]
  | .orderBy => [.keyword .orderBy]
  | .limit => [.keyword .limit]
  | .offset => [.keyword .offset]

def followOf : Nonterminal → List TokenKind
  | .query | .offset => []
  | .select => [.keyword .filter, .keyword .orderBy, .keyword .limit, .keyword .offset]
  | .filter => [.keyword .orderBy, .keyword .limit, .keyword .offset]
  | .condition =>
    [.symbol .rightParen, .keyword .orderBy, .keyword .limit, .keyword .offset]
  | .conjunction =>
    [.keyword .or, .keyword .omits, .symbol .rightParen, .keyword .orderBy, .keyword .limit,
      .keyword .offset]
  | .term =>
    [.keyword .and, .keyword .or, .keyword .omits, .symbol .rightParen, .keyword .orderBy,
      .keyword .limit, .keyword .offset]
  | .comparator => [.literal]
  | .orderBy => [.keyword .limit, .keyword .offset]
  | .limit => [.keyword .offset]

namespace Phrase

def nullable : Phrase → Bool
  | token _ => false
  | rule n => n = .query
  | seq p q => p.nullable && q.nullable
  | alt p q => p.nullable || q.nullable
  | opt _ | many _ => true

def first : Phrase → List TokenKind
  | token k => [k]
  | rule n => firstOf n
  | seq p q => if p.nullable then p.first ++ q.first else p.first
  | alt p q => p.first ++ q.first
  | opt p | many p => p.first

def disjoint (j k : List TokenKind) : Bool := j.all fun kind => !k.contains kind

/-- Whether one token of lookahead decides how a phrase is derived, if what comes behind it begins
with one of the kinds in `follow`. -/
def decided : Phrase → List TokenKind → Bool
  | token _, _ => true
  | rule n, follow => follow.all (followOf n).contains
  | seq p q, follow =>
    p.decided (if q.nullable then q.first ++ follow else q.first) && q.decided follow
  | alt p q, follow =>
    !p.nullable && !q.nullable && disjoint p.first q.first && p.decided follow && q.decided follow
  | opt p, follow => !p.nullable && disjoint p.first follow && p.decided follow
  | many p, follow => !p.nullable && disjoint p.first follow && p.decided (p.first ++ follow)

end Phrase

open Phrase

theorem nullable_body (n : Nonterminal) : (body n).nullable = (rule n).nullable := by
  cases n <;> decide

theorem first_body (n : Nonterminal) : (body n).first ⊆ firstOf n := by
  cases n <;> decide

theorem decided_body (n : Nonterminal) : (body n).decided (followOf n) = true := by
  cases n <;> decide

def Starts (ts : List Token) (ks : List TokenKind) : Prop := ∀ t ∈ ts.head?, t.kind ∈ ks

theorem Starts.mono {ts : List Token} {ks ls : List TokenKind} (h : Starts ts ks) (hs : ks ⊆ ls) :
    Starts ts ls :=
  fun t ht => hs (h t ht)

theorem Starts.append {us vs : List Token} {ks : List TokenKind} (hu : Starts us ks)
    (hv : us = [] → Starts vs ks) : Starts (us ++ vs) ks := by
  cases us with
  | nil => exact hv rfl
  | cons t us => exact hu

theorem not_starts_disjoint {t : Token} {ts : List Token} {ks ls : List TokenKind}
    (hd : disjoint ks ls = true) (hk : Starts (t :: ts) ks) (hl : Starts (t :: ts) ls) : False := by
  have h := List.all_eq_true.1 hd t.kind (hk t rfl)
  simp [hl t rfl] at h

namespace Derivation

variable {p : Phrase}

theorem nullable_of_tokens (d : Derivation p) (h : d.tokens = []) : p.nullable = true := by
  induction d with
  | token => cases h
  | rule d ih => exact nullable_body _ ▸ ih h
  | seq d e ihd ihe =>
      obtain ⟨hd, he⟩ := List.append_eq_nil_iff.1 h
      simp [nullable, ihd hd, ihe he]
  | left d ih => simp [nullable, ih h]
  | right d ih => simp [nullable, ih h]
  | absent | present | done | more => rfl

theorem starts_tokens (d : Derivation p) : Starts d.tokens p.first := by
  induction d with
  | token t h =>
      rintro _ ⟨⟩
      exact h ▸ List.mem_singleton_self _
  | rule d ih => exact ih.mono (first_body _)
  | seq d e ihd ihe =>
      rw [tokens, first]
      split
      · exact (ihd.mono (List.subset_append_left ..)).append
          fun _ => ihe.mono (List.subset_append_right ..)
      · next hn => exact ihd.append fun hd => absurd (d.nullable_of_tokens hd) hn
  | left d ih => exact ih.mono (List.subset_append_left ..)
  | right d ih => exact ih.mono (List.subset_append_right ..)
  | absent | done => simp [tokens, Starts]
  | present d ih => exact ih
  | more d e ihd ihe => exact ihd.append fun _ => ihe

theorem starts_append (d : Derivation p) {vs : List Token} {follow : List TokenKind}
    (hv : Starts vs follow) :
    Starts (d.tokens ++ vs) (if p.nullable then p.first ++ follow else p.first) := by
  split
  · exact (d.starts_tokens.mono (List.subset_append_left ..)).append
      fun _ => hv.mono (List.subset_append_right ..)
  · next hn => exact d.starts_tokens.append fun hd => absurd (d.nullable_of_tokens hd) hn

theorem starts_append_of_ne (d : Derivation p) (hn : p.nullable = false) (vs : List Token) :
    Starts (d.tokens ++ vs) p.first :=
  d.starts_tokens.append fun hd => by simp [d.nullable_of_tokens hd] at hn

theorem false_of_disjoint (d : Derivation p) {us vs : List Token} {ks : List TokenKind}
    (hn : p.nullable = false) (hd : disjoint p.first ks = true) (hv : Starts vs ks)
    (h : d.tokens ++ us = vs) : False := by
  have hs := d.starts_append_of_ne hn us
  rw [h] at hs
  cases ht : d.tokens with
  | nil => simp [d.nullable_of_tokens ht] at hn
  | cons t ts =>
      rw [ht] at h
      subst h
      exact not_starts_disjoint hd hs hv

/-- Two derivations of one phrase from the beginning of the same tokens, up to where something else
begins, are the same. -/
theorem eq_of_tokens_append (d d' : Derivation p) {follow : List TokenKind} {vs vs' : List Token}
    (hp : p.decided follow = true) (hv : Starts vs follow) (hv' : Starts vs' follow)
    (h : d.tokens ++ vs = d'.tokens ++ vs') : d = d' ∧ vs = vs' := by
  induction d generalizing follow vs vs' with
  | token t ht =>
      cases d' with
      | token t' ht' =>
          obtain ⟨rfl, rfl⟩ := List.cons.inj h
          exact ⟨rfl, rfl⟩
  | rule d ih =>
      cases d' with
      | rule d' =>
          have hf : follow ⊆ followOf _ := fun k hk => by
            simpa using List.all_eq_true.1 hp k hk
          obtain ⟨rfl, hr⟩ := ih d' (decided_body _) (hv.mono hf) (hv'.mono hf) h
          exact ⟨rfl, hr⟩
  | seq d e ihd ihe =>
      cases d' with
      | seq d' e' =>
          obtain ⟨hp, hq⟩ := Bool.and_eq_true_iff.1 hp
          simp only [tokens, List.append_assoc] at h
          obtain ⟨rfl, hs⟩ := ihd d' hp (e.starts_append hv) (e'.starts_append hv') h
          obtain ⟨rfl, hr⟩ := ihe e' hq hv hv' hs
          exact ⟨rfl, hr⟩
  | left d ih =>
      simp only [decided, Bool.and_eq_true, Bool.not_eq_true'] at hp
      obtain ⟨⟨⟨⟨hn, hn'⟩, hd⟩, hp⟩, -⟩ := hp
      cases d' with
      | left d' =>
          obtain ⟨rfl, hr⟩ := ih d' hp hv hv' h
          exact ⟨rfl, hr⟩
      | right d' => exact (d.false_of_disjoint hn hd (d'.starts_append_of_ne hn' vs') h).elim
  | right d ih =>
      simp only [decided, Bool.and_eq_true, Bool.not_eq_true'] at hp
      obtain ⟨⟨⟨⟨hn, hn'⟩, hd⟩, -⟩, hq⟩ := hp
      cases d' with
      | left d' => exact (d'.false_of_disjoint hn hd (d.starts_append_of_ne hn' vs) h.symm).elim
      | right d' =>
          obtain ⟨rfl, hr⟩ := ih d' hq hv hv' h
          exact ⟨rfl, hr⟩
  | absent =>
      simp only [decided, Bool.and_eq_true, Bool.not_eq_true'] at hp
      obtain ⟨⟨hn, hd⟩, -⟩ := hp
      cases d' with
      | absent => exact ⟨rfl, h⟩
      | present d' => exact (d'.false_of_disjoint hn hd hv h.symm).elim
  | present d ih =>
      simp only [decided, Bool.and_eq_true, Bool.not_eq_true'] at hp
      obtain ⟨⟨hn, hd⟩, hp⟩ := hp
      cases d' with
      | absent => exact (d.false_of_disjoint hn hd hv' h).elim
      | present d' =>
          obtain ⟨rfl, hr⟩ := ih d' hp hv hv' h
          exact ⟨rfl, hr⟩
  | done =>
      simp only [decided, Bool.and_eq_true, Bool.not_eq_true'] at hp
      obtain ⟨⟨hn, hd⟩, -⟩ := hp
      cases d' with
      | done => exact ⟨rfl, h⟩
      | more d' e' =>
          simp only [tokens, List.append_assoc] at h
          exact (d'.false_of_disjoint hn hd hv h.symm).elim
  | more d e ihd ihe =>
      have hm := hp
      simp only [decided, Bool.and_eq_true, Bool.not_eq_true'] at hp
      obtain ⟨⟨hn, hd⟩, hp⟩ := hp
      simp only [tokens, List.append_assoc] at h
      cases d' with
      | done => exact (d.false_of_disjoint hn hd hv' h).elim
      | more d' e' =>
          simp only [tokens, List.append_assoc] at h
          obtain ⟨rfl, hs⟩ := ihd d' hp (e.starts_append hv) (e'.starts_append hv') h
          obtain ⟨rfl, hr⟩ := ihe e' hm hv hv' hs
          exact ⟨rfl, hr⟩

/-- Tokens are a query in at most one way. -/
theorem eq_of_tokens (d d' : Derivation (.rule .query)) (h : d.tokens = d'.tokens) : d = d' := by
  have hs : Starts [] (followOf .query) := by simp [Starts]
  exact (eq_of_tokens_append d d' rfl hs hs (by rw [h])).1

end Derivation

end FindExpr.Grammar

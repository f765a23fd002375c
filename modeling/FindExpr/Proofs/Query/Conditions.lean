import FindExpr.Proofs.Grammar.Inversion
import FindExpr.Proofs.Grammar.Value
import FindExpr.Proofs.Recognizer.Trace
import FindExpr.Query.Builder

namespace FindExpr.Builder

open Grammar Grammar.Phrase Recognizer

theorem value_comparator (d : Derivation (.rule .comparator)) : d.value = d.events := by
  obtain ⟨t, s, -, -, hd⟩ := d.exists_comparator
  exact (hd valueOf).trans (hd eventsOf).symm

def addCondition (c : Condition) (b : Builder) : Builder :=
  endCondition { b with frames := .condition (some c) none :: b.frames }

/-- What a builder makes of the events of a term, a conjunction and a condition. -/
def Captures : ∀ n, Derivation (.rule n) → Prop
  | .term, d => ∀ b : Builder, b.frames ≠ [] →
    tell add d.events b = ({ b with frames := addTerm d.value b.frames }, none)
  | .conjunction, d => ∀ b : Builder,
    tell add d.events b = ({ b with frames := addConjunction d.value b.frames }, none)
  | .condition, d => ∀ b : Builder, tell add d.events b = (addCondition d.value b, none)
  | _, _ => True

theorem captures_term (d : Derivation (body .term)) (hd : d.Below Captures) :
    Captures .term (.rule d) := by
  intro b hb
  rcases d.group_or_comparison with ⟨l, hl, c, r, hr, rfl⟩ | ⟨f, hf, c, v, hv, rfl⟩
  · obtain ⟨-, hc, -⟩ := hd
    rw [Derivation.below_rule] at hc
    have hv : addCondition c.value b = { b with frames := addTerm c.value b.frames } := by
      obtain ⟨f, outer, hf⟩ := List.exists_cons_of_ne_nil hb
      simp [addCondition, endCondition, hf]
    have ht := tell_append_of_accepted (hc b) [.groupEnd r.start]
    rw [hv] at ht
    exact ht
  · simp only [Derivation.events_rule, Derivation.value_rule, Derivation.fold, eventsOf, valueOf,
      Derivation.fold_eventsOf, Derivation.fold_valueOf, value_comparator]
    rfl

theorem tell_moreTerms (d : Derivation moreTerms) (hd : d.Below Captures) (q : Query)
    (joined : Condition) (outer : List Frame) :
    tell add
        ((d.fold eventsOf).flatMap fun (word, next) => .connective .and word.start :: next)
        ⟨q, .conjunction (some joined) :: outer⟩ =
      (⟨q, .conjunction (some ((d.fold valueOf).foldl
        (fun joined (_, next) => .binary .and joined next) joined)) :: outer⟩, none) := by
  induction d using Derivation.many_induction generalizing joined with
  | done => rfl
  | more d e ih =>
      obtain ⟨t, ht, d, rfl⟩ := d.exists_token_seq
      obtain ⟨⟨-, hd⟩, he⟩ := hd
      rw [Derivation.below_rule] at hd
      have hb := hd ⟨q, .conjunction (some joined) :: outer⟩ (by simp)
      exact (tell_append_of_accepted hb _).trans (ih he _)

theorem captures_conjunction (d : Derivation (body .conjunction)) (hd : d.Below Captures) :
    Captures .conjunction (.rule d) := by
  intro b
  obtain ⟨d, e, rfl⟩ := d.exists_seq
  obtain ⟨hd, he⟩ := hd
  rw [Derivation.below_rule] at hd
  have h₁ := hd ⟨b.query, .conjunction none :: b.frames⟩ (by simp)
  have h₂ := tell_moreTerms e he b.query d.value b.frames
  have h₃ := tell_append_of_accepted h₂ [.conjunctionEnd]
  have h₄ := (tell_append_of_accepted h₁ _).trans h₃
  rw [← List.append_assoc] at h₄
  exact h₄

theorem setConnective_alternative (o : Token ⊕ Token) (joined : Option Condition)
    (outer : List Frame) :
    setConnective (alternativeOf o).1 (.condition joined none :: outer) =
      .condition joined (some (alternativeOf o).1) :: outer := by
  cases o <;> rfl

theorem tell_moreConjunctions (d : Derivation moreConjunctions) (hd : d.Below Captures)
    (q : Query) (joined : Condition) (outer : List Frame) :
    tell add
        ((d.fold eventsOf).flatMap fun (op, next) =>
          .connective (alternativeOf op).1 (alternativeOf op).2.start :: next)
        ⟨q, .condition (some joined) none :: outer⟩ =
      (⟨q, .condition (some ((d.fold valueOf).foldl
        (fun joined (op, next) => .binary (alternativeOf op).1 joined next) joined)) none :: outer⟩,
        none) := by
  induction d using Derivation.many_induction generalizing joined with
  | done => rfl
  | more d e ih =>
      obtain ⟨o, d, rfl⟩ := d.exists_seq
      obtain ⟨⟨-, hd⟩, he⟩ := hd
      rw [Derivation.below_rule] at hd
      obtain ⟨s, -, -, hs⟩ := o.exists_alternative
      simp only [Derivation.fold, hs, List.flatMap_cons, List.foldl_cons]
      have ho : add (.connective (alternativeOf s).1 (alternativeOf s).2.start)
          ⟨q, .condition (some joined) none :: outer⟩ =
          (⟨q, .condition (some joined) (some (alternativeOf s).1) :: outer⟩, none) := by
        rw [add, setConnective_alternative]
      have hb := hd ⟨q, .condition (some joined) (some (alternativeOf s).1) :: outer⟩
      refine Eq.trans ?_ (ih he _)
      exact (tell_cons_of_accepted ho _).trans (tell_append_of_accepted hb _)

theorem captures_condition (d : Derivation (body .condition)) (hd : d.Below Captures) :
    Captures .condition (.rule d) := by
  intro b
  obtain ⟨d, e, rfl⟩ := d.exists_seq
  obtain ⟨hd, he⟩ := hd
  rw [Derivation.below_rule] at hd
  have h₁ := hd ⟨b.query, .condition none none :: b.frames⟩
  have h₂ := tell_moreConjunctions e he b.query d.value b.frames
  have h₃ := tell_append_of_accepted h₂ [.conditionEnd]
  have h₄ := (tell_append_of_accepted h₁ _).trans h₃
  rw [← List.append_assoc] at h₄
  exact h₄

theorem captures {n : Nonterminal} (d : Derivation (.rule n)) : Captures n d := by
  refine Derivation.rule_induction (fun n d hd => ?_) d
  cases n with
  | term => exact captures_term d hd
  | conjunction => exact captures_conjunction d hd
  | condition => exact captures_condition d hd
  | _ => trivial

end FindExpr.Builder

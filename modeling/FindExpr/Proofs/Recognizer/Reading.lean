import FindExpr.Proofs.Grammar.Inversion
import FindExpr.Proofs.Recognizer.Path

namespace FindExpr.Recognizer

open Grammar Grammar.Phrase

variable {limit : Nat}

theorem read_comparator (d : Derivation (.rule .comparator)) (field : Literal)
    (opened : List Token) :
    Path limit (.expectComparator field opened) d.tokens []
      (.expectValue field d.events opened) := by
  obtain ⟨t, s, ht, ho, hd⟩ := d.exists_comparator
  have he : d.events = comparatorOf s := hd eventsOf
  rw [ht, he]
  apply Path.single
  simp only [step, readComparator, ho]
  rfl

/-- How the recognizer reads the parts of a condition: it begins where a term is expected and ends
behind a term. What brackets a condition and its conjunctions is told around them. -/
def Reads (limit : Nat) : ∀ n, Derivation (.rule n) → Prop
  | .term, d => ∀ opened : List Token, opened.length + d.tokens.length ≤ limit →
    Path limit (.expectTerm opened) d.tokens d.events (.afterTerm opened)
  | .conjunction, d => ∀ opened : List Token, opened.length + d.tokens.length ≤ limit →
    ∃ es, d.events = .conjunctionStart :: es ++ [.conjunctionEnd] ∧
      Path limit (.expectTerm opened) d.tokens es (.afterTerm opened)
  | .condition, d => ∀ opened : List Token, opened.length + d.tokens.length ≤ limit →
    ∃ es, d.events =
        .conditionStart :: .conjunctionStart :: es ++ [.conjunctionEnd, .conditionEnd] ∧
      Path limit (.expectTerm opened) d.tokens es (.afterTerm opened)
  | _, _ => True

theorem read_moreTerms (d : Derivation moreTerms) (hd : d.Below (Reads limit))
    (opened : List Token) (h : opened.length + d.tokens.length ≤ limit) :
    Path limit (.afterTerm opened) d.tokens
      ((d.fold eventsOf).flatMap fun (word, next) => .connective .and word.start :: next)
      (.afterTerm opened) := by
  induction d using Derivation.many_induction with
  | done => exact .nil _
  | more d e ih =>
      obtain ⟨t, ht, d, rfl⟩ := d.exists_token_seq
      obtain ⟨⟨-, hd⟩, he⟩ := hd
      rw [Derivation.below_rule] at hd
      simp only [Derivation.tokens, List.length_append, List.length_singleton] at h
      have hs : step limit (.afterTerm opened) t =
          ⟨[.connective .and t.start], .continue (.expectTerm opened)⟩ := by
        simp [step, continueCondition, ht]
      have hp := (Path.single hs).append (hd opened (by omega))
      simpa [Derivation.fold, Derivation.tokens] using hp.append (ih he (by omega))

theorem read_moreConjunctions (d : Derivation moreConjunctions) (hd : d.Below (Reads limit))
    (opened : List Token) (h : opened.length + d.tokens.length ≤ limit) :
    ∃ es, .conjunctionEnd :: (d.fold eventsOf).flatMap (fun (op, next) =>
        .connective (alternativeOf op).1 (alternativeOf op).2.start :: next) =
        es ++ [.conjunctionEnd] ∧
      Path limit (.afterTerm opened) d.tokens es (.afterTerm opened) := by
  induction d using Derivation.many_induction with
  | done => exact ⟨[], rfl, .nil _⟩
  | more d e ih =>
      obtain ⟨o, d, rfl⟩ := d.exists_seq
      obtain ⟨⟨-, hd⟩, he⟩ := hd
      rw [Derivation.below_rule] at hd
      simp only [Derivation.tokens, List.length_append] at h
      obtain ⟨s, hs, ha, hf⟩ := o.exists_alternative
      have ho : Path limit (.afterTerm opened) o.tokens
          [.conjunctionEnd, .connective (alternativeOf s).1 (alternativeOf s).2.start,
            .conjunctionStart] (.expectTerm opened) := by
        have hn : (alternativeOf s).2.kind ≠ .keyword .and := by
          intro hk
          simp [hk, TokenKind.alternative?] at ha
        rw [hs]
        exact .single (by simp [step, continueCondition, hn, ha])
      obtain ⟨es, hes, hp⟩ := hd opened (by omega)
      obtain ⟨fs, hfs, hq⟩ := ih he (by omega)
      refine ⟨_, ?_, (ho.append hp).append hq⟩
      simp [Derivation.fold, hf eventsOf, hes, hfs]

theorem reads_term (d : Derivation (body .term)) (hd : d.Below (Reads limit)) :
    Reads limit .term (.rule d) := by
  intro opened h
  rcases d.group_or_comparison with ⟨l, hl, d, r, hr, rfl⟩ | ⟨f, hf, c, v, hv, rfl⟩
  · obtain ⟨-, hd, -⟩ := hd
    rw [Derivation.below_rule] at hd
    simp only [Derivation.tokens, List.length_append, List.length_singleton] at h
    obtain ⟨es, hes, hp⟩ := hd (l :: opened) (by rw [List.length_cons]; omega)
    have ho : ¬ limit ≤ opened.length := by omega
    have hq : Path limit (.expectTerm opened) [l]
        [.groupStart l.start, .conditionStart, .conjunctionStart] (.expectTerm (l :: opened)) :=
      .single (by simp [step, beginTerm, hl, ho])
    have hr : Path limit (.afterTerm (l :: opened)) [r]
        [.conjunctionEnd, .conditionEnd, .groupEnd r.start] (.afterTerm opened) :=
      .single (by simp [step, continueCondition, endCondition, Step.precededBy, hr,
        TokenKind.alternative?])
    simpa [Derivation.tokens, Derivation.fold, eventsOf, hes] using (hq.append hp).append hr
  · have hc : Path limit _ c.tokens [] _ := read_comparator c f.literal opened
    have hq : Path limit (.expectTerm opened) [f] [] (.expectComparator f.literal opened) :=
      .single (by simp [step, beginTerm, hf, Step.silent])
    have hr : Path limit (.expectValue f.literal c.events opened) [v]
        [.comparison f.literal c.events v.literal] (.afterTerm opened) :=
      .single (by simp [step, withLiteral, hv])
    simpa [Derivation.tokens, Derivation.fold, eventsOf] using (hq.append hc).append hr

theorem reads_conjunction (d : Derivation (body .conjunction)) (hd : d.Below (Reads limit)) :
    Reads limit .conjunction (.rule d) := by
  intro opened h
  obtain ⟨d, e, rfl⟩ := d.exists_seq
  obtain ⟨hd, he⟩ := hd
  rw [Derivation.below_rule] at hd
  simp only [Derivation.tokens, List.length_append] at h
  refine ⟨_, ?_, (hd opened (by omega)).append (read_moreTerms e he opened (by omega))⟩
  simp [Derivation.fold, eventsOf]

theorem reads_condition (d : Derivation (body .condition)) (hd : d.Below (Reads limit)) :
    Reads limit .condition (.rule d) := by
  intro opened h
  obtain ⟨d, e, rfl⟩ := d.exists_seq
  obtain ⟨hd, he⟩ := hd
  rw [Derivation.below_rule] at hd
  simp only [Derivation.tokens, List.length_append] at h
  obtain ⟨es, hes, hp⟩ := hd opened (by omega)
  obtain ⟨fs, hfs, hq⟩ := read_moreConjunctions e he opened (by omega)
  refine ⟨_, ?_, hp.append hq⟩
  simpa [Derivation.fold, eventsOf, hes] using congrArg (· ++ [Event.conditionEnd]) hfs

theorem reads {n : Nonterminal} (d : Derivation (.rule n)) : Reads limit n d := by
  refine Derivation.rule_induction (fun n d hd => ?_) d
  cases n with
  | term => exact reads_term d hd
  | conjunction => exact reads_conjunction d hd
  | condition => exact reads_condition d hd
  | _ => trivial

end FindExpr.Recognizer

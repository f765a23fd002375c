import FindExpr.Proofs.Query.Leaves
import FindExpr.Proofs.Recognizer.Owed

namespace FindExpr

def comparisonAt? : List Token → Option Comparison
  | field :: sign :: value :: _ =>
    if field.kind = .literal ∧ value.kind = .literal then
      sign.kind.comparator?.map fun op => ⟨field.unescaped, op, value.unescaped⟩
    else none
  | _ => none

/-- The comparisons that begin with any of the tokens, in the order of these. -/
def comparisonsIn : List Token → List Comparison
  | [] => []
  | t :: ts => (comparisonAt? (t :: ts)).toList ++ comparisonsIn ts

def behindFilter (ts : List Token) : List Token :=
  (ts.dropWhile fun t => t.kind ≠ .keyword .filter).tail

theorem comparisonAt?_of_sign {t sign : Token} {ts : List Token}
    (h : sign.kind.comparator? = none) : comparisonAt? (t :: sign :: ts) = none := by
  cases ts with
  | nil => rfl
  | cons value ts => simp [comparisonAt?, h]

theorem comparisonAt?_of_kind {t : Token} {ts : List Token} (h : t.kind ≠ .literal) :
    comparisonAt? (t :: ts) = none := by
  match ts with
  | [] | [_] => rfl
  | _ :: _ :: _ => simp [comparisonAt?, h]

namespace Recognizer

namespace State

def Begun : State → List Token → Prop
  | expectComparator field _, ts => ∃ t, ts = [t] ∧ t.kind = .literal ∧ t.literal = field
  | expectValue field op _, ts => ∃ t sign, ts = [t, sign] ∧ t.kind = .literal ∧
    t.literal = field ∧ sign.kind.comparator? = some op
  | _, ts => ts = []

def expectsComparator : State → Bool
  | expectComparator _ _ => true
  | _ => false

def outside : State → Bool
  | afterWhere _ | expectTerm _ | expectComparator _ _ | expectValue _ _ _ | afterTerm _ => false
  | _ => true

end State

variable {limit : Nat} {q r : State} {t : Token} {ts us : List Token} {es : List Event}

theorem comparisons_owed (q : State) : comparisonsTold q.owed = [] := by
  cases q <;> rfl

theorem comparisons_of_prefix_owed (h : es <+: q.owed) : comparisonsTold es = [] := by
  have hn : comparisonsTold es <+: comparisonsTold q.owed := h.filterMap _
  rw [comparisons_owed] at hn
  exact List.prefix_nil.1 hn

theorem Move.comparator?_eq_none (h : Move limit q t es r) (hq : q.expectsComparator = false) :
    t.kind.comparator? = none := by
  cases h with
  | comparator => cases hq
  | alternative ht | direction ht =>
      cases hk : t.kind with
      | keyword k =>
          cases k <;>
            simp_all [TokenKind.comparator?, TokenKind.alternative?, TokenKind.direction?]
      | endOfInput | symbol | literal =>
          simp [hk, TokenKind.alternative?, TokenKind.direction?] at ht
  | _ => simp_all [TokenKind.comparator?]

/-- No comparison begins with a token behind which no comparator is expected. -/
theorem Path.comparisonsIn_cons (p : Path limit q ts es r) (hq : q.expectsComparator = false)
    (t : Token) : comparisonsIn (t :: ts) = comparisonsIn ts := by
  have hn : comparisonAt? (t :: ts) = none := by
    cases p with
    | nil => rfl
    | cons h _ => exact comparisonAt?_of_sign ((move_of_step h).comparator?_eq_none hq)
  simp [comparisonsIn, hn]

theorem State.Begun.eq_nil_of_clauses {k : Keyword} (hb : q.Begun us) (hq : k ∈ q.clauses) :
    us = [] := by
  cases q with
  | expectComparator | expectValue => cases hq
  | _ => exact hb

theorem State.Begun.eq_nil_of_expectsTerm (hb : q.Begun us) (hq : q.expectsTerm = true) :
    us = [] := by
  cases q with
  | expectComparator | expectValue => cases hq
  | _ => exact hb

theorem Move.comparisons_begun (h : Move limit q t es r) (hq : q.Begun us) :
    ∃ vs, r.Begun vs ∧ ∀ ts fs s, Path limit r ts fs s →
      comparisonsIn (us ++ t :: ts) =
        comparisonsTold es ++ comparisonsIn (vs ++ ts) := by
  have ho := comparisons_owed q
  cases h with
  | operand he ht =>
      obtain rfl := hq.eq_nil_of_expectsTerm he
      exact ⟨[t], ⟨t, rfl, ht, rfl⟩, fun ts fs s p => by rw [ho]; rfl⟩
  | comparator ht =>
      obtain ⟨f, rfl, hf, rfl⟩ := hq
      exact ⟨[f, t], ⟨f, t, rfl, hf, rfl, ht⟩, fun ts fs s p => rfl⟩
  | @value _ op _ _ ht =>
      obtain ⟨f, sign, rfl, hf, rfl, hs⟩ := hq
      refine ⟨[], rfl, fun ts fs s p => ?_⟩
      have hn : sign.kind ≠ .literal := by
        intro hk
        simp [hk, TokenKind.comparator?] at hs
      have hc : comparisonAt? (f :: sign :: t :: ts) =
          some ⟨f.literal.unescaped, op, t.literal.unescaped⟩ := by
        simp only [comparisonAt?, hf, ht, hs, and_self, if_true, Option.map_some]
        rfl
      rw [List.nil_append, ← p.comparisonsIn_cons rfl t]
      simp only [List.cons_append, List.nil_append, comparisonsIn, hc, comparisonAt?_of_kind hn]
      rfl
  | select hc | filter hc | orderBy hc | limit hc | offset hc =>
      obtain rfl := hq.eq_nil_of_clauses hc
      exact ⟨[], rfl, fun ts fs s p => by rw [ho]; exact p.comparisonsIn_cons rfl t⟩
  | group he =>
      obtain rfl := hq.eq_nil_of_expectsTerm he
      refine ⟨[], rfl, fun ts fs s p => ?_⟩
      rw [comparisonsTold_append, ho]
      exact p.comparisonsIn_cons rfl t
  | _ =>
      obtain rfl := hq
      exact ⟨[], rfl, fun ts fs s p => p.comparisonsIn_cons rfl t⟩

theorem Path.comparisons (p : Path limit q ts es r) (hq : q.Begun us) :
    comparisonsTold es = comparisonsIn (us ++ ts) := by
  induction p generalizing us with
  | nil q =>
      rw [List.append_nil]
      cases q with
      | expectComparator field opened =>
          obtain ⟨t, rfl, -⟩ := hq
          rfl
      | expectValue field op opened =>
          obtain ⟨t, sign, rfl, -⟩ := hq
          rfl
      | _ =>
          obtain rfl := hq
          rfl
  | @cons q t e r ts es s h p ih =>
      obtain ⟨vs, hv, he⟩ := (move_of_step h).comparisons_begun hq
      rw [comparisonsTold_append, ih hv, he ts es s p]

theorem State.expectsTerm_of_outside (h : q.outside = true) : q.expectsTerm = false := by
  cases q with
  | afterWhere | expectTerm => cases h
  | _ => rfl

theorem Move.outside (h : Move limit q t es r) (hq : q.outside = true)
    (ht : t.kind ≠ .keyword .filter) :
    r.outside = true ∧ comparisonsTold es = [] := by
  have ho := comparisons_owed q
  cases h with
  | filter _ hk => exact absurd hk ht
  | select | orderBy | limit | offset => exact ⟨rfl, ho⟩
  | operand he | group he => cases he.symm.trans (State.expectsTerm_of_outside hq)
  | omits | comparator | value | and | alternative | close => cases hq
  | _ => exact ⟨rfl, rfl⟩

theorem Move.eq_afterWhere (h : Move limit q t es r) (ht : t.kind = .keyword .filter) :
    r = .afterWhere t.start ∧ es = q.owed := by
  cases h with
  | filter => exact ⟨rfl, rfl⟩
  | _ => simp_all [TokenKind.comparator?, TokenKind.alternative?, TokenKind.direction?]

theorem Path.comparisons_behindFilter (p : Path limit q ts es r) (hq : q.outside = true) :
    comparisonsTold es = comparisonsIn (behindFilter ts) := by
  induction p with
  | nil => rfl
  | @cons q t e r ts es s h p ih =>
      have hm := move_of_step h
      rw [comparisonsTold_append]
      by_cases ht : t.kind = .keyword .filter
      · obtain ⟨rfl, rfl⟩ := hm.eq_afterWhere ht
        rw [comparisons_owed, p.comparisons rfl]
        simp [behindFilter, ht]
      · obtain ⟨hr, he⟩ := hm.outside hq ht
        rw [he, ih hr]
        simp [behindFilter, ht]

end Recognizer

end FindExpr

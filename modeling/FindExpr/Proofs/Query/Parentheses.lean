import FindExpr.Proofs.Query.RoundTrip

namespace FindExpr

open Grammar Grammar.Phrase

abbrev Backed (xs ys : List Nat) : Prop := List.SublistForall₂ (· ≤ ·) xs ys

namespace Backed

variable {xs ys xs' ys' : List Nat}

theorem refl (xs : List Nat) : Backed xs xs := (List.Sublist.refl xs).sublistForall₂

theorem append (h : Backed xs ys) (h' : Backed xs' ys') : Backed (xs ++ xs') (ys ++ ys') := by
  obtain ⟨zs, hz, hs⟩ := List.sublistForall₂_iff.1 h
  obtain ⟨zs', hz', hs'⟩ := List.sublistForall₂_iff.1 h'
  exact List.sublistForall₂_iff.2 ⟨zs ++ zs', List.rel_append hz hz', hs.append hs'⟩

theorem trans {zs : List Nat} (h : Backed xs ys) (h' : Backed ys zs) : Backed xs zs :=
  List.SublistForall₂.is_trans.trans _ _ _ h h'

theorem length_le (h : Backed xs ys) : xs.length ≤ ys.length := by
  obtain ⟨zs, hz, hs⟩ := List.sublistForall₂_iff.1 h
  exact hz.length_eq ▸ hs.length_le

theorem forall_le (h : Backed xs ys) {n : Nat} (hy : ∀ y ∈ ys, y ≤ n) : ∀ x ∈ xs, x ≤ n := by
  induction h with
  | nil => simp
  | cons hxy _ ih =>
      rw [List.forall_mem_cons] at hy ⊢
      exact ⟨Nat.le_trans hxy hy.1, ih hy.2⟩
  | cons_right _ ih => exact ih (List.forall_mem_cons.1 hy).2

end Backed

namespace Condition

/-- The depths of the groups of an operand that has to hold together as tightly as `level`. -/
def operandGroups (level : Nat) (c : Condition) : Nat → List Nat :=
  encloseIf (c.level < level) c.groups

variable {c : Condition} {gs : List Nat} {depth : Nat}

theorem encloseIf_succ {gs : Nat → List Nat} (h : ∀ depth, Backed (gs depth) (gs (depth + 1)))
    (grouped : Bool) (depth : Nat) :
    Backed (encloseIf grouped gs depth) (encloseIf grouped gs (depth + 1)) := by
  cases grouped with
  | false => exact h depth
  | true => exact .cons (Nat.le_succ _) (h _)

theorem groups_succ (c : Condition) (depth : Nat) :
    Backed (c.groups depth) (c.groups (depth + 1)) := by
  induction c generalizing depth with
  | comparison => exact .nil
  | binary op lhs rhs ihl ihr => exact (encloseIf_succ ihl _ _).append (encloseIf_succ ihr _ _)

theorem operandGroups_zero : c.operandGroups 0 depth = c.groups depth := by
  simp [operandGroups, encloseIf]

theorem operandGroups_group (h : Backed (c.groups (depth + 1)) gs) (level : Nat) :
    Backed (c.operandGroups level depth) ((depth + 1) :: gs) := by
  unfold operandGroups encloseIf
  split
  · exact .cons (Nat.le_refl _) h
  · exact .cons_right ((c.groups_succ depth).trans h)

theorem operandGroups_mono {level level' : Nat} (h : level ≤ level') (c : Condition)
    (depth : Nat) : Backed (c.operandGroups level depth) (c.operandGroups level' depth) := by
  by_cases hl : c.level < level'
  · have hg := operandGroups_group (Backed.refl (c.groups (depth + 1))) level
    simpa [operandGroups, encloseIf, hl] using hg
  · have hn : ¬ c.level < level := fun hc => hl (Nat.lt_of_lt_of_le hc h)
    simpa [operandGroups, encloseIf, hl, hn] using Backed.refl (c.groups depth)

theorem operandGroups_binary {op : Connective} {level : Nat} (ho : op.level = level)
    {lhs rhs : Condition} {gs' : List Nat} (hl : Backed (lhs.operandGroups level depth) gs)
    (hr : Backed (rhs.operandGroups (level + 1) depth) gs') :
    Backed ((binary op lhs rhs).operandGroups level depth) (gs ++ gs') := by
  subst ho
  -- Among conditions of its own level a binary condition needs no parentheses, so its groups are
  -- those of its operands, of which the right one has to be of a higher level.
  have hn : ¬ (binary op lhs rhs).level < op.level := Nat.lt_irrefl _
  have h := hl.append hr
  simp only [operandGroups, hn, decide_false, Nat.lt_succ_iff] at h ⊢
  exact h

end Condition

namespace Grammar

def Phrase.groupless : Phrase → Bool
  | .token k => k != .symbol .leftParen && k != .symbol .rightParen
  | .rule _ => true
  | .seq p q => p.groupless && q.groupless
  | .alt p q => p.groupless && q.groupless
  | .opt p => p.groupless
  | .many p => p.groupless

def Balanced (ts : List Token) : Prop := ∀ depth, (kinds ts).foldl shift depth = depth

namespace Balanced

variable {p : Phrase} {n : Nonterminal} {ts us : List Token}

theorem append (ht : Balanced ts) (hu : Balanced us) : Balanced (ts ++ us) := by
  intro depth
  rw [kinds_append, List.foldl_append, ht, hu]

theorem of_groupless (d : Derivation p) (hp : p.groupless = true)
    (hd : d.Below fun _ d => Balanced d.tokens) : Balanced d.tokens := by
  induction d with
  | @token k t h =>
      subst h
      intro depth
      simp only [Phrase.groupless, Bool.and_eq_true, bne_iff_ne] at hp
      simp only [Derivation.tokens, kinds_cons, kinds_nil, List.foldl_cons, List.foldl_nil]
      unfold shift
      split
      · exact absurd ‹_› hp.1
      · exact absurd ‹_› hp.2
      · rfl
  | rule => exact hd
  | seq d e ihd ihe =>
      rw [Phrase.groupless, Bool.and_eq_true] at hp
      exact (ihd hp.1 hd.1).append (ihe hp.2 hd.2)
  | left d ih =>
      rw [Phrase.groupless, Bool.and_eq_true] at hp
      exact ih hp.1 hd
  | right d ih =>
      rw [Phrase.groupless, Bool.and_eq_true] at hp
      exact ih hp.2 hd
  | present d ih => exact ih hp hd
  | absent | done => exact fun _ => rfl
  | more d e ihd ihe => exact (ihd hp hd.1).append (ihe hp hd.2)

theorem of_rule (d : Derivation (body n)) (hd : d.Below fun _ d => Balanced d.tokens) :
    Balanced (Derivation.rule d).tokens := by
  cases n with
  | term =>
      rcases d.group_or_comparison with ⟨l, hl, c, r, hr, rfl⟩ | ⟨f, hf, c, v, hv, rfl⟩
      · intro depth
        have hc := Derivation.below_rule.1 hd.2.1 (depth + 1)
        simp [Derivation.tokens, hl, hr, shift, hc]
      · exact of_groupless (p := .seq string (.seq (.rule .comparator) string)) _ rfl hd
  | _ => exact of_groupless d rfl hd

theorem of_derivation (d : Derivation p) (hp : p.groupless = true) : Balanced d.tokens :=
  of_groupless d hp (Derivation.below_induction (fun _ => of_rule) d)

theorem groups_append (ht : Balanced ts) (depth : Nat) (w : List TokenKind) :
    groups depth (kinds ts ++ w) = groups depth (kinds ts) ++ groups depth w := by
  rw [Grammar.groups_append, ht]

end Balanced

/-- Each group that an operand takes where a rule stands is backed by a group of the rule. -/
def Backs : ∀ n, Derivation (.rule n) → Prop
  | .term, d => ∀ depth, Backed (d.value.operandGroups 2 depth) (groups depth (kinds d.tokens))
  | .conjunction, d => ∀ depth,
    Backed (d.value.operandGroups 1 depth) (groups depth (kinds d.tokens))
  | .condition, d => ∀ depth, Backed (d.value.operandGroups 0 depth) (groups depth (kinds d.tokens))
  | _, _ => True

variable {joined : Condition} {gs : List Nat} {depth : Nat}

theorem backs_term (d : Derivation (body .term)) (hd : d.Below Backs) : Backs .term (.rule d) := by
  intro depth
  rcases d.group_or_comparison with ⟨l, hl, c, r, hr, rfl⟩ | ⟨f, hf, c, v, hv, rfl⟩
  · have hb : Balanced c.tokens := .of_derivation c rfl
    have hg : groups depth (kinds (l :: (c.tokens ++ [r]))) =
        (depth + 1) :: groups (depth + 1) (kinds c.tokens) := by
      rw [kinds_cons, kinds_append, groups, if_pos hl, hb.groups_append]
      simp [groups, hr]
    have hc := Derivation.below_rule.1 hd.2.1 (depth + 1)
    rw [Condition.operandGroups_zero] at hc
    have ht := Condition.operandGroups_group hc 2
    rw [← hg] at ht
    exact ht
  · exact .nil

/-- Each of the terms that follow joins all that stands before it as one left operand, so backing
goes on from the groups `gs` that have been passed so far. -/
theorem backs_moreTerms (d : Derivation moreTerms) (hd : d.Below Backs)
    (h : Backed (joined.operandGroups 1 depth) gs) :
    let all := (d.fold valueOf).foldl (fun joined (_, next) => .binary .and joined next) joined
    Backed (all.operandGroups 1 depth) (gs ++ groups depth (kinds d.tokens)) := by
  induction d using Derivation.many_induction generalizing joined gs with
  | done =>
      rw [← List.append_nil gs] at h
      exact h
  | more d e ih =>
      obtain ⟨t, ht, d, rfl⟩ := d.exists_token_seq
      obtain ⟨⟨-, hd⟩, he⟩ := hd
      have hb : Balanced d.tokens := .of_derivation d rfl
      have hg : groups depth (kinds (t :: d.tokens ++ e.tokens)) =
          groups depth (kinds d.tokens) ++ groups depth (kinds e.tokens) := by
        rw [List.cons_append, kinds_cons, kinds_append, ht, ← hb.groups_append]
        rfl
      have hj : Backed ((Condition.binary .and joined d.value).operandGroups 1 depth)
          (gs ++ groups depth (kinds d.tokens)) :=
        Condition.operandGroups_binary rfl h (Derivation.below_rule.1 hd depth)
      have ha := ih he hj
      rw [List.append_assoc, ← hg] at ha
      exact ha

theorem backs_conjunction (d : Derivation (body .conjunction)) (hd : d.Below Backs) :
    Backs .conjunction (.rule d) := by
  intro depth
  obtain ⟨d, e, rfl⟩ := d.exists_seq
  have hb : Balanced d.tokens := .of_derivation d rfl
  have hf := Derivation.below_rule.1 hd.1 depth
  have h := backs_moreTerms e hd.2
    ((Condition.operandGroups_mono (Nat.le_succ 1) d.value depth).trans hf)
  rw [← hb.groups_append, ← kinds_append] at h
  exact h

theorem backs_moreConjunctions (d : Derivation moreConjunctions) (hd : d.Below Backs)
    (h : Backed (joined.operandGroups 0 depth) gs) :
    let all := (d.fold valueOf).foldl
      (fun joined (op, next) => .binary (alternativeOf op).1 joined next) joined
    Backed (all.operandGroups 0 depth) (gs ++ groups depth (kinds d.tokens)) := by
  induction d using Derivation.many_induction generalizing joined gs with
  | done =>
      rw [← List.append_nil gs] at h
      exact h
  | more d e ih =>
      obtain ⟨o, d, rfl⟩ := d.exists_seq
      obtain ⟨⟨-, hd⟩, he⟩ := hd
      obtain ⟨s, ho, hc, hs⟩ := o.exists_alternative
      have hb : Balanced d.tokens := .of_derivation d rfl
      have hg : groups depth (kinds (o.tokens ++ d.tokens ++ e.tokens)) =
          groups depth (kinds d.tokens) ++ groups depth (kinds e.tokens) := by
        have hn : Balanced o.tokens := .of_derivation o rfl
        have hk : groups depth (kinds o.tokens) = [] := by
          refine groups_eq_nil (fun hm => ?_) depth
          rw [ho, kinds_cons, kinds_nil, List.mem_singleton] at hm
          rw [← hm] at hc
          cases hc
        rw [List.append_assoc, kinds_append, hn.groups_append, hk, kinds_append, hb.groups_append]
        rfl
      have hl : (alternativeOf s).1.level = 0 := by cases s <;> rfl
      have hj := Condition.operandGroups_binary hl h (Derivation.below_rule.1 hd depth)
      have ha := ih he hj
      rw [List.append_assoc, ← hg] at ha
      simp only [Derivation.fold, hs]
      exact ha

theorem backs_condition (d : Derivation (body .condition)) (hd : d.Below Backs) :
    Backs .condition (.rule d) := by
  intro depth
  obtain ⟨d, e, rfl⟩ := d.exists_seq
  have hb : Balanced d.tokens := .of_derivation d rfl
  have hf := Derivation.below_rule.1 hd.1 depth
  have h := backs_moreConjunctions e hd.2
    ((Condition.operandGroups_mono (Nat.le_succ 0) d.value depth).trans hf)
  rw [← hb.groups_append, ← kinds_append] at h
  exact h

theorem backs (d : Derivation (.rule .condition)) (depth : Nat) :
    Backed (d.value.groups depth) (groups depth (kinds d.tokens)) := by
  rw [← Condition.operandGroups_zero]
  refine Derivation.rule_induction (P := Backs) (fun n d hd => ?_) d depth
  cases n with
  | term => exact backs_term d hd
  | conjunction => exact backs_conjunction d hd
  | condition => exact backs_condition d hd
  | _ => trivial

theorem backed_infix {ts us : List Token} (ht : Balanced ts) (hu : Balanced us)
    (h : Backed gs (groups depth (kinds us))) (vs : List Token) :
    Backed gs (groups depth (kinds (ts ++ (us ++ vs)))) := by
  have hn : Backed [] (groups depth (kinds vs)) := .nil
  rw [kinds_append, ht.groups_append, kinds_append, hu.groups_append, ← List.nil_append gs,
    ← List.append_nil gs]
  exact Backed.append .nil (h.append hn)

theorem backs_query (d : Derivation (.rule .query)) {q : Query} (hv : d.value = some q) :
    (q.omits = true → q.condition.isSome = true) ∧
      Backed ((q.condition.map (·.groups 0)).getD []) (groups 0 (kinds d.tokens)) := by
  obtain ⟨s, f, o, l, x, rfl⟩ := d.exists_query
  have hq : q.omits = ((f.fold valueOf).map (·.1)).getD false ∧
      q.condition = (f.fold valueOf).map (·.2) := by
    simp only [Derivation.value_rule, Derivation.fold, valueOf, Option.bind_eq_some_iff,
      Option.map_eq_some_iff] at hv
    obtain ⟨_, -, _, -, rfl⟩ := hv
    exact ⟨rfl, rfl⟩
  rw [hq.1, hq.2]
  have hs : Balanced s.tokens := .of_derivation s rfl
  have hb : Balanced f.tokens := .of_derivation f rfl
  rcases f.absent_or_present with rfl | ⟨f, rfl⟩
  · exact ⟨fun h => (by simp [Derivation.fold] at h), .nil⟩
  · refine ⟨fun _ => rfl, backed_infix hs hb ?_ _⟩
    obtain ⟨w, hw, m, c, rfl⟩ := f.exists_filter
    have hm : Balanced (w :: m.tokens) := .of_derivation (.seq (.token w hw) m) rfl
    have h := backed_infix hm (.of_derivation c rfl) (backs c 0) []
    rw [List.append_nil] at h
    exact h

end Grammar

def tokenKinds (source : String) : List TokenKind :=
  (tokenize source).filterMap fun item => item.toOption.map Token.kind

theorem groups_tokenKinds {source : String} {ts : List Token} {last : Token}
    (h : tokenize source = ts.map .ok ++ [.ok last]) (hl : last.isEnd = true) :
    groups 0 (tokenKinds source) = groups 0 (kinds ts) := by
  have hk : tokenKinds source = kinds ts ++ [.endOfInput] := by
    have he : last.kind = .endOfInput := eq_of_beq hl
    rw [tokenKinds, h, List.filterMap_append, List.filterMap_map]
    simp [Except.toOption, he, kinds]
  rw [hk, groups_append]
  exact List.append_nil _

theorem nesting_le_of_backed {u v : List TokenKind} (h : Backed (groups 0 u) (groups 0 v)) :
    nesting u ≤ nesting v := by
  rw [nesting, nestingFrom_le_iff_groups]
  exact ⟨Nat.zero_le _, h.forall_le (nestingFrom_le_iff_groups.1 (Nat.le_refl (nesting v))).2⟩

/-- Where a query is read from a source, it is read from its find expression under the same limit
for nesting. The find expression has no more groups than the source, and does not nest them
deeper. -/
theorem text_groups_le {limit : Nat} {source : String} {q : Query}
    (h : Query.parse limit source = .ok q) :
    Query.parse limit q.text = .ok q ∧
      (tokenKinds q.text).count (.symbol .leftParen) ≤
        (tokenKinds source).count (.symbol .leftParen) ∧
      nesting (tokenKinds q.text) ≤ nesting (tokenKinds source) := by
  obtain ⟨d, last, hw, ht, hl, hv, -⟩ := exists_derivation_of_parse h
  obtain ⟨hq, hb⟩ := backs_query d hv
  obtain ⟨e, last', ht', hl', hv', hk⟩ := exists_derivation hq
  rw [← groups_query, ← hk] at hb
  refine ⟨?_, ?_, ?_⟩
  · exact parse_of_derivation e ⟨e.derives, Nat.le_trans (nesting_le_of_backed hb) hw.nesting_le⟩
      ht' hl' hv'
  · rw [← length_groups 0, ← length_groups 0, groups_tokenKinds ht hl, groups_tokenKinds ht' hl']
    exact hb.length_le
  · apply nesting_le_of_backed
    rwa [groups_tokenKinds ht hl, groups_tokenKinds ht' hl']

theorem text_groups_le_redundant :
    let comparison (field value : String) : Condition := .comparison ⟨field, .eq, value⟩
    let kept : Condition :=
      .binary .or (comparison "a" "1") (.binary .and (comparison "b" "2") (comparison "c" "3"))
    let q : Query := ⟨[], false, some (.binary .and kept (comparison "d" "4")), [], none, none⟩
    let source := "where ((a=1) or (b=2 and c=3)) and ((d=4))"
    q.text = "WHERE (a=1 OR b=2 AND c=3) AND d=4" ∧
      Query.parse 2 source = .ok q ∧ Query.parse 2 q.text = .ok q ∧
      (tokenKinds source).count (.symbol .leftParen) = 5 ∧
      (tokenKinds q.text).count (.symbol .leftParen) ≤ 5 ∧
      nesting (tokenKinds q.text) ≤ 2 := by
  intro comparison kept q source
  have h : Query.parse 2 source = .ok q := by decide +kernel
  obtain ⟨ht, hc, hn⟩ := text_groups_le h
  have hs : (tokenKinds source).count (.symbol .leftParen) = 5 := by decide +kernel
  have hd : nesting (tokenKinds source) = 2 := by decide +kernel
  exact ⟨by decide +kernel, h, ht, hs, hs ▸ hc, hd ▸ hn⟩

end FindExpr

import FindExpr.Proofs.Grammar.Value
import FindExpr.Proofs.Query.Rendering

namespace FindExpr.Grammar

open FindExpr.Grammar.Derivation Lexeme Phrase

def Means (n : Nonterminal) (ts : List Token) (v : ValueSem n) : Prop :=
  ∃ d : Derivation (.rule n), d.tokens = ts ∧ d.value = v

variable {t l r : Token} {ts us vs : List Token} {c lhs rhs : Condition}

theorem kind_of_ofKind {k : TokenKind} (h : t.lexeme = ofKind k) : t.kind = k :=
  congrArg Lexeme.kind h

theorem unescaped_of_ofValue {v : String} (h : t.lexeme = ofValue v) :
    t.kind = .literal ∧ t.unescaped = v := by
  have hv := congrArg Lexeme.value h
  have hq := congrArg Lexeme.quote h
  have hk := congrArg Lexeme.kind h
  simp only [Token.lexeme] at hv hq hk
  cases hs : standsBare v.toList with
  | true =>
      rw [ofValue, if_pos hs] at hv hq hk
      exact ⟨hk, by rw [Token.unescaped, hq]; exact String.toList_inj.1 hv⟩
  | false =>
      rw [ofValue, if_neg (by simp [hs])] at hv hq hk
      refine ⟨hk, ?_⟩
      rw [Token.unescaped, hq, meaning, hv, unescape_escape, String.ofList_toList]

namespace Means

theorem comparator {op : Comparator} (h : t.kind = op.kind) : Means .comparator [t] op := by
  cases op with
  | eq => exact ⟨.rule (.left (.token t h)), rfl, rfl⟩
  | lt => exact ⟨.rule (.right (.left (.token t h))), rfl, rfl⟩
  | gt => exact ⟨.rule (.right (.right (.left (.token t h)))), rfl, rfl⟩
  | le => exact ⟨.rule (.right (.right (.right (.left (.token t h))))), rfl, rfl⟩
  | ge => exact ⟨.rule (.right (.right (.right (.right (.left (.token t h)))))), rfl, rfl⟩
  | like => exact ⟨.rule (.right (.right (.right (.right (.right (.token t h)))))), rfl, rfl⟩

theorem comparison {c : Comparison} (h : ts.map Token.lexeme = c.lexemes) :
    Means .term ts (.comparison c) := by
  obtain ⟨f, ts, rfl, hf, h⟩ := List.map_eq_cons_iff.1 h
  obtain ⟨o, ts, rfl, ho, h⟩ := List.map_eq_cons_iff.1 h
  obtain ⟨v, rfl, hv⟩ := List.map_eq_singleton_iff.1 h
  obtain ⟨hf, hfv⟩ := unescaped_of_ofValue hf
  obtain ⟨hv, hvv⟩ := unescaped_of_ofValue hv
  obtain ⟨d, hd, hdv⟩ := comparator (kind_of_ofKind ho)
  refine ⟨.rule (.right (.seq (.token f hf) (.seq d (.token v hv)))), ?_, ?_⟩
  · simp [tokens, hd]
  · simp [fold, valueOf, hfv, hvv, hdv]

theorem group (h : Means .condition ts c) (hl : l.kind = .symbol .leftParen)
    (hr : r.kind = .symbol .rightParen) : Means .term (l :: ts ++ [r]) c := by
  obtain ⟨d, rfl, rfl⟩ := h
  exact ⟨.rule (.left (.seq (.token l hl) (.seq d (.token r hr)))), by simp [tokens], rfl⟩

theorem conjunction (h : Means .term ts c) : Means .conjunction ts c := by
  obtain ⟨d, rfl, rfl⟩ := h
  exact ⟨.rule (.seq d .done), by simp [tokens], rfl⟩

theorem condition (h : Means .conjunction ts c) : Means .condition ts c := by
  obtain ⟨d, rfl, rfl⟩ := h
  exact ⟨.rule (.seq d .done), by simp [tokens], rfl⟩

theorem and (h : Means .conjunction us lhs) (ht : t.kind = .keyword .and)
    (h' : Means .term vs rhs) : Means .conjunction (us ++ t :: vs) (.binary .and lhs rhs) := by
  obtain ⟨d, rfl, rfl⟩ := h
  obtain ⟨e, rfl, rfl⟩ := h'
  obtain ⟨d, rfl⟩ := d.exists_rule
  obtain ⟨first, more, rfl⟩ := d.exists_seq
  obtain ⟨more', hm, hv⟩ := exists_snoc valueOf more (.seq (.token t ht) e)
  refine ⟨.rule (.seq first more'), ?_, ?_⟩
  · simp [tokens, hm]
  · simp [fold, valueOf, hv]

theorem join {op : Connective} (hop : op ≠ .and) (h : Means .condition us lhs)
    (ht : t.kind = op.kind) (h' : Means .conjunction vs rhs) :
    Means .condition (us ++ t :: vs) (.binary op lhs rhs) := by
  obtain ⟨d, rfl, rfl⟩ := h
  obtain ⟨e, rfl, rfl⟩ := h'
  obtain ⟨d, rfl⟩ := d.exists_rule
  obtain ⟨first, more, rfl⟩ := d.exists_seq
  have hs : ∃ s : Derivation (.alt (word .or) (word .omits)), s.tokens = [t] ∧
      (alternativeOf (s.fold valueOf)).1 = op := by
    cases op with
    | and => exact absurd rfl hop
    | or => exact ⟨.left (.token t ht), rfl, rfl⟩
    | omits => exact ⟨.right (.token t ht), rfl, rfl⟩
  obtain ⟨s, hs, hsv⟩ := hs
  obtain ⟨more', hm, hv⟩ := exists_snoc valueOf more (.seq s e)
  refine ⟨.rule (.seq first more'), ?_, ?_⟩
  · simp [tokens, hm, hs]
  · simp [fold, valueOf, hv, hsv]

end Means

/-- What the tokens of a condition are, depending on how tightly its parts hold together. -/
structure Fits (c : Condition) (ts : List Token) : Prop where
  condition : Means .condition ts c
  conjunction : 1 ≤ c.level → Means .conjunction ts c
  term : 2 ≤ c.level → Means .term ts c

namespace Fits

theorem term_of_group {grouped : Bool}
    (ih : ∀ ts, ts.map Token.lexeme = c.lexemes → Fits c ts)
    (h : ts.map Token.lexeme = Condition.groupIf grouped c.lexemes)
    (hg : grouped = false → 2 ≤ c.level) : Means .term ts c := by
  cases grouped with
  | false => exact (ih ts h).term (hg rfl)
  | true =>
      obtain ⟨l, ts, rfl, hl, h⟩ := List.map_eq_cons_iff.1 h
      obtain ⟨us, vs, rfl, hu, hv⟩ := List.map_eq_append_iff.1 h
      obtain ⟨r, rfl, hr⟩ := List.map_eq_singleton_iff.1 hv
      exact (ih us hu).condition.group (kind_of_ofKind hl) (kind_of_ofKind hr)

theorem conjunction_of_group {grouped : Bool}
    (ih : ∀ ts, ts.map Token.lexeme = c.lexemes → Fits c ts)
    (h : ts.map Token.lexeme = Condition.groupIf grouped c.lexemes)
    (hg : grouped = false → 1 ≤ c.level) : Means .conjunction ts c := by
  cases grouped with
  | false => exact (ih ts h).conjunction (hg rfl)
  | true => exact (term_of_group ih h (by simp)).conjunction

theorem of_lexemes (c : Condition) : ∀ ts, ts.map Token.lexeme = c.lexemes → Fits c ts := by
  induction c with
  | comparison c =>
      intro ts h
      have ht : Means .term ts (.comparison c) := .comparison h
      exact ⟨ht.conjunction.condition, fun _ => ht.conjunction, fun _ => ht⟩
  | binary op lhs rhs ihl ihr =>
      -- Both lists of the grammar grow at their end, so the left operand is what has been read
      -- before and stays as it is; only the right operand has to be closed in itself.
      intro ts h
      obtain ⟨us, vs, rfl, hu, h⟩ := List.map_eq_append_iff.1 h
      obtain ⟨t, vs, rfl, ht, hv⟩ := List.map_eq_cons_iff.1 h
      have ht := kind_of_ofKind ht
      by_cases ho : op = .and
      · subst ho
        have hl := conjunction_of_group ihl hu fun hg =>
          Nat.le_of_not_lt (of_decide_eq_false hg)
        have hr := term_of_group ihr hv fun hg => Nat.lt_of_not_le (of_decide_eq_false hg)
        have hc := hl.and ht hr
        exact ⟨hc.condition, fun _ => hc, fun hn => absurd hn (Nat.lt_irrefl 1)⟩
      · have hlevel : op.level = 0 := by cases op <;> first | rfl | exact absurd rfl ho
        have hl : Means .condition us lhs := by
          rw [hlevel] at hu
          exact (ihl us hu).condition
        have hr := conjunction_of_group ihr hv fun hg =>
          Nat.zero_lt_of_lt (Nat.lt_of_not_le (of_decide_eq_false hg))
        have hlt : ¬ 1 ≤ (Condition.binary op lhs rhs).level := by simp [Condition.level, hlevel]
        exact ⟨hl.join ho ht hr, fun hn => absurd hn hlt, fun hn => absurd hn (by omega)⟩

end Fits

theorem exists_many {p : Phrase} {α : Type} {f : α → List Lexeme} {g : Meaning ValueSem p → α}
    (h : ∀ a ts, ts.map Token.lexeme = f a →
      ∃ d : Derivation p, d.tokens = ts ∧ g (d.fold valueOf) = a) :
    ∀ (as : List α) (ts : List Token), ts.map Token.lexeme = as.flatMap f →
      ∃ d : Derivation (.many p), d.tokens = ts ∧ (d.fold valueOf).map g = as := by
  intro as
  induction as with
  | nil =>
      intro ts ht
      exact ⟨.done, (List.map_eq_nil_iff.1 ht).symm, rfl⟩
  | cons a as ih =>
      intro ts ht
      obtain ⟨us, vs, rfl, hu, hv⟩ := List.map_eq_append_iff.1 ht
      obtain ⟨d, rfl, hd⟩ := h a us hu
      obtain ⟨e, rfl, he⟩ := ih vs hv
      exact ⟨.more d e, rfl, by simp [fold, hd, he]⟩

theorem exists_commaJoin {p : Phrase} {α : Type} {f : α → List Lexeme}
    {g : Meaning ValueSem p → α}
    (h : ∀ a ts, ts.map Token.lexeme = f a →
      ∃ d : Derivation p, d.tokens = ts ∧ g (d.fold valueOf) = a) {a : α} {as : List α}
    (ht : ts.map Token.lexeme = Query.commaJoin ((a :: as).map f)) :
    ∃ (d : Derivation p) (e : Derivation (.many (.seq (sign .comma) p))),
      d.tokens ++ e.tokens = ts ∧ g (d.fold valueOf) = a ∧
        (e.fold valueOf).map (fun x => g x.2) = as := by
  rw [Query.commaJoin, List.map_cons, intercalate_cons, List.flatMap_map] at ht
  obtain ⟨us, vs, rfl, hu, hv⟩ := List.map_eq_append_iff.1 ht
  obtain ⟨d, rfl, hd⟩ := h a us hu
  have hc : ∀ a ts, ts.map Token.lexeme = [ofKind (.symbol .comma)] ++ f a →
      ∃ e : Derivation (.seq (sign .comma) p), e.tokens = ts ∧ g (e.fold valueOf).2 = a := by
    intro a ts ht
    obtain ⟨c, ts, rfl, hk, ht⟩ := List.map_eq_cons_iff.1 ht
    obtain ⟨e, rfl, he⟩ := h a ts ht
    exact ⟨.seq (.token c (kind_of_ofKind hk)) e, rfl, he⟩
  obtain ⟨e, rfl, he⟩ :=
    exists_many (p := .seq (sign .comma) p) (g := fun x => g x.2) hc as vs hv
  exact ⟨d, e, rfl, hd, he⟩

theorem Means.select {field : String} {fields : List String}
    (h : ts.map Token.lexeme =
      ofKind (.keyword .select) :: Query.commaJoin ((field :: fields).map ([ofValue ·]))) :
    Means .select ts (field :: fields) := by
  obtain ⟨w, ts, rfl, hw, ht⟩ := List.map_eq_cons_iff.1 h
  have hs : ∀ (v : String) (us : List Token), us.map Token.lexeme = [ofValue v] →
      ∃ d : Derivation string, d.tokens = us ∧ Token.unescaped (d.fold valueOf) = v := by
    intro v us hu
    obtain ⟨t, rfl, ht⟩ := List.map_eq_singleton_iff.1 hu
    obtain ⟨hk, hv⟩ := unescaped_of_ofValue ht
    exact ⟨.token t hk, rfl, hv⟩
  obtain ⟨d, e, rfl, hd, he⟩ := exists_commaJoin hs ht
  exact ⟨.rule (.seq (.token w (kind_of_ofKind hw)) (.seq d e)), rfl,
    List.cons_eq_cons.2 ⟨hd, (List.map_map ..).trans he⟩⟩

theorem exists_sortKey (k : SortKey) (ts : List Token) (h : ts.map Token.lexeme = k.lexemes) :
    ∃ d : Derivation sortKey, d.tokens = ts ∧ sortKeyOf (d.fold valueOf) = k := by
  obtain ⟨field, direction⟩ := k
  cases direction with
  | none =>
      obtain ⟨f, rfl, hf⟩ := List.map_eq_singleton_iff.1 h
      obtain ⟨hk, hv⟩ := unescaped_of_ofValue hf
      exact ⟨.seq (.token f hk) .absent, rfl, congrArg (SortKey.mk · none) hv⟩
  | some direction =>
      obtain ⟨f, ts, rfl, hf, h⟩ := List.map_eq_cons_iff.1 h
      obtain ⟨t, rfl, ht⟩ := List.map_eq_singleton_iff.1 h
      obtain ⟨hk, hv⟩ := unescaped_of_ofValue hf
      have hd : ∃ d : Derivation (.alt (word .asc) (word .desc)), d.tokens = [t] ∧
          directionOf (d.fold valueOf) = direction := by
        cases direction with
        | ascending => exact ⟨.left (.token t (kind_of_ofKind ht)), rfl, rfl⟩
        | descending => exact ⟨.right (.token t (kind_of_ofKind ht)), rfl, rfl⟩
      obtain ⟨d, hd, hdv⟩ := hd
      refine ⟨.seq (.token f hk) (.present d), by simp [tokens, hd], ?_⟩
      simp [fold, sortKeyOf, hv, hdv]

theorem Means.orderBy {key : SortKey} {keys : List SortKey}
    (h : ts.map Token.lexeme =
      ofKind (.keyword .orderBy) :: Query.commaJoin ((key :: keys).map SortKey.lexemes)) :
    Means .orderBy ts (key :: keys) := by
  obtain ⟨w, ts, rfl, hw, ht⟩ := List.map_eq_cons_iff.1 h
  obtain ⟨d, e, rfl, hd, he⟩ := exists_commaJoin exists_sortKey ht
  exact ⟨.rule (.seq (.token w (kind_of_ofKind hw)) (.seq d e)), rfl,
    List.cons_eq_cons.2 ⟨hd, (List.map_map ..).trans he⟩⟩

theorem Means.filter {omits : Bool}
    (h : ts.map Token.lexeme = ofKind (.keyword .filter) ::
      (if omits then [ofKind (.keyword .omits)] else []) ++ c.lexemes) :
    Means .filter ts (omits, c) := by
  obtain ⟨w, ts, rfl, hw, h⟩ := List.map_eq_cons_iff.1 h
  obtain ⟨us, vs, rfl, hu, hv⟩ := List.map_eq_append_iff.1 h
  obtain ⟨d, rfl, rfl⟩ := (Fits.of_lexemes c vs hv).condition
  have ho : ∃ o : Derivation (.opt (word .omits)), o.tokens = us ∧
      (o.fold valueOf : Option Token).isSome = omits := by
    cases omits with
    | false => exact ⟨.absent, (List.map_eq_nil_iff.1 hu).symm, rfl⟩
    | true =>
        obtain ⟨o, rfl, ho⟩ := List.map_eq_singleton_iff.1 hu
        exact ⟨.present (.token o (kind_of_ofKind ho)), rfl, rfl⟩
  obtain ⟨o, rfl, rfl⟩ := ho
  exact ⟨.rule (.seq (.token w (kind_of_ofKind hw)) (.seq o d)), rfl, rfl⟩

theorem countOf_toDigits {n : UInt64} {l : Literal}
    (h : l.unescaped = String.ofList (Nat.toDigits 10 n.toNat)) : countOf l = some n := by
  have hd := Text.isDigit_of_mem_toDigits (n := n.toNat)
  have hv : Nat.ofDigitChars 10 (Nat.toDigits 10 n.toNat) 0 = n.toNat :=
    Nat.ofDigitChars_ten_toDigits
  rw [countOf, h, String.toList_ofList, Text.unsigned_of_isDigit hd, hv]
  simp [Nat.toDigits_ne_nil, List.all_eq_true.2 hd, n.toNat_lt]

theorem absent_or_count {k : Keyword} {n : Option UInt64}
    (h : ts.map Token.lexeme = (Query.countLexemes k n).flatten) :
    ts = [] ∧ n = none ∨ ∃ w t m, ts = [w, t] ∧ w.kind = .keyword k ∧ t.kind = .literal ∧
      n = some m ∧ countOf t.literal = some m := by
  cases n with
  | none => exact .inl ⟨List.map_eq_nil_iff.1 h, rfl⟩
  | some m =>
      obtain ⟨w, ts, rfl, hw, h⟩ := List.map_eq_cons_iff.1 h
      obtain ⟨t, rfl, ht⟩ := List.map_eq_singleton_iff.1 h
      obtain ⟨hk, hv⟩ := unescaped_of_ofValue ht
      exact .inr ⟨w, t, m, rfl, kind_of_ofKind hw, hk, rfl, countOf_toDigits hv⟩

def OptMeans (n : Nonterminal) (ts : List Token) (v : Option (ValueSem n)) : Prop :=
  ∃ d : Derivation (.opt (.rule n)), d.tokens = ts ∧ d.fold valueOf = v

namespace OptMeans

theorem absent {n : Nonterminal} : OptMeans n [] none := ⟨.absent, rfl, rfl⟩

theorem present {n : Nonterminal} {v : ValueSem n} (h : Means n ts v) :
    OptMeans n ts (some v) := by
  obtain ⟨d, rfl, rfl⟩ := h
  exact ⟨.present d, rfl, rfl⟩

theorem select {fields : List String}
    (h : ts.map Token.lexeme = (Query.selectLexemes fields).flatten) :
    ∃ v, OptMeans .select ts v ∧ v.getD [] = fields := by
  cases fields with
  | nil =>
      rw [List.map_eq_nil_iff.1 h]
      exact ⟨none, absent, rfl⟩
  | cons field fields => exact ⟨_, present (.select (h.trans (List.append_nil _))), rfl⟩

theorem filter {omits : Bool} {condition : Option Condition}
    (hc : omits = true → condition.isSome = true)
    (h : ts.map Token.lexeme = (Query.filterLexemes omits condition).flatten) :
    ∃ v, OptMeans .filter ts v ∧ (v.map (·.1)).getD false = omits ∧ v.map (·.2) = condition := by
  cases condition with
  | none =>
      rw [List.map_eq_nil_iff.1 h]
      have ho : omits = false := by simpa using hc
      exact ⟨none, absent, ho.symm, rfl⟩
  | some c => exact ⟨_, present (.filter (h.trans (List.append_nil _))), rfl, rfl⟩

theorem orderBy {keys : List SortKey}
    (h : ts.map Token.lexeme = (Query.sortLexemes keys).flatten) :
    ∃ v, OptMeans .orderBy ts v ∧ v.getD [] = keys := by
  cases keys with
  | nil =>
      rw [List.map_eq_nil_iff.1 h]
      exact ⟨none, absent, rfl⟩
  | cons key keys => exact ⟨_, present (.orderBy (h.trans (List.append_nil _))), rfl⟩

theorem limit {n : Option UInt64}
    (h : ts.map Token.lexeme = (Query.countLexemes .limit n).flatten) :
    ∃ v, OptMeans .limit ts v ∧ optionalCount v = some n := by
  rcases absent_or_count h with ⟨rfl, rfl⟩ | ⟨w, t, m, rfl, hw, ht, rfl, hm⟩
  · exact ⟨none, absent, rfl⟩
  · exact ⟨_, present ⟨.rule (.seq (.token w hw) (.token t ht)), rfl, rfl⟩,
      congrArg (Option.map some) hm⟩

theorem offset {n : Option UInt64}
    (h : ts.map Token.lexeme = (Query.countLexemes .offset n).flatten) :
    ∃ v, OptMeans .offset ts v ∧ optionalCount v = some n := by
  rcases absent_or_count h with ⟨rfl, rfl⟩ | ⟨w, t, m, rfl, hw, ht, rfl, hm⟩
  · exact ⟨none, absent, rfl⟩
  · exact ⟨_, present ⟨.rule (.seq (.token w hw) (.token t ht)), rfl, rfl⟩,
      congrArg (Option.map some) hm⟩

end OptMeans

theorem means_query {q : Query} (hq : q.omits = true → q.condition.isSome = true)
    (h : ts.map Token.lexeme = q.lexemes) : Means .query ts (some q) := by
  simp only [Query.lexemes, Query.clauseLexemes, List.flatten_append, List.append_assoc] at h
  obtain ⟨ts₁, ts, rfl, h₁, h⟩ := List.map_eq_append_iff.1 h
  obtain ⟨ts₂, ts, rfl, h₂, h⟩ := List.map_eq_append_iff.1 h
  obtain ⟨ts₃, ts, rfl, h₃, h⟩ := List.map_eq_append_iff.1 h
  obtain ⟨ts₄, ts₅, rfl, h₄, h₅⟩ := List.map_eq_append_iff.1 h
  obtain ⟨v₁, ⟨s, rfl, rfl⟩, hs⟩ := OptMeans.select h₁
  obtain ⟨v₂, ⟨f, rfl, rfl⟩, ho, hc⟩ := OptMeans.filter hq h₂
  obtain ⟨v₃, ⟨o, rfl, rfl⟩, hk⟩ := OptMeans.orderBy h₃
  obtain ⟨v₄, ⟨l, rfl, rfl⟩, hl⟩ := OptMeans.limit h₄
  obtain ⟨v₅, ⟨x, rfl, rfl⟩, hx⟩ := OptMeans.offset h₅
  refine ⟨.rule (.seq s (.seq f (.seq o (.seq l x)))), rfl, ?_⟩
  simp only [value_rule, fold, valueOf, hl, hx, hs, ho, hc, hk, Option.bind_some, Option.map_some]

end FindExpr.Grammar

import FindExpr.Proofs.Query.Capture
import FindExpr.Proofs.Recognizer.Comparisons

namespace FindExpr

open Grammar Grammar.Phrase Recognizer

def Tells : ∀ n, Derivation (.rule n) → Prop
  | .term, d => comparisonsTold d.events = d.value.leaves
  | .conjunction, d => comparisonsTold d.events = d.value.leaves
  | .condition, d => comparisonsTold d.events = d.value.leaves
  | _, _ => True

theorem tells_term (d : Derivation (body .term)) (hd : d.Below Tells) : Tells .term (.rule d) := by
  rcases d.group_or_comparison with ⟨l, hl, c, r, hr, rfl⟩ | ⟨f, hf, c, v, hv, rfl⟩
  · obtain ⟨-, hc, -⟩ := hd
    rw [Derivation.below_rule] at hc
    exact (comparisonsTold_concat rfl _).trans hc
  · have hc := Builder.value_comparator c
    simp only [Tells, Derivation.events_rule, Derivation.value_rule, Derivation.fold, eventsOf,
      valueOf, Derivation.fold_eventsOf, Derivation.fold_valueOf, hc]
    rfl

theorem leaves_moreTerms (d : Derivation moreTerms) (hd : d.Below Tells) (joined : Condition) :
    ((d.fold valueOf).foldl (fun joined (_, next) => .binary .and joined next) joined).leaves =
      joined.leaves ++ comparisonsTold ((d.fold eventsOf).flatMap fun (word, next) =>
        .connective .and word.start :: next) := by
  induction d using Derivation.many_induction generalizing joined with
  | done => exact (List.append_nil _).symm
  | more d e ih =>
      obtain ⟨t, ht, d, rfl⟩ := d.exists_token_seq
      obtain ⟨⟨-, hd⟩, he⟩ := hd
      rw [Derivation.below_rule] at hd
      have ha := comparisonsTold_append d.events
        ((e.fold eventsOf).flatMap fun (word, next) => .connective .and word.start :: next)
      rw [hd] at ha
      refine (ih he _).trans ?_
      rw [Condition.leaves, List.append_assoc]
      exact congrArg (joined.leaves ++ ·) ha.symm

theorem leaves_moreConjunctions (d : Derivation moreConjunctions) (hd : d.Below Tells)
    (joined : Condition) :
    ((d.fold valueOf).foldl
        (fun joined (op, next) => .binary (alternativeOf op).1 joined next) joined).leaves =
      joined.leaves ++ comparisonsTold ((d.fold eventsOf).flatMap fun (op, next) =>
        .connective (alternativeOf op).1 (alternativeOf op).2.start :: next) := by
  induction d using Derivation.many_induction generalizing joined with
  | done => exact (List.append_nil _).symm
  | more d e ih =>
      obtain ⟨o, d, rfl⟩ := d.exists_seq
      obtain ⟨⟨-, hd⟩, he⟩ := hd
      rw [Derivation.below_rule] at hd
      have ha := comparisonsTold_append d.events
        ((e.fold eventsOf).flatMap fun (op, next) =>
          .connective (alternativeOf op).1 (alternativeOf op).2.start :: next)
      rw [hd] at ha
      refine (ih he _).trans ?_
      rw [Condition.leaves, List.append_assoc]
      exact congrArg (joined.leaves ++ ·) ha.symm

theorem tells_conjunction (d : Derivation (body .conjunction)) (hd : d.Below Tells) :
    Tells .conjunction (.rule d) := by
  obtain ⟨d, e, rfl⟩ := d.exists_seq
  obtain ⟨hd, he⟩ := hd
  rw [Derivation.below_rule] at hd
  have hm := leaves_moreTerms e he d.value
  rw [← hd, ← comparisonsTold_append] at hm
  exact (comparisonsTold_concat rfl _).trans hm.symm

theorem tells_condition (d : Derivation (body .condition)) (hd : d.Below Tells) :
    Tells .condition (.rule d) := by
  obtain ⟨d, e, rfl⟩ := d.exists_seq
  obtain ⟨hd, he⟩ := hd
  rw [Derivation.below_rule] at hd
  have hm := leaves_moreConjunctions e he d.value
  rw [← hd, ← comparisonsTold_append] at hm
  exact (comparisonsTold_concat rfl _).trans hm.symm

theorem tells {n : Nonterminal} (d : Derivation (.rule n)) : Tells n d := by
  refine Derivation.rule_induction (fun n d hd => ?_) d
  cases n with
  | term => exact tells_term d hd
  | conjunction => exact tells_conjunction d hd
  | condition => exact tells_condition d hd
  | _ => trivial

theorem comparisonsTold_map {α : Type} {f : α → Event} (h : ∀ a, (f a).comparison? = none)
    (as : List α) : comparisonsTold (as.map f) = [] := by
  refine List.filterMap_eq_nil_iff.2 fun e he => ?_
  obtain ⟨a, -, rfl⟩ := List.mem_map.1 he
  exact h a

theorem comparisonsTold_select (d : Derivation (.opt (.rule .select))) :
    comparisonsTold ((d.fold eventsOf).getD []) = [] := by
  rcases d.absent_or_present with rfl | ⟨d, rfl⟩
  · rfl
  · obtain ⟨w, hw, f, hf, e, rfl⟩ := d.exists_select
    exact comparisonsTold_map (fun _ => rfl) _

theorem comparisonsTold_filter (d : Derivation (.opt (.rule .filter))) :
    comparisonsTold ((d.fold eventsOf).getD []) =
      ((d.fold valueOf).map (·.2)).elim [] Condition.leaves := by
  rcases d.absent_or_present with rfl | ⟨d, rfl⟩
  · rfl
  · obtain ⟨w, hw, o, c, rfl⟩ := d.exists_filter
    have hc : Tells .condition c := tells c
    exact hc

theorem comparisonsTold_orderBy (d : Derivation (.opt (.rule .orderBy))) :
    comparisonsTold ((d.fold eventsOf).getD []) = [] := by
  rcases d.absent_or_present with rfl | ⟨d, rfl⟩
  · rfl
  · obtain ⟨w, hw, k, e, rfl⟩ := d.exists_orderBy
    exact comparisonsTold_map (fun _ => rfl) _

theorem comparisonsTold_limit (d : Derivation (.opt (.rule .limit))) :
    comparisonsTold ((d.fold eventsOf).getD []) = [] := by
  rcases d.absent_or_present with rfl | ⟨d, rfl⟩
  · rfl
  · obtain ⟨w, hw, l, hl, rfl⟩ := d.exists_limit
    rfl

theorem comparisonsTold_offset (d : Derivation (.opt (.rule .offset))) :
    comparisonsTold ((d.fold eventsOf).getD []) = [] := by
  rcases d.absent_or_present with rfl | ⟨d, rfl⟩
  · rfl
  · obtain ⟨w, hw, l, hl, rfl⟩ := d.exists_offset
    rfl

theorem comparisonsTold_append_eq {es fs : List Event} {cs ds : List Comparison}
    (he : comparisonsTold es = cs) (hf : comparisonsTold fs = ds) :
    comparisonsTold (es ++ fs) = cs ++ ds := by
  rw [comparisonsTold_append, he, hf]

theorem comparisonsTold_query {q : Query} (d : Derivation (.rule .query)) (hv : d.value = some q) :
    comparisonsTold d.events = q.condition.elim [] Condition.leaves := by
  obtain ⟨s, f, o, l, x, rfl⟩ := d.exists_query
  obtain ⟨limit, -, hv⟩ := Option.bind_eq_some_iff.1 hv
  obtain ⟨offset, -, rfl⟩ := Option.map_eq_some_iff.1 hv
  have hf := comparisonsTold_append_eq (comparisonsTold_select s) (comparisonsTold_filter f)
  have ho := comparisonsTold_append_eq hf (comparisonsTold_orderBy o)
  have hl := comparisonsTold_append_eq ho (comparisonsTold_limit l)
  have hx := comparisonsTold_append_eq hl (comparisonsTold_offset x)
  simp only [List.nil_append, List.append_nil] at hx
  exact hx

variable {limit : Nat}

theorem comparisonsTold_derivation (d : Derivation (.rule .query))
    (hw : Sentence limit (kinds d.tokens)) :
    comparisonsTold d.events = comparisonsIn (behindFilter d.tokens) := by
  obtain ⟨es, r, p⟩ := path_of_sentence hw
  have hl : (Token.endOfInput .start .start).isEnd = true := rfl
  have hd := trace_of_derivation d hw hl []
  rw [trace, traceFrom_append p] at hd
  obtain ⟨hd, -⟩ := Outcome.mk.inj hd
  have hs : Stops limit r [.ok (.endOfInput .start .start)] := stops_of_isEnd limit r hl
  have ho := comparisons_of_prefix_owed (state_of_stop hs (lastStop .start d.tokens))
  rw [← hd, comparisonsTold_append, ho, List.append_nil, p.comparisons_behindFilter rfl]

/-- The loop over a condition ends, with the comparisons from left to right. Those of a query are
all that stand behind `WHERE` in its source, in the same order. -/
theorem comparisons_in_order :
    (∀ c : Condition, c.comparisons = c.leaves ∧ ∀ (n : Nat) (found : List Comparison),
      Condition.Visits n [] [c] found ↔ n = c.nodes ∧ found = c.comparisons) ∧
    ∀ (limit : Nat) (source : String) (q : Query), Query.parse limit source = .ok q →
      ∃ (tokens : List Token) (last : Token), tokenize source = tokens.map .ok ++ [.ok last] ∧
        last.isEnd = true ∧
        q.condition.elim [] Condition.comparisons = comparisonsIn (behindFilter tokens) := by
  constructor
  · exact fun c => ⟨c.comparisons_eq_leaves, fun _ _ => Condition.visits_iff⟩
  · intro limit source q h
    obtain ⟨d, last, hw, ht, hl, hv, -⟩ := exists_derivation_of_parse h
    refine ⟨d.tokens, last, ht, hl, ?_⟩
    rw [← comparisonsTold_derivation d hw, comparisonsTold_query d hv]
    cases q.condition with
    | none => rfl
    | some c => exact c.comparisons_eq_leaves

theorem comparisons_in_order_group :
    let c : Condition := .binary .and (.binary .or (.comparison ⟨"a", .eq, "1"⟩)
      (.comparison ⟨"b", .le, "2"⟩)) (.comparison ⟨"c", .eq, "3"⟩)
    let q : Query := ⟨[], true, some c, [], some 4, none⟩
    let source := "WHERE OMIT (a=1 OR b<=2) AND c=3 LIMIT 4"
    c.comparisons = [⟨"a", .eq, "1"⟩, ⟨"b", .le, "2"⟩, ⟨"c", .eq, "3"⟩] ∧
      Query.parse 1 source = .ok q ∧
      ∃ (tokens : List Token) (last : Token), tokenize source = tokens.map .ok ++ [.ok last] ∧
        last.isEnd = true ∧
        q.condition.elim [] Condition.comparisons = comparisonsIn (behindFilter tokens) :=
  ⟨Condition.comparisons_eq_leaves _, rfl, comparisons_in_order.2 1 _ _ rfl⟩

end FindExpr

import FindExpr.Proofs.Grammar.Unambiguous
import FindExpr.Proofs.Lexer.Items
import FindExpr.Proofs.Query.Conditions
import FindExpr.Proofs.Recognizer.Acceptance
import FindExpr.Proofs.Recognizer.Clauses
import FindExpr.Query.Builder

namespace FindExpr.Builder

open Grammar Grammar.Phrase Recognizer

theorem fold_moreFields (d : Derivation moreFields) :
    (d.fold eventsOf : List (Token × Token)) = d.fold valueOf := by
  induction d using Derivation.many_induction with
  | done => rfl
  | more d e ih =>
      obtain ⟨c, hc, f, rfl⟩ := d.exists_token_seq
      obtain ⟨f, hf, rfl⟩ := f.exists_token
      exact congrArg ((c, f) :: ·) ih

theorem fold_sortKey (d : Derivation sortKey) :
    (d.fold eventsOf : Token × Option (Token ⊕ Token)) = d.fold valueOf := by
  obtain ⟨f, hf, o, rfl⟩ := d.exists_token_seq
  rcases o.absent_or_present with rfl | ⟨o, rfl⟩
  · rfl
  · obtain ⟨t, s, -, -, hs⟩ := o.exists_direction
    simp only [Derivation.fold, hs]

theorem fold_moreSortKeys (d : Derivation moreSortKeys) :
    (d.fold eventsOf : List (Token × Token × Option (Token ⊕ Token))) = d.fold valueOf := by
  induction d using Derivation.many_induction with
  | done => rfl
  | more d e ih =>
      obtain ⟨c, hc, d, rfl⟩ := d.exists_token_seq
      have hk := fold_sortKey d
      simp only [Derivation.fold, ih, hk]

theorem tell_selectFields (names : List Token) (b : Builder) :
    tell add (names.map fun t => .selectField t.literal) b =
      ({ b with query.fields := b.query.fields ++ names.map Token.unescaped }, none) := by
  induction names generalizing b with
  | nil => simp [Recognizer.tell]
  | cons t names ih =>
      apply (tell_cons_of_accepted rfl _).trans
      apply (ih _).trans
      simp only [List.append_assoc, List.map_cons]
      rfl

theorem tell_sortKeys (keys : List (Token × Option (Token ⊕ Token))) (b : Builder) :
    tell add (keys.map sortEvent) b =
      ({ b with query.sort := b.query.sort ++ keys.map sortKeyOf }, none) := by
  induction keys generalizing b with
  | nil => simp [Recognizer.tell]
  | cons k keys ih =>
      apply (tell_cons_of_accepted rfl _).trans
      apply (ih _).trans
      simp only [List.append_assoc, List.map_cons]
      rfl

theorem tell_select (d : Derivation (.rule .select)) (b : Builder) :
    tell add d.events b = ({ b with query.fields := b.query.fields ++ d.value }, none) := by
  obtain ⟨w, hw, f, hf, e, rfl⟩ := d.exists_select
  simp only [Derivation.events_rule, Derivation.value_rule, Derivation.fold, eventsOf, valueOf,
    fold_moreFields]
  exact tell_selectFields ..

theorem tell_filter (d : Derivation (.rule .filter)) (q : Query) :
    tell add d.events ⟨q, []⟩ =
      (⟨{ q with omits := d.value.1, condition := some d.value.2 }, []⟩, none) := by
  obtain ⟨w, hw, o, c, rfl⟩ := d.exists_filter
  have ho : ((o.fold eventsOf).isSome : Bool) = (o.fold valueOf).isSome := by
    rcases o.absent_or_present with rfl | ⟨o, rfl⟩ <;> rfl
  have hc : Captures .condition c := captures c
  simp only [Derivation.events_rule, Derivation.value_rule, Derivation.fold, eventsOf, valueOf,
    ho, Derivation.fold_eventsOf, Derivation.fold_valueOf]
  exact (tell_cons_of_accepted rfl _).trans (hc _)

theorem tell_orderBy (d : Derivation (.rule .orderBy)) (b : Builder) :
    tell add d.events b = ({ b with query.sort := b.query.sort ++ d.value }, none) := by
  obtain ⟨w, hw, k, e, rfl⟩ := d.exists_orderBy
  simp only [Derivation.events_rule, Derivation.value_rule, Derivation.fold, eventsOf, valueOf,
    fold_moreSortKeys, fold_sortKey]
  exact tell_sortKeys ..

theorem count_eq (l : Literal) :
    count l = match countOf l with
      | some n => .ok n
      | none => .error (l.invalid "expected a non-negative integer") := by
  have h : Text.uint64? l.unescaped.toList = countOf l := Text.uint64?_eq _
  cases hc : countOf l <;> simp [count, h, hc]

variable {fields : List String} {omits : Bool} {condition : Option Condition} {sort : List SortKey}
  {limit : Option UInt64}

theorem tell_opt_select (d : Derivation (.opt (.rule .select))) :
    tell add ((d.fold eventsOf).getD []) .empty =
      (⟨⟨(d.fold valueOf).getD [], false, none, [], none, none⟩, []⟩, none) := by
  rcases d.absent_or_present with rfl | ⟨d, rfl⟩
  · rfl
  · exact tell_select d .empty

theorem tell_opt_filter (d : Derivation (.opt (.rule .filter))) :
    tell add ((d.fold eventsOf).getD []) ⟨⟨fields, false, none, [], none, none⟩, []⟩ =
      (⟨⟨fields, ((d.fold valueOf).map (·.1)).getD false, (d.fold valueOf).map (·.2), [], none,
        none⟩, []⟩, none) := by
  rcases d.absent_or_present with rfl | ⟨d, rfl⟩
  · rfl
  · exact tell_filter d _

theorem tell_opt_orderBy (d : Derivation (.opt (.rule .orderBy))) :
    tell add ((d.fold eventsOf).getD []) ⟨⟨fields, omits, condition, [], none, none⟩, []⟩ =
      (⟨⟨fields, omits, condition, (d.fold valueOf).getD [], none, none⟩, []⟩, none) := by
  rcases d.absent_or_present with rfl | ⟨d, rfl⟩
  · rfl
  · exact tell_orderBy d _

theorem tell_opt_limit {es : List Event} {b : Builder}
    (h : tell add es b = (⟨⟨fields, omits, condition, sort, none, none⟩, []⟩, none))
    (d : Derivation (.opt (.rule .limit))) :
    match optionalCount (d.fold valueOf) with
    | some n => tell add (es ++ (d.fold eventsOf).getD []) b =
      (⟨⟨fields, omits, condition, sort, n, none⟩, []⟩, none)
    | none => ∃ b' e, tell add (es ++ (d.fold eventsOf).getD []) b = (b', some e) := by
  rw [tell_append_of_accepted h]
  rcases d.absent_or_present with rfl | ⟨d, rfl⟩
  · rfl
  · obtain ⟨w, hw, l, hl, rfl⟩ := d.exists_limit
    simp only [Derivation.fold, valueOf, eventsOf, Option.getD_some, optionalCount]
    cases hn : countOf l.literal <;> simp [Recognizer.tell, add, count_eq, hn]

theorem tell_opt_offset {es : List Event} {b : Builder}
    (h : tell add es b = (⟨⟨fields, omits, condition, sort, limit, none⟩, []⟩, none))
    (d : Derivation (.opt (.rule .offset))) :
    match optionalCount (d.fold valueOf) with
    | some n => tell add (es ++ (d.fold eventsOf).getD []) b =
      (⟨⟨fields, omits, condition, sort, limit, n⟩, []⟩, none)
    | none => ∃ b' e, tell add (es ++ (d.fold eventsOf).getD []) b = (b', some e) := by
  rw [tell_append_of_accepted h]
  rcases d.absent_or_present with rfl | ⟨d, rfl⟩
  · rfl
  · obtain ⟨w, hw, l, hl, rfl⟩ := d.exists_offset
    simp only [Derivation.fold, valueOf, eventsOf, Option.getD_some, optionalCount]
    cases hn : countOf l.literal <;> simp [Recognizer.tell, add, count_eq, hn]

theorem tell_query (d : Derivation (.rule .query)) :
    match d.value with
    | some q => tell add d.events .empty = (⟨q, []⟩, none)
    | none => ∃ b e, tell add d.events .empty = (b, some e) := by
  obtain ⟨s, f, o, l, x, rfl⟩ := d.exists_query
  have hs := tell_opt_select s
  have hf := (tell_append_of_accepted hs _).trans (tell_opt_filter f)
  have ho := (tell_append_of_accepted hf _).trans (tell_opt_orderBy o)
  have hl := tell_opt_limit ho l
  simp only [Derivation.events_rule, Derivation.value_rule, Derivation.fold, eventsOf, valueOf]
  cases hn : optionalCount (l.fold valueOf) with
  | none =>
      simp only [hn] at hl
      obtain ⟨b, e, hl⟩ := hl
      exact ⟨b, e, tell_append_of_rejected hl _⟩
  | some n =>
      simp only [hn] at hl
      have hx := tell_opt_offset hl x
      cases hm : optionalCount (x.fold valueOf) with
      | none | some m =>
          simp only [hm] at hx
          exact hx

end FindExpr.Builder

namespace FindExpr

open Grammar Recognizer

variable {limit : Nat}

theorem run_of_derivation (d : Derivation (.rule .query)) (h : Sentence limit (kinds d.tokens))
    {last : Token} (hl : last.isEnd = true) (rest : List Item) :
    let outcome := run limit Builder.add (d.tokens.map .ok ++ .ok last :: rest) .empty
    match d.value with
    | some q => outcome.state = ⟨q, []⟩ ∧ outcome.result = .ok ()
    | none => ∃ e, outcome.result = .error e := by
  have ht := trace_of_derivation d h hl rest
  have hq := Builder.tell_query d
  have hs : (trace limit (d.tokens.map .ok ++ .ok last :: rest)).state = d.events := by rw [ht]
  cases hv : d.value with
  | none =>
      simp only [hv] at hq
      obtain ⟨b, e, hq⟩ := hq
      rw [← hs] at hq
      exact ⟨e, run_of_rejected hq⟩
  | some q =>
      simp only [hv] at hq
      rw [← hs] at hq
      simp only [run_of_accepted hq, ht, and_self]

theorem trace_of_run {σ : Type} {h : Handler σ} {s : σ} {items : List Item}
    (ho : (run limit h items s).result = .ok ()) : (trace limit items).result = .ok () := by
  rcases ht : tell h (trace limit items).state s with ⟨s', _ | d⟩
  · rwa [run_of_accepted ht] at ho
  · rw [run_of_rejected ht] at ho
    cases ho

theorem parse_of_derivation {source : String} {q : Query} {last : Token}
    (d : Derivation (.rule .query)) (h : Sentence limit (kinds d.tokens))
    (ht : tokenize source = d.tokens.map .ok ++ [.ok last]) (hl : last.isEnd = true)
    (hv : d.value = some q) : Query.parse limit source = .ok q := by
  have hd := run_of_derivation d h hl []
  simp only [hv, ← ht] at hd
  simp [Query.parse, Query.ofItems, hd, Except.map]

theorem exists_derivation_of_parse {source : String} {q : Query}
    (h : Query.parse limit source = .ok q) :
    ∃ (d : Derivation (.rule .query)) (last : Token), Sentence limit (kinds d.tokens) ∧
      tokenize source = d.tokens.map .ok ++ [.ok last] ∧ last.isEnd = true ∧ d.value = some q ∧
      (run limit Builder.add (tokenize source) .empty).state.frames = [] := by
  have ho : (run limit Builder.add (tokenize source) .empty).result = .ok () := by
    unfold Query.parse Query.ofItems at h
    cases hr : (run limit Builder.add (tokenize source) .empty).result with
    | ok => rfl
    | error e => simp [hr, Except.map] at h
  obtain ⟨ts, rest, ht, hw, hts, rfl | ⟨last, rest, rfl, hl⟩⟩ :=
    exists_of_accepted (trace_of_run ho)
  · exact absurd rfl (rest_ne_nil ht hts)
  obtain rfl := eq_of_isEnd ht hl
  obtain ⟨d, rfl⟩ := Derivation.exists_iff_derives.2 hw.derives
  have hd := run_of_derivation d hw hl []
  rw [← ht] at hd
  cases hv : d.value with
  | none =>
      simp only [hv, ho] at hd
      obtain ⟨e, he⟩ := hd
      cases he
  | some q' =>
      simp only [hv] at hd
      obtain rfl : q' = q := by
        simpa [Query.parse, Query.ofItems, ho, hd.1, Except.map] using h
      exact ⟨d, last, hw, ht, hl, hv, by rw [hd.1]⟩

/-- The query of an accepted source is what the derivation of its tokens means. There is only one
such derivation, and the builder has no condition left that has not ended. -/
theorem parse_eq_value {source : String} {q : Query} (h : Query.parse limit source = .ok q) :
    ∃ (tokens : List Token) (last : Token) (d : Derivation (.rule .query)),
      tokenize source = tokens.map .ok ++ [.ok last] ∧ last.isEnd = true ∧
      (∀ d' : Derivation (.rule .query), d'.tokens = tokens ↔ d' = d) ∧ d.value = some q ∧
      (run limit Builder.add (tokenize source) .empty).state.frames = [] := by
  obtain ⟨d, last, -, ht, hl, hv, hf⟩ := exists_derivation_of_parse h
  refine ⟨d.tokens, last, d, ht, hl, fun d' => ⟨?_, ?_⟩, hv, hf⟩
  · exact fun hd' => Derivation.eq_of_tokens d' d hd'
  · rintro rfl
    rfl

theorem parse_eq_value_group :
    let comparison (field value : String) : Condition := .comparison ⟨field, .eq, value⟩
    let q : Query := ⟨[], true, some (.binary .and (.binary .or (comparison "a" "1")
      (comparison "b" "2")) (comparison "c" "3")), [], some 4, none⟩
    let source := "WHERE OMIT (a=1 OR b=2) AND c=3 LIMIT +4"
    Query.parse 1 source = .ok q ∧
      ∃ (tokens : List Token) (last : Token) (d : Derivation (.rule .query)),
        tokenize source = tokens.map .ok ++ [.ok last] ∧ last.isEnd = true ∧
        (∀ d' : Derivation (.rule .query), d'.tokens = tokens ↔ d' = d) ∧ d.value = some q ∧
        (run 1 Builder.add (tokenize source) .empty).state.frames = [] :=
  ⟨rfl, parse_eq_value rfl⟩

end FindExpr

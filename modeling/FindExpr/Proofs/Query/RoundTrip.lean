import FindExpr.Proofs.Query.Capture
import FindExpr.Proofs.Query.Nesting
import FindExpr.Proofs.Query.Reconstruction

namespace FindExpr

open Grammar Recognizer

theorem exists_derivation {q : Query} (hq : q.omits = true → q.condition.isSome = true) :
    ∃ (d : Derivation (.rule .query)) (last : Token),
      tokenize q.text = d.tokens.map .ok ++ [.ok last] ∧ last.isEnd = true ∧ d.value = some q ∧
        kinds d.tokens = q.lexemes.map Lexeme.kind := by
  have hs : Scans q.text.toList q.lexemes [] := by
    have h := Stands.query q [] rfl
    rwa [List.append_nil, ← String.toList_ofList (l := q.render)] at h
  obtain ⟨ts, last, ht, hl, hx⟩ := tokenize_of_scans hs
  obtain ⟨d, rfl, hv⟩ := means_query hq hx
  refine ⟨d, last, ht, hl, hv, ?_⟩
  rw [← hx, List.map_map]
  rfl

/-- The query of the find expression of a query is the query itself if the parentheses of its
condition are nested at most `limit` deep, and else nesting is what is wrong with it. Only a query
without a condition cannot say that records are to be left out. -/
theorem parse_text (q : Query) (hq : q.omits = true → q.condition.isSome = true) (limit : Nat) :
    (q.groupDepth ≤ limit → Query.parse limit q.text = .ok q) ∧
      (limit < q.groupDepth →
        ∃ d, Query.parse limit q.text = .error d ∧ d.cause = .nestingTooDeep limit) := by
  obtain ⟨d, last, ht, hl, hv, hk⟩ := exists_derivation hq
  have hn : nesting (kinds d.tokens) = q.groupDepth := hk ▸ nesting_query q
  constructor
  · exact fun h => parse_of_derivation d ⟨d.derives, hn ▸ h⟩ ht hl hv
  · intro h
    obtain ⟨t, fs, hr, he⟩ := trace_of_tooDeep d (hn ▸ h) hl []
    rw [← ht] at hr he
    have hq := Builder.tell_query d
    simp only [hv, he] at hq
    obtain ⟨b, hb, -⟩ := accepted_of_append hq
    have ho : (run limit Builder.add (tokenize q.text) .empty).result =
        .error (Token.tooDeep t limit) := by
      rw [run_of_accepted hb, hr]
    refine ⟨Token.tooDeep t limit, ?_, cause_tooDeep⟩
    simp [Query.parse, Query.ofItems, ho, Except.map]

theorem parse_text_group :
    let comparison (field value : String) : Condition := .comparison ⟨field, .lt, value⟩
    let q : Query := ⟨["", "by"], true, some (.binary .or (comparison "a" "=")
      (.binary .omits (comparison "b" "\\\"") (comparison "c" "é"))), [⟨"x y", none⟩], some 4, none⟩
    q.text = "SELECT \"\", \"by\" WHERE OMIT a<\"=\" OR (b<\"\\\\\\\"\" OMIT c<é) ORDER BY \"x y\""
        ++ " LIMIT 4" ∧
      Query.parse 1 q.text = .ok q ∧
      ∃ d, Query.parse 0 q.text = .error d ∧ d.cause = .nestingTooDeep 0 := by
  intro comparison q
  have hq : q.omits = true → q.condition.isSome = true := fun _ => rfl
  have hd : q.groupDepth = 1 := rfl
  have h₁ := (parse_text q hq 1).1 (Nat.le_of_eq hd)
  have h₀ := (parse_text q hq 0).2 (Nat.lt_of_lt_of_eq Nat.zero_lt_one hd.symm)
  refine ⟨?_, h₁, h₀⟩
  rfl

end FindExpr

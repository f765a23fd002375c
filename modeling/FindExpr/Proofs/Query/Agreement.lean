import FindExpr.Proofs.Lexer.Order
import FindExpr.Proofs.Query.Rejection
import FindExpr.Proofs.Recognizer.FirstError
import FindExpr.Query.Builder

namespace FindExpr

open Recognizer

/-- The token is the literal of a `LIMIT` or an `OFFSET`. -/
def CountLiteral (items : List Item) (t : Token) : Prop :=
  ∃ us u vs, items = us ++ .ok u :: .ok t :: vs ∧ u.kind.announcesCount = true ∧ t.kind = .literal

/-- The diagnostic marks a count that is no number of 64 bits. -/
structure InvalidCount (items : List Item) (t : Token) (d : Diagnostic) : Prop where
  countLiteral : CountLiteral items t
  not_isCount : ¬ Text.IsCount t.unescaped.toList
  cause_eq : d.cause = .invalidValue t.value "expected a non-negative integer"
  start_eq : d.start = t.start
  stop_eq : d.stop = t.stop

variable {limit : Nat} {source : String} {r : State} {t : Token} {ts : List Token}
  {es : List Event} {l : Literal} {d e : Diagnostic} {items rest : List Item}

theorem getLast?_of_error (h : .error d ∈ tokenize source) :
    (tokenize source).getLast? = some (.error d) := by
  obtain ⟨us, last, hu, -⟩ := tokenize_ends source
  rw [hu, List.mem_append, List.mem_singleton] at h
  rcases h with hm | rfl
  · obtain ⟨t, -, ht⟩ := List.mem_map.1 hm
    cases ht
  · rw [hu, List.getLast?_concat]

theorem error_not_mem_of_check (h : check limit source = .ok ()) : .error d ∉ tokenize source := by
  rw [check, checkItems_eq] at h
  obtain ⟨ts, rest, hi, -, hts, hr⟩ := exists_of_accepted h
  rcases hr with rfl | ⟨t, unread, rfl, ht⟩
  · exact absurd rfl (rest_ne_nil hi hts)
  · obtain rfl := eq_of_isEnd hi ht
    rw [hi]
    simp

theorem error_mem_of_check (h : check limit source = .error d) (hd : d.category = .lexical) :
    .error d ∈ tokenize source := by
  obtain ⟨ts, es, r, rest, hi, p, hs⟩ := exists_stop limit .start (tokenize source)
  rw [check, checkItems_eq, hi, trace, traceFrom_append p] at h
  cases rest with
  | nil => exact absurd rfl (rest_ne_nil hi p.isEnd_eq_false)
  | cons item rest =>
      cases item with
      | error e =>
          obtain rfl : e = d := Except.error.inj h
          simp [hi]
      | ok t => cases hd.symm.trans (p.syntaxError hs (blames_of_stop hs h)).category_eq

namespace Recognizer

theorem start_of_stop {item : Item} {place : Position} (hs : Stops limit r (item :: rest))
    (h : (traceFrom limit r place (item :: rest)).result = .error e) : e.start = item.start := by
  cases item with
  | error d => exact congrArg Diagnostic.start (Except.error.inj h).symm
  | ok t =>
      rw [traceFrom] at h
      cases hv : (step limit r t).verdict with
      | «continue» q => exact absurd hv (hs q)
      | accept => simp [hv] at h
      | reject d =>
          obtain rfl : d = e := by simpa [hv] using h
          exact start_of_reject hv

theorem mem_countsOf_of_stop (p : Path limit .start ts es r) (hs : Stops limit r rest)
    (hl : l ∈ countsOf (trace limit (ts.map .ok ++ rest)).state) : l ∈ countsOf es := by
  obtain ⟨vs, hv⟩ := state_prefix_of_stop p hs
  have he := congrArg countsOf hv
  rw [countsOf_append, countsOf_append, countsOf_owed, List.append_nil] at he
  exact he ▸ List.mem_append_left _ hl

theorem Path.countLiteral (p : Path limit .start ts es r) (hl : l ∈ countsOf es)
    (rest : List Item) :
    ∃ t ∈ ts, CountLiteral (ts.map .ok ++ rest) t ∧ l = t.literal := by
  -- The token in front of a path announces nothing, and so the count is not the first token.
  obtain ⟨us, u, t, vs, hw, hu, ht, hlt⟩ :=
    p.exists_count (w := .endOfInput .start .start) (fun hq => nomatch hq) hl
  cases us with
  | nil =>
      obtain rfl := (List.cons.inj hw).1
      cases hu
  | cons w us =>
      obtain rfl : ts = us ++ u :: t :: vs := (List.cons.inj hw).2
      exact ⟨t, by simp, ⟨us.map .ok, u, vs.map .ok ++ rest, by simp, hu, ht⟩, hlt⟩

end Recognizer

theorem invalidCount_of_count (hc : CountLiteral (tokenize source) t)
    (h : Builder.count t.literal = .error d) : InvalidCount (tokenize source) t d := by
  obtain ⟨hn, rfl⟩ := Builder.invalid_of_count h
  have ⟨us, u, vs, hi, _, ht⟩ := hc
  have hp : t.start.precedes t.stop = true :=
    start_precedes_stop (by rw [hi]; simp) (by simp [Token.isEnd, ht])
  refine ⟨hc, hn, by simp [Literal.invalid, Token.literal], start_invalid, ?_⟩
  exact congrArg Diagnostic.stop (if_pos hp)

theorem precedes_of_check (hi : tokenize source = ts.map .ok ++ rest)
    (p : Path limit .start ts es r) (h : check limit source = .error d) :
    ∀ t ∈ ts, t.start.precedes d.start = true := by
  obtain ⟨us, fs, q, rest, rfl, p', hs⟩ := exists_stop limit r rest
  intro t ht
  rw [← List.append_assoc, ← List.map_append] at hi
  cases rest with
  | nil => exact absurd rfl (rest_ne_nil hi (p.append p').isEnd_eq_false)
  | cons item rest =>
      rw [check, checkItems_eq, hi, trace, traceFrom_append (p.append p')] at h
      have hp := starts_increase source
      rw [hi, List.map_append, List.pairwise_append] at hp
      rw [start_of_stop hs h]
      exact hp.2.2 _ (List.mem_map_of_mem (List.mem_map_of_mem (List.mem_append_left _ ht))) _
        (by simp)

theorem exists_countLiteral (hl : l ∈ countsOf (trace limit (tokenize source)).state) :
    ∃ t, CountLiteral (tokenize source) t ∧ l = t.literal ∧
      ∀ e, check limit source = .error e → t.start.precedes e.start = true := by
  obtain ⟨ts, es, r, rest, hi, p, hs⟩ := exists_stop limit .start (tokenize source)
  rw [hi] at hl
  obtain ⟨t, ht, hc, rfl⟩ := p.countLiteral (mem_countsOf_of_stop p hs hl) rest
  exact ⟨t, hi ▸ hc, rfl, fun e he => precedes_of_check hi p he t ht⟩

theorem parse_cases (limit : Nat) (source : String) :
    (∃ q, check limit source = .ok () ∧ Query.parse limit source = .ok q) ∨
    (∃ e, check limit source = .error e ∧ Query.parse limit source = .error e) ∨
    ∃ d t, Query.parse limit source = .error d ∧ InvalidCount (tokenize source) t d ∧
      Builder.count t.literal = .error d ∧
      ∀ e, check limit source = .error e → t.start.precedes e.start = true := by
  have hr := result_run limit Builder.add (tokenize source) .empty
  rw [check, checkItems_eq, Query.parse, Query.ofItems]
  rcases ht : Recognizer.tell Builder.add (trace limit (tokenize source)).state .empty with
    ⟨b, _ | d⟩
  · rw [ht] at hr
    rw [hr]
    cases (trace limit (tokenize source)).result with
    | ok => exact .inl ⟨_, rfl, rfl⟩
    | error e => exact .inr (.inl ⟨e, rfl, rfl⟩)
  · rw [ht] at hr
    obtain ⟨l, hl, hd⟩ := Builder.count_of_tell ht
    obtain ⟨t, hc, rfl, hp⟩ := exists_countLiteral hl
    rw [check, checkItems_eq] at hp
    exact .inr (.inr ⟨d, t, by rw [hr]; rfl, invalidCount_of_count hc hd, hd, hp⟩)

theorem invalidCount_of_parse (hk : check limit source = .ok ())
    (hd : Query.parse limit source = .error d) : ∃ t, InvalidCount (tokenize source) t d := by
  rcases parse_cases limit source with ⟨q, -, hp⟩ | ⟨e, he, -⟩ | ⟨d', t, hp, hi, -⟩
  · cases hp.symm.trans hd
  · cases hk.symm.trans he
  · obtain rfl : d' = d := Except.error.inj (hp.symm.trans hd)
    exact ⟨t, hi⟩

/-- The readers of a source agree. If there is a query then the source is a find expression, and if
it is one then its items hold no diagnostic. A lexical diagnostic is the last item. The query of a
find expression fails at a count only, and is there if all counts are numbers of 64 bits. Where the
source is no find expression, the query fails for the same reason or at a count in front of that. -/
theorem readers_agree (limit : Nat) (source : String) :
    ((∃ q, Query.parse limit source = .ok q) → check limit source = .ok ()) ∧
    (check limit source = .ok () → ∀ d, .error d ∉ tokenize source) ∧
    (∀ d, check limit source = .error d → d.category = .lexical →
      (tokenize source).getLast? = some (.error d)) ∧
    (check limit source = .ok () → ∀ d, Query.parse limit source = .error d →
      ∃ t, InvalidCount (tokenize source) t d) ∧
    (check limit source = .ok () →
      (∀ t, CountLiteral (tokenize source) t → Text.IsCount t.unescaped.toList) →
      ∃ q, Query.parse limit source = .ok q) ∧
    ∀ e, check limit source = .error e → Query.parse limit source = .error e ∨
      ∃ t d, Query.parse limit source = .error d ∧ InvalidCount (tokenize source) t d ∧
        t.start.precedes e.start = true := by
  refine ⟨?_, fun hk _ => error_not_mem_of_check hk,
    fun d hd hc => getLast?_of_error (error_mem_of_check hd hc),
    fun hk d hd => invalidCount_of_parse hk hd, fun hk hi => ?_, fun e he => ?_⟩
  · rintro ⟨q, hq⟩
    rcases parse_cases limit source with ⟨-, hk, -⟩ | ⟨e, -, he⟩ | ⟨d, t, hd, -⟩
    · exact hk
    · cases hq.symm.trans he
    · cases hq.symm.trans hd
  · cases hp : Query.parse limit source with
    | ok q => exact ⟨q, rfl⟩
    | error d =>
        obtain ⟨t, ht⟩ := invalidCount_of_parse hk hp
        exact absurd (hi t ht.countLiteral) ht.not_isCount
  · rcases parse_cases limit source with ⟨q, hk, -⟩ | ⟨e', hk, hp⟩ | ⟨d, t, hp, hi, -, ht⟩
    · cases hk.symm.trans he
    · obtain rfl : e' = e := Except.error.inj (hk.symm.trans he)
      exact .inl hp
    · exact .inr ⟨t, d, hp, hi, ht e he⟩

end FindExpr

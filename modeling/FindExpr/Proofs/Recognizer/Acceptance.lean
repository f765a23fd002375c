import FindExpr.Proofs.Recognizer.Faults
import FindExpr.Proofs.Recognizer.Trace

namespace FindExpr.Recognizer

open Grammar

variable {limit : Nat} {q : State} {place : Position} {t : Token} {ts us : List Token}
  {items rest : List Item}

/-- The tokens of a source up to its first token at the end of the input, or all of them if there is
none. A diagnostic before that leaves nothing to judge. -/
def tokensBeforeEnd : List Item → Option (List Token)
  | [] => some []
  | .error _ :: _ => none
  | .ok t :: items => if t.isEnd then some [] else (tokensBeforeEnd items).map (t :: ·)

theorem tokensBeforeEnd_append (ht : ∀ t ∈ ts, t.isEnd = false) (rest : List Item) :
    tokensBeforeEnd (ts.map .ok ++ rest) = (tokensBeforeEnd rest).map (ts ++ ·) := by
  induction ts with
  | nil => simp
  | cons t ts ih =>
      rw [List.forall_mem_cons] at ht
      simp only [List.map_cons, List.cons_append, tokensBeforeEnd, ht.1, Bool.false_eq_true,
        if_false, ih ht.2, Option.map_map]
      rfl

theorem traceFrom_nil (limit : Nat) (q : State) (place : Position) :
    traceFrom limit q place [] = traceFrom limit q place [.ok (.endOfInput place place)] := by
  have he : (Token.endOfInput place place).isEnd = true := rfl
  rcases verdict_of_isEnd limit q he with ⟨hv, -⟩ | ⟨d, hv, -⟩ <;> simp [traceFrom, hv]

theorem stops_of_isEnd (limit : Nat) (q : State) (ht : t.isEnd = true) :
    Stops limit q (.ok t :: rest) := by
  intro r hr
  rcases verdict_of_isEnd limit q ht with ⟨hv, -⟩ | ⟨d, hv, -⟩ <;> rw [hv] at hr <;> cases hr

theorem trace_isEnd (limit : Nat) (q : State) (place : Position) (rest : List Item)
    (ht : t.isEnd = true) :
    (traceFrom limit q place (.ok t :: rest)).unread = rest ∧
      ((traceFrom limit q place (.ok t :: rest)).result = .ok () ↔ q.complete = true) := by
  rcases verdict_of_isEnd limit q ht with ⟨hv, hc⟩ | ⟨d, hv, hc, -⟩ <;>
    simp [traceFrom, hv, hc]

theorem trace_nil (limit : Nat) (q : State) (place : Position) :
    (traceFrom limit q place []).unread = [] ∧
      ((traceFrom limit q place []).result = .ok () ↔ q.complete = true) := by
  rw [traceFrom_nil]
  exact trace_isEnd limit q place [] rfl

theorem trace_stop (place : Position) (ht : t.isEnd = false)
    (hs : Stops limit q (.ok t :: rest)) :
    ∃ d, (traceFrom limit q place (.ok t :: rest)).result = .error d ∧ Blames limit q t d := by
  obtain ⟨d, hv, hb⟩ := verdict_of_stop ht hs
  exact ⟨d, by simp [traceFrom, hv], hb⟩

theorem exists_of_accepted (h : (trace limit items).result = .ok ()) :
    ∃ ts rest, items = ts.map .ok ++ rest ∧ Sentence limit (kinds ts) ∧
      (∀ t ∈ ts, t.isEnd = false) ∧
      (rest = [] ∨ ∃ t unread, rest = .ok t :: unread ∧ t.isEnd = true) := by
  obtain ⟨ts, es, r, rest, rfl, p, hs⟩ := exists_stop limit .start items
  rw [trace, traceFrom_append p] at h
  have hw := p.sentence_iff_complete
  cases rest with
  | nil =>
      have hr := (trace_nil limit r (lastStop .start ts)).2.1 h
      exact ⟨ts, [], rfl, hw.2 hr, p.isEnd_eq_false, .inl rfl⟩
  | cons item rest =>
      cases item with
      | error d => simp [traceFrom] at h
      | ok t =>
          cases ht : t.isEnd with
          | true =>
              have hr := (trace_isEnd limit r (lastStop .start ts) rest ht).2.1 h
              exact ⟨ts, _, rfl, hw.2 hr, p.isEnd_eq_false, .inr ⟨t, rest, rfl, ht⟩⟩
          | false =>
              obtain ⟨d, hd, -⟩ := trace_stop (lastStop .start ts) ht hs
              rw [hd] at h
              cases h

theorem sentence_of_accepted (h : tokensBeforeEnd items = some ts)
    (ha : (trace limit items).result = .ok ()) : Sentence limit (kinds ts) := by
  obtain ⟨us, rest, rfl, hw, hus, hr⟩ := exists_of_accepted ha
  rw [tokensBeforeEnd_append hus] at h
  rcases hr with rfl | ⟨t, unread, rfl, ht⟩
  · obtain rfl : us = ts := by simpa [tokensBeforeEnd] using h
    exact hw
  · obtain rfl : us = ts := by simpa [tokensBeforeEnd, ht] using h
    exact hw

theorem unread_ignore : (run limit ignore items ()).unread = (trace limit items).unread := by
  rw [run_of_accepted (tell_ignore _)]

/-- The recognizer accepts a sequence of tokens if and only if it is a sentence of the grammar. It
then has read it to its end and no further. -/
theorem accepts_iff_sentence (h : tokensBeforeEnd items = some ts) :
    (checkItems limit items = .ok () ↔ Sentence limit (kinds ts)) ∧
      (checkItems limit items = .ok () →
        (run limit ignore items ()).unread = items.drop (ts.length + 1)) := by
  obtain ⟨us, es, r, rest, rfl, p, hs⟩ := exists_stop limit .start items
  rw [tokensBeforeEnd_append p.isEnd_eq_false] at h
  obtain ⟨vs, hvs, rfl⟩ := Option.map_eq_some_iff.1 h
  rw [checkItems_eq, unread_ignore, trace, traceFrom_append p]
  cases rest with
  | nil =>
      obtain rfl : [] = vs := Option.some.inj hvs
      obtain ⟨hu, hr⟩ := trace_nil limit r (lastStop .start us)
      rw [List.append_nil, p.sentence_iff_complete]
      refine ⟨hr, fun _ => hu.trans ?_⟩
      rw [List.append_nil, List.drop_eq_nil_of_le]
      simp
  | cons item rest =>
      cases item with
      | error d => simp [tokensBeforeEnd] at hvs
      | ok t =>
          cases ht : t.isEnd with
          | true =>
              obtain rfl : [] = vs := by simpa [tokensBeforeEnd, ht] using hvs
              obtain ⟨hu, hr⟩ := trace_isEnd limit r (lastStop .start us) rest ht
              rw [List.append_nil, p.sentence_iff_complete]
              refine ⟨hr, fun _ => hu.trans ?_⟩
              simp [List.drop_append]
          | false =>
              obtain ⟨d, hd, -⟩ := trace_stop (lastStop .start us) ht hs
              obtain ⟨vs', -, rfl⟩ : ∃ vs', tokensBeforeEnd rest = some vs' ∧ t :: vs' = vs := by
                simpa [tokensBeforeEnd, ht] using hvs
              have hn : ¬ Sentence limit (kinds (us ++ t :: vs')) := by
                intro hw
                refine p.not_viable hs ⟨kinds vs', ?_⟩
                rwa [kinds_append, kinds_cons, List.append_cons] at hw
              rw [hd]
              exact ⟨iff_of_false (by simp) hn, by simp⟩

theorem accepts_iff_sentence_group :
    let place (k : TokenKind) : Token := ⟨k, "", none, .start, .start⟩
    let tokens := [place (.keyword .filter), place (.symbol .leftParen), place .literal,
      place (.symbol .eq), place .literal, place (.symbol .rightParen)]
    let items := tokens.map .ok ++ [.ok (place .endOfInput), .ok (place .literal)]
    tokensBeforeEnd items = some tokens ∧ Sentence 1 (kinds tokens) ∧
      (run 1 ignore items ()).unread = [.ok (place .literal)] ∧ ¬ Sentence 0 (kinds tokens) := by
  intro place tokens items
  have h : tokensBeforeEnd items = some tokens := rfl
  obtain ⟨hs, hu⟩ : (checkItems 1 items = .ok () ↔ Sentence 1 (kinds tokens)) ∧ _ :=
    accepts_iff_sentence h
  have hn : checkItems 0 items ≠ .ok () := by
    intro h
    cases h
  exact ⟨h, hs.1 rfl, hu rfl, mt (accepts_iff_sentence h).1.2 hn⟩

end FindExpr.Recognizer

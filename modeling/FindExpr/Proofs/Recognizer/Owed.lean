import FindExpr.Proofs.Recognizer.Acceptance

namespace FindExpr.Recognizer

open Grammar

variable {limit : Nat} {q : State} {t : Token} {ts : List Token} {es : List Event}
  {rest : List Item}

theorem owed_prefix_step (ht : t.kind = q.completion.headD .endOfInput) :
    q.owed <+: (step limit q t).events := by
  cases q with
  | afterWhere place =>
      have hk : t.kind = .literal := ht
      simp [step, hk, Step.precededBy, State.owed]
  | afterTerm opened =>
      cases opened with
      | nil =>
          have hk : t.kind = .endOfInput := ht
          simp [step, continueCondition, hk, TokenKind.alternative?, Step.precededBy, State.owed]
      | cons paren outer =>
          have hk : t.kind = .symbol .rightParen := ht
          simp [step, continueCondition, hk, TokenKind.alternative?, Step.precededBy, State.owed]
  | afterSortField field =>
      have hk : t.kind = .endOfInput := ht
      simp [step, hk, TokenKind.direction?, Step.precededBy, State.owed]
  | _ => exact List.nil_prefix

theorem state_of_stop (hs : Stops limit q rest) (place : Position) :
    (traceFrom limit q place rest).state <+: q.owed := by
  have ht {t : Token} {rest : List Item} (hs : Stops limit q (.ok t :: rest)) :
      (traceFrom limit q place (.ok t :: rest)).state <+: q.owed := by
    rw [← events_of_stop hs, traceFrom]
    cases hv : (step limit q t).verdict with
    | accept | reject => simp
    | «continue» r => exact absurd hv (hs r)
  cases rest with
  | nil =>
      rw [traceFrom_nil]
      exact ht (stops_of_isEnd limit q rfl)
  | cons item rest =>
      cases item with
      | error d => exact List.nil_prefix
      | ok t => exact ht hs

theorem state_prefix_of_stop (p : Path limit .start ts es q) (hs : Stops limit q rest) :
    (trace limit (ts.map .ok ++ rest)).state <+: es ++ q.owed := by
  rw [trace, traceFrom_append p]
  exact (List.prefix_append_right_inj es).2 (state_of_stop hs _)

theorem owed_prefix_traceFrom {us : List Token} (hu : kinds us = q.completion) (place : Position) :
    q.owed <+: (traceFrom limit q place (us.map .ok)).state := by
  have ht {t : Token} (rest : List Item) (ht : t.kind = q.completion.headD .endOfInput) :
      q.owed <+: (traceFrom limit q place (.ok t :: rest)).state := by
    have ho : q.owed <+: (step limit q t).events := owed_prefix_step ht
    rw [traceFrom]
    cases hv : (step limit q t).verdict with
    | accept | reject => exact ho
    | «continue» r => exact ho.trans (List.prefix_append ..)
  cases us with
  | nil =>
      rw [List.map_nil, traceFrom_nil]
      exact ht [] (by simp [← hu, Token.endOfInput])
  | cons u us => exact ht (us.map .ok) (by simp [← hu])

end FindExpr.Recognizer

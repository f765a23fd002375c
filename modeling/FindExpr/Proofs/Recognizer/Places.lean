import FindExpr.Proofs.Lexer.Order
import FindExpr.Proofs.Recognizer.Owed

namespace FindExpr

/-- The places that an event carries. That of a literal is where it begins. -/
def Event.places : Event → List Position
  | selectField name => [name.start]
  | filter _ place | connective _ place | groupStart place | groupEnd place => [place]
  | comparison field _ value => [field.start, value.start]
  | sortKey field _ => [field.start]
  | limit count | offset count => [count.start]
  | conditionStart | conditionEnd | conjunctionStart | conjunctionEnd => []

namespace Recognizer

namespace State

/-- The places of what the next events are going to tell. -/
def held : State → List Position
  | afterWhere place => [place]
  | expectComparator field _ | expectValue field _ _ | afterSortField field => [field.start]
  | _ => []

end State

variable {limit : Nat} {q r : State} {t : Token} {ts : List Token} {es : List Event}

theorem places_owed (q : State) : (q.owed.flatMap Event.places).Sublist q.held := by
  cases q <;> simp [State.owed, State.held, Event.places]

theorem Move.places (h : Move limit q t es r) :
    (es.flatMap Event.places ++ r.held).Sublist (q.held ++ [t.start]) := by
  have ho := places_owed q
  cases h with
  | select | orderBy | limit | offset =>
      simpa [State.held] using ho.trans (List.sublist_append_left ..)
  | filter | operand => exact ho.append (List.Sublist.refl _)
  | group => simpa [Event.places, State.held] using ho.append (List.Sublist.refl [t.start])
  | _ => simp [Event.places, State.held, Token.literal]

theorem Path.places (p : Path limit q ts es r) :
    (es.flatMap Event.places ++ r.held).Sublist (q.held ++ ts.map Token.start) := by
  induction p with
  | nil q => simp
  | @cons q t e r ts es s h _ ih =>
      -- What the move leaves to be held is told by the moves behind it.
      have hm := (move_of_step h).places
      have hc := (ih.append_left (e.flatMap Event.places)).trans
        (by simpa only [← List.append_assoc] using hm.append_right (ts.map Token.start))
      simpa using hc

theorem places_of_stop {rest : List Item} (p : Path limit .start ts es r)
    (hs : Stops limit r rest) :
    ((trace limit (ts.map .ok ++ rest)).state.flatMap Event.places).Sublist
      (ts.map Token.start) := by
  have hp : (es.flatMap Event.places ++ r.held).Sublist (ts.map Token.start) := p.places
  obtain ⟨vs, hv⟩ := state_prefix_of_stop p hs
  have ho := ((places_owed r).append_left (es.flatMap Event.places)).trans hp
  rw [← List.flatMap_append, ← hv, List.flatMap_append] at ho
  exact (List.sublist_append_left ..).trans ho

theorem places_increase (limit : Nat) (source : String) :
    ((trace limit (tokenize source)).state.flatMap Event.places).Pairwise
      fun p q => p.precedes q = true := by
  obtain ⟨ts, es, r, rest, ht, p, hs⟩ := exists_stop limit .start (tokenize source)
  have hi := starts_increase source
  rw [ht, List.map_append, List.map_map] at hi
  rw [ht]
  exact (List.pairwise_append.1 hi).1.sublist (places_of_stop p hs)

end Recognizer

end FindExpr

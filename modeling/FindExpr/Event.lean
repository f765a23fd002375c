import FindExpr.Diagnostic.Basic
import FindExpr.Token.Basic

namespace FindExpr

inductive Event where
  | selectField (name : Literal)
  | filter (omits : Bool) (place : Position)
  | conditionStart
  | conditionEnd
  | conjunctionStart
  | conjunctionEnd
  | connective (op : Connective) (place : Position)
  | groupStart (place : Position)
  | groupEnd (place : Position)
  | comparison (field : Literal) (op : Comparator) (value : Literal)
  | sortKey (field : Literal) (direction : Option Direction)
  | limit (count : Literal)
  | offset (count : Literal)
  deriving DecidableEq, Repr

/-- What becomes of an event: a new state, and a diagnostic if the event is not acceptable. -/
abbrev Handler (σ : Type) := Event → σ → σ × Option Diagnostic

end FindExpr

import FindExpr.Event

namespace FindExpr.Recognizer

/-- States inside a condition hold the parentheses that are still open, the innermost first. -/
inductive State where
  | start
  | expectField
  | afterField
  | afterWhere (place : Position)
  | expectTerm (opened : List Token)
  | expectComparator (field : Literal) (opened : List Token)
  | expectValue (field : Literal) (op : Comparator) (opened : List Token)
  | afterTerm (opened : List Token)
  | expectSortField
  | afterSortField (field : Literal)
  | afterSortKey
  | expectLimit
  | afterLimit
  | expectOffset
  | afterOffset
  deriving DecidableEq, Repr

namespace State

def opened : State → List Token
  | expectTerm opened | expectComparator _ opened | expectValue _ _ opened | afterTerm opened =>
    opened
  | _ => []

def depth (s : State) : Nat := s.opened.length

end State

inductive Verdict where
  | continue (next : State)
  | accept
  | reject (d : Diagnostic)
  deriving DecidableEq, Repr

structure Step where
  events : List Event
  verdict : Verdict
  deriving DecidableEq, Repr

namespace Step

def silent (next : State) : Step := ⟨[], .continue next⟩

def reject (d : Diagnostic) : Step := ⟨[], .reject d⟩

def precededBy (s : Step) (events : List Event) : Step := ⟨events ++ s.events, s.verdict⟩

end Step

end FindExpr.Recognizer

namespace FindExpr

inductive Comparator where
  | eq | lt | gt | le | ge | like
  deriving DecidableEq, Repr

namespace Comparator

def text : Comparator → String
  | eq => "="
  | lt => "<"
  | gt => ">"
  | le => "<="
  | ge => ">="
  | like => "LIKE"

end Comparator

/-- `and` binds tighter than `or` and `omits`, which share one level. -/
inductive Connective where
  | and | or | omits
  deriving DecidableEq, Repr

namespace Connective

def text : Connective → String
  | and => "AND"
  | or => "OR"
  | omits => "OMIT"

def level : Connective → Nat
  | and => 1
  | or => 0
  | omits => 0

end Connective

inductive Direction where
  | ascending | descending
  deriving DecidableEq, Repr

namespace Direction

def text : Direction → String
  | ascending => "ASC"
  | descending => "DESC"

end Direction

end FindExpr

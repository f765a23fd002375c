import FindExpr.Operator

namespace FindExpr

structure Comparison where
  field : String
  op : Comparator
  value : String
  deriving DecidableEq, Repr

inductive Condition where
  | comparison (c : Comparison)
  | binary (op : Connective) (lhs rhs : Condition)
  deriving DecidableEq, Repr

namespace Condition

def nodes : Condition → Nat
  | comparison _ => 1
  | binary _ lhs rhs => nodes lhs + nodes rhs + 1

def nodesOf : List Condition → Nat
  | [] => 0
  | c :: conditions => nodes c + nodesOf conditions

def comparisonsOf : List Condition → List Comparison
  | [] => []
  | comparison c :: pending => c :: comparisonsOf pending
  | binary _ lhs rhs :: pending => comparisonsOf (lhs :: rhs :: pending)
termination_by pending => nodesOf pending
decreasing_by
  · simp [nodesOf, nodes]
  · simp [nodesOf, nodes]
    omega

def comparisons (c : Condition) : List Comparison := comparisonsOf [c]

/-- How tightly the parts of a condition hold together: a comparison more than any connective. -/
def level : Condition → Nat
  | comparison _ => 2
  | binary op _ _ => op.level

end Condition

structure SortKey where
  field : String
  /-- Missing where none was written. -/
  direction : Option Direction
  deriving DecidableEq, Repr

structure Query where
  /-- The fields to show. There are none without `SELECT`. -/
  fields : List String
  /-- Whether the records that meet the condition are left out instead of found. -/
  omits : Bool
  condition : Option Condition
  sort : List SortKey
  limit : Option UInt64
  offset : Option UInt64
  deriving DecidableEq, Repr

namespace Query

def empty : Query := ⟨[], false, none, [], none, none⟩

end Query

end FindExpr

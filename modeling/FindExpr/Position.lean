import FindExpr.Text.Utf8

namespace FindExpr

structure Position where
  /-- The number of characters before it. -/
  column : Nat
  /-- The number of bytes before it. -/
  offset : Nat
  deriving DecidableEq, Repr

namespace Position

def start : Position := ⟨0, 0⟩

/-- The number of the character that begins here, the first of a text having number 1. -/
def index (p : Position) : Nat := p.column + 1

def after (p : Position) (text : List Char) : Position :=
  ⟨p.column + text.length, p.offset + Text.size text⟩

/-- Positions are ordered by characters, and by bytes only where these agree. -/
def compare (p q : Position) : Ordering :=
  (Ord.compare p.column q.column).then (Ord.compare p.offset q.offset)

def precedes (p q : Position) : Bool := (compare p q).isLT

theorem precedes_iff {p q : Position} :
    p.precedes q ↔ p.column < q.column ∨ p.column = q.column ∧ p.offset < q.offset := by
  simp [precedes, compare, Ordering.then_eq_lt, Nat.compare_eq_lt]

@[simp] theorem after_nil (p : Position) : p.after [] = p := by simp [after]

theorem after_append (p : Position) (xs ys : List Char) :
    p.after (xs ++ ys) = (p.after xs).after ys := by
  simp [after, Nat.add_assoc]

end Position

end FindExpr

import FindExpr.Lexeme
import FindExpr.Query.Basic

namespace FindExpr

def reservedWords : List String :=
  ["SELECT", "WHERE", "ORDER", "BY", "LIKE", "AND", "OR", "OMIT", "ASC", "DESC", "LIMIT", "OFFSET"]

def standsBare (value : List Char) : Bool :=
  !value.isEmpty && value.all isBare && !reservedWords.any (Text.sameFolded ·.toList value)

def renderValue (value : String) : List Char :=
  if standsBare value.toList then value.toList
  else QuoteStyle.double.enclose (escape value.toList)

namespace Comparison

def render (c : Comparison) : List Char :=
  let op := if c.op = .like then [' '] ++ c.op.text.toList ++ [' '] else c.op.text.toList
  renderValue c.field ++ op ++ renderValue c.value

end Comparison

namespace Condition

def parenthesizeIf (grouped : Bool) (text : List Char) : List Char :=
  if grouped then ['('] ++ text ++ [')'] else text

/-- Connectives join from the left, so a right operand of the same level takes parentheses. -/
def render : Condition → List Char
  | comparison c => c.render
  | binary op lhs rhs =>
    parenthesizeIf (lhs.level < op.level) lhs.render
      ++ [' '] ++ op.text.toList ++ [' ']
      ++ parenthesizeIf (rhs.level ≤ op.level) rhs.render

def text (c : Condition) : String := String.ofList c.render

end Condition

namespace SortKey

def render (k : SortKey) : List Char :=
  match k.direction with
  | none => renderValue k.field
  | some d => renderValue k.field ++ [' '] ++ d.text.toList

def text (k : SortKey) : String := String.ofList k.render

end SortKey

namespace Query

def commaSeparated (items : List (List Char)) : List Char := List.intercalate [',', ' '] items

def renderFields : List String → List (List Char)
  | [] => []
  | fields => ["SELECT ".toList ++ commaSeparated (fields.map renderValue)]

def renderCondition (omits : Bool) : Option Condition → List (List Char)
  | none => []
  | some c => ["WHERE ".toList ++ (if omits then "OMIT ".toList else []) ++ c.render]

def renderSort : List SortKey → List (List Char)
  | [] => []
  | keys => ["ORDER BY ".toList ++ commaSeparated (keys.map SortKey.render)]

def renderCount (word : Keyword) : Option UInt64 → List (List Char)
  | none => []
  | some n => [word.text.toList ++ [' '] ++ Nat.toDigits 10 n.toNat]

def clauses (q : Query) : List (List Char) :=
  renderFields q.fields ++ renderCondition q.omits q.condition ++ renderSort q.sort
    ++ renderCount .limit q.limit ++ renderCount .offset q.offset

def render (q : Query) : List Char := List.intercalate [' '] q.clauses

def text (q : Query) : String := String.ofList q.render

end Query

end FindExpr

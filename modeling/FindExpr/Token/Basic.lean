import FindExpr.Position
import FindExpr.Token.Kind
import FindExpr.Token.Quote

namespace FindExpr

/-- A token together with the blank characters around it: `start` and `stop` enclose them all, so
that `stop` is where the next token starts. The value holds no surrounding blanks and no quotes, and
its backslashes are those of the source. -/
structure Token where
  kind : TokenKind
  value : String
  quote : Option QuoteStyle
  start : Position
  stop : Position
  deriving DecidableEq, Repr

structure Literal where
  value : String
  quote : Option QuoteStyle
  start : Position
  stop : Position
  deriving DecidableEq, Repr

/-- The text a value stands for. Only quoted values know backslashes. -/
def meaning (value : String) : Option QuoteStyle → String
  | none => value
  | some _ => String.ofList (unescape value.toList)

def written (value : String) : Option QuoteStyle → String
  | none => value
  | some style => String.ofList (style.enclose value.toList)

namespace Token

def endOfInput (start stop : Position) : Token := ⟨.endOfInput, "", none, start, stop⟩

def isEnd (t : Token) : Bool := t.kind == .endOfInput

def unescaped (t : Token) : String := meaning t.value t.quote

def written (t : Token) : String := FindExpr.written t.value t.quote

def literal (t : Token) : Literal := ⟨t.value, t.quote, t.start, t.stop⟩

end Token

namespace Literal

def unescaped (l : Literal) : String := meaning l.value l.quote

end Literal

end FindExpr

import FindExpr.Diagnostic.Basic
import FindExpr.Token.Basic

namespace FindExpr

def TokenKind.choice : TokenKind → String
  | .literal => "string"
  | kind => "`" ++ kind.display ++ "`"

def alternatives : List String → String
  | [] => "more input"
  | [choice] => choice
  | [choice, last] => choice ++ " or " ++ last
  | choice :: choices => choice ++ ", " ++ alternatives choices

namespace Token

def description (t : Token) : String :=
  match t.kind, t.quote with
  | .endOfInput, _ => "end of input"
  | .literal, some _ => "string " ++ t.written
  | .literal, none => "string `" ++ t.value ++ "`"
  | _, _ => "`" ++ t.value ++ "`"

def quotingHelp (t : Token) : String :=
  "`" ++ t.value ++ "` is a keyword; quote it to use it as a value, e.g. \"" ++ t.value ++ "\""

def clauseHelp : String :=
  "clauses may each appear at most once, in the order SELECT, WHERE, ORDER BY, LIMIT, OFFSET"

def spacesHelp : String :=
  "a field name containing spaces must be quoted, e.g. \"First Name\""

def unexpected (t : Token) (expected : List TokenKind) : Diagnostic :=
  let choices := alternatives (expected.map TokenKind.choice)
  let names := expected.map TokenKind.display
  if t.isEnd then
    .on t.start ("Syntax error: expected " ++ choices ++ ", no more symbols") (.unexpectedEnd names)
  else
    let d := (Diagnostic.on t.start
      ("Syntax error: expected " ++ choices ++ ", found " ++ t.description)
      (.unexpectedToken names t.description)).spanningTo t.stop
    if expected.contains .literal && t.kind.isKeyword then d.help t.quotingHelp else d

def trailing (t : Token) : Diagnostic :=
  let d := (Diagnostic.on t.start ("Syntax error: unexpected " ++ t.description)
    (.trailingInput t.description)).spanningTo t.stop
  if t.kind.opensClause then d.help clauseHelp else d

def tooDeep (t : Token) (limit : Nat) : Diagnostic :=
  (Diagnostic.on t.start
    ("Syntax error: parentheses nested deeper than " ++ toString limit ++ " levels")
    (.nestingTooDeep limit)).spanningTo t.stop

end Token

def Literal.invalid (l : Literal) (reason : String) : Diagnostic :=
  (Diagnostic.on l.start ("Syntax error: invalid value `" ++ l.value ++ "`: " ++ reason)
    (.invalidValue l.value reason)).spanningTo l.stop

end FindExpr

import FindExpr.Command.Invocation
import FindExpr.Command.Check
import FindExpr.Query.Json
import FindExpr.Query.Builder

namespace FindExpr.Command

namespace Tokens

def row (place kind value : String) : String :=
  String.ofList (Text.alignRight 5 place.toList ++ [' ', ' ']
    ++ Text.alignLeft 12 kind.toList ++ [' '] ++ value.toList)

def header : String := row "POS" "KIND" "VALUE"

def rowOf (t : Token) : String := row (toString t.start.index) t.kind.name t.written

def list? (source : String) (rows : List String) : List Item → Option Response
  | [] => some (.success ("\n".intercalate rows))
  | .ok t :: items => list? source (rows ++ [rowOf t]) items
  | .error d :: _ =>
    (Response.rejection? "Lexical error" d source).map
      (·.withPreamble ("\n".intercalate rows))

def run? (source : String) : Option Response := list? source [header] (tokenize source)

end Tokens

def parseQuery? (limit : Nat) (source : String) (pretty : Bool) : Option Response :=
  match Query.parse limit source with
  | .ok q => some (.success (if pretty then q.prettyJson else q.compactJson))
  | .error d => Response.rejection? "Invalid find expression" d source

/-- The answer to a request. There is none, and the program crashes, if a diagnostic is to be
reported that has no report. -/
def Request.run? (limit : Nat) (files : FileSource) : Request → Option Response
  | .check inline paths extensions => Check.run? limit files inline paths extensions
  | .parse source pretty => parseQuery? limit source pretty
  | .tokens source => Tokens.run? source

end FindExpr.Command

import FindExpr.Diagnostic.Basic
import FindExpr.Lexeme
import FindExpr.Token.Basic

namespace FindExpr

abbrev Item := Except Diagnostic Token

structure Lexer where
  position : Position
  /-- The source from `position` on. -/
  rest : List Char
  finished : Bool
  deriving DecidableEq, Repr

namespace Lexer

def ofSource (source : String) : Lexer := ⟨.start, source.toList, false⟩

def advance (l : Lexer) (text rest : List Char) : Lexer :=
  { l with position := l.position.after text, rest }

def skipBlank (l : Lexer) : Lexer :=
  l.advance (Text.leadingBlank l.rest) (Text.skipBlank l.rest)

/-- The diagnostic for a rest that begins with no lexeme. Its token would start at `start`. -/
def fault (start : Position) (l : Lexer) : Diagnostic :=
  let runaway (style : QuoteStyle) : Diagnostic :=
    (((Diagnostic.on start "runaway string" .unterminatedString).noteAt
      "string started here" l.position).help
        ("add a closing `" ++ String.singleton style.mark ++ "`")).spanningTo
          (l.position.after l.rest)
  if l.rest.head? = some QuoteStyle.double.mark then runaway .double
  else if l.rest.head? = some QuoteStyle.single.mark then runaway .single
  else .on start "no matching symbol" .unrecognizedInput

/-- Reads one token. At the end of the source this is the end-of-input token, however often it is
asked for; after a diagnostic iteration is over. -/
def nextToken (l : Lexer) : Item × Lexer :=
  let start := l.position
  let l := l.skipBlank
  if l.rest = [] then (.ok (.endOfInput start l.position), l)
  else match Lexeme.first? l.rest with
    | none => (.error (l.fault start), { l with finished := true })
    | some (x, rest) =>
      let l := (l.advance x.written rest).skipBlank
      (.ok ⟨x.kind, String.ofList x.value, x.quote, start, l.position⟩, l)

def isLast : Item → Bool
  | .ok t => t.isEnd
  | .error _ => true

/-- Reads one item by iteration, which ends with the end of the input or with a diagnostic. -/
def next? (l : Lexer) : Option Item × Lexer :=
  if l.finished then (none, l)
  else
    let (item, l) := l.nextToken
    (some item, { l with finished := l.finished || isLast item })

def take : Nat → Lexer → List Item
  | 0, _ => []
  | n + 1, l =>
    match l.next? with
    | (none, _) => []
    | (some item, l) => item :: take n l

end Lexer

/-- All items of a source. There are at most as many as characters and one more, since every item
but the last takes a character. -/
def tokenize (source : String) : List Item :=
  (Lexer.ofSource source).take (source.toList.length + 1)

end FindExpr

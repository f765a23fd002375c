import FindExpr.Lexer

namespace FindExpr

structure TokenStream where
  pending : List Item
  /-- The token that has been taken from the source but not consumed. -/
  lookahead : Option Token
  lastStop : Position

namespace TokenStream

def ofItems (items : List Item) : TokenStream := ⟨items, none, .start⟩

/-- Takes the next item from the source, unless there is a lookahead. -/
def pull (s : TokenStream) : Item × TokenStream :=
  match s.lookahead, s.pending with
  | some t, _ => (.ok t, { s with lookahead := none })
  | none, item :: pending => (item, { s with pending })
  | none, [] => (.ok (.endOfInput s.lastStop s.lastStop), s)

def current (s : TokenStream) : Item × TokenStream :=
  match s.pull with
  | (.ok t, s) => (.ok t, { s with lookahead := some t })
  | (.error d, s) => (.error d, s)

def currentKind (s : TokenStream) : Except Diagnostic TokenKind × TokenStream :=
  let (item, s) := s.current
  (item.map Token.kind, s)

def isAtEnd (s : TokenStream) : Except Diagnostic Bool × TokenStream :=
  let (item, s) := s.current
  (item.map Token.isEnd, s)

def advance (s : TokenStream) : Item × TokenStream :=
  match s.pull with
  | (.ok t, s) => (.ok t, { s with lastStop := t.stop })
  | (.error d, s) => (.error d, s)

end TokenStream

end FindExpr

import FindExpr.Recognizer.State
import FindExpr.Token.Fault

namespace FindExpr.Recognizer

def enter (clause : Keyword) (t : Token) : Step :=
  match clause with
  | .select => .silent .expectField
  | .filter => .silent (.afterWhere t.start)
  | .orderBy => .silent .expectSortField
  | .limit => .silent .expectLimit
  | .offset => .silent .expectOffset
  | _ => .reject t.trailing

def betweenClauses (allowed : List Keyword) (t : Token) : Step :=
  match t.kind with
  | .endOfInput => ⟨[], .accept⟩
  | .keyword k => if k ∈ allowed then enter k t else .reject t.trailing
  | _ => .reject t.trailing

def withLiteral (t : Token) (k : Literal → Step) : Step :=
  if t.kind = .literal then k t.literal else .reject (t.unexpected [.literal])

/-- Where a term begins: a parenthesis, unless that is one too many, or a comparison. -/
def beginTerm (limit : Nat) (opened : List Token) (t : Token) : Step :=
  if t.kind = .literal then .silent (.expectComparator t.literal opened)
  else if t.kind = .symbol .leftParen then
    if limit ≤ opened.length then .reject (t.tooDeep limit)
    else ⟨[.groupStart t.start, .conditionStart, .conjunctionStart],
      .continue (.expectTerm (t :: opened))⟩
  else .reject (t.unexpected [.symbol .leftParen, .literal])

def comparatorKinds : List TokenKind :=
  [.symbol .eq, .symbol .lt, .symbol .gt, .symbol .le, .symbol .ge, .keyword .like]

def readComparator (field : Literal) (opened : List Token) (t : Token) : Step :=
  match t.kind.comparator? with
  | some op => .silent (.expectValue field op opened)
  | none =>
    let d := t.unexpected comparatorKinds
    .reject (if t.kind = .literal then d.help Token.spacesHelp else d)

def endCondition (opened : List Token) (t : Token) : Step :=
  match opened with
  | [] => betweenClauses [.orderBy, .limit, .offset] t
  | paren :: outer =>
    if t.kind = .symbol .rightParen then ⟨[.groupEnd t.start], .continue (.afterTerm outer)⟩
    else .reject
      ((t.unexpected [.symbol .rightParen]).noteAt "unmatched `(` opened here" paren.start)

def continueCondition (opened : List Token) (t : Token) : Step :=
  if t.kind = .keyword .and then ⟨[.connective .and t.start], .continue (.expectTerm opened)⟩
  else match t.kind.alternative? with
    | some op =>
      ⟨[.conjunctionEnd, .connective op t.start, .conjunctionStart], .continue (.expectTerm opened)⟩
    | none => (endCondition opened t).precededBy [.conjunctionEnd, .conditionEnd]

def continueSort (t : Token) : Step :=
  if t.kind = .symbol .comma then .silent .expectSortField
  else betweenClauses [.limit, .offset] t

/-- Reads one token, with parentheses nested at most `limit` deep. -/
def step (limit : Nat) : State → Token → Step
  | .start, t => betweenClauses [.select, .filter, .orderBy, .limit, .offset] t
  | .expectField, t => withLiteral t fun l => ⟨[.selectField l], .continue .afterField⟩
  | .afterField, t =>
    if t.kind = .symbol .comma then .silent .expectField
    else betweenClauses [.filter, .orderBy, .limit, .offset] t
  | .afterWhere place, t =>
    if t.kind = .keyword .omits then
      ⟨[.filter true place, .conditionStart, .conjunctionStart], .continue (.expectTerm [])⟩
    else (beginTerm limit [] t).precededBy [.filter false place, .conditionStart, .conjunctionStart]
  | .expectTerm opened, t => beginTerm limit opened t
  | .expectComparator field opened, t => readComparator field opened t
  | .expectValue field op opened, t =>
    withLiteral t fun l => ⟨[.comparison field op l], .continue (.afterTerm opened)⟩
  | .afterTerm opened, t => continueCondition opened t
  | .expectSortField, t => withLiteral t fun l => .silent (.afterSortField l)
  | .afterSortField field, t =>
    match t.kind.direction? with
    | some d => ⟨[.sortKey field (some d)], .continue .afterSortKey⟩
    | none => (continueSort t).precededBy [.sortKey field none]
  | .afterSortKey, t => continueSort t
  | .expectLimit, t => withLiteral t fun l => ⟨[.limit l], .continue .afterLimit⟩
  | .afterLimit, t => betweenClauses [.offset] t
  | .expectOffset, t => withLiteral t fun l => ⟨[.offset l], .continue .afterOffset⟩
  | .afterOffset, t => betweenClauses [] t

end FindExpr.Recognizer

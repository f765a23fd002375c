import FindExpr.Operator

namespace FindExpr

inductive Keyword where
  | select | filter | orderBy | limit | offset | like | and | or | omits | asc | desc
  deriving DecidableEq, Repr

inductive Symbol where
  | leftParen | rightParen | eq | lt | gt | le | ge | comma
  deriving DecidableEq, Repr

inductive TokenKind where
  | endOfInput
  | keyword (word : Keyword)
  | symbol (sign : Symbol)
  | literal
  deriving DecidableEq, Repr

namespace Keyword

def text : Keyword → String
  | select => "SELECT"
  | filter => "WHERE"
  | orderBy => "ORDER BY"
  | limit => "LIMIT"
  | offset => "OFFSET"
  | like => "LIKE"
  | and => "AND"
  | or => "OR"
  | omits => "OMIT"
  | asc => "ASC"
  | desc => "DESC"

def name : Keyword → String
  | select => "Select"
  | filter => "Where"
  | orderBy => "OrderBy"
  | limit => "Limit"
  | offset => "Offset"
  | like => "Like"
  | and => "And"
  | or => "Or"
  | omits => "Omit"
  | asc => "Asc"
  | desc => "Desc"

def opensClause : Keyword → Bool
  | select | filter | orderBy | limit | offset => true
  | like | and | or | omits | asc | desc => false

end Keyword

namespace Symbol

def text : Symbol → String
  | leftParen => "("
  | rightParen => ")"
  | eq => "="
  | lt => "<"
  | gt => ">"
  | le => "<="
  | ge => ">="
  | comma => ","

def name : Symbol → String
  | leftParen => "LParen"
  | rightParen => "RParen"
  | eq => "Eq"
  | lt => "Lt"
  | gt => "Gt"
  | le => "LtEq"
  | ge => "GtEq"
  | comma => "Comma"

end Symbol

namespace TokenKind

def display : TokenKind → String
  | endOfInput => "end of input"
  | keyword k => k.text
  | symbol s => s.text
  | literal => "string"

def name : TokenKind → String
  | endOfInput => "Null"
  | keyword k => k.name
  | symbol s => s.name
  | literal => "String"

def isKeyword : TokenKind → Bool
  | keyword _ => true
  | _ => false

def opensClause : TokenKind → Bool
  | keyword k => k.opensClause
  | _ => false

def comparator? : TokenKind → Option Comparator
  | symbol .eq => some .eq
  | symbol .lt => some .lt
  | symbol .gt => some .gt
  | symbol .le => some .le
  | symbol .ge => some .ge
  | keyword .like => some .like
  | _ => none

def alternative? : TokenKind → Option Connective
  | keyword .or => some .or
  | keyword .omits => some .omits
  | _ => none

def direction? : TokenKind → Option Direction
  | keyword .asc => some .ascending
  | keyword .desc => some .descending
  | _ => none

end TokenKind

end FindExpr

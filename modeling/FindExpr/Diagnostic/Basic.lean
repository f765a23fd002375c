import FindExpr.Position

namespace FindExpr

/-- Why an expression is rejected. Tokens are named as messages show them. -/
inductive Cause where
  | unterminatedString
  | unrecognizedInput
  | unexpectedToken (expected : List String) (found : String)
  | unexpectedEnd (expected : List String)
  | trailingInput (found : String)
  | nestingTooDeep (limit : Nat)
  | invalidValue (value reason : String)
  deriving DecidableEq, Repr

inductive Category where
  | lexical | syntactic
  deriving DecidableEq, Repr

namespace Cause

def category : Cause → Category
  | unterminatedString | unrecognizedInput => .lexical
  | unexpectedToken .. | unexpectedEnd _ | trailingInput _ | nestingTooDeep _ | invalidValue .. =>
    .syntactic

def text : Cause → String
  | unterminatedString => "runaway string"
  | unrecognizedInput => "no matching symbol"
  | unexpectedToken _ found => "unexpected token: `" ++ found ++ "`"
  | unexpectedEnd _ => "unexpected end of input"
  | trailingInput found => "trailing input: `" ++ found ++ "`"
  | nestingTooDeep limit => "nesting deeper than " ++ toString limit ++ " levels"
  | invalidValue value reason => "invalid value `" ++ value ++ "`: " ++ reason

end Cause

namespace Category

def text : Category → String
  | lexical => "lexical"
  | syntactic => "syntactic"

end Category

inductive NoteKind where
  | note | help
  deriving DecidableEq, Repr

namespace NoteKind

def text : NoteKind → String
  | note => "note"
  | help => "help"

end NoteKind

structure Note where
  kind : NoteKind
  message : String
  place : Option Position
  deriving DecidableEq, Repr

/-- A diagnostic marks the source from `start` to `stop`, or only a place if these are equal. -/
structure Diagnostic where
  message : String
  cause : Cause
  start : Position
  stop : Position
  notes : List Note
  deriving DecidableEq, Repr

namespace Diagnostic

def on (place : Position) (message : String) (cause : Cause) : Diagnostic :=
  ⟨message, cause, place, place, []⟩

def spanningTo (d : Diagnostic) (stop : Position) : Diagnostic :=
  if d.start.precedes stop then { d with stop } else d

def withNote (d : Diagnostic) (note : Note) : Diagnostic := { d with notes := d.notes ++ [note] }

def note (d : Diagnostic) (message : String) : Diagnostic := d.withNote ⟨.note, message, none⟩

def noteAt (d : Diagnostic) (message : String) (place : Position) : Diagnostic :=
  d.withNote ⟨.note, message, some place⟩

def help (d : Diagnostic) (message : String) : Diagnostic := d.withNote ⟨.help, message, none⟩

def category (d : Diagnostic) : Category := d.cause.category

def summary (d : Diagnostic) : String :=
  "position " ++ toString d.start.index ++ ": error: " ++ d.message

end Diagnostic

end FindExpr

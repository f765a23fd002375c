import FindExpr.Query.Basic
import FindExpr.Recognizer.Run
import FindExpr.Text.Basic
import FindExpr.Token.Fault

namespace FindExpr

/-- A condition or a conjunction that has not yet ended. -/
inductive Frame where
  | condition (joined : Option Condition) (op : Option Connective)
  | conjunction (joined : Option Condition)
  deriving DecidableEq, Repr

structure Builder where
  query : Query
  /-- The innermost frame comes first. -/
  frames : List Frame
  deriving DecidableEq, Repr

namespace Builder

def empty : Builder := ⟨.empty, []⟩

def addTerm (term : Condition) : List Frame → List Frame
  | .conjunction none :: outer => .conjunction (some term) :: outer
  | .conjunction (some joined) :: outer => .conjunction (some (.binary .and joined term)) :: outer
  | frames => frames

def addConjunction (term : Condition) : List Frame → List Frame
  | .condition (some joined) (some op) :: outer =>
    .condition (some (.binary op joined term)) none :: outer
  | .condition _ _ :: outer => .condition (some term) none :: outer
  | frames => frames

def endConjunction : List Frame → List Frame
  | .conjunction (some term) :: outer => addConjunction term outer
  | _ :: outer => outer
  | [] => []

/-- Ends the innermost condition. It is a term where it stands in parentheses, and else all there
is. -/
def endCondition (b : Builder) : Builder :=
  match b.frames with
  | .condition (some term) _ :: [] => ⟨{ b.query with condition := some term }, []⟩
  | .condition (some term) _ :: outer => { b with frames := addTerm term outer }
  | _ :: outer => { b with frames := outer }
  | [] => b

/-- Keeps the connective for the next conjunction. Terms of a conjunction need none. -/
def setConnective : Connective → List Frame → List Frame
  | .and, frames => frames
  | op, .condition joined _ :: outer => .condition joined (some op) :: outer
  | _, frames => frames

def count (l : Literal) : Except Diagnostic UInt64 :=
  match Text.uint64? l.unescaped.toList with
  | some n => .ok n
  | none => .error (l.invalid "expected a non-negative integer")

def add : Handler Builder
  | .selectField name, b =>
    ({ b with query.fields := b.query.fields ++ [name.unescaped] }, none)
  | .filter omits _, b => ({ b with query.omits := omits }, none)
  | .conditionStart, b => ({ b with frames := .condition none none :: b.frames }, none)
  | .conditionEnd, b => (b.endCondition, none)
  | .conjunctionStart, b => ({ b with frames := .conjunction none :: b.frames }, none)
  | .conjunctionEnd, b => ({ b with frames := endConjunction b.frames }, none)
  | .connective op _, b => ({ b with frames := setConnective op b.frames }, none)
  | .groupStart _, b => (b, none)
  | .groupEnd _, b => (b, none)
  | .comparison field op value, b =>
    ({ b with
        frames := addTerm (.comparison ⟨field.unescaped, op, value.unescaped⟩) b.frames }, none)
  | .sortKey field direction, b =>
    ({ b with query.sort := b.query.sort ++ [⟨field.unescaped, direction⟩] }, none)
  | .limit l, b =>
    match count l with
    | .ok n => ({ b with query.limit := some n }, none)
    | .error d => (b, some d)
  | .offset l, b =>
    match count l with
    | .ok n => ({ b with query.offset := some n }, none)
    | .error d => (b, some d)

end Builder

namespace Query

def ofItems (limit : Nat) (items : List Item) : Except Diagnostic Query :=
  let outcome := Recognizer.run limit Builder.add items .empty
  outcome.result.map fun _ => outcome.state.query

def parse (limit : Nat) (source : String) : Except Diagnostic Query :=
  ofItems limit (tokenize source)

end Query

end FindExpr

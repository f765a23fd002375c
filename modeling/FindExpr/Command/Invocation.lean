import FindExpr.Command.Reading
import FindExpr.Recognizer.Run

namespace FindExpr.Command

inductive Request where
  | check (inline paths extensions : List String)
  | parse (source : String) (pretty : Bool)
  | tokens (source : String)
  deriving DecidableEq, Repr

structure Invocation where
  verbose : Bool
  limit : Nat
  request : Option Request
  deriving DecidableEq, Repr

namespace Request

def splitExtensions (value : String) : List String :=
  (value.toList.splitOn ',').map String.ofList

def ofReading (verb : Verb) (r : Reading) : Except Refusal Request :=
  match verb, r.operands with
  | .check, inline =>
    if inline.isEmpty && !r.has .file then .error .missingOperand
    else .ok (.check inline (r.values .file)
      (if r.has .queryFileExts then (r.values .queryFileExts).flatMap splitExtensions
        else ["fmq"]))
  | .parse, source :: _ => .ok (.parse source (r.has .pretty))
  | .tokens, source :: _ => .ok (.tokens source)
  | _, [] => .error .missingOperand

end Request

namespace Invocation

def limitOf (front behind : Reading) : Nat :=
  match (front.values .maxNestingDepth ++ behind.values .maxNestingDepth).getLast? with
  | some value => ((Text.uint64? value.toList).map UInt64.toNat).getD Recognizer.defaultLimit
  | none => Recognizer.defaultLimit

def ofReadings (front behind : Reading) (request : Option Request) : Invocation :=
  ⟨front.has .verbose || behind.has .verbose, limitOf front behind, request⟩

/-- The arguments behind `help` have to name a verb, if there are any. -/
def helpRefusal : List String → Refusal
  | [] => .helpAsked
  | [text] => if Reading.namesVerb text then .helpAsked else .unknownVerb
  | _ => .unknownVerb

def behindVerb (front : Reading) (verb : Verb) (arguments : List String) :
    Except Refusal Invocation := do
  let behind ← Reading.ofArguments verb .empty arguments
  let request ← Request.ofReading verb behind
  let front ← front.settle
  return ofReadings front behind request

def ofArgumentsFrom : Reading → List String → Except Refusal Invocation
  | front, [] => front.settle.map (ofReadings · .empty none)
  | front, text :: rest =>
    if !front.awaitsValue && text = "help" then .error (helpRefusal rest)
    else match if front.awaitsValue then none else Verb.ofText? text with
      | some verb => behindVerb front verb rest
      | none =>
        if text = "--" then
          (rest.foldlM (Reading.addOperand none true) front).bind fun front =>
            front.settle.map (ofReadings · .empty none)
        else (front.add none text).bind (ofArgumentsFrom · rest)

def ofArguments (arguments : List String) : Except Refusal Invocation :=
  ofArgumentsFrom .empty arguments

end Invocation

end FindExpr.Command

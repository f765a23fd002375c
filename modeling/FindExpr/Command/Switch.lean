import FindExpr.Text.Basic

namespace FindExpr.Command

inductive Refusal where
  | missingOperand
  | unknownArgument
  | unknownVerb
  | unfitValue
  | missingValue
  | needlessValue
  | repeatedSwitch
  | helpAsked
  | versionAsked
  deriving DecidableEq, Repr

def Refusal.exitCode : Refusal → Nat
  | .helpAsked | .versionAsked => 0
  | _ => 2

inductive Verb where
  | check | parse | tokens
  deriving DecidableEq, Repr

def Verb.all : List Verb := [.check, .parse, .tokens]

def Verb.text : Verb → String
  | .check => "check"
  | .parse => "parse"
  | .tokens => "tokens"

def Verb.ofText? (text : String) : Option Verb := Verb.all.find? (·.text = text)

inductive Switch where
  | help | version | verbose | maxNestingDepth | file | queryFileExts | pretty
  deriving DecidableEq, Repr

namespace Switch

def long : Switch → String
  | help => "help"
  | version => "version"
  | verbose => "verbose"
  | maxNestingDepth => "max-nesting-depth"
  | file => "file"
  | queryFileExts => "query-file-exts"
  | pretty => "pretty"

def short? : Switch → Option Char
  | help => some 'h'
  | version => some 'V'
  | verbose => some 'v'
  | _ => none

def takesValue : Switch → Bool
  | maxNestingDepth | file | queryFileExts => true
  | _ => false

def repeatable : Switch → Bool
  | file | queryFileExts => true
  | _ => false

def objection? : Switch → String → Option Refusal
  | maxNestingDepth, value =>
    if (Text.uint64? value.toList).isNone then some .unfitValue else none
  | file, value => if value.isEmpty then some .missingValue else none
  | help, _ => some .helpAsked
  | version, _ => some .versionAsked
  | _, _ => none

def available : Option Verb → List Switch
  | none => [help, version, verbose, maxNestingDepth]
  | some .check => [help, verbose, maxNestingDepth, file, queryFileExts]
  | some .parse => [help, verbose, maxNestingDepth, pretty]
  | some .tokens => [help, verbose, maxNestingDepth]

def ofLong? (verb : Option Verb) (name : List Char) : Option Switch :=
  (available verb).find? (·.long.toList = name)

def ofShort? (verb : Option Verb) (letter : Char) : Option Switch :=
  (available verb).find? (·.short? = some letter)

end Switch

end FindExpr.Command

import FindExpr.Text.Basic

namespace FindExpr

inductive LogLevel where
  | trace | debug | info | warn | error
  deriving DecidableEq, Repr

namespace LogLevel

def text : LogLevel → String
  | trace => "TRACE"
  | debug => "DEBUG"
  | info => "INFO"
  | warn => "WARN"
  | error => "ERROR"

def byDefault : LogLevel := info

def ofNumber? : Nat → Option LogLevel
  | 1 => some error
  | 2 => some warn
  | 3 => some info
  | 4 => some debug
  | 5 => some trace
  | _ => none

def ofText? (value : List Char) : Option LogLevel :=
  (Text.uint64? value).bind (ofNumber? ·.toNat)
    <|> [error, warn, info, debug, trace].find? (Text.sameFolded ·.text.toList value)

def resolve (verbose : Bool) (setting : Option String) : LogLevel × Option String :=
  let value := (setting.map fun s => Text.trim s.toList).getD []
  if verbose then (debug, none)
  else if value = [] then (byDefault, none)
  else if Text.sameFolded "VERBOSE".toList value then (debug, none)
  else match ofText? value with
    | some level => (level, none)
    | none =>
      (byDefault,
        some ("Invalid `LOG_LEVEL` environment variable value: `" ++ String.ofList value ++ "`"))

end LogLevel

end FindExpr

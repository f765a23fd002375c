import FindExpr.Diagnostic.Report

namespace FindExpr.Command

structure Response where
  exitCode : Nat
  stdout : Option String
  stderr : Option String
  deriving DecidableEq, Repr

namespace Response

def checkMark : String := "\u2705"

def crossMark : String := "\u274c"

def success (text : String) : Response := ⟨0, some text, none⟩

def failure (text : String) : Response := ⟨1, none, some text⟩

def rejection? (headline : String) (d : Diagnostic) (source : String) : Option Response :=
  (d.report? (some source)).map fun report =>
    failure (crossMark ++ " " ++ headline ++ ":\n"
      ++ String.ofList (Text.trimEnd report.toList))

def withPreamble (r : Response) (preamble : String) : Response :=
  { r with stderr := r.stderr.map fun text => preamble ++ "\n" ++ text }

end Response

end FindExpr.Command

import FindExpr.Text.Basic

namespace FindExpr.Command

/-- An absolute path without links and dots, by its parts. -/
structure Path where
  parts : List String
  deriving DecidableEq, Repr

namespace Path

def text (p : Path) : String := "/" ++ "/".intercalate p.parts

def before (p q : Path) : Bool := Text.lexLE Text.textLE p.parts q.parts

end Path

structure FoundFile where
  name : String
  path : Path
  deriving DecidableEq, Repr

inductive Scan where
  | file (f : FoundFile)
  | directory (files : List FoundFile)
  deriving DecidableEq, Repr

def Scan.files : Scan → List FoundFile
  | .file f => [f]
  | .directory files => files

inductive ScanError where
  | notFound
  | notADirectory
  deriving DecidableEq, Repr

def ScanError.text : ScanError → String
  | .notFound => "No such file or directory (os error 2)"
  | .notADirectory => "Not a directory (os error 20)"

structure FileSource where
  scan : String → Except ScanError Scan
  read : Path → Option String

/-- The part of a file's name behind its last dot, unless that is its first character. -/
def extension? (name : List Char) : Option (List Char) :=
  match name.reverse.dropWhile (· ≠ '.') with
  | [] => none
  | [_] => none
  | _ => some (name.reverse.takeWhile (· ≠ '.')).reverse

end FindExpr.Command

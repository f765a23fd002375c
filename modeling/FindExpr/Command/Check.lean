import FindExpr.Command.Files
import FindExpr.Command.Response
import FindExpr.Recognizer.Run

namespace FindExpr.Command.Check

structure Failure where
  origin : String
  source : String
  diagnostic : Diagnostic

structure FileReport where
  path : Path
  count : Nat
  failures : List Failure

def failure? (limit : Nat) (origin source : String) : Option Failure :=
  match Recognizer.check limit source with
  | .ok _ => none
  | .error d => some ⟨origin, source, d⟩

def inlineFailures (limit : Nat) (sources : List String) : List Failure :=
  sources.zipIdx.filterMap fun (source, i) =>
    failure? limit ("argument " ++ toString (i + 1)) source

/-- The lines of a text that are not blank, each with its number, counted from 1. -/
def expressions (text : String) : List (Nat × String) :=
  (Text.lines text.toList).zipIdx.filterMap fun (line, i) =>
    if line.all Text.isBlank then none else some (i + 1, String.ofList line)

def fileReport (limit : Nat) (path : Path) (text : String) : FileReport :=
  let sources := expressions text
  ⟨path, sources.length, sources.filterMap fun (number, source) =>
    failure? limit (path.text ++ ":" ++ toString number) source⟩

/-- The files to check among those found: those with one of the extensions, or the only path given
if it is a file without. -/
def choose (extensions : List (List Char)) (scans : List Scan) : List Path :=
  let chosen := (scans.flatMap Scan.files).filter fun f =>
    (extension? f.name.toList).any extensions.contains
  match chosen, scans with
  | [], [.file f] => [f.path]
  | chosen, _ => chosen.map FoundFile.path

def scan (files : FileSource) (path : String) : Except String Scan :=
  match files.scan path with
  | .ok found => .ok found
  | .error e =>
    .error ("Failed to collect query files: Failed to scan " ++ path
      ++ ": IO error for operation on " ++ path ++ ": " ++ e.text ++ ": " ++ e.text)

def collect (files : FileSource) (paths extensions : List String) : Except String (List Path) :=
  (paths.mapM (scan files)).map fun scans =>
    (choose (extensions.map (·.toList.dropWhile (· = '.'))) scans).mergeSort Path.before

def checkFile (limit : Nat) (files : FileSource) (path : Path) : Except String FileReport :=
  match files.read path with
  | some text => .ok (fileReport limit path text)
  | none =>
    .error ("Failed to read " ++ path.text ++ ": stream did not contain valid UTF-8")

/-- Puts reports that may have been completed in any order into the order of their paths. The first
file that could not be read is the one to be named. -/
def gather (completed : List (Except String FileReport)) : Except String (List FileReport) :=
  (completed.mapM id).map fun reports =>
    reports.mergeSort fun r s => r.path.before s.path

def successText (inline fileCount : Nat) (reports : List FileReport) : String :=
  Response.checkMark ++ " All find expressions validated successfully:\n"
    ++ "  * Validated " ++ toString inline ++ " inline expressions.\n"
    ++ "  * Validated " ++ toString fileCount ++ " expressions from "
    ++ toString reports.length ++ " query files."

def Failure.text? (f : Failure) : Option String :=
  (f.diagnostic.report? (some f.source)).map fun report =>
    f.origin ++ ":\n" ++ String.ofList (Text.indent 2 report.toList)

def failureText? (count : Nat) (failures : List Failure) : Option String :=
  (failures.mapM Failure.text?).map fun texts =>
    Response.crossMark ++ " " ++ toString failures.length ++ " of " ++ toString count
      ++ " find expressions are invalid:\n\n" ++ "\n\n".intercalate texts

def conclude? (limit : Nat) (inline : List String) (reports : List FileReport) :
    Option Response :=
  let failures := inlineFailures limit inline ++ reports.flatMap FileReport.failures
  let fileCount := reports.foldr (fun r n => r.count + n) 0
  if failures.isEmpty then some (.success (successText inline.length fileCount reports))
  else (failureText? (inline.length + fileCount) failures).map .failure

/-- The answer, if the checks of the files are completed in the given order. -/
def concludeCompleted? (limit : Nat) (inline : List String)
    (completed : List (Except String FileReport)) : Option Response :=
  match gather completed with
  | .ok reports => conclude? limit inline reports
  | .error text => some (.failure (Response.crossMark ++ " " ++ text))

def run? (limit : Nat) (files : FileSource) (inline paths extensions : List String) :
    Option Response :=
  match collect files paths extensions with
  | .ok found => concludeCompleted? limit inline (found.map (checkFile limit files))
  | .error text => some (.failure (Response.crossMark ++ " " ++ text))

end FindExpr.Command.Check

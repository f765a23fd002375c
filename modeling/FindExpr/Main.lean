import FindExpr.Command.Run
import FindExpr.LogLevel

namespace FindExpr.Command.Main

def usage : String :=
  "Usage: find-expr [--verbose] [--max-nesting-depth N] <check|parse|tokens> ..."

def partsOf (path : String) : List String :=
  ((path.toList.splitOn '/').map String.ofList).filter (· ≠ "")

structure Loaded where
  asked : String
  found : Except ScanError Scan
  contents : List (Path × ByteArray)

/-- All files at or below a path, each by its name, its real path and its contents. A directory is
not entered again from below. -/
partial def load (above : List String) (name path : String) :
    IO (List (FoundFile × ByteArray)) := do
  let real ← IO.FS.realPath path
  if ← real.isDir then
    if above.contains real.toString then return []
    let entries ← real.readDir
    let found ← entries.toList.mapM fun e =>
      load (real.toString :: above) e.fileName e.path.toString
    return found.flatten
  else
    return [(⟨name, ⟨partsOf real.toString⟩⟩, ← IO.FS.readBinFile real)]

def loadPath (path : String) : IO Loaded := do
  try
    let isDirectory ← (← IO.FS.realPath path).isDir
    let files ← load [] ((partsOf path).getLast?.getD "") path
    let contents := files.map fun (f, bytes) => (f.path, bytes)
    match isDirectory, files with
    | false, [(f, _)] => return ⟨path, .ok (.file f), contents⟩
    | _, files => return ⟨path, .ok (.directory (files.map (·.1))), contents⟩
  catch _ =>
    return ⟨path, .error .notFound, []⟩

def sourceOf (loaded : List Loaded) : FileSource where
  scan path := ((loaded.find? (·.asked = path)).map Loaded.found).getD (.error .notFound)
  read path := ((loaded.flatMap Loaded.contents).lookup path).bind String.fromUTF8?

def pathsOf : Request → List String
  | .check _ paths _ => paths
  | _ => []

/-- Prints an answer. Without one the program crashes. -/
def print : Option Response → IO UInt32
  | none => do
    IO.eprintln "Formatting argument out of range"
    return 101
  | some r => do
    if let some text := r.stdout then IO.println text
    if let some text := r.stderr then IO.eprintln text
    return UInt32.ofNat r.exitCode

end FindExpr.Command.Main

open FindExpr FindExpr.Command FindExpr.Command.Main in
def main (arguments : List String) : IO UInt32 := do
  match Invocation.ofArguments arguments with
  | .error refusal =>
    IO.eprintln usage
    return UInt32.ofNat refusal.exitCode
  | .ok invocation =>
    if let some warning := (LogLevel.resolve invocation.verbose (← IO.getEnv "LOG_LEVEL")).2 then
      IO.eprintln warning
    match invocation.request with
    | none =>
      IO.println usage
      return 0
    | some request =>
      let files := sourceOf (← (pathsOf request).mapM loadPath)
      print (request.run? invocation.limit files)

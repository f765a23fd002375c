import FindExpr.Diagnostic.Basic
import FindExpr.Text.Lines
import FindExpr.Text.Basic

namespace FindExpr

def clamp (low high n : Nat) : Nat := max low (min high n)

/-- A place in a source text by line and column, both counted from 0. -/
structure Spot where
  line : Nat
  column : Nat
  deriving DecidableEq, Repr

namespace Spot

def behind (text : List Char) : Spot :=
  ⟨text.count '\n', (text.reverse.takeWhile (· ≠ '\n')).length⟩

/-- The spot of a byte offset. An offset inside a character stands for the end of the source. -/
def ofOffset (source : List Char) (offset : Nat) : Spot :=
  behind ((Text.takeBytes? (min offset (Text.size source)) source).getD source)

/-- The line of the source a spot lies on. A spot behind the last line lies on an empty one. -/
def lineOf (source : List Char) (s : Spot) : List Char := ((Text.lines source)[s.line]?).getD []

def number (s : Spot) : List Char := Nat.toDigits 10 (s.line + 1)

def gutter (s : Spot) : Nat := max 2 s.number.length

def numberedLine? (source : List Char) (s : Spot) : Option (List Char) :=
  (Text.alignRight? s.gutter s.number).map (· ++ " | ".toList ++ s.lineOf source)

def markLine? (s : Spot) (marks : List Char) : Option (List Char) := do
  let gutter ← Text.alignRight? s.gutter []
  let padding ← Text.alignRight? s.column []
  some (gutter ++ " | ".toList ++ padding ++ marks)

end Spot

namespace Diagnostic

/-- The byte offset of the first character marked that is not blank, or where the marked text
starts if it is all blank: tokens take the blanks around them along, which may be whole lines. -/
def caretOffset (d : Diagnostic) (source : List Char) : Nat :=
  let start := min d.start.offset (Text.size source)
  let stop := clamp start (Text.size source) d.stop.offset
  match Text.slice? source start stop with
  | none => start
  | some marked =>
    if Text.skipBlank marked = [] then start else start + Text.size (Text.leadingBlank marked)

def spot (d : Diagnostic) (source : List Char) : Spot := .ofOffset source (d.caretOffset source)

def highlighted (d : Diagnostic) (source : List Char) : List Char :=
  let caret := d.caretOffset source
  Text.trimEnd
    ((Text.slice? source caret (clamp caret (Text.size source) d.stop.offset)).getD [])

def carets (d : Diagnostic) (source : List Char) : List Char :=
  List.replicate (max 1 (d.highlighted source).length) '^'

def snippet? (d : Diagnostic) (source : List Char) : Option (List (List Char)) := do
  let spot := d.spot source
  let gutter ← Text.alignRight? spot.gutter []
  let line ← spot.numberedLine? source
  let underline ← spot.markLine? (d.carets source)
  some [gutter ++ " |".toList, line, underline]

end Diagnostic

namespace Note

def headline (n : Note) : List Char :=
  "   = ".toList ++ n.kind.text.toList ++ ": ".toList ++ n.message.toList

def snippet? (source : List Char) (place : Position) : Option (List (List Char)) := do
  let spot := Spot.ofOffset source place.offset
  let line ← spot.numberedLine? source
  let dash ← spot.markLine? ['-']
  some [List.replicate 5 ' ' ++ line, List.replicate 5 ' ' ++ dash]

def lines? (n : Note) (source : Option (List Char)) : Option (List (List Char)) :=
  match n.place, source with
  | some place, some source => (snippet? source place).map (n.headline :: ·)
  | _, _ => some [n.headline]

end Note

namespace Diagnostic

def arrow (d : Diagnostic) : Option (List Char) → List Char
  | some source =>
    let spot := d.spot source
    "  --> <query>:".toList ++ spot.number ++ [':'] ++ Nat.toDigits 10 (spot.column + 1)
  | none => "  --> <query>:".toList ++ Nat.toDigits 10 d.start.index

def reportLines? (d : Diagnostic) (source : Option (List Char)) : Option (List (List Char)) := do
  let snippet ← source.elim (some []) d.snippet?
  let notes ← d.notes.mapM (·.lines? source)
  some (["error: ".toList ++ d.message.toList, d.arrow source] ++ snippet ++ notes.flatten)

/-- The lines of the report, each with a line feed behind it. There is none if a line is to be
filled up to a width that is too large. -/
def report? (d : Diagnostic) (source : Option String) : Option String :=
  (d.reportLines? (source.map String.toList)).map fun lines =>
    String.ofList (lines.flatMap (· ++ ['\n']))

end Diagnostic

end FindExpr

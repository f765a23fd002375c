namespace FindExpr.Text

def lines : List Char → List (List Char)
  | [] => []
  | '\n' :: rest => [] :: lines rest
  | '\r' :: '\n' :: rest => [] :: lines rest
  | c :: rest =>
    match lines rest with
    | [] => [[c]]
    | line :: others => (c :: line) :: others

def unlines (ls : List (List Char)) : List Char := List.intercalate ['\n'] ls

/-- Moves every line that is not empty `width` columns to the right. -/
def indent (width : Nat) (text : List Char) : List Char :=
  unlines ((lines text).map fun line =>
    if line.isEmpty then [] else List.replicate width ' ' ++ line)

def alignRight (width : Nat) (text : List Char) : List Char :=
  List.replicate (width - text.length) ' ' ++ text

def maxWidth : Nat := 65535

/-- Fills a text up to a width that is not fixed beforehand, and so may be too large to be used. -/
def alignRight? (width : Nat) (text : List Char) : Option (List Char) :=
  if width ≤ maxWidth then some (alignRight width text) else none

def alignLeft (width : Nat) (text : List Char) : List Char :=
  text ++ List.replicate (width - text.length) ' '

end FindExpr.Text

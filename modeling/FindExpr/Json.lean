namespace FindExpr

inductive Json where
  | null
  | bool (b : Bool)
  | number (n : Nat)
  | text (s : String)
  | list (items : List Json)
  | object (members : List (String × Json))

namespace Json

def escapeControl (c : Char) : List Char :=
  match c with
  | '\x08' => ['\\', 'b']
  | '\t' => ['\\', 't']
  | '\n' => ['\\', 'n']
  | '\x0c' => ['\\', 'f']
  | '\r' => ['\\', 'r']
  | c => ['\\', 'u', '0', '0', Nat.digitChar (c.toNat / 16), Nat.digitChar (c.toNat % 16)]

/-- Escapes quotes, backslashes and control characters, and nothing else. -/
def escapeChar (c : Char) : List Char :=
  if c = '\x22' then ['\\', '\x22']
  else if c = '\\' then ['\\', '\\']
  else if c.toNat < 32 then escapeControl c
  else [c]

def quoted (s : String) : List Char :=
  ['\x22'] ++ s.toList.flatMap escapeChar ++ ['\x22']

def atom : Json → List Char
  | bool b => (if b then "true" else "false").toList
  | number n => Nat.toDigits 10 n
  | text s => quoted s
  | _ => "null".toList

mutual

def compactOnto : Json → List Char → List Char
  | list items, rest => '[' :: compactItems items (']' :: rest)
  | object members, rest => '\x7b' :: compactMembers members ('\x7d' :: rest)
  | value, rest => atom value ++ rest

def compactItems : List Json → List Char → List Char
  | [], rest => rest
  | [item], rest => compactOnto item rest
  | item :: items, rest => compactOnto item (',' :: compactItems items rest)

def compactMembers : List (String × Json) → List Char → List Char
  | [], rest => rest
  | [(key, value)], rest => quoted key ++ ':' :: compactOnto value rest
  | (key, value) :: members, rest =>
    quoted key ++ ':' :: compactOnto value (',' :: compactMembers members rest)

end

def compact (j : Json) : List Char := compactOnto j []

def newline (depth : Nat) : List Char := '\n' :: List.replicate (2 * depth) ' '

mutual

def prettyOnto (depth : Nat) : Json → List Char → List Char
  | list [], rest => '[' :: ']' :: rest
  | list items, rest => '[' :: prettyItems (depth + 1) items (newline depth ++ ']' :: rest)
  | object [], rest => '\x7b' :: '\x7d' :: rest
  | object members, rest =>
    '\x7b' :: prettyMembers (depth + 1) members (newline depth ++ '\x7d' :: rest)
  | value, rest => atom value ++ rest

def prettyItems (depth : Nat) : List Json → List Char → List Char
  | [], rest => rest
  | [item], rest => newline depth ++ prettyOnto depth item rest
  | item :: items, rest =>
    newline depth ++ prettyOnto depth item (',' :: prettyItems depth items rest)

def prettyMembers (depth : Nat) : List (String × Json) → List Char → List Char
  | [], rest => rest
  | [(key, value)], rest =>
    newline depth ++ (quoted key ++ ':' :: ' ' :: prettyOnto depth value rest)
  | (key, value) :: members, rest =>
    newline depth ++ (quoted key ++ ':' :: ' ' ::
      prettyOnto depth value (',' :: prettyMembers depth members rest))

end

def pretty (j : Json) : List Char := prettyOnto 0 j []

/-- A way to write values, with the characters of strings escaped. -/
structure Serializer where
  escape : Char → List Char
  compact : Json → List Char
  pretty : Json → List Char

def standard : Serializer := ⟨escapeChar, compact, pretty⟩

end Json

end FindExpr

import FindExpr.Json
import FindExpr.Proofs.Text.Numeral

namespace FindExpr.Json

/-- A mark that stands for itself, a string, or a word such as a number. -/
inductive Piece where
  | mark (c : Char)
  | text (s : List Char)
  | word (w : List Char)

mutual

/-- What a value is written with, the members of an object in their order. -/
def pieces : Json → List Piece
  | null => [.word "null".toList]
  | bool b => [.word (if b then "true" else "false").toList]
  | number n => [.word (Nat.toDigits 10 n)]
  | text s => [.text s.toList]
  | list items => .mark '[' :: (itemPieces items ++ [.mark ']'])
  | object members => .mark '\x7b' :: (memberPieces members ++ [.mark '\x7d'])

def itemPieces : List Json → List Piece
  | [] => []
  | [item] => pieces item
  | item :: items => pieces item ++ .mark ',' :: itemPieces items

def memberPieces : List (String × Json) → List Piece
  | [] => []
  | [(key, value)] => .text key.toList :: .mark ':' :: pieces value
  | (key, value) :: members =>
    .text key.toList :: .mark ':' :: (pieces value ++ .mark ',' :: memberPieces members)

end

def ofEscape? : Char → Option Char
  | '\x22' => some '\x22'
  | '\\' => some '\\'
  | 'b' => some '\x08'
  | 't' => some '\t'
  | 'n' => some '\n'
  | 'f' => some '\x0c'
  | 'r' => some '\r'
  | _ => none

inductive Escape : Char → List Char → Prop
  | short {c d : Char} (h : ofEscape? d = some c) : Escape c ['\\', d]
  | code {high low : Nat} (hh : high < 16) (hl : low < 16) :
      Escape (Char.ofNat (16 * high + low))
        ['\\', 'u', '0', '0', Nat.digitChar high, Nat.digitChar low]

def Special (c : Char) : Prop := c = '\x22' ∨ c = '\\' ∨ c.toNat < 32

def Piece.spell (escape : Char → List Char) : Piece → List Char
  | mark c => [c]
  | text s => '\x22' :: (s.flatMap escape ++ ['\x22'])
  | word w => w

/-- The pieces make up the text, with spaces and line feeds between them. -/
inductive Spaced (escape : Char → List Char) : List Piece → List Char → Prop
  | nil : Spaced escape [] []
  | blank {c ps text} (hc : c = ' ' ∨ c = '\n') (hs : Spaced escape ps text) :
      Spaced escape ps (c :: text)
  | piece {ps text} (p : Piece) (hs : Spaced escape ps text) :
      Spaced escape (p :: ps) (p.spell escape ++ text)

/-- What a serializer promises. It escapes only the characters that have to be escaped, and the
compact layout has no blanks. -/
structure Serializer.Documented (s : Serializer) : Prop where
  escape_special : ∀ c, Special c → Escape c (s.escape c)
  escape_plain : ∀ c, ¬ Special c → s.escape c = [c]
  compact_eq : ∀ j, s.compact j = (pieces j).flatMap (·.spell s.escape)
  pretty_spaced : ∀ j, Spaced s.escape (pieces j) (s.pretty j)

section Items

variable (item next : Json) (items : List Json) (rest : List Char)

theorem itemPieces_cons_cons : itemPieces (item :: next :: items) =
    pieces item ++ .mark ',' :: itemPieces (next :: items) := rfl

theorem compactItems_cons_cons : compactItems (item :: next :: items) rest =
    compactOnto item (',' :: compactItems (next :: items) rest) := rfl

end Items

section Members

variable (key : String) (value : Json) (next : String × Json) (members : List (String × Json))
  (rest : List Char)

theorem memberPieces_cons_cons : memberPieces ((key, value) :: next :: members) =
    .text key.toList :: .mark ':' ::
      (pieces value ++ .mark ',' :: memberPieces (next :: members)) :=
  rfl

theorem compactMembers_cons_cons : compactMembers ((key, value) :: next :: members) rest =
    quoted key ++ ':' :: compactOnto value (',' :: compactMembers (next :: members) rest) := rfl

end Members

theorem Spaced.of_pieces {escape : Char → List Char} (ps : List Piece) :
    Spaced escape ps (ps.flatMap (·.spell escape)) := by
  induction ps with
  | nil => exact .nil
  | cons p ps ih => exact .piece p ih

section Standard

variable {c : Char} {depth : Nat} {ps : List Piece} {rest : List Char}

theorem Escape.of_control (h : c.toNat < 32) : Escape c (escapeControl c) := by
  unfold escapeControl
  split
  case h_6 =>
    have hc : Char.ofNat (16 * (c.toNat / 16) + c.toNat % 16) = c := by
      rw [Nat.div_add_mod, Char.ofNat_toNat]
    have hh : c.toNat / 16 < 16 := by omega
    have hl : c.toNat % 16 < 16 := by omega
    have he := Escape.code hh hl
    rwa [hc] at he
  all_goals exact .short rfl

theorem Escape.of_special (h : Special c) : Escape c (escapeChar c) := by
  rw [escapeChar]
  by_cases quote : c = '\x22'
  · subst quote
    exact .short rfl
  by_cases backslash : c = '\\'
  · subst backslash
    exact .short rfl
  rw [if_neg quote, if_neg backslash]
  have control : c.toNat < 32 := (h.resolve_left quote).resolve_left backslash
  rw [if_pos control]
  exact .of_control control

theorem escapeChar_plain (h : ¬ Special c) : escapeChar c = [c] := by
  simp only [Special, not_or] at h
  simp [escapeChar, h]

theorem quoted_eq_spell (s : String) : quoted s = (Piece.text s.toList).spell escapeChar := by
  simp [quoted, Piece.spell]

mutual

theorem compactOnto_eq (j : Json) (rest : List Char) :
    compactOnto j rest = (pieces j).flatMap (·.spell escapeChar) ++ rest := by
  match j with
  | .null | .bool _ | .number _ => simp [compactOnto, atom, pieces, Piece.spell]
  | .text s => simp [compactOnto, atom, pieces, quoted_eq_spell]
  | .list items => simp [compactOnto, pieces, Piece.spell, compactItems_eq items]
  | .object members => simp [compactOnto, pieces, Piece.spell, compactMembers_eq members]

theorem compactItems_eq (items : List Json) (rest : List Char) :
    compactItems items rest = (itemPieces items).flatMap (·.spell escapeChar) ++ rest := by
  match items with
  | [] => rfl
  | [item] => exact compactOnto_eq item rest
  | item :: next :: items =>
      rw [compactItems_cons_cons, compactOnto_eq item, compactItems_eq (next :: items),
        itemPieces_cons_cons]
      simp [Piece.spell]

theorem compactMembers_eq (members : List (String × Json)) (rest : List Char) :
    compactMembers members rest =
      (memberPieces members).flatMap (·.spell escapeChar) ++ rest := by
  match members with
  | [] => rfl
  | [(key, value)] =>
      rw [compactMembers, compactOnto_eq value, quoted_eq_spell, memberPieces]
      simp [Piece.spell]
  | (key, value) :: next :: members =>
      rw [compactMembers_cons_cons, compactOnto_eq value, compactMembers_eq (next :: members),
        quoted_eq_spell, memberPieces_cons_cons]
      simp [Piece.spell]

end

theorem Spaced.mark (c : Char) (h : Spaced escapeChar ps rest) :
    Spaced escapeChar (.mark c :: ps) (c :: rest) :=
  .piece (.mark c) h

theorem Spaced.quoted (s : String) (h : Spaced escapeChar ps rest) :
    Spaced escapeChar (.text s.toList :: ps) (quoted s ++ rest) :=
  quoted_eq_spell s ▸ .piece (.text s.toList) h

theorem Spaced.newline (depth : Nat) (h : Spaced escapeChar ps rest) :
    Spaced escapeChar ps (newline depth ++ rest) := by
  refine .blank (.inr rfl) ?_
  induction 2 * depth with
  | zero => exact h
  | succ n ih => exact .blank (.inl rfl) ih

mutual

theorem spaced_prettyOnto (depth : Nat) (j : Json) {ps : List Piece} {rest : List Char}
    (h : Spaced escapeChar ps rest) :
    Spaced escapeChar (pieces j ++ ps) (prettyOnto depth j rest) := by
  match j with
  | .null | .bool _ | .number _ => exact .piece (.word _) h
  | .text s => exact .quoted s h
  | .list [] | .object [] => exact .mark _ (.mark _ h)
  | .list (item :: items) =>
      rw [pieces, List.cons_append, List.append_assoc]
      exact .mark _ (spaced_prettyItems _ _ (List.cons_ne_nil item items) (.newline _ (.mark _ h)))
  | .object (member :: members) =>
      rw [pieces, List.cons_append, List.append_assoc]
      exact .mark _
        (spaced_prettyMembers _ _ (List.cons_ne_nil member members) (.newline _ (.mark _ h)))

theorem spaced_prettyItems (depth : Nat) (items : List Json) (hi : items ≠ [])
    {ps : List Piece} {rest : List Char} (h : Spaced escapeChar ps rest) :
    Spaced escapeChar (itemPieces items ++ ps) (prettyItems depth items rest) := by
  match items with
  | [] => exact absurd rfl hi
  | [item] => exact .newline _ (spaced_prettyOnto _ item h)
  | item :: next :: items =>
      rw [itemPieces_cons_cons, List.append_assoc]
      exact .newline _ (spaced_prettyOnto _ item
        (.mark _ (spaced_prettyItems _ _ (List.cons_ne_nil next items) h)))

theorem spaced_prettyMembers (depth : Nat) (members : List (String × Json)) (hm : members ≠ [])
    {ps : List Piece} {rest : List Char} (h : Spaced escapeChar ps rest) :
    Spaced escapeChar (memberPieces members ++ ps) (prettyMembers depth members rest) := by
  match members with
  | [] => exact absurd rfl hm
  | [(key, value)] =>
      exact .newline _ (.quoted key (.mark _ (.blank (.inl rfl) (spaced_prettyOnto _ value h))))
  | (key, value) :: next :: members =>
      rw [memberPieces_cons_cons]
      simp only [List.cons_append, List.append_assoc]
      exact .newline _ (.quoted key (.mark _ (.blank (.inl rfl) (spaced_prettyOnto _ value
        (.mark _ (spaced_prettyMembers _ _ (List.cons_ne_nil next members) h))))))

end

theorem documented_standard : standard.Documented where
  escape_special _ := Escape.of_special
  escape_plain _ := escapeChar_plain
  compact_eq j := (compactOnto_eq j []).trans (List.append_nil _)
  pretty_spaced j := List.append_nil (pieces j) ▸ spaced_prettyOnto 0 j .nil

end Standard

end FindExpr.Json

import FindExpr.Proofs.Json.Layouts

namespace FindExpr.Json

mutual

/-- Leaves out the spaces and line feeds that are not part of a string literal. -/
def squeeze : List Char → List Char
  | [] => []
  | c :: rest =>
    if c = '\x22' then c :: squeezeLiteral rest
    else if c = ' ' ∨ c = '\n' then squeeze rest
    else c :: squeeze rest

/-- `squeeze` behind the quote that begins a string literal. The character behind a backslash does
not end it. -/
def squeezeLiteral : List Char → List Char
  | [] => []
  | '\\' :: c :: rest => '\\' :: c :: squeezeLiteral rest
  | c :: rest => if c = '\x22' then c :: squeeze rest else c :: squeezeLiteral rest

end

namespace Piece

def isMark (c : Char) : Bool := c ≠ '\x22' && !c.isAlphanum

def consText (c : Char) : List Piece → List Piece
  | text s :: pieces => text (c :: s) :: pieces
  | pieces => pieces

def consWord (c : Char) : List Piece → List Piece
  | word w :: pieces => word (c :: w) :: pieces
  | pieces => word [c] :: pieces

def hexValue (c : Char) : Nat :=
  if c.isDigit then c.toNat - '0'.toNat else c.toNat - 'a'.toNat + 10

mutual

/-- The pieces of a text. The quote of a string without an end is a mark, and so is a backslash
that escapes nothing. -/
def ofText : List Char → List Piece
  | [] => []
  | c :: rest =>
    if isMark c then mark c :: ofText rest
    else if c = '\x22' then ofLiteral rest
    else consWord c (ofText rest)

def ofLiteral : List Char → List Piece
  | [] => [mark '\x22']
  | '\\' :: 'u' :: '0' :: '0' :: high :: low :: rest =>
    consText (Char.ofNat (16 * hexValue high + hexValue low)) (ofLiteral rest)
  | '\\' :: d :: rest =>
    match ofEscape? d with
    | some c => consText c (ofLiteral rest)
    | none => [mark '\\']
  | c :: rest => if c = '\x22' then text [] :: ofText rest else consText c (ofLiteral rest)

end

def EndsWord (ps : List Piece) : Prop := ∀ p ∈ ps.head?, ∃ c, p = mark c

/-- Marks, strings and words, where a mark or nothing stands behind each word. -/
inductive Proper : List Piece → Prop
  | nil : Proper []
  | mark {c ps} (hc : isMark c = true) (hb : c ≠ ' ' ∧ c ≠ '\n') (hp : Proper ps) :
      Proper (mark c :: ps)
  | text {s ps} (hp : Proper ps) : Proper (text s :: ps)
  | word {w ps} (hw : w.all Char.isAlphanum = true) (hn : w ≠ [])
      (he : EndsWord ps) (hp : Proper ps) : Proper (word w :: ps)

theorem endsWord_nil : EndsWord [] := nofun

theorem endsWord_mark (c : Char) (ps : List Piece) : EndsWord (mark c :: ps) := by
  rintro p ⟨⟩
  exact ⟨c, rfl⟩

end Piece

open Piece

section Spelling

variable {s : Serializer} {c : Char} {ps : List Piece} {rest text : List Char}

theorem digitChar_plain {n : Nat} (h : n < 16) :
    Nat.digitChar n ≠ '\x22' ∧ Nat.digitChar n ≠ '\\' := by
  revert n
  decide

theorem hexValue_digitChar {n : Nat} (h : n < 16) : hexValue (Nat.digitChar n) = n := by
  revert n
  decide

theorem ne_of_isAlphanum {c d : Char} (hc : c.isAlphanum = true) (hd : d.isAlphanum = false) :
    c ≠ d := by
  rintro rfl
  rw [hc] at hd
  exact Bool.noConfusion hd

theorem Serializer.Documented.escape_cases (h : s.Documented) (c : Char) :
    (c ≠ '\x22' ∧ c ≠ '\\') ∧ s.escape c = [c] ∨ Escape c (s.escape c) := by
  by_cases hc : Special c
  · exact .inr (h.escape_special c hc)
  · refine .inl ⟨?_, h.escape_plain c hc⟩
    simp only [Special, not_or] at hc
    exact ⟨hc.1, hc.2.1⟩

theorem squeezeLiteral_plain (hc : c ≠ '\x22' ∧ c ≠ '\\') (rest : List Char) :
    squeezeLiteral (c :: rest) = c :: squeezeLiteral rest := by
  rw [squeezeLiteral, if_neg hc.1]
  intro d text he
  exact absurd he hc.2

theorem squeezeLiteral_escape (h : Escape c text) (rest : List Char) :
    squeezeLiteral (text ++ rest) = text ++ squeezeLiteral rest := by
  cases h with
  | short => rfl
  | code hh hl =>
      have h0 : '0' ≠ '\x22' ∧ '0' ≠ '\\' := by decide
      simp only [List.cons_append, List.nil_append, squeezeLiteral, squeezeLiteral_plain h0,
        squeezeLiteral_plain (digitChar_plain hh), squeezeLiteral_plain (digitChar_plain hl)]

theorem ofLiteral_plain (hc : c ≠ '\x22' ∧ c ≠ '\\') (rest : List Char) :
    ofLiteral (c :: rest) = consText c (ofLiteral rest) := by
  rw [ofLiteral, if_neg hc.1]
  · intro high low text he
    exact absurd he hc.2
  · intro d text he
    exact absurd he hc.2

theorem ofLiteral_escape (h : Escape c text) (rest : List Char) :
    ofLiteral (text ++ rest) = consText c (ofLiteral rest) := by
  cases h with
  | @short _ d hd =>
      rw [List.cons_append, List.singleton_append, ofLiteral, hd]
      rintro high low text rfl -
      exact Option.some_ne_none c hd.symm
  | code hh hl =>
      simp only [List.cons_append, List.nil_append, ofLiteral, hexValue_digitChar hh,
        hexValue_digitChar hl]

/-- No escape is taken for the end of a string. -/
theorem squeezeLiteral_flatMap (h : s.Documented) (cs rest : List Char) :
    squeezeLiteral (cs.flatMap s.escape ++ '\x22' :: rest) =
      cs.flatMap s.escape ++ '\x22' :: squeeze rest := by
  induction cs with
  | nil => simp [squeezeLiteral]
  | cons c cs ih =>
      rw [List.flatMap_cons, List.append_assoc, List.append_assoc, ← ih]
      rcases h.escape_cases c with ⟨hc, he⟩ | he
      · rw [he, List.singleton_append, squeezeLiteral_plain hc, List.singleton_append]
      · exact squeezeLiteral_escape he _

theorem ofLiteral_flatMap (h : s.Documented) (cs rest : List Char) :
    ofLiteral (cs.flatMap s.escape ++ '\x22' :: rest) = .text cs :: ofText rest := by
  induction cs with
  | nil => simp [ofLiteral]
  | cons c cs ih =>
      have hc : ofLiteral (s.escape c ++ (cs.flatMap s.escape ++ '\x22' :: rest)) =
          consText c (ofLiteral (cs.flatMap s.escape ++ '\x22' :: rest)) := by
        rcases h.escape_cases c with ⟨hc, he⟩ | he
        · rw [he, List.singleton_append, ofLiteral_plain hc]
        · exact ofLiteral_escape he _
      rw [List.flatMap_cons, List.append_assoc, hc, ih, consText]

theorem squeeze_mark (h : c ≠ '\x22' ∧ c ≠ ' ' ∧ c ≠ '\n') (rest : List Char) :
    squeeze (c :: rest) = c :: squeeze rest := by
  rw [squeeze, if_neg h.1, if_neg (not_or.mpr h.2)]

theorem squeeze_word {word : List Char} (h : word.all Char.isAlphanum = true) (rest : List Char) :
    squeeze (word ++ rest) = word ++ squeeze rest := by
  induction word with
  | nil => rfl
  | cons c word ih =>
      rw [List.all_cons, Bool.and_eq_true] at h
      have hmark : c ≠ '\x22' ∧ c ≠ ' ' ∧ c ≠ '\n' :=
        ⟨ne_of_isAlphanum h.1 rfl, ne_of_isAlphanum h.1 rfl, ne_of_isAlphanum h.1 rfl⟩
      rw [List.cons_append, squeeze_mark hmark, ih h.2, List.cons_append]

theorem squeeze_of_spaced (h : s.Documented) (hs : Spaced s.escape ps text) (hp : Proper ps) :
    squeeze text = ps.flatMap (·.spell s.escape) := by
  induction hs with
  | nil => rfl
  | blank hc _ ih =>
      rw [← ih hp]
      rcases hc with rfl | rfl <;> simp [squeeze]
  | piece p _ ih =>
      rw [List.flatMap_cons]
      cases hp with
      | mark hc hb hp =>
          rw [isMark, Bool.and_eq_true, decide_eq_true_eq] at hc
          rw [spell, List.singleton_append, squeeze_mark ⟨hc.1, hb⟩, ih hp, List.singleton_append]
      | text hp =>
          rw [spell, List.cons_append, List.append_assoc, squeeze, if_pos rfl,
            List.singleton_append, squeezeLiteral_flatMap h, ih hp]
          simp
      | word hw _ _ hp => rw [spell, squeeze_word hw, ih hp]

theorem ofText_mark (h : isMark c = true) (rest : List Char) :
    ofText (c :: rest) = .mark c :: ofText rest := by
  rw [ofText, if_pos h]

theorem ofText_alphanum (h : c.isAlphanum = true) (rest : List Char) :
    ofText (c :: rest) = consWord c (ofText rest) := by
  have hmark : ¬ isMark c = true := by simp [isMark, h]
  rw [ofText, if_neg hmark, if_neg (ne_of_isAlphanum h rfl)]

theorem ofText_word {w : List Char} (hw : w.all Char.isAlphanum = true) (hn : w ≠ [])
    (hr : EndsWord (ofText rest)) :
    ofText (w ++ rest) = .word w :: ofText rest := by
  induction w with
  | nil => exact absurd rfl hn
  | cons c w ih =>
      rw [List.all_cons, Bool.and_eq_true] at hw
      rw [List.cons_append, ofText_alphanum hw.1]
      cases w with
      | nil =>
          cases ht : ofText rest with
          | nil => simp [ht, consWord]
          | cons p ps =>
              obtain ⟨d, rfl⟩ := hr p (by simp [ht])
              simp [ht, consWord]
      | cons d w => rw [ih hw.2 (List.cons_ne_nil d w), consWord]

theorem ofText_flatMap (h : s.Documented) (hp : Proper ps) :
    ofText (ps.flatMap (·.spell s.escape)) = ps := by
  induction hp with
  | nil => rfl
  | mark hc _ _ ih => rw [List.flatMap_cons, spell, List.singleton_append, ofText_mark hc, ih]
  | @text cs ps _ ih =>
      have hq : ¬ isMark '\x22' = true := by decide
      rw [List.flatMap_cons, spell, List.cons_append, List.append_assoc, List.singleton_append,
        ofText, if_neg hq, if_pos rfl, ofLiteral_flatMap h, ih]
  | word hw hn he _ ih => rw [List.flatMap_cons, spell, ofText_word hw hn (ih.symm ▸ he), ih]

end Spelling

inductive Frame where
  | items (done : List Json)
  | members (done : List (String × Json)) (key : String)

def ofWord? (w : List Char) : Option Json :=
  if w = "null".toList then some null
  else if w = "true".toList then some (bool true)
  else if w = "false".toList then some (bool false)
  else (Text.digits? 0 w).map number

mutual

def value? : List Frame → List Piece → Option Json
  | stack, .text s :: rest => behind? stack (text (String.ofList s)) rest
  | stack, .word w :: rest =>
    match ofWord? w with
    | some j => behind? stack j rest
    | none => none
  | stack, .mark '[' :: rest => value? (.items [] :: stack) rest
  | .items [] :: stack, .mark ']' :: rest => behind? stack (list []) rest
  | stack, .mark '\x7b' :: rest => key? [] stack rest
  | _, _ => none

def key? : List (String × Json) → List Frame → List Piece → Option Json
  | done, stack, .text key :: .mark ':' :: rest =>
    value? (.members done (String.ofList key) :: stack) rest
  | [], stack, .mark '\x7d' :: rest => behind? stack (object []) rest
  | _, _, _ => none

def behind? : List Frame → Json → List Piece → Option Json
  | [], j, [] => some j
  | .items done :: stack, j, .mark ',' :: rest => value? (.items (done ++ [j]) :: stack) rest
  | .items done :: stack, j, .mark ']' :: rest => behind? stack (list (done ++ [j])) rest
  | .members done key :: stack, j, .mark ',' :: rest => key? (done ++ [(key, j)]) stack rest
  | .members done key :: stack, j, .mark '\x7d' :: rest =>
    behind? stack (object (done ++ [(key, j)])) rest
  | _, _, _ => none

end

theorem ofWord?_toDigits (n : Nat) : ofWord? (Nat.toDigits 10 n) = some (number n) := by
  have hd : ∀ c ∈ Nat.toDigits 10 n, c.isDigit = true := Text.isDigit_of_mem_toDigits
  have hall : (Nat.toDigits 10 n).all Char.isDigit = true := List.all_eq_true.mpr hd
  have hne {word : String} (h : word.toList.all Char.isDigit = false) :
      Nat.toDigits 10 n ≠ word.toList := by
    intro hw
    rw [← hw, hall] at h
    exact Bool.noConfusion h
  rw [ofWord?, if_neg (hne rfl), if_neg (hne rfl), if_neg (hne rfl), Text.digits?_eq, if_pos hall,
    Option.map_some, Nat.ofDigitChars_toDigits (by decide) (by decide)]

section Pieces

theorem all_isAlphanum_toDigits (n : Nat) : (Nat.toDigits 10 n).all Char.isAlphanum = true := by
  rw [List.all_eq_true]
  intro c hc
  rw [Char.isAlphanum, Text.isDigit_of_mem_toDigits c hc, Bool.or_true]

mutual

theorem proper_pieces (j : Json) {ps : List Piece} (he : EndsWord ps) (hp : Proper ps) :
    Proper (pieces j ++ ps) := by
  match j with
  | .null => exact .word rfl (by decide) he hp
  | .bool true => exact .word rfl (by decide) he hp
  | .bool false => exact .word rfl (by decide) he hp
  | .number n => exact .word (all_isAlphanum_toDigits n) Nat.toDigits_ne_nil he hp
  | .text s => exact .text hp
  | .list items =>
      rw [pieces, List.cons_append, List.append_assoc]
      exact .mark rfl (by decide)
        (proper_itemPieces items (endsWord_mark _ _) (.mark rfl (by decide) hp))
  | .object members =>
      rw [pieces, List.cons_append, List.append_assoc]
      exact .mark rfl (by decide)
        (proper_memberPieces members (endsWord_mark _ _) (.mark rfl (by decide) hp))

theorem proper_itemPieces (items : List Json) {ps : List Piece} (he : EndsWord ps)
    (hp : Proper ps) : Proper (itemPieces items ++ ps) := by
  match items with
  | [] => exact hp
  | [item] => exact proper_pieces item he hp
  | item :: next :: items =>
      rw [itemPieces_cons_cons, List.append_assoc]
      exact proper_pieces item (endsWord_mark _ _)
        (.mark rfl (by decide) (proper_itemPieces (next :: items) he hp))

theorem proper_memberPieces (members : List (String × Json)) {ps : List Piece}
    (he : EndsWord ps) (hp : Proper ps) :
    Proper (memberPieces members ++ ps) := by
  match members with
  | [] => exact hp
  | [(key, value)] => exact .text (.mark rfl (by decide) (proper_pieces value he hp))
  | (key, value) :: next :: members =>
      rw [memberPieces_cons_cons]
      simp only [List.cons_append, List.append_assoc]
      exact .text (.mark rfl (by decide) (proper_pieces value (endsWord_mark _ _)
        (.mark rfl (by decide) (proper_memberPieces (next :: members) he hp))))

end

mutual

/-- A value is read from what it is written with. -/
theorem value?_pieces (stack : List Frame) (j : Json) (rest : List Piece) :
    value? stack (pieces j ++ rest) = behind? stack j rest := by
  match j with
  | .null | .bool true | .bool false => rfl
  | .number n =>
      rw [pieces, List.singleton_append, value?, ofWord?_toDigits]
  | .text s => rw [pieces, List.singleton_append, value?, String.ofList_toList]
  | .list [] => rfl
  | .list (item :: items) =>
      rw [pieces, List.cons_append, List.append_assoc, value?,
        value?_itemPieces stack [] (item :: items) (List.cons_ne_nil item items)]
      rfl
  | .object [] => rfl
  | .object (member :: members) =>
      rw [pieces, List.cons_append, List.append_assoc, value?,
        key?_memberPieces stack [] (member :: members) (List.cons_ne_nil member members)]
      rfl

theorem value?_itemPieces (stack : List Frame) (done items : List Json) (hn : items ≠ [])
    (rest : List Piece) :
    value? (.items done :: stack) (itemPieces items ++ ([.mark ']'] ++ rest)) =
      behind? stack (list (done ++ items)) rest := by
  match items with
  | [] => exact absurd rfl hn
  | [item] => rw [itemPieces, value?_pieces, List.singleton_append, behind?]
  | item :: next :: items =>
      rw [itemPieces_cons_cons, List.append_assoc, value?_pieces, List.cons_append, behind?,
        value?_itemPieces stack (done ++ [item]) (next :: items) (List.cons_ne_nil next items),
        List.append_assoc, List.singleton_append]

theorem key?_memberPieces (stack : List Frame) (done members : List (String × Json))
    (hn : members ≠ []) (rest : List Piece) :
    key? done stack (memberPieces members ++ ([.mark '\x7d'] ++ rest)) =
      behind? stack (object (done ++ members)) rest := by
  match members with
  | [] => exact absurd rfl hn
  | [(key, value)] =>
      rw [memberPieces, List.cons_append, List.cons_append, key?, String.ofList_toList,
        value?_pieces, List.singleton_append, behind?]
  | (key, value) :: next :: members =>
      rw [memberPieces_cons_cons, List.cons_append, List.cons_append, List.append_assoc, key?,
        String.ofList_toList, value?_pieces, List.cons_append, behind?,
        key?_memberPieces stack (done ++ [(key, value)]) (next :: members)
          (List.cons_ne_nil next members), List.append_assoc, List.singleton_append]

end

end Pieces

def read? (text : List Char) : Option Json := value? [] (ofText (squeeze text))

theorem proper_pieces_nil (j : Json) : Proper (pieces j) :=
  List.append_nil (pieces j) ▸ proper_pieces j endsWord_nil .nil

section Serializer

variable {s : Serializer} (h : s.Documented) (j : Json)
include h

theorem squeeze_pretty : squeeze (s.pretty j) = s.compact j := by
  rw [squeeze_of_spaced h (h.pretty_spaced j) (proper_pieces_nil j), h.compact_eq]

theorem read?_of_spaced {text : List Char} (ht : Spaced s.escape (pieces j) text) :
    read? text = some j := by
  have hp := proper_pieces_nil j
  rw [read?, squeeze_of_spaced h ht hp, ofText_flatMap h hp, ← List.append_nil (pieces j),
    value?_pieces]
  rfl

theorem read?_pretty : read? (s.pretty j) = some j := read?_of_spaced h j (h.pretty_spaced j)

theorem read?_compact : read? (s.compact j) = some j :=
  read?_of_spaced h j (h.compact_eq j ▸ .of_pieces (pieces j))

end Serializer

example : squeeze "[ \" \\\"\n\"\n]".toList = "[\" \\\"\n\"]".toList := by decide

end FindExpr.Json

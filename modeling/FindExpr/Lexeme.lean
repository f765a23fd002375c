import FindExpr.Text.Basic
import FindExpr.Token.Kind
import FindExpr.Token.Quote

namespace FindExpr

/-- What a token is made of, without its place. The value does not hold the quotes. -/
structure Lexeme where
  kind : TokenKind
  value : List Char
  quote : Option QuoteStyle
  deriving DecidableEq, Repr

def delimiters : List Char := ['(', ')', '=', '<', '>', ',', '\x22', '\x27']

def isBare (c : Char) : Bool := !Text.isBlank c && !delimiters.contains c

def wordEnds (text : List Char) : Bool := text.head?.all fun c => !isBare c

namespace Lexeme

def written (x : Lexeme) : List Char :=
  match x.quote with
  | none => x.value
  | some style => style.enclose x.value

/-- The signs in the order in which they are tried, `<=` before `<` and `>=` before `>`. -/
def signs : List Symbol := [.le, .ge, .leftParen, .rightParen, .eq, .lt, .gt]

def keywords : List Keyword :=
  [.select, .filter, .like, .and, .or, .omits, .asc, .desc, .limit, .offset]

def sign? (s : Symbol) (text : List Char) : Option (Lexeme × List Char) :=
  if s.text.toList.isPrefixOf text then
    some (⟨.symbol s, s.text.toList, none⟩, text.drop s.text.toList.length)
  else none

/-- Splits off `word` in any case, unless it is only the beginning of a longer word. -/
def wholeWord? (word text : List Char) : Option (List Char × List Char) :=
  (Text.splitFolded? word text).filter fun split => wordEnds split.2

def orderBy? (text : List Char) : Option (Lexeme × List Char) :=
  (Text.splitFolded? "ORDER".toList text).bind fun (order, rest) =>
    if Text.leadingBlank rest = [] then none
    else (wholeWord? "BY".toList (Text.skipBlank rest)).map fun (word, rest') =>
      (⟨.keyword .orderBy, order ++ Text.leadingBlank rest ++ word, none⟩, rest')

def keyword? (k : Keyword) (text : List Char) : Option (Lexeme × List Char) :=
  (wholeWord? k.text.toList text).map fun (value, rest) => (⟨.keyword k, value, none⟩, rest)

def quoted? (style : QuoteStyle) (text : List Char) : Option (Lexeme × List Char) :=
  (style.quoted? text).map fun (body, rest) => (⟨.literal, body, some style⟩, rest)

def bare? (text : List Char) : Option (Lexeme × List Char) :=
  if text.takeWhile isBare = [] then none
  else some (⟨.literal, text.takeWhile isBare, none⟩, text.dropWhile isBare)

def first? (text : List Char) : Option (Lexeme × List Char) :=
  signs.findSome? (sign? · text)
    <|> orderBy? text
    <|> keywords.findSome? (keyword? · text)
    <|> sign? .comma text
    <|> quoted? .double text
    <|> quoted? .single text
    <|> bare? text

theorem eq_append_of_sign? {s : Symbol} {text : List Char} {x : Lexeme} {rest : List Char}
    (h : sign? s text = some (x, rest)) : text = x.written ++ rest := by
  rw [sign?] at h
  split at h
  · next hp =>
    simp only [Option.some.injEq, Prod.mk.injEq] at h
    obtain ⟨rfl, rfl⟩ := h
    exact (List.prefix_iff_eq_append.1 (List.isPrefixOf_iff_prefix.1 hp)).symm
  · exact absurd h (by simp)

theorem eq_append_of_wholeWord? {word text head rest : List Char}
    (h : wholeWord? word text = some (head, rest)) : text = head ++ rest :=
  Text.eq_append_of_splitFolded? (Option.filter_eq_some_iff.1 h).1

theorem eq_append_of_orderBy? {text : List Char} {x : Lexeme} {rest : List Char}
    (h : orderBy? text = some (x, rest)) : text = x.written ++ rest := by
  obtain ⟨⟨order, behind⟩, ho, h⟩ := Option.bind_eq_some_iff.1 h
  dsimp only at h
  split at h
  · exact absurd h (by simp)
  · obtain ⟨⟨word, rest'⟩, hw, e⟩ := Option.map_eq_some_iff.1 h
    simp only [Prod.mk.injEq] at e
    obtain ⟨rfl, rfl⟩ := e
    have hb := Text.leadingBlank_append_skipBlank behind
    rw [eq_append_of_wholeWord? hw] at hb
    calc text = order ++ behind := Text.eq_append_of_splitFolded? ho
      _ = order ++ (Text.leadingBlank behind ++ (word ++ rest')) := by rw [hb]
      _ = _ := by simp [written]

theorem eq_append_of_keyword? {k : Keyword} {text : List Char} {x : Lexeme} {rest : List Char}
    (h : keyword? k text = some (x, rest)) : text = x.written ++ rest := by
  obtain ⟨⟨value, rest'⟩, hw, e⟩ := Option.map_eq_some_iff.1 h
  simp only [Prod.mk.injEq] at e
  obtain ⟨rfl, rfl⟩ := e
  exact eq_append_of_wholeWord? hw

theorem eq_append_of_quoted? {style : QuoteStyle} {text : List Char} {x : Lexeme}
    {rest : List Char} (h : quoted? style text = some (x, rest)) : text = x.written ++ rest := by
  obtain ⟨⟨body, rest'⟩, hq, e⟩ := Option.map_eq_some_iff.1 h
  simp only [Prod.mk.injEq] at e
  obtain ⟨rfl, rfl⟩ := e
  exact QuoteStyle.eq_append_of_quoted? hq

theorem eq_append_of_bare? {text : List Char} {x : Lexeme} {rest : List Char}
    (h : bare? text = some (x, rest)) : text = x.written ++ rest := by
  rw [bare?] at h
  split at h
  · exact absurd h (by simp)
  · simp only [Option.some.injEq, Prod.mk.injEq] at h
    obtain ⟨rfl, rfl⟩ := h
    exact List.takeWhile_append_dropWhile.symm

theorem eq_append_of_first? {text : List Char} {x : Lexeme} {rest : List Char}
    (h : first? text = some (x, rest)) : text = x.written ++ rest := by
  simp only [first?, Option.orElse_eq_orElse, Option.orElse_eq_or, Option.or_eq_some_iff] at h
  rcases h with h | ⟨-, h | ⟨-, h | ⟨-, h | ⟨-, h | ⟨-, h | ⟨-, h⟩⟩⟩⟩⟩⟩
  · obtain ⟨s, -, hs⟩ := List.exists_of_findSome?_eq_some h
    exact eq_append_of_sign? hs
  · exact eq_append_of_orderBy? h
  · obtain ⟨k, -, hk⟩ := List.exists_of_findSome?_eq_some h
    exact eq_append_of_keyword? hk
  · exact eq_append_of_sign? h
  · exact eq_append_of_quoted? h
  · exact eq_append_of_quoted? h
  · exact eq_append_of_bare? h

end Lexeme

end FindExpr

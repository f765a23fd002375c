namespace FindExpr

inductive QuoteStyle where
  | double | single
  deriving DecidableEq, Repr

namespace QuoteStyle

def mark : QuoteStyle → Char
  | double => '\x22'
  | single => '\x27'

/-- Splits a text behind an opening quote into the body up to the closing quote and what follows
that. There is no split if the quote is never closed. -/
def body? (style : QuoteStyle) : List Char → Option (List Char × List Char)
  | [] => none
  | [c] => if c = style.mark then some ([], []) else none
  | c :: d :: rest =>
    if c = style.mark then some ([], d :: rest)
    else if c = '\\' then (style.body? rest).map fun (body, tail) => (c :: d :: body, tail)
    else (style.body? (d :: rest)).map fun (body, tail) => (c :: body, tail)

def quoted? (style : QuoteStyle) : List Char → Option (List Char × List Char)
  | [] => none
  | c :: rest => if c = style.mark then style.body? rest else none

def enclose (style : QuoteStyle) (body : List Char) : List Char :=
  style.mark :: body ++ [style.mark]

theorem eq_append_of_body? {style : QuoteStyle} {text body tail : List Char}
    (h : style.body? text = some (body, tail)) : text = body ++ style.mark :: tail := by
  fun_induction body? style text generalizing body tail with
  | case1 => simp at h
  | case2 =>
    simp only [Option.some.injEq, Prod.mk.injEq] at h
    obtain ⟨rfl, rfl⟩ := h
    rfl
  | case3 => simp at h
  | case4 d rest =>
    simp only [Option.some.injEq, Prod.mk.injEq] at h
    obtain ⟨rfl, rfl⟩ := h
    rfl
  | case5 d rest h' ih =>
    obtain ⟨⟨body', tail'⟩, hb, e⟩ := Option.map_eq_some_iff.1 h
    simp only [Prod.mk.injEq] at e
    obtain ⟨rfl, rfl⟩ := e
    simp [ih hb]
  | case6 c d rest h' h'' ih =>
    obtain ⟨⟨body', tail'⟩, hb, e⟩ := Option.map_eq_some_iff.1 h
    simp only [Prod.mk.injEq] at e
    obtain ⟨rfl, rfl⟩ := e
    simp [ih hb]

theorem eq_append_of_quoted? {style : QuoteStyle} {text body tail : List Char}
    (h : style.quoted? text = some (body, tail)) : text = style.enclose body ++ tail := by
  cases text with
  | nil => simp [quoted?] at h
  | cons c rest =>
    rw [quoted?] at h
    split at h
    · next hc =>
      rw [hc, eq_append_of_body? h]
      simp [enclose]
    · exact absurd h (by simp)

end QuoteStyle

/-- The text a body stands for. A backslash at the very end stands for itself. -/
def unescape : List Char → List Char
  | [] => []
  | [c] => [c]
  | c :: d :: rest => if c = '\\' then d :: unescape rest else c :: unescape (d :: rest)

def escape (text : List Char) : List Char :=
  text.flatMap fun c => if c = '\x22' ∨ c = '\\' then ['\\', c] else [c]

theorem unescape_escape (text : List Char) : unescape (escape text) = text := by
  induction text with
  | nil => rfl
  | cons c rest ih =>
    simp only [escape, List.flatMap_cons] at ih ⊢
    split
    · simp [unescape, ih]
    · next h =>
      rw [not_or] at h
      generalize hr : List.flatMap _ rest = r at ih ⊢
      cases r with
      | nil => simpa [unescape] using ih
      | cons d r => simpa [unescape, h.2] using ih

end FindExpr

namespace FindExpr.Text

/-- The ranges of `White_Space`, both ends included. -/
def blankRanges : List (Nat × Nat) :=
  [(0x9, 0xD), (0x20, 0x20), (0x85, 0x85), (0xA0, 0xA0), (0x1680, 0x1680), (0x2000, 0x200A),
    (0x2028, 0x2029), (0x202F, 0x202F), (0x205F, 0x205F), (0x3000, 0x3000)]

def isBlank (c : Char) : Bool :=
  blankRanges.any fun r => decide (r.1 ≤ c.toNat) && decide (c.toNat ≤ r.2)

def leadingBlank (text : List Char) : List Char := text.takeWhile isBlank

def skipBlank (text : List Char) : List Char := text.dropWhile isBlank

def trimEnd (text : List Char) : List Char := (skipBlank text.reverse).reverse

def trim (text : List Char) : List Char := trimEnd (skipBlank text)

theorem leadingBlank_append_skipBlank (text : List Char) :
    leadingBlank text ++ skipBlank text = text :=
  List.takeWhile_append_dropWhile

def sameFolded (xs ys : List Char) : Bool :=
  xs.map Char.toUpper == ys.map Char.toUpper

/-- Splits off the beginning of a text that reads as `word`, whose letters are capitals. -/
def splitFolded? : (word text : List Char) → Option (List Char × List Char)
  | [], text => some ([], text)
  | _ :: _, [] => none
  | w :: word, c :: text =>
    if c.toUpper = w then (splitFolded? word text).map fun (head, rest) => (c :: head, rest)
    else none

theorem eq_append_of_splitFolded? {word text head rest : List Char}
    (h : splitFolded? word text = some (head, rest)) : text = head ++ rest := by
  induction word generalizing text head with
  | nil =>
    simp only [splitFolded?, Option.some.injEq, Prod.mk.injEq] at h
    obtain ⟨rfl, rfl⟩ := h
    rfl
  | cons w word ih =>
    cases text with
    | nil => simp [splitFolded?] at h
    | cons c text =>
      simp only [splitFolded?] at h
      split at h
      · obtain ⟨⟨head', rest'⟩, h', e⟩ := Option.map_eq_some_iff.1 h
        simp only [Prod.mk.injEq] at e
        obtain ⟨rfl, rfl⟩ := e
        simp [ih h']
      · simp at h

def digits? (value : Nat) : List Char → Option Nat
  | [] => some value
  | c :: rest => if c.isDigit then digits? (10 * value + (c.toNat - '0'.toNat)) rest else none

def numeral? : List Char → Option Nat
  | [] => none
  | '+' :: [] => none
  | '+' :: rest => digits? 0 rest
  | text => digits? 0 text

def uint64? (text : List Char) : Option UInt64 :=
  (numeral? text).bind fun n =>
    if h : n < UInt64.size then some (UInt64.ofNatLT n h) else none

/-- Compares lists by their first elements that differ, a list coming after its beginnings. -/
def lexLE {α : Type} (le : α → α → Bool) : List α → List α → Bool
  | [], _ => true
  | _ :: _, [] => false
  | a :: as, b :: bs => if le a b then !le b a || lexLE le as bs else false

def textLE (s t : String) : Bool :=
  lexLE (fun c d => decide (c.toNat ≤ d.toNat)) s.toList t.toList

end FindExpr.Text

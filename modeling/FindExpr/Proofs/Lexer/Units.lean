import FindExpr.Proofs.Lexer.Marks
import Mathlib.Data.List.TakeWhile

namespace FindExpr

/-- Splits a text into units. A backslash at the very end is a unit of its own. -/
def units : List Char → List (List Char)
  | [] => []
  | [c] => [[c]]
  | c :: d :: rest => if c = '\\' then [c, d] :: units rest else [c] :: units (d :: rest)

@[simp] theorem units_backslash (c : Char) (rest : List Char) :
    units ('\\' :: c :: rest) = ['\\', c] :: units rest := by
  simp [units]

theorem units_cons {c : Char} (h : c ≠ '\\') (rest : List Char) :
    units (c :: rest) = [c] :: units rest := by
  cases rest <;> simp [units, h]

@[simp] theorem flatten_units (text : List Char) : (units text).flatten = text := by
  fun_induction units text with
  | case1 => rfl
  | case2 => rfl
  | case3 d rest ih => simp [ih]
  | case4 c d rest h ih => simp [ih]

namespace QuoteStyle

variable {style : QuoteStyle}

def inside (style : QuoteStyle) (u : List Char) : Bool := u != [style.mark]

/-- The body ends where the first unit is the closing quote, and there is none without that. -/
theorem body?_eq_units (style : QuoteStyle) (text : List Char) :
    style.body? text =
      match (units text).dropWhile style.inside with
      | [] => none
      | _ :: tail => some (((units text).takeWhile style.inside).flatten, tail.flatten) := by
  fun_induction units text with
  | case1 => rfl
  | case2 c =>
      by_cases hc : c = style.mark
      · simp [body?, inside, hc]
      · simp [body?, inside, hc, List.dropWhile_cons]
  | case3 d rest ih =>
      have hi : style.inside ['\\', d] = true := by simp [inside]
      rw [body?_backslash, ih, List.dropWhile_cons_of_pos hi, List.takeWhile_cons_of_pos hi]
      cases (units rest).dropWhile style.inside <;> rfl
  | case4 c d rest hb ih =>
      by_cases hc : c = style.mark
      · subst hc
        simp [inside]
      · have hi : style.inside [c] = true := by simp [inside, hc]
        rw [body?_cons style hc hb, ih, List.dropWhile_cons_of_pos hi,
          List.takeWhile_cons_of_pos hi]
        cases (units (d :: rest)).dropWhile style.inside <;> rfl

theorem dropWhile_inside_eq_nil_iff {text : List Char} :
    (units text).dropWhile style.inside = [] ↔ [style.mark] ∉ units text := by
  rw [List.dropWhile_eq_nil_iff]
  simp [inside, List.forall_mem_ne']

end QuoteStyle

end FindExpr

import FindExpr.Text.Basic
import Mathlib.Algebra.Group.Nat.Defs

namespace FindExpr.Text

def unsigned : List Char → List Char
  | '+' :: digits => digits
  | digits => digits

theorem unsigned_of_isDigit {text : List Char} (h : ∀ c ∈ text, c.isDigit = true) :
    unsigned text = text := by
  unfold unsigned
  split
  · exact absurd (h '+' List.mem_cons_self) (by decide)
  · rfl

theorem isDigit_of_mem_toDigits {n : Nat} : ∀ c ∈ Nat.toDigits 10 n, c.isDigit = true :=
  fun _ => Nat.isDigit_of_mem_toDigits (by decide) (by decide)

theorem digits?_eq (value : Nat) (text : List Char) :
    digits? value text =
      if text.all Char.isDigit = true then some (Nat.ofDigitChars 10 text value) else none := by
  induction text generalizing value with
  | nil => rfl
  | cons c text ih =>
      rw [digits?, ih, Nat.ofDigitChars_cons]
      by_cases hc : c.isDigit = true <;> simp [hc]

theorem numeral?_eq (text : List Char) :
    numeral? text =
      if unsigned text ≠ [] ∧ (unsigned text).all Char.isDigit = true then
        some (Nat.ofDigitChars 10 (unsigned text) 0) else none := by
  cases text with
  | nil => rfl
  | cons c digits =>
      by_cases hc : c = '+'
      · subst hc
        cases digits with
        | nil => rfl
        | cons d digits => simp [numeral?, unsigned, digits?_eq]
      · have hn : numeral? (c :: digits) = digits? 0 (c :: digits) := by
          unfold numeral?
          split <;> simp_all
        have hu : unsigned (c :: digits) = c :: digits := by
          unfold unsigned
          split <;> simp_all
        rw [hn, hu, digits?_eq]
        simp

theorem uint64?_eq (text : List Char) :
    uint64? text =
      if unsigned text ≠ [] ∧ (unsigned text).all Char.isDigit = true ∧
          Nat.ofDigitChars 10 (unsigned text) 0 < UInt64.size then
        some (UInt64.ofNat (Nat.ofDigitChars 10 (unsigned text) 0)) else none := by
  rw [uint64?, numeral?_eq]
  by_cases hd : unsigned text ≠ [] ∧ (unsigned text).all Char.isDigit = true
  · rw [if_pos hd, Option.bind_some]
    by_cases hn : Nat.ofDigitChars 10 (unsigned text) 0 < UInt64.size
    · rw [if_pos ⟨hd.1, hd.2, hn⟩, dif_pos hn, UInt64.ofNatLT_eq_ofNat]
    · rw [if_neg fun h => hn h.2.2, dif_neg hn]
  · rw [if_neg hd, if_neg fun h => hd ⟨h.1, h.2.1⟩, Option.bind_none]

/-- An optional plus sign in front of digits that spell a number of 64 bits. -/
def IsCount (text : List Char) : Prop :=
  ∃ sign digits, text = sign ++ digits ∧ (sign = [] ∨ sign = ['+']) ∧ digits ≠ [] ∧
    (∀ c ∈ digits, c.isDigit = true) ∧ Nat.ofDigitChars 10 digits 0 ≤ 2 ^ 64 - 1

theorem isSome_uint64?_iff {text : List Char} : (uint64? text).isSome = true ↔ IsCount text := by
  have hs : (uint64? text).isSome = true ↔
      unsigned text ≠ [] ∧ (∀ c ∈ unsigned text, c.isDigit = true) ∧
        Nat.ofDigitChars 10 (unsigned text) 0 ≤ 2 ^ 64 - 1 := by
    have hn (n : Nat) : n < UInt64.size ↔ n ≤ 2 ^ 64 - 1 := Nat.lt_succ_iff
    rw [uint64?_eq, ← hn, ← List.all_eq_true]
    split
    · next h => exact iff_of_true rfl h
    · next h => exact iff_of_false Bool.false_ne_true h
  rw [hs]
  constructor
  · intro h
    unfold unsigned at h
    split at h
    · next digits => exact ⟨['+'], digits, rfl, .inr rfl, h⟩
    · exact ⟨[], text, rfl, .inl rfl, h⟩
  · rintro ⟨sign, digits, rfl, rfl | rfl, h⟩
    · rwa [List.nil_append, unsigned_of_isDigit h.2.1]
    · exact h

end FindExpr.Text

import FindExpr.Text.Basic

namespace FindExpr.Text

theorem all_leadingBlank (text : List Char) : (leadingBlank text).all isBlank = true :=
  List.all_takeWhile

theorem head?_skipBlank {text : List Char} {c : Char} (h : (skipBlank text).head? = some c) :
    isBlank c = false := by
  have hn := List.head?_dropWhile_not isBlank text
  rw [← skipBlank, h] at hn
  simpa using hn

theorem isBlank_of_skipBlank {text rest : List Char} {c : Char} (h : skipBlank text = c :: rest) :
    isBlank c = false :=
  head?_skipBlank (congrArg List.head? h)

theorem break_ne_of_not_blank {c : Char} (h : isBlank c = false) : c ≠ '\n' ∧ c ≠ '\r' := by
  constructor
  all_goals
    rintro rfl
    exact absurd h (by decide)

theorem length_skipBlank_le (text : List Char) : (skipBlank text).length ≤ text.length := by
  have h := congrArg List.length (leadingBlank_append_skipBlank text)
  rw [List.length_append] at h
  omega

theorem skipBlank_cons {c : Char} (hc : isBlank c = true) (text : List Char) :
    skipBlank (c :: text) = skipBlank text :=
  List.dropWhile_cons_of_pos hc

theorem skipBlank_skipBlank (text : List Char) : skipBlank (skipBlank text) = skipBlank text := by
  induction text with
  | nil => rfl
  | cons c text ih =>
      by_cases hc : isBlank c = true
      · rw [skipBlank_cons hc, ih]
      · have hs : skipBlank (c :: text) = c :: text := List.dropWhile_cons_of_neg hc
        rw [hs, hs]

theorem leadingBlank_of_skipBlank {text : List Char} (h : skipBlank text = text) :
    leadingBlank text = [] := by
  have hl := leadingBlank_append_skipBlank text
  rw [h] at hl
  exact List.append_left_eq_self.1 hl

theorem skipBlank_append {blanks : List Char} (h : blanks.all isBlank = true) (text : List Char) :
    skipBlank (blanks ++ text) = skipBlank text :=
  List.dropWhile_append_of_pos (List.all_eq_true.1 h)

theorem leadingBlank_append {blanks text : List Char} (h : blanks.all isBlank = true)
    (ht : skipBlank text = text) : leadingBlank (blanks ++ text) = blanks := by
  have hl := leadingBlank_append_skipBlank (blanks ++ text)
  rw [skipBlank_append h, ht] at hl
  exact List.append_cancel_right hl

theorem trimEnd_append {blanks : List Char} (h : blanks.all isBlank = true) (text : List Char) :
    trimEnd (text ++ blanks) = trimEnd text := by
  rw [trimEnd, List.reverse_append, skipBlank_append (by rwa [List.all_reverse])]
  rfl

theorem trimEnd_snoc {c : Char} (h : isBlank c = false) (text : List Char) :
    trimEnd (text ++ [c]) = text ++ [c] := by
  have hs : skipBlank (c :: text.reverse) = c :: text.reverse :=
    List.dropWhile_cons_of_neg (by simp [h])
  rw [trimEnd, List.reverse_concat, hs, List.reverse_cons, List.reverse_reverse]

theorem exists_snoc_of_trimEnd {text : List Char} (ht : trimEnd text = text) (hn : text ≠ []) :
    ∃ init c, text = init ++ [c] ∧ isBlank c = false := by
  have hs : skipBlank text.reverse = text.reverse := List.reverse_eq_iff.1 ht
  cases hr : text.reverse with
  | nil => exact absurd (List.reverse_eq_nil_iff.1 hr) hn
  | cons c rest =>
      exact ⟨rest.reverse, c, List.reverse_eq_cons_iff.1 hr, isBlank_of_skipBlank (hs.trans hr)⟩

theorem exists_append_of_trimEnd (text : List Char) :
    ∃ blanks, text = trimEnd text ++ blanks ∧ blanks.all isBlank = true := by
  refine ⟨(leadingBlank text.reverse).reverse, ?_, ?_⟩
  · rw [trimEnd, ← List.reverse_append, leadingBlank_append_skipBlank, List.reverse_reverse]
  · rw [List.all_reverse]
    exact all_leadingBlank _

theorem exists_trimEnd_cons {c : Char} (h : isBlank c = false) (text : List Char) :
    ∃ rest, trimEnd (c :: text) = c :: rest := by
  obtain ⟨blanks, ht, hb⟩ := exists_append_of_trimEnd (c :: text)
  cases he : trimEnd (c :: text) with
  | nil =>
      rw [he, List.nil_append] at ht
      rw [← ht, List.all_cons, h] at hb
      cases hb
  | cons d rest =>
      rw [he] at ht
      obtain ⟨rfl, -⟩ := List.cons.inj ht
      exact ⟨rest, rfl⟩

theorem trimEnd_trimEnd (text : List Char) : trimEnd (trimEnd text) = trimEnd text := by
  rw [trimEnd, trimEnd, List.reverse_reverse, skipBlank_skipBlank]

end FindExpr.Text

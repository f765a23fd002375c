import FindExpr.Text.Basic

namespace FindExpr.Text

variable {word text head rest : List Char}

theorem splitFolded?_append (head rest : List Char) :
    splitFolded? (head.map Char.toUpper) (head ++ rest) = some (head, rest) := by
  induction head with
  | nil => rfl
  | cons c head ih => simp [splitFolded?, ih]

theorem map_toUpper_of_splitFolded? (h : splitFolded? word text = some (head, rest)) :
    head.map Char.toUpper = word := by
  induction word generalizing text head with
  | nil =>
      simp only [splitFolded?, Option.some.injEq, Prod.mk.injEq] at h
      rw [← h.1, List.map_nil]
  | cons w word ih =>
      cases text with
      | nil => simp [splitFolded?] at h
      | cons c text =>
          simp only [splitFolded?] at h
          split at h
          · next hc =>
              obtain ⟨⟨head', rest'⟩, h', he⟩ := Option.map_eq_some_iff.1 h
              simp only [Prod.mk.injEq] at he
              obtain ⟨rfl, rfl⟩ := he
              rw [List.map_cons, hc, ih h']
          · exact absurd h (by simp)

theorem splitFolded?_eq_some_iff :
    splitFolded? word text = some (head, rest) ↔
      text = head ++ rest ∧ head.map Char.toUpper = word := by
  constructor
  · intro h
    exact ⟨eq_append_of_splitFolded? h, map_toUpper_of_splitFolded? h⟩
  · rintro ⟨rfl, rfl⟩
    exact splitFolded?_append head rest

theorem isAlpha_iff {c : Char} :
    c.isAlpha = true ↔ (65 ≤ c.toNat ∧ c.toNat ≤ 90) ∨ (97 ≤ c.toNat ∧ c.toNat ≤ 122) := by
  have h : c.isAlpha = (decide ('A'.val ≤ c.val ∧ c.val ≤ 'Z'.val) ||
      (decide ('a'.val ≤ c.val) && decide (c.val ≤ 'z'.val))) := rfl
  simp [h, UInt32.le_iff_toNat_le, ← Char.toNat_val]

theorem isDigit_iff {c : Char} : c.isDigit = true ↔ 48 ≤ c.toNat ∧ c.toNat ≤ 57 := by
  simp [Char.isDigit, UInt32.le_iff_toNat_le, ← Char.toNat_val]

theorem isBlank_of_isAlphanum {c : Char} (h : c.isAlphanum = true) : isBlank c = false := by
  rw [Char.isAlphanum, Bool.or_eq_true, isAlpha_iff, isDigit_iff] at h
  simp only [isBlank, blankRanges, List.any_cons, List.any_nil, Bool.or_false, Bool.or_eq_false_iff,
    Bool.and_eq_false_iff, decide_eq_false_iff_not]
  omega

theorem isAlpha_of_isUpper_toUpper {c : Char} (h : c.toUpper.isUpper = true) :
    c.isAlpha = true := by
  unfold Char.toUpper at h
  split at h
  · next hc =>
      have hl : (decide ('a'.val ≤ c.val) && decide (c.val ≤ 'z'.val)) = true := by simpa using hc
      exact (Bool.or_eq_true_iff ..).2 (.inr hl)
  · exact (Bool.or_eq_true_iff ..).2 (.inl h)

theorem isAlphanum_of_isUpper_toUpper {c : Char} (h : c.toUpper.isUpper = true) :
    c.isAlphanum = true := by
  rw [Char.isAlphanum, isAlpha_of_isUpper_toUpper h, Bool.true_or]

theorem isUpper_toUpper_of_isDigit {c : Char} (h : c.isDigit = true) :
    c.toUpper.isUpper = false := by
  rw [Bool.eq_false_iff]
  intro hu
  have ha := isAlpha_iff.1 (isAlpha_of_isUpper_toUpper hu)
  have hd := isDigit_iff.1 h
  omega

theorem exists_cons_of_splitFolded? {w : Char} (hw : w.isUpper = true)
    (h : splitFolded? (w :: word) text = some (head, rest)) :
    ∃ c head', head = c :: head' ∧ isBlank c = false := by
  obtain ⟨c, head', rfl, hc, -⟩ := List.map_eq_cons_iff.1 (map_toUpper_of_splitFolded? h)
  exact ⟨c, head', rfl, isBlank_of_isAlphanum (isAlphanum_of_isUpper_toUpper (hc ▸ hw))⟩

end FindExpr.Text

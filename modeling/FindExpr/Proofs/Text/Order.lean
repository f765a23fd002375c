import FindExpr.Text.Basic
import Mathlib.Data.List.Basic

namespace FindExpr.Text

section Lists

variable {α : Type} {le : α → α → Bool} {a b : α} {as bs : List α}

theorem lexLE_cons_iff :
    lexLE le (a :: as) (b :: bs) = true ↔
      le a b = true ∧ (le b a = true → lexLE le as bs = true) := by
  cases hab : le a b <;> cases hba : le b a <;> simp [lexLE, hab, hba]

theorem lexLE_trans (h : ∀ a b c, le a b = true → le b c = true → le a c = true)
    (as bs cs : List α) (hab : lexLE le as bs = true) (hbc : lexLE le bs cs = true) :
    lexLE le as cs = true := by
  induction as generalizing bs cs with
  | nil => rfl
  | cons a as ih =>
      cases bs with
      | nil => cases hab
      | cons b bs =>
          cases cs with
          | nil => cases hbc
          | cons c cs =>
              obtain ⟨hab, has⟩ := lexLE_cons_iff.1 hab
              obtain ⟨hbc, hbs⟩ := lexLE_cons_iff.1 hbc
              refine lexLE_cons_iff.2 ⟨h a b c hab hbc, fun hca => ?_⟩
              exact ih bs cs (has (h b c a hbc hca)) (hbs (h c a b hca hab))

theorem lexLE_total (h : ∀ a b, (le a b || le b a) = true) (as bs : List α) :
    (lexLE le as bs || lexLE le bs as) = true := by
  induction as generalizing bs with
  | nil => simp [lexLE]
  | cons a as ih =>
      cases bs with
      | nil => simp [lexLE]
      | cons b bs =>
          have hab := h a b
          have hs := ih bs
          rw [Bool.or_eq_true] at hab hs ⊢
          rw [lexLE_cons_iff, lexLE_cons_iff]
          tauto

theorem lexLE_antisymm (h : ∀ a b, le a b = true → le b a = true → a = b) (as bs : List α)
    (hab : lexLE le as bs = true) (hba : lexLE le bs as = true) : as = bs := by
  induction as generalizing bs with
  | nil =>
      cases bs with
      | nil => rfl
      | cons b bs => cases hba
  | cons a as ih =>
      cases bs with
      | nil => cases hab
      | cons b bs =>
          obtain ⟨hab, has⟩ := lexLE_cons_iff.1 hab
          obtain ⟨hba, hbs⟩ := lexLE_cons_iff.1 hba
          rw [h a b hab hba, ih bs (has hba) (hbs hab)]

end Lists

theorem textLE_trans (s t u : String) (hst : textLE s t = true) (htu : textLE t u = true) :
    textLE s u = true := by
  refine lexLE_trans (fun a b c hab hbc => ?_) _ _ _ hst htu
  rw [decide_eq_true_iff] at hab hbc ⊢
  exact Nat.le_trans hab hbc

theorem textLE_total (s t : String) : (textLE s t || textLE t s) = true := by
  refine lexLE_total (fun a b => ?_) _ _
  rw [Bool.or_eq_true, decide_eq_true_iff, decide_eq_true_iff]
  exact Nat.le_total ..

theorem textLE_antisymm (s t : String) (hst : textLE s t = true) (hts : textLE t s = true) :
    s = t := by
  refine String.toList_injective (lexLE_antisymm (fun a b hab hba => ?_) _ _ hst hts)
  rw [decide_eq_true_iff] at hab hba
  exact Char.toNat_inj.1 (Nat.le_antisymm hab hba)

end FindExpr.Text

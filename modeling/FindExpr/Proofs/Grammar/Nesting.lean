import FindExpr.Proofs.Grammar.Basic

namespace FindExpr.Grammar

def shift (depth : Nat) : TokenKind → Nat
  | .symbol .leftParen => depth + 1
  | .symbol .rightParen => depth - 1
  | _ => depth

/-- The largest number of parentheses that are open at once, the first `depth` from the start. -/
def nestingFrom : Nat → List TokenKind → Nat
  | depth, [] => depth
  | depth, k :: w => max depth (nestingFrom (shift depth k) w)

def nesting (w : List TokenKind) : Nat := nestingFrom 0 w

/-- The sentences whose parentheses are nested at most `limit` deep. -/
structure Sentence (limit : Nat) (w : List TokenKind) : Prop where
  derives : Derives (.rule .query) w
  nesting_le : nesting w ≤ limit

def Viable (limit : Nat) (w : List TokenKind) : Prop := ∃ v, Sentence limit (w ++ v)

theorem le_nestingFrom (depth : Nat) (w : List TokenKind) : depth ≤ nestingFrom depth w := by
  cases w with
  | nil => exact Nat.le_refl _
  | cons k w => exact Nat.le_max_left ..

theorem nestingFrom_le_iff {depth limit : Nat} {w : List TokenKind} (h : depth ≤ limit) (k) :
    nestingFrom depth (k :: w) ≤ limit ↔ nestingFrom (shift depth k) w ≤ limit := by
  simp only [nestingFrom, Nat.max_le, h, true_and]

theorem shift_le {k : TokenKind} (h : k ≠ .symbol .leftParen) (depth : Nat) :
    shift depth k ≤ depth := by
  unfold shift
  split
  · exact absurd rfl h
  · exact Nat.sub_le ..
  · exact Nat.le_refl _

/-- As long as nothing is closed that is not open, the depth counts what is opened and closed. -/
theorem add_count_shift {k : TokenKind} {depth : Nat} (h : k = .symbol .rightParen → 0 < depth) :
    depth + [k].count (.symbol .leftParen) =
      shift depth k + [k].count (.symbol .rightParen) := by
  unfold shift
  split
  · simp
  · have hd := h rfl
    simp
    omega
  · next hl hr => rw [List.count_singleton, List.count_singleton, if_neg, if_neg] <;> simpa

theorem nestingFrom_le_of_not_mem {w : List TokenKind} (h : .symbol .leftParen ∉ w) (depth : Nat) :
    nestingFrom depth w ≤ depth := by
  induction w generalizing depth with
  | nil => exact Nat.le_refl _
  | cons k w ih =>
      rw [List.mem_cons, not_or] at h
      have hk := shift_le (Ne.symm h.1) depth
      exact Nat.max_le.2 ⟨Nat.le_refl _, Nat.le_trans (ih h.2 _) hk⟩

/-- The depths of the groups of a sequence: how many parentheses are open behind each opening one,
if `depth` are open before the sequence. -/
def groups : Nat → List TokenKind → List Nat
  | _, [] => []
  | depth, k :: w =>
    if k = .symbol .leftParen then (depth + 1) :: groups (depth + 1) w
    else groups (shift depth k) w

theorem length_groups (depth : Nat) (w : List TokenKind) :
    (groups depth w).length = w.count (.symbol .leftParen) := by
  induction w generalizing depth with
  | nil => rfl
  | cons k w ih =>
      rw [groups]
      split
      · next hk => rw [List.length_cons, ih, hk, List.count_cons_self]
      · next hk => rw [ih, List.count_cons_of_ne hk]

theorem groups_eq_nil {w : List TokenKind} (h : .symbol .leftParen ∉ w) (depth : Nat) :
    groups depth w = [] := by
  rw [← List.length_eq_zero_iff, length_groups]
  exact List.count_eq_zero_of_not_mem h

theorem nestingFrom_le_iff_groups {depth n : Nat} {w : List TokenKind} :
    nestingFrom depth w ≤ n ↔ depth ≤ n ∧ ∀ m ∈ groups depth w, m ≤ n := by
  induction w generalizing depth with
  | nil => simp [nestingFrom, groups]
  | cons k w ih =>
      rw [nestingFrom, Nat.max_le, ih, groups]
      split
      · next hk =>
          subst hk
          simp only [shift, List.forall_mem_cons]
      · next hk =>
          have hs := shift_le hk depth
          exact ⟨fun h => ⟨h.1, h.2.2⟩, fun h => ⟨h.1, Nat.le_trans hs h.1, h.2⟩⟩

theorem groups_append (depth : Nat) (u v : List TokenKind) :
    groups depth (u ++ v) = groups depth u ++ groups (u.foldl shift depth) v := by
  induction u generalizing depth with
  | nil => rfl
  | cons k u ih =>
      rw [List.cons_append, groups, groups, List.foldl_cons]
      split
      · next hk =>
          subst hk
          rw [ih]
          rfl
      · exact ih _

end FindExpr.Grammar

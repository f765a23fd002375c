import FindExpr.Proofs.Grammar.Nesting
import FindExpr.Proofs.Query.Rendering

namespace FindExpr

namespace Condition

def deepenIf (grouped : Bool) (depth : Nat) : Nat := if grouped then depth + 1 else depth

/-- How deep the parentheses around operands are nested. -/
def groupDepth : Condition → Nat
  | comparison _ => 0
  | binary op lhs rhs =>
    max (deepenIf (lhs.level < op.level) lhs.groupDepth)
      (deepenIf (rhs.level ≤ op.level) rhs.groupDepth)

def encloseIf (grouped : Bool) (groups : Nat → List Nat) (depth : Nat) : List Nat :=
  if grouped then (depth + 1) :: groups (depth + 1) else groups depth

/-- The depths of the groups of a condition that stands within `depth` parentheses. -/
def groups : Condition → Nat → List Nat
  | comparison _ => fun _ => []
  | binary op lhs rhs => fun depth =>
    encloseIf (lhs.level < op.level) lhs.groups depth ++
      encloseIf (rhs.level ≤ op.level) rhs.groups depth

end Condition

def Query.groupDepth (q : Query) : Nat := (q.condition.map Condition.groupDepth).getD 0

namespace Grammar

open Lexeme

def Flat (xs : List Lexeme) : Prop :=
  ∀ x ∈ xs, x.kind ≠ .symbol .leftParen ∧ x.kind ≠ .symbol .rightParen

namespace Flat

variable {xs ys : List Lexeme}

theorem nil : Flat [] := by simp [Flat]

theorem append (hx : Flat xs) (hy : Flat ys) : Flat (xs ++ ys) :=
  List.forall_mem_append.2 ⟨hx, hy⟩

theorem value (v : String) : Flat [ofValue v] := by
  unfold Flat ofValue
  split <;> simp

theorem word (k : Keyword) : Flat [ofKind (.keyword k)] := by
  simp [Flat, ofKind]

theorem commaJoin {items : List (List Lexeme)} (h : ∀ xs ∈ items, Flat xs) :
    Flat (Query.commaJoin items) := by
  cases items with
  | nil => exact nil
  | cons xs items =>
      rw [List.forall_mem_cons] at h
      rw [Query.commaJoin, intercalate_cons]
      apply h.1.append
      intro x hx
      obtain ⟨ys, hy, hx⟩ := List.mem_flatMap.1 hx
      rcases List.mem_cons.1 hx with rfl | hx
      · simp [ofKind]
      · exact h.2 ys hy x hx

theorem select (fields : List String) : Flat (Query.selectLexemes fields).flatten := by
  cases fields with
  | nil => exact nil
  | cons field fields =>
      refine ((word .select).append (commaJoin ?_)).append nil
      rw [List.forall_mem_map]
      exact fun v _ => value v

theorem orderBy (keys : List SortKey) : Flat (Query.sortLexemes keys).flatten := by
  cases keys with
  | nil => exact nil
  | cons key keys =>
      refine ((word .orderBy).append (commaJoin ?_)).append nil
      rw [List.forall_mem_map]
      rintro ⟨field, _ | d⟩ -
      · exact value field
      · exact (value field).append (by cases d <;> exact word _)

theorem count (k : Keyword) (n : Option UInt64) : Flat (Query.countLexemes k n).flatten := by
  cases n with
  | none => exact nil
  | some n => exact ((word k).append (value _)).append nil

theorem comparison (c : Comparison) : Flat c.lexemes := by
  have ho : Flat [ofKind c.op.kind] := by
    cases c.op <;> simp [Flat, ofKind, Comparator.kind]
  exact (value c.field).append (ho.append (value c.value))

theorem groups_append (h : Flat xs) (depth : Nat) (w : List TokenKind) :
    groups depth (xs.map Lexeme.kind ++ w) = groups depth w := by
  induction xs with
  | nil => rfl
  | cons x xs ih =>
      obtain ⟨hx, hxs⟩ := List.forall_mem_cons.1 h
      have hk : shift depth x.kind = depth := by
        unfold shift
        split
        · exact absurd ‹_› hx.1
        · exact absurd ‹_› hx.2
        · rfl
      rw [List.map_cons, List.cons_append, groups, if_neg hx.1, hk, ih hxs]

end Flat

theorem groups_groupIf {xs : List Lexeme} {gs : Nat → List Nat}
    (h : ∀ depth w, groups depth (xs.map Lexeme.kind ++ w) = gs depth ++ groups depth w)
    (grouped : Bool) (depth : Nat) (w : List TokenKind) :
    groups depth ((Condition.groupIf grouped xs).map Lexeme.kind ++ w) =
      Condition.encloseIf grouped gs depth ++ groups depth w := by
  cases grouped with
  | false => exact h depth w
  | true =>
      have hr : groups (depth + 1) (.symbol .rightParen :: w) = groups depth w := rfl
      have ht := h (depth + 1) (.symbol .rightParen :: w)
      rw [Condition.encloseIf, if_pos rfl, List.cons_append, ← hr, ← ht]
      simp [Condition.groupIf, ofKind, groups]

theorem groups_condition (c : Condition) (depth : Nat) (w : List TokenKind) :
    groups depth (c.lexemes.map Lexeme.kind ++ w) = c.groups depth ++ groups depth w := by
  induction c generalizing depth w with
  | comparison c => exact (Flat.comparison c).groups_append depth w
  | binary op lhs rhs ihl ihr =>
      have ho : Flat [ofKind op.kind] := by cases op <;> exact Flat.word _
      rw [Condition.lexemes, List.append_cons, List.map_append, List.map_append, List.append_assoc,
        List.append_assoc, groups_groupIf ihl, ho.groups_append, groups_groupIf ihr,
        Condition.groups, List.append_assoc]

theorem groups_query (q : Query) :
    groups 0 (q.lexemes.map Lexeme.kind) = (q.condition.map (·.groups 0)).getD [] := by
  have ht : Flat ((Query.sortLexemes q.sort).flatten ++
      ((Query.countLexemes .limit q.limit).flatten ++
        (Query.countLexemes .offset q.offset).flatten)) :=
    (Flat.orderBy q.sort).append ((Flat.count .limit q.limit).append (Flat.count .offset q.offset))
  have hn := ht.groups_append 0 []
  rw [List.append_nil, groups] at hn
  rw [Query.lexemes, Query.clauseLexemes]
  simp only [List.flatten_append, List.append_assoc]
  rw [List.map_append, (Flat.select q.fields).groups_append, List.map_append]
  cases q.condition with
  | none => exact hn
  | some c =>
      have hf : Flat (ofKind (.keyword .filter) ::
          if q.omits then [ofKind (.keyword .omits)] else []) := by
        cases q.omits with
        | false => exact Flat.word .filter
        | true => exact (Flat.word .filter).append (Flat.word .omits)
      have hl : (Query.filterLexemes q.omits (some c)).flatten =
          (ofKind (.keyword .filter) :: if q.omits then [ofKind (.keyword .omits)] else [])
            ++ c.lexemes := List.append_nil _
      rw [hl, List.map_append, List.append_assoc, hf.groups_append, groups_condition, hn,
        List.append_nil]
      rfl

theorem encloseIf_le_iff {gs : Nat → List Nat} {m depth n : Nat}
    (ih : ∀ {depth}, depth ≤ n → ((∀ g ∈ gs depth, g ≤ n) ↔ depth + m ≤ n)) (h : depth ≤ n)
    (grouped : Bool) :
    (∀ g ∈ Condition.encloseIf grouped gs depth, g ≤ n) ↔
      depth + Condition.deepenIf grouped m ≤ n := by
  cases grouped with
  | false => exact ih h
  | true =>
      rw [Condition.encloseIf, if_pos rfl, List.forall_mem_cons, Condition.deepenIf, if_pos rfl,
        Nat.add_comm m, ← Nat.add_assoc]
      constructor
      · rintro ⟨hd, hg⟩
        exact (ih hd).1 hg
      · intro hg
        have hd : depth + 1 ≤ n := Nat.le_trans (Nat.le_add_right ..) hg
        exact ⟨hd, (ih hd).2 hg⟩

theorem groups_le_iff {c : Condition} {depth n : Nat} (h : depth ≤ n) :
    (∀ g ∈ c.groups depth, g ≤ n) ↔ depth + c.groupDepth ≤ n := by
  induction c generalizing depth with
  | comparison => simpa [Condition.groups, Condition.groupDepth]
  | binary op lhs rhs ihl ihr =>
      rw [Condition.groups, List.forall_mem_append, encloseIf_le_iff ihl h, encloseIf_le_iff ihr h,
        Condition.groupDepth]
      omega

theorem nesting_query (q : Query) : nesting (q.lexemes.map Lexeme.kind) = q.groupDepth := by
  have h (n : Nat) : nesting (q.lexemes.map Lexeme.kind) ≤ n ↔ q.groupDepth ≤ n := by
    rw [nesting, nestingFrom_le_iff_groups, groups_query, Query.groupDepth]
    cases q.condition with
    | none => simp
    | some c => simpa using groups_le_iff (c := c) (Nat.zero_le n)
  exact Nat.le_antisymm ((h _).2 (Nat.le_refl _)) ((h _).1 (Nat.le_refl _))

end Grammar

end FindExpr

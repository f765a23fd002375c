import FindExpr.Event
import FindExpr.Query.Basic

namespace FindExpr

def Event.comparison? : Event → Option Comparison
  | comparison field op value => some ⟨field.unescaped, op, value.unescaped⟩
  | _ => none

def comparisonsTold (es : List Event) : List Comparison := es.filterMap Event.comparison?

theorem comparisonsTold_append (es fs : List Event) :
    comparisonsTold (es ++ fs) = comparisonsTold es ++ comparisonsTold fs :=
  List.filterMap_append ..

theorem comparisonsTold_concat {e : Event} (he : e.comparison? = none) (es : List Event) :
    comparisonsTold (es ++ [e]) = comparisonsTold es := by
  simp [comparisonsTold, he]

namespace Condition

def leaves : Condition → List Comparison
  | comparison c => [c]
  | binary _ lhs rhs => lhs.leaves ++ rhs.leaves

/-- The loop goes round `n` times from what has been found and what is pending, and ends with what
has then been found. Of a part that is joined the left side is put on the stack last. -/
inductive Visits : Nat → List Comparison → List Condition → List Comparison → Prop
  | done (found) : Visits 0 found [] found
  | comparison {n found c pending result} (h : Visits n (found ++ [c]) pending result) :
      Visits (n + 1) found (.comparison c :: pending) result
  | binary {n found op lhs rhs pending result}
      (h : Visits n found (lhs :: rhs :: pending) result) :
      Visits (n + 1) found (.binary op lhs rhs :: pending) result

theorem visits_comparisonsOf (found : List Comparison) (pending : List Condition) :
    Visits (nodesOf pending) found pending (found ++ comparisonsOf pending) := by
  fun_induction comparisonsOf pending generalizing found with
  | case1 =>
      rw [List.append_nil]
      exact .done found
  | case2 c pending ih =>
      rw [List.append_cons, nodesOf, Nat.add_comm]
      exact .comparison (ih _)
  | case3 op lhs rhs pending ih =>
      have hn : nodesOf (binary op lhs rhs :: pending) = nodesOf (lhs :: rhs :: pending) + 1 := by
        simp only [nodesOf, nodes]
        omega
      rw [hn]
      exact .binary (ih found)

variable {n m : Nat} {found result result' : List Comparison} {pending : List Condition}
  {c : Condition}

theorem Visits.deterministic (h : Visits n found pending result)
    (h' : Visits m found pending result') : n = m ∧ result = result' := by
  induction h generalizing m with
  | done =>
      cases h'
      exact ⟨rfl, rfl⟩
  | comparison _ ih =>
      cases h' with
      | comparison h' =>
          obtain ⟨rfl, rfl⟩ := ih h'
          exact ⟨rfl, rfl⟩
  | binary _ ih =>
      cases h' with
      | binary h' =>
          obtain ⟨rfl, rfl⟩ := ih h'
          exact ⟨rfl, rfl⟩

theorem visits_iff : Visits n [] [c] result ↔ n = c.nodes ∧ result = c.comparisons := by
  have hv := visits_comparisonsOf [] [c]
  constructor
  · exact fun h => h.deterministic hv
  · rintro ⟨rfl, rfl⟩
    exact hv

theorem comparisonsOf_eq (pending : List Condition) :
    comparisonsOf pending = pending.flatMap leaves := by
  fun_induction comparisonsOf pending with
  | case1 => rfl
  | case2 c pending ih => simp [ih, leaves]
  | case3 op lhs rhs pending ih => simp [ih, leaves]

theorem comparisons_eq_leaves (c : Condition) : c.comparisons = c.leaves := by
  rw [comparisons, comparisonsOf_eq, List.flatMap_singleton]

end Condition

end FindExpr

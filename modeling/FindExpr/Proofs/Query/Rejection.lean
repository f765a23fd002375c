import FindExpr.Proofs.Recognizer.Counts
import FindExpr.Proofs.Recognizer.Handlers
import FindExpr.Proofs.Text.Numeral
import FindExpr.Query.Builder

namespace FindExpr

namespace Recognizer

variable {limit : Nat} {q : State} {t : Token} {d : Diagnostic}

theorem start_of_reject (h : (step limit q t).verdict = .reject d) : d.start = t.start := by
  have hj := judges_step limit q t
  simp only [Step.Judges, h, Blames] at hj
  split at hj
  · exact hj.1
  · split at hj <;> exact hj.1

end Recognizer

theorem start_invalid {l : Literal} {reason : String} : (l.invalid reason).start = l.start := by
  simp [Literal.invalid]

namespace Builder

open Recognizer

variable {b b' : Builder} {d : Diagnostic} {limit : Nat} {q : State} {t last : Token}

theorem count_of_add {e : Event} (h : add e b = (b', some d)) :
    ∃ l, e.count? = some l ∧ count l = .error d := by
  cases e with
  | limit l | offset l =>
      refine ⟨l, rfl, ?_⟩
      cases hl : count l with
      | ok n => simp [add, hl] at h
      | error d' =>
          simp only [add, hl, Prod.mk.injEq, Option.some.injEq] at h
          rw [h.2]
  | _ => cases h

theorem count_of_tell {es : List Event} (h : tell add es b = (b', some d)) :
    ∃ l ∈ countsOf es, count l = .error d := by
  obtain ⟨before, e, after, m, rfl, -, he⟩ := exists_of_rejected h
  obtain ⟨l, hl, hd⟩ := count_of_add he
  exact ⟨l, List.mem_filterMap.2 ⟨e, by simp, hl⟩, hd⟩

theorem invalid_of_count {l : Literal} (h : count l = .error d) :
    ¬ Text.IsCount l.unescaped.toList ∧ d = l.invalid "expected a non-negative integer" := by
  rw [← Text.isSome_uint64?_iff]
  unfold count at h
  split at h
  · cases h
  · next hn => exact ⟨by simp [hn], (Except.error.inj h).symm⟩

theorem continues_or_ends (limit : Nat) (q : State) (place : Position) (t : Token)
    (unread : List Item) (b : Builder) :
    (∃ r b', (step limit q t).verdict = .continue r ∧
      runFrom limit add q place (.ok t :: unread) b = runFrom limit add r t.stop unread b') ∨
    (runFrom limit add q place (.ok t :: unread) b).unread = unread ∧
      ∀ d, (runFrom limit add q place (.ok t :: unread) b).result = .error d →
        d.start = t.start := by
  rw [runFrom_cons, turn_token]
  rcases ht : tell add (step limit q t).events b with ⟨b', _ | d'⟩
  · cases hv : (step limit q t).verdict with
    | «continue» r => exact .inl ⟨r, b', rfl, rfl⟩
    | accept => exact .inr ⟨rfl, fun d hd => by cases hd⟩
    | reject d' =>
        refine .inr ⟨rfl, fun d hd => ?_⟩
        obtain rfl := Except.error.inj hd
        exact start_of_reject hv
  · refine .inr ⟨rfl, fun d hd => ?_⟩
    obtain rfl := Except.error.inj hd
    obtain ⟨l, hl, hc⟩ := count_of_tell ht
    obtain ⟨-, -, rfl⟩ := of_mem_countsOf_step hl
    rw [(invalid_of_count hc).2]
    exact start_invalid

theorem start_of_run (hl : last.isEnd = true) (ts : List Token) (place : Position)
    (h : (runFrom limit add q place ((ts ++ [last]).map .ok) b).result = .error d) :
    ∃ before t after, ts ++ [last] = before ++ t :: after ∧ d.start = t.start ∧
      (runFrom limit add q place ((ts ++ [last]).map .ok) b).unread = after.map .ok := by
  induction ts generalizing q place b with
  | nil =>
      rcases continues_or_ends limit q place last [] b with ⟨r, b', hr, -⟩ | ⟨hu, hd⟩
      · rcases verdict_of_isEnd limit q hl with ⟨hv, -⟩ | ⟨d, hv, -⟩ <;>
          rw [hr] at hv <;> cases hv
      · exact ⟨[], last, [], rfl, hd d h, hu⟩
  | cons t ts ih =>
      rcases continues_or_ends limit q place t ((ts ++ [last]).map .ok) b with
        ⟨r, b', -, hr⟩ | ⟨hu, hd⟩
      · rw [List.cons_append, List.map_cons, hr] at h ⊢
        obtain ⟨before, u, after, he, hs, hu⟩ := ih t.stop h
        exact ⟨t :: before, u, after, congrArg (List.cons t) he, hs, hu⟩
      · exact ⟨[], t, ts ++ [last], rfl, hd d h, hu⟩

end Builder

end FindExpr

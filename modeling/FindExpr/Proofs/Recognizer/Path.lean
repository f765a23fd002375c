import FindExpr.Proofs.Recognizer.Brackets
import FindExpr.Proofs.Recognizer.Residual
import FindExpr.Recognizer.Run

namespace FindExpr.Recognizer

open Grammar

/-- The recognizer reads tokens on its way from one state to another and tells events. -/
inductive Path (limit : Nat) : State → List Token → List Event → State → Prop
  | nil (q) : Path limit q [] [] q
  | cons {q t e r ts es s} (h : step limit q t = ⟨e, .continue r⟩) (p : Path limit r ts es s) :
      Path limit q (t :: ts) (e ++ es) s

namespace Path

variable {limit : Nat} {q r s : State} {ts us : List Token} {es fs : List Event}
  {w : List TokenKind}

theorem append (p : Path limit q ts es r) (p' : Path limit r us fs s) :
    Path limit q (ts ++ us) (es ++ fs) s := by
  induction p with
  | nil => exact p'
  | cons h _ ih => simpa only [List.cons_append, List.append_assoc] using cons h (ih p')

theorem single {t : Token} {e : List Event} (h : step limit q t = ⟨e, .continue r⟩) :
    Path limit q [t] e r := by
  simpa only [List.append_nil] using cons h (nil r)

theorem derivesAll_iff (p : Path limit q ts es r) :
    DerivesAll q.remainder (kinds ts ++ w) ↔ DerivesAll r.remainder w := by
  induction p with
  | nil => exact Iff.rfl
  | cons h _ ih =>
      rw [kinds_cons, List.cons_append, ← admits_step, h, Step.admits_continue, ih]
      exact depth_lt_of_leftParen (congrArg Step.verdict h)

theorem depth_step {t : Token} (h : (step limit q t).verdict = .continue r) :
    r.depth = shift q.depth t.kind := by
  rw [State.depth, opened_step h, length_brackets]
  rfl

theorem depth_le_step {t : Token} (h : (step limit q t).verdict = .continue r)
    (hq : q.depth ≤ limit) : r.depth ≤ limit := by
  have hd := depth_step h
  by_cases ht : t.kind = .symbol .leftParen
  · have hlt := depth_lt_of_leftParen h ht
    simp only [ht, shift] at hd
    omega
  · have hs : nestingFrom q.depth [t.kind] ≤ q.depth :=
      nestingFrom_le_of_not_mem (by simpa using Ne.symm ht) _
    simp only [nestingFrom] at hs
    omega

theorem depth_le (p : Path limit q ts es r) (hq : q.depth ≤ limit) : r.depth ≤ limit := by
  induction p with
  | nil => exact hq
  | cons h _ ih => exact ih (depth_le_step (congrArg Step.verdict h) hq)

theorem nestingFrom_le_iff (p : Path limit q ts es r) (hq : q.depth ≤ limit) :
    nestingFrom q.depth (kinds ts ++ w) ≤ limit ↔ nestingFrom r.depth w ≤ limit := by
  induction p with
  | nil => exact Iff.rfl
  | cons h _ ih =>
      have hs := congrArg Step.verdict h
      rw [kinds_cons, List.cons_append, Grammar.nestingFrom_le_iff hq, ← depth_step hs,
        ih (depth_le_step hs hq)]

theorem sentence_iff (p : Path limit .start ts es r) :
    Sentence limit (kinds ts ++ w) ↔
      DerivesAll r.remainder w ∧ nestingFrom r.depth w ≤ limit := by
  have hd := p.derivesAll_iff (w := w)
  have hn := p.nestingFrom_le_iff (w := w) (Nat.zero_le _)
  rw [State.remainder, DerivesAll.singleton_iff] at hd
  exact ⟨fun h => ⟨hd.1 h.derives, hn.1 h.nesting_le⟩, fun h => ⟨hd.2 h.1, hn.2 h.2⟩⟩

theorem split (p : Path limit q (ts ++ us) es r) :
    ∃ s fs gs, Path limit q ts fs s ∧ Path limit s us gs r ∧ es = fs ++ gs := by
  induction ts generalizing q es with
  | nil => exact ⟨q, [], es, .nil q, p, rfl⟩
  | cons t ts ih =>
      cases p with
      | cons h p =>
          obtain ⟨s, fs, gs, hf, hg, rfl⟩ := ih p
          exact ⟨s, _, gs, .cons h hf, hg, (List.append_assoc ..).symm⟩

theorem count_leftParen (p : Path limit q ts es r) :
    q.depth + (kinds ts).count (.symbol .leftParen) =
      r.depth + (kinds ts).count (.symbol .rightParen) := by
  induction p with
  | nil => rfl
  | @cons q t e r ts es s h _ ih =>
      have hs := congrArg Step.verdict h
      have hc := add_count_shift (depth_pos_of_rightParen hs)
      rw [← depth_step hs] at hc
      rw [kinds_cons, ← List.singleton_append, List.count_append, List.count_append]
      omega

theorem deterministic (p : Path limit q ts es r) (p' : Path limit q ts fs s) : es = fs ∧ r = s := by
  induction p generalizing fs with
  | nil =>
      cases p'
      exact ⟨rfl, rfl⟩
  | cons h _ ih =>
      cases p' with
      | cons h' p' =>
          rw [h, Step.mk.injEq, Verdict.continue.injEq] at h'
          obtain ⟨rfl, rfl⟩ := h'
          obtain ⟨rfl, rfl⟩ := ih p'
          exact ⟨rfl, rfl⟩

end Path

end FindExpr.Recognizer

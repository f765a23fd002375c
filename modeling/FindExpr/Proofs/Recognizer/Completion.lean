import FindExpr.Proofs.Recognizer.Path

namespace FindExpr.Recognizer

open Grammar

namespace State

def complete : State → Bool
  | start | afterField | afterTerm [] | afterSortField _ | afterSortKey | afterLimit
  | afterOffset => true
  | _ => false

theorem expectsTerm_of_complete {q : State} (h : q.complete = true) : q.expectsTerm = false := by
  cases q with
  | afterWhere | expectTerm => exact absurd h Bool.false_ne_true
  | _ => rfl

theorem derivesAll_behindTerm_nil_iff {opened : List Token} :
    DerivesAll (behindTerm opened) [] ↔ opened = [] := by
  cases opened <;>
    simp [behindTerm, DerivesAll.many_iff, DerivesAll.opt_iff, DerivesAll.rule_iff,
      DerivesAll.alt_iff]

theorem derivesAll_nil_iff {q : State} : DerivesAll q.remainder [] ↔ q.complete = true := by
  cases q with
  | afterTerm opened =>
      rw [remainder, derivesAll_behindTerm_nil_iff]
      cases opened <;> simp [complete]
  | _ =>
      simp [remainder, complete, DerivesAll.many_iff, DerivesAll.opt_iff, DerivesAll.rule_iff,
        DerivesAll.alt_iff]

def closing (opened : List Token) : List TokenKind := opened.map fun _ => .symbol .rightParen

/-- The shortest words that complete what has been read. -/
def completion : State → List TokenKind
  | start | afterField | afterSortField _ | afterSortKey | afterLimit | afterOffset => []
  | expectField | expectSortField | expectLimit | expectOffset => [.literal]
  | afterWhere _ => [.literal, .symbol .eq, .literal]
  | expectTerm opened => .literal :: .symbol .eq :: .literal :: closing opened
  | expectComparator _ opened => .symbol .eq :: .literal :: closing opened
  | expectValue _ _ opened => .literal :: closing opened
  | afterTerm opened => closing opened

theorem derivesAll_closing (opened : List Token) :
    DerivesAll (behindTerm opened) (closing opened) := by
  induction opened with
  | nil => exact derivesAll_behindTerm_nil_iff.2 rfl
  | cons paren outer ih => simpa [behindTerm, closing] using ih

theorem derivesAll_completion (q : State) : DerivesAll q.remainder q.completion := by
  have hc := derivesAll_closing
  have hn := derivesAll_nil_iff (q := q)
  cases q with
  | start | afterField | afterSortField | afterSortKey | afterLimit | afterOffset => exact hn.2 rfl
  | expectTerm opened | expectComparator _ opened | expectValue _ _ opened | afterTerm opened =>
      simpa [remainder, completion] using hc opened
  | afterWhere place => simpa [remainder, completion, behindTerm, closing] using hc []
  | expectField | expectSortField | expectLimit | expectOffset =>
      simp [remainder, completion, DerivesAll.many_iff, DerivesAll.opt_iff, DerivesAll.rule_iff,
        DerivesAll.alt_iff]

theorem leftParen_not_mem_closing (opened : List Token) : .symbol .leftParen ∉ closing opened := by
  simp [closing]

theorem leftParen_not_mem_completion (q : State) : .symbol .leftParen ∉ q.completion := by
  cases q <;> simp [completion, leftParen_not_mem_closing]

theorem expectsTerm_iff {q : State} :
    (∃ w, DerivesAll q.remainder (.symbol .leftParen :: w)) ↔ q.expectsTerm = true := by
  have hc (opened : List Token) :
      ∃ w, DerivesAll (.rule .term :: behindTerm opened) (.symbol .leftParen :: w) := by
    refine ⟨.literal :: .symbol .eq :: .literal :: .symbol .rightParen :: closing opened, ?_⟩
    simpa using derivesAll_closing opened
  cases q with
  | expectTerm opened => exact iff_of_true (hc opened) rfl
  | afterWhere place => simpa [expectsTerm, remainder, behindTerm] using hc []
  | afterTerm opened => cases opened <;> simp [expectsTerm, remainder, behindTerm]
  | _ => simp [expectsTerm, remainder]

end State

namespace Path

variable {limit : Nat} {r : State} {ts : List Token} {es : List Event}

theorem sentence_completion (p : Path limit .start ts es r) :
    Sentence limit (kinds ts ++ r.completion) := by
  refine p.sentence_iff.2 ⟨r.derivesAll_completion, ?_⟩
  have hn := nestingFrom_le_of_not_mem r.leftParen_not_mem_completion r.depth
  exact Nat.le_trans hn (p.depth_le (Nat.zero_le _))

theorem viable (p : Path limit .start ts es r) : Viable limit (kinds ts) :=
  ⟨r.completion, p.sentence_completion⟩

theorem sentence_iff_complete (p : Path limit .start ts es r) :
    Sentence limit (kinds ts) ↔ r.complete = true := by
  have hs := p.sentence_iff (w := [])
  rw [List.append_nil] at hs
  rw [hs, State.derivesAll_nil_iff]
  exact and_iff_left (p.depth_le (Nat.zero_le _))

theorem not_viable {t : Token} (p : Path limit .start ts es r)
    (h : ∀ s, (step limit r t).verdict ≠ .continue s) : ¬ Viable limit (kinds ts ++ [t.kind]) := by
  rintro ⟨w, hw⟩
  rw [List.append_assoc, List.singleton_append, p.sentence_iff] at hw
  obtain ⟨hd, hn⟩ := hw
  have ht : t.kind = .symbol .leftParen → r.depth < limit := by
    intro hk
    rw [hk, Grammar.nestingFrom_le_iff (p.depth_le (Nat.zero_le _))] at hn
    exact Nat.lt_of_lt_of_le (Nat.lt_succ_self _) (Nat.le_trans (le_nestingFrom ..) hn)
  have ha : (step limit r t).Admits w := (admits_step ht).2 hd
  unfold Step.Admits at ha
  split at ha
  · exact h _ ‹_›
  · exact ha

theorem viable_leftParen_iff (p : Path limit .start ts es r) :
    (∃ m, Viable m (kinds ts ++ [.symbol .leftParen])) ↔ r.expectsTerm = true := by
  rw [← State.expectsTerm_iff]
  constructor
  · rintro ⟨m, w, hw⟩
    have hd := hw.derives
    rw [List.append_assoc, List.singleton_append, ← DerivesAll.singleton_iff] at hd
    exact ⟨w, p.derivesAll_iff.1 hd⟩
  · rintro ⟨w, hw⟩
    have hd := p.derivesAll_iff.2 hw
    rw [State.remainder, DerivesAll.singleton_iff] at hd
    refine ⟨_, w, ?_, Nat.le_refl _⟩
    rwa [List.append_assoc, List.singleton_append]

end Path

end FindExpr.Recognizer

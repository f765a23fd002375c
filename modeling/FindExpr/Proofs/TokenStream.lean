import FindExpr.TokenStream

namespace FindExpr.TokenStream

inductive Call where
  | current | currentKind | isAtEnd | advance
  deriving DecidableEq, Repr

inductive Answer where
  | token (t : Token)
  | kind (k : TokenKind)
  | atEnd (atEnd : Bool)
  deriving DecidableEq, Repr

def Call.about : Call → Token → Answer
  | current, t | advance, t => .token t
  | currentKind, t => .kind t.kind
  | isAtEnd, t => .atEnd t.isEnd

def call (s : TokenStream) : Call → Except Diagnostic Answer × TokenStream
  | .current => (s.current.1.map .token, s.current.2)
  | .currentKind => (s.currentKind.1.map .kind, s.currentKind.2)
  | .isAtEnd => (s.isAtEnd.1.map .atEnd, s.isAtEnd.2)
  | .advance => (s.advance.1.map .token, s.advance.2)

/-- What a call hands over: the token that it consumes, or a diagnostic. -/
def Call.handsOver : Call → Except Diagnostic Answer → Option Item
  | _, .error d => some (.error d)
  | .advance, .ok (.token t) => some (.ok t)
  | _, .ok _ => none

def after (s : TokenStream) (calls : List Call) : TokenStream :=
  calls.foldl (fun s c => (s.call c).2) s

def delivered (s : TokenStream) : List Call → List Item
  | [] => []
  | c :: calls => (c.handsOver (s.call c).1).toList ++ (s.call c).2.delivered calls

def endOf (items : List Item) : Position :=
  (items.filterMap Except.toOption).getLast?.elim .start Token.stop

def endToken (items : List Item) : Token := .endOfInput (endOf items) (endOf items)

variable {s : TokenStream} {items done : List Item} {c : Call} {t : Token} {d : Diagnostic}

@[simp] theorem endOf_token (items : List Item) (t : Token) :
    endOf (items ++ [.ok t]) = t.stop := by
  simp [endOf, Except.toOption]

@[simp] theorem endOf_diagnostic (items : List Item) (d : Diagnostic) :
    endOf (items ++ [.error d]) = endOf items := by
  simp [endOf, Except.toOption]

theorem endOf_replicate (items : List Item) (n : Nat) :
    endOf (items ++ List.replicate n (.ok (endToken items))) = endOf items := by
  induction n with
  | zero => rw [List.replicate_zero, List.append_nil]
  | succ n _ =>
      rw [List.replicate_succ', ← List.append_assoc, endOf_token]
      rfl

theorem lookahead_pull (s : TokenStream) : s.pull.2.lookahead = none := by
  obtain ⟨_ | ⟨item, pending⟩, _ | t, place⟩ := s <;> rfl

theorem lastStop_pull (s : TokenStream) : s.pull.2.lastStop = s.lastStop := by
  obtain ⟨_ | ⟨item, pending⟩, _ | t, place⟩ := s <;> rfl

theorem call_of_token (h : s.pull.1 = .ok t) (c : Call) :
    s.call c = (.ok (c.about t), if c = .advance then { s.pull.2 with lastStop := t.stop }
      else { s.pull.2 with lookahead := some t }) := by
  have hp : s.pull = (.ok t, s.pull.2) := Prod.ext h rfl
  cases c <;> simp only [call, current, currentKind, isAtEnd, advance] <;> rw [hp] <;> rfl

theorem call_of_diagnostic (h : s.pull.1 = .error d) (c : Call) :
    s.call c = (.error d, s.pull.2) := by
  have hp : s.pull = (.error d, s.pull.2) := Prod.ext h rfl
  cases c <;> simp only [call, current, currentKind, isAtEnd, advance] <;> rw [hp] <;> rfl

/-- Some items have been handed over, and the stream holds those that come next. -/
structure Holds (items done : List Item) (s : TokenStream) : Prop where
  ends : s.lastStop = endOf done
  follows : ∃ n, items ++ List.replicate n (.ok (endToken items)) =
    done ++ (s.lookahead.toList.map .ok ++ s.pending)

theorem holds_ofItems (items : List Item) : Holds items [] (ofItems items) :=
  ⟨rfl, 0, List.append_nil _⟩

theorem Holds.pull (h : Holds items done s) :
    ∃ n, items ++ List.replicate n (.ok (endToken items)) =
      done ++ s.pull.1 :: s.pull.2.pending := by
  obtain ⟨pending, lookahead, place⟩ := s
  obtain ⟨rfl, n, hn⟩ := h
  cases lookahead with
  | some t => exact ⟨n, hn⟩
  | none =>
      cases pending with
      | cons item pending => exact ⟨n, hn⟩
      | nil =>
          have hd : items ++ List.replicate n (.ok (endToken items)) = done := by simpa using hn
          have he : endOf done = endOf items := by rw [← hd, endOf_replicate]
          refine ⟨n + 1, ?_⟩
          rw [List.replicate_succ', ← List.append_assoc, hd]
          simp [TokenStream.pull, he, endToken]

theorem Holds.call (h : Holds items done s) (c : Call) :
    Holds items (done ++ (c.handsOver (s.call c).1).toList) (s.call c).2 := by
  obtain ⟨n, hn⟩ := h.pull
  have hl := lookahead_pull s
  have hp := (lastStop_pull s).trans h.ends
  cases hi : s.pull.1 with
  | error d =>
      rw [hi] at hn
      rw [call_of_diagnostic hi]
      exact ⟨by simpa [Call.handsOver] using hp, n, by simpa [Call.handsOver, hl] using hn⟩
  | ok t =>
      rw [hi] at hn
      rw [call_of_token hi]
      cases c with
      | advance =>
          exact ⟨(endOf_token done t).symm, n, by simpa [Call.handsOver, Call.about, hl] using hn⟩
      | current | currentKind | isAtEnd =>
          exact ⟨by simpa [Call.handsOver, Call.about] using hp, n,
            by simpa [Call.handsOver, Call.about] using hn⟩

theorem Holds.delivered (h : Holds items done s) (calls : List Call) :
    Holds items (done ++ s.delivered calls) (s.after calls) := by
  induction calls generalizing done s with
  | nil => simpa [TokenStream.delivered, after] using h
  | cons c calls ih => simpa [TokenStream.delivered, after] using ih (h.call c)

theorem handsOver_advance (s : TokenStream) :
    Call.handsOver .advance (s.call .advance).1 = some s.pull.1 := by
  cases hi : s.pull.1 with
  | error d => rw [call_of_diagnostic hi]; rfl
  | ok t => rw [call_of_token hi]; rfl

theorem count_advance_le (s : TokenStream) (calls : List Call) :
    calls.count .advance ≤ (s.delivered calls).length := by
  induction calls generalizing s with
  | nil => exact Nat.le_refl 0
  | cons c calls ih =>
      have hc := ih (s.call c).2
      rw [delivered, List.length_append]
      by_cases ha : c = .advance
      · subst ha
        rw [List.count_cons_self, handsOver_advance]
        simp only [Option.toList_some, List.length_singleton]
        omega
      · rw [List.count_cons_of_ne ha]
        omega

theorem pull_of_peek (h : s.pull.1 = .ok t) (hc : c ≠ .advance) :
    (s.call c).2.pull.1 = .ok t := by
  rw [call_of_token h, if_neg hc]
  rfl

theorem pull_of_peeks {peeks : List Call} (h : s.pull.1 = .ok t) (hp : ∀ c ∈ peeks, c ≠ .advance) :
    (s.after peeks).pull.1 = .ok t := by
  induction peeks generalizing s with
  | nil => exact h
  | cons c peeks ih =>
      rw [List.forall_mem_cons] at hp
      exact ih (pull_of_peek h hp.1) hp.2

theorem token_of_call {a : Answer} (h : (s.call c).1 = .ok a) :
    ∃ t, s.pull.1 = .ok t ∧ a = c.about t := by
  cases hi : s.pull.1 with
  | error d => simp [call_of_diagnostic hi] at h
  | ok t =>
      rw [call_of_token hi] at h
      exact ⟨t, rfl, (Except.ok.inj h).symm⟩

/-- The tokens that are consumed and the diagnostics are the items of the source in their order,
with end-of-input tokens behind them. What is shown of a token holds of the one that comes next,
however often it is asked for. -/
theorem hands_over_in_order (items : List Item) (calls : List Call) :
    let s := ofItems items
    calls.count .advance ≤ (s.delivered calls).length ∧
    (∃ n, s.delivered calls <+: items ++ List.replicate n (.ok (endToken items))) ∧
    ∀ (c : Call) (a : Answer), c ≠ .advance → ((s.after calls).call c).1 = .ok a →
      ∃ t, a = c.about t ∧ ∀ (peeks : List Call), (∀ p ∈ peeks, p ≠ .advance) → ∀ c' : Call,
        ((s.after (calls ++ c :: peeks)).call c').1 = .ok (c'.about t) := by
  intro s
  refine ⟨count_advance_le s calls, ?_, ?_⟩
  · obtain ⟨n, hn⟩ := ((holds_ofItems items).delivered calls).follows
    exact ⟨n, _, hn.symm⟩
  · intro c a hc ha
    obtain ⟨t, ht, rfl⟩ := token_of_call ha
    refine ⟨t, rfl, fun peeks hp c' => ?_⟩
    have hn : ((s.after calls).after (c :: peeks)).pull.1 = .ok t :=
      pull_of_peeks ht (List.forall_mem_cons.2 ⟨hc, hp⟩)
    rw [after, List.foldl_append]
    exact congrArg Prod.fst (call_of_token hn c')

theorem hands_over_in_order_peeks :
    let d : Diagnostic := .on .start "no matching symbol" .unrecognizedInput
    let t : Token := ⟨.literal, "a", none, .start, ⟨1, 1⟩⟩
    let s := ofItems [.error d, .ok t]
    ((s.after [.isAtEnd]).call .current).1 = .ok (.token t) ∧
      ((s.after [.isAtEnd, .current, .currentKind, .isAtEnd]).call .advance).1 = .ok (.token t) ∧
      ∃ n, s.delivered [.isAtEnd, .current, .advance, .advance] <+:
        [.error d, .ok t] ++ List.replicate n (.ok (.endOfInput ⟨1, 1⟩ ⟨1, 1⟩)) := by
  intro d t s
  obtain ⟨-, hd, -⟩ := hands_over_in_order [.error d, .ok t]
    [.isAtEnd, .current, .advance, .advance]
  obtain ⟨-, -, hp⟩ := hands_over_in_order [.error d, .ok t] [.isAtEnd]
  have hc : ((s.after [.isAtEnd]).call .current).1 = .ok (.token t) := rfl
  obtain ⟨t', ht, ha⟩ := hp .current (.token t) (by decide) hc
  obtain rfl : t = t' := Answer.token.inj ht
  exact ⟨hc, ha [.currentKind, .isAtEnd] (by decide) .advance, hd⟩

end FindExpr.TokenStream

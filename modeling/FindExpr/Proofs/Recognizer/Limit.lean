import FindExpr.Proofs.Recognizer.FirstError
import FindExpr.Proofs.Recognizer.Owed

namespace FindExpr.Recognizer

open Grammar

def ExceedsLimit (d : Diagnostic) : Prop := ∃ limit, d.cause = .nestingTooDeep limit

variable {σ : Type} {limit m : Nat} {q r : State} {t : Token} {ts : List Token} {es : List Event}
  {items : List Item} {d : Diagnostic}

theorem step_leftParen (hq : q.expectsTerm = true) (ht : t.kind = .symbol .leftParen) :
    step limit q t = if limit ≤ q.depth then ⟨q.owed, .reject (t.tooDeep limit)⟩
      else ⟨q.owed ++ [.groupStart t.start, .conditionStart, .conjunctionStart],
        .continue (.expectTerm (t :: q.opened))⟩ := by
  have hb (opened : List Token) : beginTerm limit opened t =
      if limit ≤ opened.length then .reject (t.tooDeep limit)
      else ⟨[.groupStart t.start, .conditionStart, .conjunctionStart],
        .continue (.expectTerm (t :: opened))⟩ := by
    simp [beginTerm, ht]
  cases q with
  | afterWhere place =>
      have ho : t.kind ≠ .keyword .omits := by simp [ht]
      rw [step, if_neg ho, hb]
      exact apply_ite (Step.precededBy · _) ..
  | expectTerm opened => exact hb opened
  | _ => cases hq

/-- The limit bears on nothing but parentheses where a term begins. -/
theorem step_of_not (ht : ¬ (q.expectsTerm = true ∧ t.kind = .symbol .leftParen)) :
    step limit q t = step m q t := by
  have hb (opened : List Token) (hp : t.kind ≠ .symbol .leftParen) :
      beginTerm limit opened t = beginTerm m opened t := by
    simp only [beginTerm, hp, if_false]
  cases q with
  | afterWhere place => rw [step, step, hb [] fun hp => ht ⟨rfl, hp⟩]
  | expectTerm opened => exact hb opened fun hp => ht ⟨rfl, hp⟩
  | _ => rfl

theorem step_of_isEnd (ht : t.isEnd = true) : step limit q t = step m q t :=
  step_of_not fun hc => by simp [Token.isEnd, hc.2] at ht

theorem step_limit (hm : limit ≤ m) (q : State) (t : Token) :
    step limit q t = step m q t ∨ ∃ es fs, step limit q t = ⟨es, .reject (t.tooDeep limit)⟩ ∧
      (step m q t).events = es ++ fs := by
  by_cases ht : q.expectsTerm = true ∧ t.kind = .symbol .leftParen
  · rw [step_leftParen ht.1 ht.2, step_leftParen ht.1 ht.2]
    by_cases hd : limit ≤ q.depth
    · rw [if_pos hd]
      refine .inr ⟨q.owed, ?_⟩
      split
      · exact ⟨[], rfl, (List.append_nil _).symm⟩
      · exact ⟨_, rfl, rfl⟩
    · have hd' : ¬ m ≤ q.depth := fun hn => hd (Nat.le_trans hm hn)
      exact .inl (by rw [if_neg hd, if_neg hd'])
  · exact .inl (step_of_not ht)

theorem Path.mono (hm : limit ≤ m) (p : Path limit q ts es r) : Path m q ts es r := by
  induction p with
  | nil => exact .nil _
  | @cons q t e r ts es s h _ ih =>
      rcases step_limit hm q t with hs | ⟨es', fs, hs, -⟩
      · exact .cons (hs ▸ h) ih
      · rw [h] at hs
        cases hs

theorem traceFrom_limit (hm : limit ≤ m) (q : State) (place : Position) (items : List Item) :
    traceFrom limit q place items = traceFrom m q place items ∨
      ∃ t fs, (traceFrom limit q place items).result = .error (Token.tooDeep t limit) ∧
        (traceFrom m q place items).state = (traceFrom limit q place items).state ++ fs := by
  induction items generalizing q place with
  | nil =>
      have hs : step limit q (.endOfInput place place) = step m q (.endOfInput place place) :=
        step_of_isEnd rfl
      exact .inl (by simp only [traceFrom, hs])
  | cons item items ih =>
      cases item with
      | error d => exact .inl rfl
      | ok t =>
          rcases step_limit hm q t with hs | ⟨es, fs, hs, he⟩
          · cases hv : (step m q t).verdict with
            | accept | reject => exact .inl (by simp only [traceFrom, hs, hv])
            | «continue» r =>
                simp only [traceFrom, hs, hv]
                rcases ih r t.stop with ht | ⟨t', fs, hr, he⟩
                · exact .inl (by rw [ht])
                · exact .inr ⟨t', fs, hr, by rw [he, List.append_assoc]⟩
          · cases hv : (step m q t).verdict with
            | accept | reject =>
                refine .inr ⟨t, fs, ?_, ?_⟩
                · simp only [traceFrom, hs]
                · simp only [traceFrom, hs, hv, he]
            | «continue» r =>
                refine .inr ⟨t, fs ++ (traceFrom m r t.stop items).state, ?_, ?_⟩
                · simp only [traceFrom, hs]
                · simp only [traceFrom, hs, hv, he, List.append_assoc]

theorem runFrom_limit (hm : limit ≤ m) (h : Handler σ) (q : State) (place : Position)
    (items : List Item) (s : σ) :
    runFrom limit h q place items s = runFrom m h q place items s ∨
      ∃ t, (runFrom limit h q place items s).result = .error (Token.tooDeep t limit) := by
  induction items generalizing q place s with
  | nil =>
      have hs : step limit q (.endOfInput place place) = step m q (.endOfInput place place) :=
        step_of_isEnd rfl
      exact .inl (by simp only [runFrom_nil, turn_token, hs])
  | cons item items ih =>
      cases item with
      | error d => exact .inl rfl
      | ok t =>
          rcases step_limit hm q t with hs | ⟨es, fs, hs, he⟩
          · simp only [runFrom_cons, turn_token, hs]
            rcases tell h (step m q t).events s with ⟨s', _ | d⟩
            · cases (step m q t).verdict with
              | accept | reject => exact .inl rfl
              | «continue» r => exact ih r t.stop s'
            · exact .inl rfl
          -- A handler that rejects an event in front of the parenthesis never gets to the limit.
          · rcases ht : tell h es s with ⟨s', _ | d⟩
            · exact .inr ⟨t, by simp only [runFrom_cons, turn_token, hs, ht]⟩
            · have hf := tell_append_of_rejected ht fs
              exact .inl (by simp only [runFrom_cons, turn_token, hs, he, ht, hf])

theorem leftParen_of_blames (hb : Blames limit q t d) (hd : ExceedsLimit d) :
    q.expectsTerm = true ∧ t.kind = .symbol .leftParen := by
  obtain ⟨n, hd⟩ := hd
  unfold Blames at hb
  split at hb
  · cases hb.2.2.symm.trans hd
  · split at hb
    · assumption
    · obtain ⟨-, expected, hc⟩ := hb
      split at hc <;> cases hc.symm.trans hd

theorem Path.count_leftParen_start (p : Path limit .start ts es r) :
    (kinds ts).count (.symbol .leftParen) = (kinds ts).count (.symbol .rightParen) + r.depth := by
  have hc : 0 + _ = _ := p.count_leftParen
  rw [← Nat.zero_add (List.count ..), hc, Nat.add_comm]

theorem Path.count_lt_of_leftParen {u : Token} {us vs : List Token}
    (p : Path limit .start (us ++ u :: vs) es r) (hu : u.kind = .symbol .leftParen) :
    (kinds us).count (.symbol .leftParen) < (kinds us).count (.symbol .rightParen) + limit := by
  obtain ⟨s, fs, gs, pu, pv, -⟩ := p.split
  cases pv with
  | cons hs _ =>
      rw [pu.count_leftParen_start]
      exact Nat.add_lt_add_left (depth_lt_of_leftParen (congrArg Step.verdict hs) hu) _

theorem exists_of_exceedsLimit (hi : ∀ e, .error e ∈ items → ¬ ExceedsLimit e)
    (h : (trace limit items).result = .error d) (hd : ExceedsLimit d) :
    ∃ (before : List Token) (t : Token) (after : List Item),
      items = before.map .ok ++ .ok t :: after ∧ d = t.tooDeep limit ∧
      t.kind = .symbol .leftParen ∧
      (kinds before).count (.symbol .leftParen) =
        (kinds before).count (.symbol .rightParen) + limit ∧
      ∀ us u vs, before = us ++ u :: vs → u.kind = .symbol .leftParen →
        (kinds us).count (.symbol .leftParen) ≠ (kinds us).count (.symbol .rightParen) + limit := by
  obtain ⟨ts, es, r, rest, rfl, p, hs⟩ := exists_stop limit .start items
  rw [trace, traceFrom_append p] at h
  cases rest with
  | nil =>
      rw [traceFrom_nil] at h
      have hs : Stops limit r [.ok (.endOfInput (lastStop .start ts) (lastStop .start ts))] :=
        stops_of_isEnd limit r rfl
      cases (leftParen_of_blames (blames_of_stop hs h) hd).2
  | cons item rest =>
      cases item with
      | error e =>
          obtain rfl : e = d := Except.error.inj h
          exact absurd hd (hi e (by simp))
      | ok t =>
          obtain ⟨hq, ht⟩ := leftParen_of_blames (blames_of_stop hs h) hd
          -- As deep as the limit because the run stops, and no deeper because it has got here.
          have hl : limit ≤ r.depth := Nat.le_of_not_gt fun hl =>
            hs _ (by rw [step_leftParen hq ht, if_neg (Nat.not_le.2 hl)])
          have hv : step limit r t = ⟨r.owed, .reject (t.tooDeep limit)⟩ := by
            rw [step_leftParen hq ht, if_pos hl]
          have hr : r.depth = limit := Nat.le_antisymm (p.depth_le (Nat.zero_le _)) hl
          refine ⟨ts, t, rest, rfl, ?_, ht, ?_, ?_⟩
          · simpa only [traceFrom, hv, Except.error.injEq, eq_comm] using h
          · rw [p.count_leftParen_start, hr]
          · rintro us u vs rfl hu
            exact Nat.ne_of_lt (p.count_lt_of_leftParen hu)

end FindExpr.Recognizer

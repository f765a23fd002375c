import FindExpr.Proofs.Recognizer.Acceptance
import FindExpr.TokenStream

namespace FindExpr.Recognizer

/-- What a source answers when it is asked for its next item, time after time. -/
abbrev Source := Nat → Option Item

namespace Source

def ofItems (items : List Item) : Source := fun i => items[i]?

def item (source : Source) (n : Nat) (place : Position) : Item :=
  (source n).getD (.ok (.endOfInput place place))

end Source

variable {σ : Type}

/-- From a state behind `n` items the run asks for items until it has asked for `k`, and ends. -/
inductive RunsOver (limit : Nat) (h : Handler σ) (source : Source) :
    State → Position → Nat → σ → Nat → σ → Except Diagnostic Unit → Prop
  | ends {q place n s s' result}
      (ht : turn limit h q s (source.item n place) = .ends s' result) :
      RunsOver limit h source q place n s (n + 1) s' result
  | goesOn {q place n s r stop m k s' result}
      (ht : turn limit h q s (source.item n place) = .goesOn r stop m)
      (hr : RunsOver limit h source r stop (n + 1) m k s' result) :
      RunsOver limit h source q place n s k s' result

variable {limit : Nat} {h : Handler σ} {source source' : Source} {q r : State}
  {place stop : Position} {n k k' : Nat} {s s' s'' m : σ} {result result' : Except Diagnostic Unit}
  {item : Item} {unread : List Item}

theorem RunsOver.lt (hr : RunsOver limit h source q place n s k s' result) : n < k := by
  induction hr with
  | ends => exact Nat.lt_succ_self _
  | goesOn _ _ ih => exact Nat.lt_of_succ_lt ih

theorem RunsOver.deterministic (hr : RunsOver limit h source q place n s k s' result)
    (hr' : RunsOver limit h source q place n s k' s'' result') :
    k' = k ∧ s'' = s' ∧ result' = result := by
  induction hr with
  | ends ht =>
      cases hr' with
      | ends ht' =>
          obtain ⟨rfl, rfl⟩ := Turn.ends.inj (ht.symm.trans ht')
          exact ⟨rfl, rfl, rfl⟩
      | goesOn ht' => cases ht.symm.trans ht'
  | goesOn ht _ ih =>
      cases hr' with
      | ends ht' => cases ht.symm.trans ht'
      | goesOn ht' hr' =>
          obtain ⟨rfl, rfl, rfl⟩ := Turn.goesOn.inj (ht.symm.trans ht')
          exact ih hr'

theorem RunsOver.congr (hr : RunsOver limit h source q place n s k s' result)
    (hs : ∀ i < k, source' i = source i) : RunsOver limit h source' q place n s k s' result := by
  induction hr with
  | ends ht => exact .ends (by rwa [Source.item, hs _ (Nat.lt_succ_self _)])
  | goesOn ht hr ih =>
      have hn := Nat.lt_of_succ_lt hr.lt
      exact .goesOn (by rwa [Source.item, hs _ hn]) (ih hs)

theorem turn_endOfInput_ne_goesOn (limit : Nat) (h : Handler σ) (q : State) (s : σ)
    (place : Position) : turn limit h q s (.ok (.endOfInput place place)) ≠ .goesOn r stop m := by
  intro ht
  obtain ⟨t, hi, -, -, hv⟩ := exists_token_of_goesOn ht
  obtain rfl := Except.ok.inj hi
  have hn : Stops limit q [.ok (.endOfInput place place)] := stops_of_isEnd limit q rfl
  exact hn r (congrArg Step.verdict hv)

theorem exists_runsOver_runFrom (limit : Nat) (h : Handler σ) (q : State) (place : Position) (s : σ)
    (items : List Item) (hs : ∀ i, source (n + i) = items[i]?) :
    ∃ k, RunsOver limit h source q place n s (n + k) (runFrom limit h q place items s).state
        (runFrom limit h q place items s).result ∧
      (runFrom limit h q place items s).unread = items.drop k := by
  induction items generalizing q place n s with
  | nil =>
      have hi : source.item n place = .ok (.endOfInput place place) := by
        rw [Source.item, ← Nat.add_zero n, hs]
        rfl
      rw [runFrom_nil]
      cases ht : turn limit h q s (.ok (.endOfInput place place)) with
      | ends s' result => exact ⟨1, .ends (by rwa [hi]), rfl⟩
      | goesOn r stop m => exact absurd ht (turn_endOfInput_ne_goesOn limit h q s place)
  | cons item items ih =>
      have hi : source.item n place = item := by
        rw [Source.item, ← Nat.add_zero n, hs]
        rfl
      rw [runFrom_cons]
      cases ht : turn limit h q s item with
      | ends s' result => exact ⟨1, .ends (by rwa [hi]), rfl⟩
      | goesOn r stop m =>
          have hs' (i : Nat) : source (n + 1 + i) = items[i]? := by
            rw [Nat.add_assoc, Nat.add_comm 1, hs]
            rfl
          obtain ⟨k, hr, hu⟩ := ih r stop m hs'
          rw [Nat.add_assoc, Nat.add_comm 1] at hr
          exact ⟨k + 1, .goesOn (by rwa [hi]) hr, hu⟩

/-- Every list of items is run over, and what its run has not looked at it has not asked for. -/
theorem exists_runsOver (limit : Nat) (h : Handler σ) (items : List Item) (s : σ) :
    ∃ k, RunsOver limit h (.ofItems items) .start .start 0 s k (run limit h items s).state
        (run limit h items s).result ∧
      (run limit h items s).unread = items.drop k := by
  have hs (i : Nat) : Source.ofItems items (0 + i) = items[i]? := by
    rw [Nat.zero_add]
    rfl
  obtain ⟨k, hr, hu⟩ := exists_runsOver_runFrom limit h .start .start s items hs
  rw [Nat.zero_add] at hr
  exact ⟨k, hr, hu⟩

theorem RunsOver.run_eq {items : List Item}
    (hr : RunsOver limit h (.ofItems items) .start .start 0 s k s' result) :
    run limit h items s = ⟨s', result, items.drop k⟩ := by
  obtain ⟨k', hr', hu⟩ := exists_runsOver limit h items s
  obtain ⟨rfl, hs, hd⟩ := hr.deterministic hr'
  rw [← hs, ← hd, ← hu]

/-- A run through a token stream looks at the current token and consumes it where it goes on. -/
inductive RunsThrough (limit : Nat) (h : Handler σ) :
    State → TokenStream → σ → TokenStream → σ → Except Diagnostic Unit → Prop
  | ends {q stream s s' result}
      (ht : turn limit h q s stream.current.1 = .ends s' result) :
      RunsThrough limit h q stream s stream.current.2 s' result
  | goesOn {q stream s r place m stream' s' result}
      (ht : turn limit h q s stream.current.1 = .goesOn r place m)
      (hr : RunsThrough limit h r stream.current.2.advance.2 m stream' s' result) :
      RunsThrough limit h q stream s stream' s' result

theorem RunsThrough.deterministic {stream out out' : TokenStream}
    (hr : RunsThrough limit h q stream s out s' result)
    (hr' : RunsThrough limit h q stream s out' s'' result') :
    out' = out ∧ s'' = s' ∧ result' = result := by
  induction hr with
  | ends ht =>
      cases hr' with
      | ends ht' =>
          obtain ⟨rfl, rfl⟩ := Turn.ends.inj (ht.symm.trans ht')
          exact ⟨rfl, rfl, rfl⟩
      | goesOn ht' => cases ht.symm.trans ht'
  | goesOn ht _ ih =>
      cases hr' with
      | ends ht' => cases ht.symm.trans ht'
      | goesOn ht' hr' =>
          obtain ⟨rfl, -, rfl⟩ := Turn.goesOn.inj (ht.symm.trans ht')
          exact ih hr'

theorem exists_runsThrough_runFrom (limit : Nat) (h : Handler σ) (q : State) (place : Position)
    (s : σ) (items : List Item) :
    ∃ out, RunsThrough limit h q ⟨items, none, place⟩ s out
        (runFrom limit h q place items s).state (runFrom limit h q place items s).result ∧
      out.pending = (runFrom limit h q place items s).unread := by
  induction items generalizing q place s with
  | nil =>
      rw [runFrom_nil]
      cases ht : turn limit h q s (.ok (.endOfInput place place)) with
      | ends s' result => exact ⟨_, .ends ht, rfl⟩
      | goesOn r stop m => exact absurd ht (turn_endOfInput_ne_goesOn limit h q s place)
  | cons item items ih =>
      -- There is no lookahead behind a token that has been consumed, so the next item is taken.
      have hc : (⟨item :: items, none, place⟩ : TokenStream).current.1 = item ∧
          (⟨item :: items, none, place⟩ : TokenStream).current.2.pending = items := by
        cases item <;> exact ⟨rfl, rfl⟩
      rw [runFrom_cons]
      cases ht : turn limit h q s item with
      | ends s' result => exact ⟨_, .ends (by rw [hc.1, ht]), hc.2⟩
      | goesOn r stop m =>
          obtain ⟨t, rfl, rfl, -⟩ := exists_token_of_goesOn ht
          obtain ⟨out, hr, hp⟩ := ih r t.stop m
          exact ⟨out, .goesOn ht hr, hp⟩

/-- The run over a list of items is the run through its token stream, and the stream has taken no
other items from the list than those that the run looks at. -/
theorem runsThrough_iff_run {items : List Item} :
    (∃ out, RunsThrough limit h .start (.ofItems items) s out s' result ∧ out.pending = unread) ↔
      run limit h items s = ⟨s', result, unread⟩ := by
  obtain ⟨out, hr, hp⟩ := exists_runsThrough_runFrom limit h .start .start s items
  constructor
  · rintro ⟨out', hr', rfl⟩
    obtain ⟨rfl, hs, hd⟩ := hr.deterministic hr'
    rw [hs, hd, hp]
    rfl
  · intro he
    rw [← run, he] at hr hp
    exact ⟨out, hr, hp⟩

end FindExpr.Recognizer

import FindExpr.Proofs.Diagnostic
import FindExpr.Recognizer.Run

namespace FindExpr

def Literal.erase (l : Literal) : Literal := ⟨l.value, l.quote, .start, .start⟩

def Token.erase (t : Token) : Token :=
  if t.kind = .literal then ⟨.literal, t.value, t.quote, .start, .start⟩
  else ⟨t.kind, "", none, .start, .start⟩

def Cause.erase : Cause → Cause
  | unexpectedToken expected _ => unexpectedToken expected ""
  | trailingInput _ => trailingInput ""
  | c => c

def Diagnostic.erase (d : Diagnostic) : Diagnostic := .on .start "" d.cause.erase

def Event.erase : Event → Event
  | selectField name => selectField name.erase
  | filter omits _ => filter omits .start
  | connective op _ => connective op .start
  | groupStart _ => groupStart .start
  | groupEnd _ => groupEnd .start
  | comparison field op value => comparison field.erase op value.erase
  | sortKey field direction => sortKey field.erase direction
  | limit count => limit count.erase
  | offset count => offset count.erase
  | e => e

def eraseItem : Item → Item
  | .ok t => .ok t.erase
  | .error d => .error d.erase

@[simp] theorem Literal.erase_erase (l : Literal) : l.erase.erase = l.erase := rfl

namespace Token

variable {t : Token}

@[simp] theorem kind_erase (t : Token) : t.erase.kind = t.kind := by
  unfold erase
  split
  · next h => exact h.symm
  · rfl

@[simp] theorem isEnd_erase (t : Token) : t.erase.isEnd = t.isEnd := by
  rw [isEnd, kind_erase, isEnd]

@[simp] theorem start_erase (t : Token) : t.erase.start = .start := by
  unfold erase
  split <;> rfl

@[simp] theorem erase_erase (t : Token) : t.erase.erase = t.erase := by
  by_cases h : t.kind = .literal <;> simp [erase, h]

theorem literal_erase (h : t.kind = .literal) : t.erase.literal = t.literal.erase := by
  simp [erase, h, literal, Literal.erase]

theorem erase_unexpected (t : Token) (expected : List TokenKind) :
    (t.erase.unexpected expected).erase = (t.unexpected expected).erase := by
  have hc (t : Token) : (t.unexpected expected).cause.erase =
      if t.isEnd then .unexpectedEnd (expected.map TokenKind.display)
      else .unexpectedToken (expected.map TokenKind.display) "" := by
    unfold unexpected
    split
    · rfl
    · dsimp only
      split <;> simp [Cause.erase]
  rw [Diagnostic.erase, hc, isEnd_erase, ← hc, Diagnostic.erase]

theorem erase_trailing (t : Token) : t.erase.trailing.erase = t.trailing.erase := by
  have hc (t : Token) : t.trailing.cause.erase = .trailingInput "" := by
    unfold trailing
    dsimp only
    split <;> simp [Cause.erase]
  rw [Diagnostic.erase, hc, ← hc t, Diagnostic.erase]

theorem erase_tooDeep (t : Token) (limit : Nat) :
    (t.erase.tooDeep limit).erase = (t.tooDeep limit).erase := by
  simp [tooDeep, Diagnostic.erase]

end Token

@[simp] theorem Diagnostic.erase_help (d : Diagnostic) (message : String) :
    (d.help message).erase = d.erase := rfl

@[simp] theorem Diagnostic.erase_noteAt (d : Diagnostic) (message : String) (place : Position) :
    (d.noteAt message place).erase = d.erase := rfl

namespace Recognizer

def State.erase : State → State
  | afterWhere _ => afterWhere .start
  | expectTerm opened => expectTerm (opened.map Token.erase)
  | expectComparator field opened => expectComparator field.erase (opened.map Token.erase)
  | expectValue field op opened => expectValue field.erase op (opened.map Token.erase)
  | afterTerm opened => afterTerm (opened.map Token.erase)
  | afterSortField field => afterSortField field.erase
  | q => q

def Verdict.erase : Verdict → Verdict
  | .continue q => .continue q.erase
  | .accept => .accept
  | .reject d => .reject d.erase

def Step.erase (s : Step) : Step := ⟨s.events.map Event.erase, s.verdict.erase⟩

variable {limit : Nat} {t : Token} {opened : List Token}

theorem Step.erase_precededBy (s : Step) (events : List Event) :
    (s.precededBy events).erase = s.erase.precededBy (events.map Event.erase) := by
  simp [precededBy, erase]

theorem erase_enter (k : Keyword) (t : Token) : (enter k t.erase).erase = (enter k t).erase := by
  cases k <;>
    simp [enter, Step.erase, Step.silent, Step.reject, Verdict.erase, State.erase, t.erase_trailing]

theorem erase_betweenClauses (allowed : List Keyword) (t : Token) :
    (betweenClauses allowed t.erase).erase = (betweenClauses allowed t).erase := by
  unfold betweenClauses
  rw [Token.kind_erase]
  split
  · rfl
  · split
    · exact erase_enter _ t
    · simp [Step.erase, Step.reject, Verdict.erase, t.erase_trailing]
  · simp [Step.erase, Step.reject, Verdict.erase, t.erase_trailing]

theorem erase_withLiteral {k k' : Literal → Step} (hk : ∀ l, (k' l.erase).erase = (k l).erase)
    (t : Token) : (withLiteral t.erase k').erase = (withLiteral t k).erase := by
  unfold withLiteral
  rw [Token.kind_erase]
  split
  · next h => rw [Token.literal_erase h, hk]
  · simp [Step.erase, Step.reject, Verdict.erase, t.erase_unexpected]

theorem erase_beginTerm (limit : Nat) (opened : List Token) (t : Token) :
    (beginTerm limit (opened.map Token.erase) t.erase).erase =
      (beginTerm limit opened t).erase := by
  unfold beginTerm
  rw [Token.kind_erase, List.length_map]
  split
  · next h =>
      simp [Step.erase, Step.silent, Verdict.erase, State.erase, Token.literal_erase h]
  · split
    · split
      · simp [Step.erase, Step.reject, Verdict.erase, t.erase_tooDeep]
      · simp [Step.erase, Verdict.erase, State.erase, Event.erase]
    · simp [Step.erase, Step.reject, Verdict.erase, t.erase_unexpected]

theorem erase_readComparator (field : Literal) (opened : List Token) (t : Token) :
    (readComparator field.erase (opened.map Token.erase) t.erase).erase =
      (readComparator field opened t).erase := by
  unfold readComparator
  rw [Token.kind_erase]
  split
  · simp [Step.erase, Step.silent, Verdict.erase, State.erase]
  · dsimp only
    split <;> simp [Step.erase, Step.reject, Verdict.erase, t.erase_unexpected]

theorem erase_endCondition (opened : List Token) (t : Token) :
    (endCondition (opened.map Token.erase) t.erase).erase = (endCondition opened t).erase := by
  cases opened with
  | nil => exact erase_betweenClauses _ t
  | cons paren outer =>
      rw [List.map_cons, endCondition, endCondition, Token.kind_erase]
      split
      · simp [Step.erase, Verdict.erase, State.erase, Event.erase]
      · simp [Step.erase, Step.reject, Verdict.erase, t.erase_unexpected]

theorem erase_continueCondition (opened : List Token) (t : Token) :
    (continueCondition (opened.map Token.erase) t.erase).erase =
      (continueCondition opened t).erase := by
  unfold continueCondition
  rw [Token.kind_erase]
  split
  · simp [Step.erase, Verdict.erase, State.erase, Event.erase]
  · split
    · simp [Step.erase, Verdict.erase, State.erase, Event.erase]
    · rw [Step.erase_precededBy, Step.erase_precededBy, erase_endCondition]

theorem erase_continueSort (t : Token) : (continueSort t.erase).erase = (continueSort t).erase := by
  unfold continueSort
  rw [Token.kind_erase]
  split
  · rfl
  · exact erase_betweenClauses _ t

theorem erase_step (limit : Nat) (q : State) (t : Token) :
    (step limit q.erase t.erase).erase = (step limit q t).erase := by
  cases q with
  | start | afterLimit | afterOffset => exact erase_betweenClauses _ t
  | expectField | expectValue | expectSortField | expectLimit | expectOffset =>
      refine erase_withLiteral (fun l => ?_) t
      simp [Step.erase, Step.silent, Verdict.erase, State.erase, Event.erase]
  | afterField =>
      simp only [State.erase, step, Token.kind_erase]
      split
      · rfl
      · exact erase_betweenClauses _ t
  | afterWhere place =>
      simp only [State.erase, step, Token.kind_erase]
      split
      · rfl
      · rw [Step.erase_precededBy, Step.erase_precededBy, ← erase_beginTerm limit [] t]
        rfl
  | expectTerm opened => exact erase_beginTerm limit opened t
  | expectComparator field opened => exact erase_readComparator field opened t
  | afterTerm opened => exact erase_continueCondition opened t
  | afterSortField field =>
      simp only [State.erase, step, Token.kind_erase]
      split
      · rfl
      · rw [Step.erase_precededBy, Step.erase_precededBy, erase_continueSort]
        rfl
  | afterSortKey => exact erase_continueSort t

/-- A handler that looks at literals and connectives alone. -/
def Blind {σ : Type} (h : Handler σ) : Prop :=
  ∀ e s, (h e.erase s).1 = (h e s).1 ∧
    (h e.erase s).2.map Diagnostic.erase = (h e s).2.map Diagnostic.erase

variable {σ : Type} {h : Handler σ} {q r : State} {u : Token} {items items' : List Item}

theorem tell_erase (hh : Blind h) (es : List Event) (s : σ) :
    (tell h (es.map Event.erase) s).1 = (tell h es s).1 ∧
      (tell h (es.map Event.erase) s).2.map Diagnostic.erase =
        (tell h es s).2.map Diagnostic.erase := by
  induction es generalizing s with
  | nil => exact ⟨rfl, rfl⟩
  | cons e es ih =>
      obtain ⟨hs, hd⟩ := hh e s
      rw [List.map_cons, tell, tell]
      rcases h₁ : h e.erase s with ⟨s₁, _ | d₁⟩ <;> rcases h₂ : h e s with ⟨s₂, _ | d₂⟩ <;>
        simp only [h₁, h₂] at hs hd <;> subst hs
      · exact ih s₁
      · cases hd
      · cases hd
      · exact ⟨rfl, hd⟩

theorem tell_of_erase_eq (hh : Blind h) {es fs : List Event}
    (he : es.map Event.erase = fs.map Event.erase) (s : σ) :
    (∃ s', tell h es s = (s', none) ∧ tell h fs s = (s', none)) ∨
      ∃ s' d d', tell h es s = (s', some d) ∧ tell h fs s = (s', some d') ∧
        d.erase = d'.erase := by
  obtain ⟨hs, hd⟩ := tell_erase hh es s
  obtain ⟨hs', hd'⟩ := tell_erase hh fs s
  rw [he] at hs hd
  replace hs := hs.symm.trans hs'
  replace hd := hd.symm.trans hd'
  rcases h₁ : tell h es s with ⟨s₁, _ | d₁⟩ <;> rcases h₂ : tell h fs s with ⟨s₂, _ | d₂⟩ <;>
    simp only [h₁, h₂] at hs hd <;> subst hs
  · exact .inl ⟨s₁, rfl, rfl⟩
  · cases hd
  · cases hd
  · exact .inr ⟨s₁, d₁, d₂, rfl, rfl, Option.some.inj hd⟩

theorem step_of_erase_eq (limit : Nat) (hq : q.erase = r.erase) (ht : t.erase = u.erase) :
    (step limit q t).events.map Event.erase = (step limit r u).events.map Event.erase ∧
      (step limit q t).verdict.erase = (step limit r u).verdict.erase := by
  have hs : (step limit q t).erase = (step limit r u).erase := by
    rw [← erase_step, hq, ht, erase_step]
  exact ⟨congrArg Step.events hs, congrArg Step.verdict hs⟩

end Recognizer

def eraseResult : Except Diagnostic Unit → Except Diagnostic Unit
  | .ok u => .ok u
  | .error d => .error d.erase

def Outcome.erase {σ : Type} (o : Outcome σ) : Outcome σ :=
  ⟨o.state, eraseResult o.result, o.unread.map eraseItem⟩

namespace Recognizer

variable {σ : Type} {h : Handler σ} {limit : Nat} {q r : State} {items items' : List Item}

theorem turn_of_erase_eq (limit : Nat) (hh : Blind h) (hq : q.erase = r.erase)
    {item item' : Item} (hi : eraseItem item = eraseItem item') (s : σ) :
    (∃ s' result result', turn limit h q s item = .ends s' result ∧
        turn limit h r s item' = .ends s' result' ∧ eraseResult result = eraseResult result') ∨
      ∃ q' r' place place' s', turn limit h q s item = .goesOn q' place s' ∧
        turn limit h r s item' = .goesOn r' place' s' ∧ q'.erase = r'.erase := by
  cases item with
  | error d =>
      cases item' with
      | error d' => exact .inl ⟨s, _, _, rfl, rfl, congrArg Except.error (Except.error.inj hi)⟩
      | ok t' => cases hi
  | ok t =>
      cases item' with
      | error d' => cases hi
      | ok t' =>
          obtain ⟨he, hv⟩ := step_of_erase_eq limit hq (Except.ok.inj hi)
          rw [turn_token, turn_token]
          rcases tell_of_erase_eq hh he s with ⟨s', h₁, h₂⟩ | ⟨s', d, d', h₁, h₂, hd⟩
          · simp only [h₁, h₂]
            cases h₃ : (step limit q t).verdict <;> cases h₄ : (step limit r t').verdict <;>
              simp only [h₃, h₄, Verdict.erase, reduceCtorEq] at hv
            · exact .inr ⟨_, _, _, _, s', rfl, rfl, Verdict.continue.inj hv⟩
            · exact .inl ⟨s', _, _, rfl, rfl, rfl⟩
            · exact .inl ⟨s', _, _, rfl, rfl, congrArg Except.error (Verdict.reject.inj hv)⟩
          · simp only [h₁, h₂]
            exact .inl ⟨s', _, _, rfl, rfl, congrArg Except.error hd⟩

/-- Runs over items of which the same is left do the same, up to the item at which they end. -/
theorem runFrom_of_erase_eq (hh : Blind h) (hq : q.erase = r.erase)
    (hi : items.map eraseItem = items'.map eraseItem) (place place' : Position) (s : σ) :
    (runFrom limit h q place items s).erase = (runFrom limit h r place' items' s).erase := by
  induction items generalizing items' q r place place' s with
  | nil =>
      rw [List.map_nil, eq_comm, List.map_eq_nil_iff] at hi
      subst hi
      have he : eraseItem (.ok (.endOfInput place place)) =
          eraseItem (.ok (.endOfInput place' place')) := rfl
      rw [runFrom_nil, runFrom_nil]
      rcases turn_of_erase_eq limit hh hq he s with
        ⟨s', result, result', h₁, h₂, hr⟩ | ⟨_, _, _, _, s', h₁, h₂, -⟩
      · simp only [h₁, h₂, Outcome.erase, hr]
      · simp only [h₁, h₂]
  | cons item items ih =>
      cases items' with
      | nil => cases hi
      | cons item' items' =>
          obtain ⟨hx, hu⟩ := List.cons.inj hi
          rw [runFrom_cons, runFrom_cons]
          rcases turn_of_erase_eq limit hh hq hx s with
            ⟨s', result, result', h₁, h₂, hr⟩ | ⟨_, _, _, _, s', h₁, h₂, hn⟩
          · simp only [h₁, h₂, Outcome.erase, hr, hu]
          · simp only [h₁, h₂]
            exact ih hn hu _ _ s'

end Recognizer

end FindExpr

import FindExpr.Proofs.Recognizer.Clauses
import FindExpr.Proofs.Recognizer.FirstError
import FindExpr.Proofs.Recognizer.Handlers
import FindExpr.Proofs.Recognizer.Owed
import FindExpr.Proofs.Recognizer.Places

namespace FindExpr.Recognizer

open Grammar

variable {limit : Nat} {q r : State} {place : Position} {ts : List Token} {es : List Event}
  {items rest : List Item} {e : Diagnostic}

theorem Path.trace_end (p : Path limit .start ts es r) :
    let place := lastStop .start ts
    trace limit (ts.map .ok) = trace limit (ts.map .ok ++ [.ok (.endOfInput place place)]) := by
  intro place
  have hp := traceFrom_append p .start []
  rw [List.append_nil] at hp
  rw [trace, trace, hp, traceFrom_append p, traceFrom_nil]

theorem trace_of_sentence (d : Derivation (.rule .query)) (h : Sentence limit (kinds d.tokens)) :
    trace limit (d.tokens.map .ok) = ⟨d.events, .ok (), []⟩ := by
  obtain ⟨es, r, p⟩ := path_of_sentence h
  rw [p.trace_end, trace_of_derivation d h rfl]

theorem exists_derivation_of_accepted (h : (trace limit items).result = .ok ()) :
    ∃ d : Derivation (.rule .query), tokensBeforeEnd items = some d.tokens ∧
      (trace limit items).state = d.events := by
  obtain ⟨ts, rest, rfl, hw, hts, hr⟩ := exists_of_accepted h
  obtain ⟨d, rfl⟩ := Derivation.exists_iff_derives.2 hw.derives
  refine ⟨d, ?_⟩
  rw [tokensBeforeEnd_append hts]
  rcases hr with rfl | ⟨t, unread, rfl, ht⟩
  · rw [List.append_nil, trace_of_sentence d hw]
    simp [tokensBeforeEnd]
  · rw [trace_of_derivation d hw ht]
    simp [tokensBeforeEnd, ht]

def unplaced (w : List TokenKind) : List Token := w.map fun k => ⟨k, "", none, .start, .start⟩

theorem kinds_unplaced (w : List TokenKind) : kinds (unplaced w) = w := by
  simp [kinds, unplaced, Function.comp_def]

/-- The diagnostic is the item behind `before` or about the token there, which is one at the end of
the input if there is no item. -/
def Offends (limit : Nat) (before : List Token) (d : Diagnostic) : List Item → Prop
  | [] =>
    let place := lastStop .start before
    SyntaxError limit (kinds before) (.endOfInput place place) d
  | .ok t :: _ => SyntaxError limit (kinds before) t d
  | .error e :: _ => d = e

theorem Path.offends (p : Path limit .start ts es r) (hs : Stops limit r rest)
    (he : (traceFrom limit r (lastStop .start ts) rest).result = .error e) :
    Offends limit ts e rest := by
  cases rest with
  | nil =>
      rw [traceFrom_nil] at he
      have hs : Stops limit r [.ok (.endOfInput (lastStop .start ts) (lastStop .start ts))] :=
        stops_of_isEnd limit r rfl
      exact p.syntaxError hs (blames_of_stop hs he)
  | cons item rest =>
      cases item with
      | error d => exact (Except.error.inj he).symm
      | ok t => exact p.syntaxError hs (blames_of_stop hs he)

/-- What has been told where a run is rejected can be gone on with to the events of a derivation,
which begins with the tokens before the one that does not fit. -/
theorem exists_derivation_of_rejected (h : (trace limit items).result = .error e) :
    ∃ (before : List Token) (rest : List Item) (d : Derivation (.rule .query)),
      items = before.map .ok ++ rest ∧ Offends limit before e rest ∧
      Sentence limit (kinds d.tokens) ∧ before <+: d.tokens ∧
      (trace limit items).state <+: d.events := by
  obtain ⟨ts, es, r, rest, rfl, p, hs⟩ := exists_stop limit .start items
  -- The path up to the item is gone on with by the shortest completion of its state, and what has
  -- been told behind the path is told on that way, too.
  have hc := kinds_unplaced r.completion
  have hw := p.sentence_completion
  rw [← hc, ← kinds_append] at hw
  obtain ⟨d, hd⟩ := Derivation.exists_iff_derives.2 hw.derives
  rw [← hd] at hw
  have ht := trace_of_sentence d hw
  rw [hd, List.map_append, trace, traceFrom_append p] at ht
  rw [trace, traceFrom_append p] at h
  have he : es ++ _ = d.events := congrArg Outcome.state ht
  refine ⟨ts, rest, d, rfl, p.offends hs h, hw, hd ▸ List.prefix_append .., ?_⟩
  rw [← he]
  exact (state_prefix_of_stop p hs).trans
    ((List.prefix_append_right_inj es).2 (owed_prefix_traceFrom hc _))

/-- The events of a run in order: those of the only derivation of an accepted source, or the first
ones of a derivation that begins with the tokens in front of the item at which a source is
rejected. In a source text their places only move on. -/
theorem events_linearize (limit : Nat) (items : List Item) :
    let told := run limit record items []
    (told.result = .ok () → ∃ d : Derivation (.rule .query),
      tokensBeforeEnd items = some d.tokens ∧
      (∀ d' : Derivation (.rule .query), d'.tokens = d.tokens → d' = d) ∧
      told.state = d.events) ∧
    (∀ e, told.result = .error e →
      ∃ (before : List Token) (rest : List Item) (d : Derivation (.rule .query)),
        items = before.map .ok ++ rest ∧ Offends limit before e rest ∧
        run limit record (d.tokens.map .ok) [] = ⟨d.events, .ok (), []⟩ ∧
        before <+: d.tokens ∧ told.state <+: d.events) ∧
    ∀ source, items = tokenize source →
      (told.state.flatMap Event.places).Pairwise fun p q => p.precedes q = true := by
  simp only [run_record]
  refine ⟨fun h => ?_, fun e h => ?_, ?_⟩
  · obtain ⟨d, ht, hd⟩ := exists_derivation_of_accepted h
    exact ⟨d, ht, fun d' hd' => Derivation.eq_of_tokens d' d hd', hd⟩
  · obtain ⟨before, rest, d, hi, ho, hw, hb, hp⟩ := exists_derivation_of_rejected h
    exact ⟨before, rest, d, hi, ho, trace_of_sentence d hw, hb, hp⟩
  · rintro source rfl
    exact places_increase limit source

end FindExpr.Recognizer

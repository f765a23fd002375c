import FindExpr.Proofs.Recognizer.Path

namespace FindExpr.Recognizer

open Grammar

variable {σ : Type} {h : Handler σ} {s s' : σ} {limit : Nat} {q r : State} {place : Position}
  {item : Item} {items rest : List Item} {ts : List Token} {es fs : List Event} {d : Diagnostic}

/-- The run whose handler accepts all events. Its state is the events told. -/
def traceFrom (limit : Nat) : State → Position → List Item → Outcome (List Event)
  | q, place, [] =>
    let last := step limit q (.endOfInput place place)
    match last.verdict with
    | .reject d => ⟨last.events, .error d, []⟩
    | _ => ⟨last.events, .ok (), []⟩
  | _, _, .error d :: unread => ⟨[], .error d, unread⟩
  | q, _, .ok t :: unread =>
    let next := step limit q t
    match next.verdict with
    | .continue q =>
      let o := traceFrom limit q t.stop unread
      { o with state := next.events ++ o.state }
    | .accept => ⟨next.events, .ok (), unread⟩
    | .reject d => ⟨next.events, .error d, unread⟩

def trace (limit : Nat) (items : List Item) : Outcome (List Event) :=
  traceFrom limit .start .start items

theorem exists_token_of_goesOn (ht : turn limit h q s item = .goesOn r place s') :
    ∃ t, item = .ok t ∧ place = t.stop ∧ tell h (step limit q t).events s = (s', none) ∧
      step limit q t = ⟨(step limit q t).events, .continue r⟩ := by
  cases item with
  | error d => cases ht
  | ok t =>
      rw [turn_token] at ht
      rcases he : tell h (step limit q t).events s with ⟨m', _ | d'⟩
      · cases hv : (step limit q t).verdict with
        | accept | reject => simp [he, hv] at ht
        | «continue» r' =>
            obtain ⟨rfl, rfl, rfl⟩ : r' = r ∧ t.stop = place ∧ m' = s' := by simpa [he, hv] using ht
            exact ⟨t, rfl, rfl, he, by rw [← hv]⟩
      · simp [he] at ht

theorem tell_cons_of_accepted {e : Event} (he : h e s = (s', none)) (es : List Event) :
    tell h (e :: es) s = tell h es s' := by
  rw [tell, he]

theorem tell_append (es fs : List Event) (s : σ) :
    tell h (es ++ fs) s =
      match tell h es s with
      | (s, none) => tell h fs s
      | (s, some d) => (s, some d) := by
  induction es generalizing s with
  | nil => rfl
  | cons e es ih =>
      simp only [List.cons_append, tell]
      rcases h e s with ⟨s, _ | d⟩
      · exact ih s
      · rfl

theorem tell_append_of_accepted (he : tell h es s = (s', none)) (fs : List Event) :
    tell h (es ++ fs) s = tell h fs s' := by
  rw [tell_append, he]

theorem tell_append_of_rejected (he : tell h es s = (s', some d)) (fs : List Event) :
    tell h (es ++ fs) s = (s', some d) := by
  rw [tell_append, he]

theorem accepted_of_append (he : tell h (es ++ fs) s = (s', none)) :
    ∃ m, tell h es s = (m, none) ∧ tell h fs m = (s', none) := by
  rw [tell_append] at he
  rcases hes : tell h es s with ⟨m, _ | d⟩
  · exact ⟨m, rfl, by simpa only [hes] using he⟩
  · simp [hes] at he

theorem runFrom_of_accepted (ha : tell h (traceFrom limit q place items).state s = (s', none)) :
    runFrom limit h q place items s =
      { traceFrom limit q place items with state := s' } := by
  induction items generalizing q place s with
  | nil =>
      simp only [traceFrom, runFrom_nil, turn_token] at ha ⊢
      cases hv : (step limit q (.endOfInput place place)).verdict <;> simp_all
  | cons item items ih =>
      cases item with
      | error d =>
          cases ha
          rfl
      | ok t =>
          simp only [traceFrom, runFrom_cons, turn_token] at ha ⊢
          cases hv : (step limit q t).verdict with
          | accept | reject => simp_all
          | «continue» r =>
              simp only [hv] at ha ⊢
              obtain ⟨m, hm, hr⟩ := accepted_of_append ha
              simp only [hm, ih hr]

theorem runFrom_of_rejected (ha : tell h (traceFrom limit q place items).state s = (s', some d)) :
    (runFrom limit h q place items s).state = s' ∧
      (runFrom limit h q place items s).result = .error d := by
  induction items generalizing q place s with
  | nil =>
      simp only [traceFrom, runFrom_nil, turn_token] at ha ⊢
      cases hv : (step limit q (.endOfInput place place)).verdict <;> simp_all
  | cons item items ih =>
      cases item with
      | error d => simp [traceFrom, tell] at ha
      | ok t =>
          simp only [traceFrom, runFrom_cons, turn_token] at ha ⊢
          cases hv : (step limit q t).verdict with
          | accept | reject => simp_all
          | «continue» r =>
              simp only [hv, tell_append] at ha ⊢
              rcases hm : tell h (step limit q t).events s with ⟨m, _ | d'⟩
              · simp only [hm] at ha ⊢
                exact ih ha
              · simpa [hm] using ha

theorem run_of_accepted (ha : tell h (trace limit items).state s = (s', none)) :
    run limit h items s = { trace limit items with state := s' } :=
  runFrom_of_accepted ha

theorem run_of_rejected (ha : tell h (trace limit items).state s = (s', some d)) :
    (run limit h items s).result = .error d :=
  (runFrom_of_rejected ha).2

theorem tell_ignore (es : List Event) : tell ignore es () = ((), none) := by
  induction es with
  | nil => rfl
  | cons e es ih => exact ih

theorem checkItems_eq : checkItems limit items = (trace limit items).result := by
  rw [checkItems, run_of_accepted (tell_ignore _)]

def lastStop (place : Position) (ts : List Token) : Position := ts.foldl (fun _ t => t.stop) place

theorem traceFrom_append (p : Path limit q ts es r) (place : Position) (rest : List Item) :
    traceFrom limit q place (ts.map .ok ++ rest) =
      let o := traceFrom limit r (lastStop place ts) rest
      { o with state := es ++ o.state } := by
  induction p generalizing place with
  | nil => rfl
  | @cons q t e r ts es s h _ ih =>
      simp only [List.map_cons, List.cons_append, traceFrom, h, ih t.stop, List.append_assoc]
      rfl

def Stops (limit : Nat) (q : State) : List Item → Prop
  | .ok t :: _ => ∀ r, (step limit q t).verdict ≠ .continue r
  | _ => True

theorem exists_stop (limit : Nat) (q : State) (items : List Item) :
    ∃ ts es r rest, items = ts.map .ok ++ rest ∧ Path limit q ts es r ∧ Stops limit r rest := by
  induction items generalizing q with
  | nil => exact ⟨[], [], q, [], rfl, .nil q, trivial⟩
  | cons item items ih =>
      cases item with
      | error d => exact ⟨[], [], q, _, rfl, .nil q, trivial⟩
      | ok t =>
          cases hv : (step limit q t).verdict with
          | accept | reject =>
              refine ⟨[], [], q, _, rfl, .nil q, ?_⟩
              intro r hr
              rw [hv] at hr
              cases hr
          | «continue» r =>
              obtain ⟨ts, es, r', rest, rfl, p, hs⟩ := ih r
              have ht : step limit q t = ⟨(step limit q t).events, .continue r⟩ := by rw [← hv]
              exact ⟨t :: ts, _, r', rest, rfl, .cons ht p, hs⟩

end FindExpr.Recognizer

import FindExpr.Proofs.Recognizer.Trace

namespace FindExpr

variable {σ τ : Type}

def Outcome.map (f : σ → τ) (o : Outcome σ) : Outcome τ := ⟨f o.state, o.result, o.unread⟩

namespace Recognizer

def record : Handler (List Event) := fun e told => (told ++ [e], none)

def logged (h : Handler σ) : Handler (σ × List Event) := fun e (s, told) =>
  (((h e s).1, told ++ [e]), (h e s).2)

inductive Accepts (h : Handler σ) : σ → List Event → σ → Prop
  | nil (s) : Accepts h s [] s
  | cons {s e m es s'} (he : h e s = (m, none)) (hs : Accepts h m es s') :
      Accepts h s (e :: es) s'

variable {h : Handler σ} {k : Handler τ} {f : σ → τ} {s s' : σ} {es : List Event} {d : Diagnostic}
  {limit : Nat}

theorem tell_eq_none_iff : tell h es s = (s', none) ↔ Accepts h s es s' := by
  constructor
  · intro ht
    induction es generalizing s with
    | nil =>
        obtain rfl : s = s' := congrArg Prod.fst ht
        exact .nil s
    | cons e es ih =>
        rw [tell] at ht
        rcases he : h e s with ⟨m, _ | d⟩
        · exact .cons he (ih (by simpa only [he] using ht))
        · simp [he] at ht
  · intro ha
    induction ha with
    | nil => rfl
    | cons he _ ih => exact (tell_cons_of_accepted he _).trans ih

theorem exists_of_rejected (ht : tell h es s = (s', some d)) :
    ∃ before e after m, es = before ++ e :: after ∧ Accepts h s before m ∧
      h e m = (s', some d) := by
  induction es generalizing s with
  | nil => simp [tell] at ht
  | cons e es ih =>
      rw [tell] at ht
      rcases he : h e s with ⟨m, _ | d'⟩
      · simp only [he] at ht
        obtain ⟨before, e', after, m', rfl, ha, hr⟩ := ih ht
        exact ⟨e :: before, e', after, m', rfl, .cons he ha, hr⟩
      · obtain ⟨rfl, hd⟩ : m = s' ∧ d' = d := by simpa [he] using ht
        exact ⟨[], e, es, s, rfl, .nil s, by rw [he, hd]⟩

theorem Accepts.logged (ha : Accepts h s es s') (told : List Event) :
    Accepts (logged h) (s, told) es (s', told ++ es) := by
  induction ha generalizing told with
  | nil s =>
      rw [List.append_nil]
      exact .nil _
  | @cons s e m es s' he _ ih =>
      rw [List.append_cons]
      exact .cons (by simp [Recognizer.logged, he]) (ih (told ++ [e]))

theorem tell_record (es told : List Event) : tell record es told = (told ++ es, none) := by
  induction es generalizing told with
  | nil => simp [tell]
  | cons e es ih => rw [tell_cons_of_accepted rfl, ih, List.append_assoc, List.singleton_append]

theorem run_record (items : List Item) : run limit record items [] = trace limit items := by
  rw [run_of_accepted (tell_record ..)]
  rfl

theorem tell_map (hf : ∀ e s, k e (f s) = (f (h e s).1, (h e s).2)) (es : List Event) (s : σ) :
    tell k es (f s) = (f (tell h es s).1, (tell h es s).2) := by
  induction es generalizing s with
  | nil => rfl
  | cons e es ih =>
      rw [tell, tell, hf]
      rcases h e s with ⟨m, _ | d⟩
      · exact ih m
      · rfl

def Turn.map (f : σ → τ) : Turn σ → Turn τ
  | ends s result => ends (f s) result
  | goesOn q place s => goesOn q place (f s)

theorem turn_map (hf : ∀ e s, k e (f s) = (f (h e s).1, (h e s).2)) (q : State) (s : σ)
    (item : Item) : turn limit k q (f s) item = (turn limit h q s item).map f := by
  cases item with
  | error d => rfl
  | ok t =>
      rw [turn_token, turn_token, tell_map hf]
      rcases tell h (step limit q t).events s with ⟨m, _ | d⟩
      · cases (step limit q t).verdict <;> rfl
      · rfl

theorem runFrom_map (hf : ∀ e s, k e (f s) = (f (h e s).1, (h e s).2)) (q : State)
    (place : Position) (items : List Item) (s : σ) :
    runFrom limit k q place items (f s) = (runFrom limit h q place items s).map f := by
  induction items generalizing q place s with
  | nil =>
      rw [runFrom_nil, runFrom_nil, turn_map hf]
      cases turn limit h q s (.ok (.endOfInput place place)) <;> rfl
  | cons item items ih =>
      rw [runFrom_cons, runFrom_cons, turn_map hf]
      cases turn limit h q s item with
      | ends s' result => rfl
      | goesOn r stop m => exact ih r stop m

theorem state_run (limit : Nat) (h : Handler σ) (items : List Item) (s : σ) :
    (run limit h items s).state = (tell h (trace limit items).state s).1 := by
  rcases ht : tell h (trace limit items).state s with ⟨s', _ | d⟩
  · rw [run_of_accepted ht]
  · exact (runFrom_of_rejected ht).1

theorem result_run (limit : Nat) (h : Handler σ) (items : List Item) (s : σ) :
    (run limit h items s).result =
      match (tell h (trace limit items).state s).2 with
      | some d => .error d
      | none => (trace limit items).result := by
  rcases ht : tell h (trace limit items).state s with ⟨s', _ | d⟩
  · rw [run_of_accepted ht]
  · exact run_of_rejected ht

/-- A handler can put an end to a run and do nothing else to it: either it accepts all events, which
are those any handler is told, and the run ends as it does without the handler, or the run ends with
what the handler says of the first event that it rejects, and tells no event behind that one. -/
theorem handler_only_aborts (limit : Nat) (items : List Item) (h : Handler σ) (s : σ) :
    let recorded := run limit record items []
    let outcome := run limit (logged h) items (s, [])
    run limit h items s = outcome.map Prod.fst ∧
      ((∃ s', Accepts h s recorded.state s' ∧
          outcome = ⟨(s', recorded.state), recorded.result, recorded.unread⟩) ∨
        ∃ before e after m s' d, recorded.state = before ++ e :: after ∧ Accepts h s before m ∧
          h e m = (s', some d) ∧ outcome.state = (s', before ++ [e]) ∧
          outcome.result = .error d) := by
  intro recorded outcome
  have hr : recorded = trace limit items := run_record items
  refine ⟨runFrom_map (f := Prod.fst) (fun _ _ => rfl) .start .start items (s, []), ?_⟩
  rcases ht : tell h recorded.state s with ⟨s', _ | d⟩
  · left
    have ha := tell_eq_none_iff.1 ht
    -- A log accepts what its handler accepts, and so the logged run ends as the trace does.
    have hl := tell_eq_none_iff.2 (ha.logged [])
    rw [hr] at hl ⊢
    exact ⟨s', hr ▸ ha, run_of_accepted hl⟩
  · right
    obtain ⟨before, e, after, m, he, ha, hm⟩ := exists_of_rejected ht
    have hl : tell (logged h) recorded.state (s, []) = ((s', before ++ [e]), some d) := by
      rw [he, tell_append_of_accepted (tell_eq_none_iff.2 (ha.logged [])), tell]
      simp [logged, hm]
    rw [hr] at hl
    obtain ⟨hs, hd⟩ := runFrom_of_rejected hl
    exact ⟨before, e, after, m, s', d, he, ha, hm, hs, hd⟩

end Recognizer

end FindExpr

import FindExpr.Proofs.Recognizer.Depth
import FindExpr.Proofs.Recognizer.Handlers
import FindExpr.Proofs.Recognizer.Limit

namespace FindExpr.Recognizer

open Grammar

/-- The counter behind an event. It moves right before the event is told. -/
def nest (depth : UInt64) : Event → UInt64
  | .groupStart _ => depth + 1
  | .groupEnd _ => depth - 1
  | _ => depth

def withCounter : UInt64 → List Event → List (Event × UInt64)
  | _, [] => []
  | depth, e :: es => (e, nest depth e) :: withCounter (nest depth e) es

section Nest

variable {limit depth n : UInt64} {r : Nat} {e : Event} {es : List Event}
  {before after : List (Event × UInt64)}

/-- The counter does not wrap around as long as the events nest within the limit. -/
theorem Nests.nest (h : Nests limit.toNat depth.toNat (e :: es) r) :
    Nests limit.toNat (Recognizer.nest depth e).toNat es r := by
  cases e with
  | groupStart place =>
      have hl : depth.toNat + 1 < 2 ^ 64 := Nat.lt_of_le_of_lt h.1 limit.toNat_lt
      have hd : (depth + 1).toNat = depth.toNat + 1 := by
        rw [UInt64.toNat_add]
        exact Nat.mod_eq_of_lt hl
      exact hd ▸ h.2
  | groupEnd place =>
      have hl : 1 ≤ depth := UInt64.le_iff_toNat_le.2 h.1
      have hd : (depth - 1).toNat = depth.toNat - 1 := UInt64.toNat_sub_of_le _ _ hl
      exact hd ▸ h.2
  | _ => exact h

theorem Nests.toNat_foldl_nest (h : Nests limit.toNat depth.toNat es r) :
    (es.foldl Recognizer.nest depth).toNat = r := by
  induction es generalizing depth with
  | nil => exact h
  | cons e es ih => exact ih h.nest

theorem map_fst_withCounter (depth : UInt64) (es : List Event) :
    (withCounter depth es).map Prod.fst = es := by
  induction es generalizing depth with
  | nil => rfl
  | cons e es ih => exact congrArg (e :: ·) (ih _)

theorem eq_foldl_of_withCounter (h : withCounter depth es = before ++ (e, n) :: after) :
    n = (before.map Prod.fst ++ [e]).foldl Recognizer.nest depth := by
  induction before generalizing depth es with
  | nil =>
      cases es with
      | nil => cases h
      | cons e' es =>
          obtain ⟨rfl, rfl⟩ := Prod.mk.inj (List.cons.inj h).1
          rfl
  | cons c before ih =>
      cases es with
      | nil => cases h
      | cons e' es =>
          obtain ⟨rfl, ht⟩ := List.cons.inj h
          exact ih ht

theorem Nests.eq_openGroups (h : Nests limit.toNat 0 es r)
    (hc : withCounter 0 es = before ++ (e, n) :: after) :
    (n.toNat : Int) = openGroups (before.map Prod.fst ++ [e]) ∧ n ≤ limit := by
  have hs : es = before.map Prod.fst ++ [e] ++ after.map Prod.fst := by
    rw [← map_fst_withCounter 0 es, hc]
    simp
  obtain ⟨k, hk⟩ := (hs ▸ h).of_append
  have hn := eq_foldl_of_withCounter hc
  have hd : n.toNat = k := hn ▸ Nests.toNat_foldl_nest hk
  rw [UInt64.le_iff_toNat_le, hd]
  exact ⟨by rw [← hk.add_openGroups]; simp, hk.le (Nat.zero_le _)⟩

end Nest

structure Watched (σ : Type) where
  state : σ
  depth : UInt64
  calls : List (Event × UInt64)

variable {σ : Type}

def watch (h : Handler σ) : Handler (Watched σ) := fun e w =>
  let depth := nest w.depth e
  (⟨(h e w.state).1, depth, w.calls ++ [(e, depth)]⟩, (h e w.state).2)

/-- Reads one token where the counter has a value. It is the counter that rejects parentheses; with
one more level than there are open parentheses, the state itself rejects none. -/
def countedStep (limit depth : UInt64) (q : State) (t : Token) : Step :=
  if q.expectsTerm = true ∧ t.kind = .symbol .leftParen ∧ limit ≤ depth then
    ⟨q.owed, .reject (t.tooDeep limit.toNat)⟩
  else step (q.depth + 1) q t

/-- Runs from state `q` behind a token that ended at `place`, with the limit kept by the counter. -/
def countedFrom (limit : UInt64) (h : Handler σ) :
    State → Position → List Item → Watched σ → Outcome (Watched σ) :=
  runBy (fun q w => countedStep limit w.depth q) (watch h)

def runCounted (limit : UInt64) (h : Handler σ) (items : List Item) (s : σ) :
    Outcome (Watched σ) :=
  countedFrom limit h .start .start items ⟨s, 0, []⟩

variable {h : Handler σ} {limit depth : UInt64} {m : Nat} {q : State} {t : Token}
  {place : Position} {items : List Item} {w : Watched σ}

theorem countedStep_eq (hd : depth.toNat = q.depth) :
    countedStep limit depth q t = step limit.toNat q t := by
  unfold countedStep
  by_cases ht : q.expectsTerm = true ∧ t.kind = .symbol .leftParen
  · have hr : ¬ q.depth + 1 ≤ q.depth := Nat.not_succ_le_self _
    rw [step_leftParen ht.1 ht.2, step_leftParen ht.1 ht.2, if_neg hr]
    simp only [ht, true_and, UInt64.le_iff_toNat_le, hd]
  · rw [if_neg fun hc => ht ⟨hc.1, hc.2.1⟩]
    exact step_of_not ht

theorem tell_watch (h : Handler σ) (es : List Event) (w : Watched σ) :
    ∃ told, told <+: es ∧ ((tell (watch h) es w).2 = none → told = es) ∧
      (tell (watch h) es w).1.depth = told.foldl nest w.depth ∧
      (tell (watch h) es w).1.calls = w.calls ++ withCounter w.depth told := by
  induction es generalizing w with
  | nil => exact ⟨[], List.nil_prefix, fun _ => rfl, rfl, (List.append_nil _).symm⟩
  | cons e es ih =>
      rcases he : h e w.state with ⟨s, _ | d⟩
      · have hw : watch h e w = (⟨s, nest w.depth e, w.calls ++ [(e, nest w.depth e)]⟩, none) := by
          simp only [watch, he]
        obtain ⟨told, hp, ha, hd, hc⟩ :=
          ih ⟨s, nest w.depth e, w.calls ++ [(e, nest w.depth e)]⟩
        rw [tell, hw]
        refine ⟨e :: told, List.prefix_cons_inj e |>.2 hp, fun hn => by rw [ha hn], hd, ?_⟩
        rw [hc, withCounter, List.append_assoc, List.singleton_append]
      · have hw : watch h e w =
            (⟨s, nest w.depth e, w.calls ++ [(e, nest w.depth e)]⟩, some d) := by
          simp only [watch, he]
        rw [tell, hw]
        exact ⟨[e], ⟨es, rfl⟩, fun hn => by simp at hn, rfl, rfl⟩

theorem counted_turn (hd : w.depth.toNat = q.depth) (item : Item) :
    turnBy (fun q w => countedStep limit w.depth q) (watch h) q w item =
      turn limit.toNat (watch h) q w item := by
  cases item with
  | error d => rfl
  | ok t => simp only [turn, turnBy, countedStep_eq hd]

/-- The events of a step nest within the limit, and so the counter agrees with the next state. -/
theorem depth_of_goesOn {r : State} {w' : Watched σ} {item : Item} (hd : w.depth.toNat = q.depth)
    (hg : turn limit.toNat (watch h) q w item = .goesOn r place w') :
    w'.depth.toNat = r.depth := by
  obtain ⟨t, rfl, -, ht, hv⟩ := exists_token_of_goesOn hg
  have hn := (move_of_continue (congrArg Step.verdict hv)).nests
  rw [← hd] at hn
  obtain ⟨told, -, ha, hw, -⟩ := tell_watch h (step limit.toNat q t).events w
  rw [ht] at ha hw
  rw [hw, ha rfl, hn.toNat_foldl_nest]

theorem countedFrom_eq (hd : w.depth.toNat = q.depth) :
    countedFrom limit h q place items w = runFrom limit.toNat (watch h) q place items w := by
  induction items generalizing q place w with
  | nil => simp only [countedFrom, runBy, counted_turn hd, runFrom_nil]
  | cons item items ih =>
      rw [runFrom_cons, countedFrom, runBy, counted_turn hd]
      cases ht : turn limit.toNat (watch h) q w item with
      | ends => rfl
      | goesOn r place w' => exact ih (depth_of_goesOn hd ht)

theorem runCounted_eq (limit : UInt64) (h : Handler σ) (items : List Item) (s : σ) :
    runCounted limit h items s = run limit.toNat (watch h) items ⟨s, 0, []⟩ :=
  countedFrom_eq rfl

theorem map_runCounted (limit : UInt64) (h : Handler σ) (items : List Item) (s : σ) :
    run limit.toNat (logged h) items (s, []) =
      (runCounted limit h items s).map fun w => (w.state, w.calls.map Prod.fst) := by
  rw [runCounted_eq]
  exact runFrom_map (f := fun w : Watched σ => (w.state, w.calls.map Prod.fst))
    (fun e w => by simp [logged, watch]) .start .start items ⟨s, 0, []⟩

theorem calls_runCounted {before after : List (Event × UInt64)} {e : Event} {s : σ}
    (hc : (runCounted limit h items s).state.calls = before ++ (e, depth) :: after) :
    (depth.toNat : Int) = openGroups (before.map Prod.fst ++ [e]) ∧ depth ≤ limit := by
  rw [runCounted_eq, state_run] at hc
  obtain ⟨told, hp, -, -, ht⟩ := tell_watch h (trace limit.toNat items).state ⟨s, 0, []⟩
  obtain ⟨r, hn⟩ := exists_nests_of_prefix hp
  rw [ht] at hc
  exact Nests.eq_openGroups hn hc

theorem trace_of_exceedsLimit (hh : ∀ e s d, (h e s).2 = some d → ¬ ExceedsLimit d) {s : σ}
    {d : Diagnostic} (hr : (run m h items s).result = .error d) (hd : ExceedsLimit d) :
    (trace m items).result = .error d := by
  rw [result_run] at hr
  rcases ht : tell h (trace m items).state s with ⟨s', _ | d'⟩
  · simpa only [ht] using hr
  · obtain ⟨-, e, -, k, -, -, hk⟩ := exists_of_rejected ht
    obtain rfl : d' = d := by simpa only [ht, Except.error.injEq] using hr
    exact absurd hd (hh e k d' (congrArg Prod.snd hk))

/-- The nesting limit is exact, for sources and handlers that do not themselves speak of it. A run
ends in the same way, and with the same events, with any larger limit, unless the limit is exceeded;
it is exceeded at the first parenthesis in front of which as many as it says are open. A counter of
groups in a machine word decides this as well: at each event it is the number of groups that have
started and not ended, and never more than the limit. -/
theorem limit_is_exact {m n : UInt64} (hmn : m ≤ n) {items : List Item}
    (hi : ∀ d, .error d ∈ items → ¬ ExceedsLimit d) {h : Handler σ}
    (hh : ∀ e s d, (h e s).2 = some d → ¬ ExceedsLimit d) (s : σ) :
    let small := run m.toNat (logged h) items (s, [])
    let large := run n.toNat (logged h) items (s, [])
    let counted := runCounted m h items s
    (small.result = .ok () → large = small) ∧
    (∀ d, small.result = .error d → ¬ ExceedsLimit d → large = small) ∧
    (∀ d, small.result = .error d → ExceedsLimit d →
      ∃ (before : List Token) (t : Token) (after : List Item),
        items = before.map .ok ++ .ok t :: after ∧ d = t.tooDeep m.toNat ∧
        d.cause = .nestingTooDeep m.toNat ∧ t.kind = .symbol .leftParen ∧
        (kinds before).count (.symbol .leftParen) =
          (kinds before).count (.symbol .rightParen) + m.toNat ∧
        ∀ us u vs, before = us ++ u :: vs → u.kind = .symbol .leftParen →
          (kinds us).count (.symbol .leftParen) ≠
            (kinds us).count (.symbol .rightParen) + m.toNat) ∧
    small = counted.map (fun w => (w.state, w.calls.map Prod.fst)) ∧
    ∀ before e depth after, counted.state.calls = before ++ (e, depth) :: after →
      (depth.toNat : Int) = openGroups (before.map Prod.fst ++ [e]) ∧ depth ≤ m := by
  intro small large counted
  have hl : small = large ∨ ∃ t, small.result = .error (Token.tooDeep t m.toNat) :=
    runFrom_limit (UInt64.le_iff_toNat_le.1 hmn) (logged h) .start .start items (s, [])
  refine ⟨fun hr => ?_, fun d hr hd => ?_, fun d hr hd => ?_, map_runCounted m h items s,
    fun _ _ _ _ hc => calls_runCounted hc⟩
  · rcases hl with he | ⟨t, ht⟩
    · exact he.symm
    · cases hr.symm.trans ht
  · rcases hl with he | ⟨t, ht⟩
    · exact he.symm
    · obtain rfl : d = t.tooDeep m.toNat := Except.error.inj (hr.symm.trans ht)
      exact absurd ⟨_, cause_tooDeep⟩ hd
  · have ht := trace_of_exceedsLimit (fun e w d he => hh e w.1 d he) hr hd
    obtain ⟨before, t, after, he, rfl, hb⟩ := exists_of_exceedsLimit hi ht hd
    exact ⟨before, t, after, he, rfl, cause_tooDeep, hb⟩

theorem limit_is_exact_siblings :
    let d := (⟨.symbol .leftParen, "(", none, ⟨17, 17⟩, ⟨18, 18⟩⟩ : Token).tooDeep 1
    let small := run 1 (logged ignore) (tokenize "WHERE (a=1) AND ((b=2))") ((), [])
    small.result = .error d ∧ ∃ (before : List Token) (t : Token) (after : List Item),
      tokenize "WHERE (a=1) AND ((b=2))" = before.map .ok ++ .ok t :: after ∧ d = t.tooDeep 1 ∧
      (kinds before).count (.symbol .leftParen) =
        (kinds before).count (.symbol .rightParen) + 1 := by
  have hi : ∀ d, .error d ∈ tokenize "WHERE (a=1) AND ((b=2))" → ¬ ExceedsLimit d := by
    rintro d hd ⟨k, hk⟩
    have hc := category_of_error hd
    rw [Diagnostic.category, hk] at hc
    cases hc
  obtain ⟨-, -, hx, -⟩ := limit_is_exact (m := 1) (n := 2) (by decide) hi
    (h := ignore) (fun _ _ _ he => by cases he) ()
  obtain ⟨before, t, after, he, hd, -, -, hc, -⟩ := hx _ rfl ⟨1, cause_tooDeep⟩
  exact ⟨rfl, before, t, after, he, hd, hc⟩

end FindExpr.Recognizer

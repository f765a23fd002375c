import FindExpr.Proofs.Recognizer.FirstError
import FindExpr.Proofs.Recognizer.Handlers
import FindExpr.Proofs.Recognizer.Moves
import FindExpr.Proofs.Recognizer.Sources

namespace FindExpr

/-- The token is the last one that the event describes. Nothing is said of events that wait for the
token behind what they describe. -/
def Event.EndsWith : Event → Token → Prop
  | selectField l, t | comparison _ _ l, t | limit l, t | offset l, t =>
    t.kind = .literal ∧ l = t.literal
  | connective op place, t =>
    (t.kind = .keyword .and ∧ op = .and ∨ t.kind.alternative? = some op) ∧ place = t.start
  | groupStart place, t => t.kind = .symbol .leftParen ∧ place = t.start
  | groupEnd place, t => t.kind = .symbol .rightParen ∧ place = t.start
  | _, _ => True

namespace Recognizer

open Grammar

variable {σ : Type}

/-- How a run ends at the item behind some tokens, with the events that it has told. -/
inductive Ending (limit : Nat) (h : Handler σ) (s : σ) (before : List Token) :
    Item → List Event → σ → Except Diagnostic Unit → Prop
  | accepted {t told s'} (ht : t.isEnd = true) (hs : Sentence limit (kinds before))
      (ha : Accepts h s told s') : Ending limit h s before (.ok t) told s' (.ok ())
  | fault {d told s'} (ha : Accepts h s told s') :
      Ending limit h s before (.error d) told s' (.error d)
  | misfit {t d told s'} (hd : SyntaxError limit (kinds before) t d) (ha : Accepts h s told s') :
      Ending limit h s before (.ok t) told s' (.error d)
  | refused {t e d es m s'} (ha : Accepts h s es m) (he : h e m = (s', some d))
      (ht : e.EndsWith t) : Ending limit h s before (.ok t) (es ++ [e]) s' (.error d)

variable {limit : Nat} {h : Handler σ} {source source' : Source} {q r : State}
  {place : Position} {n k : Nat} {s s' m : σ} {x : σ × List Event}
  {result : Except Diagnostic Unit} {item : Item} {t : Token} {ts : List Token}
  {es fs told : List Event} {e : Event} {d : Diagnostic}

theorem endsWith_owed (q : State) (t : Token) : ∀ e ∈ q.owed, e.EndsWith t := by
  cases q <;> simp [State.owed, Event.EndsWith]

theorem Move.endsWith (hm : Move limit q t es r) : ∀ e ∈ es, e.EndsWith t := by
  cases hm with
  | select | filter | orderBy | limit | offset | operand => exact endsWith_owed q t
  | group hq ht =>
      rw [List.forall_mem_append]
      exact ⟨endsWith_owed q t, by simp [Event.EndsWith, ht]⟩
  | field ht | value ht | limitCount ht | offsetCount ht | and ht | alternative ht | close ht =>
      simp [Event.EndsWith, ht]
  | _ => simp [Event.EndsWith]

theorem endsWith_step (limit : Nat) (q : State) (t : Token) :
    ∀ e ∈ (step limit q t).events, e.EndsWith t := by
  have hm := moves_step limit q t
  unfold Step.Moves at hm
  cases hv : (step limit q t).verdict with
  | «continue» r =>
      simp only [hv] at hm
      exact hm.endsWith
  | accept | reject =>
      simp only [hv] at hm
      rw [hm]
      exact endsWith_owed q t

theorem Accepts.append (ha : Accepts h s es m) (hb : Accepts h m fs s') :
    Accepts h s (es ++ fs) s' :=
  tell_eq_none_iff.1 ((tell_append_of_accepted (tell_eq_none_iff.2 ha) fs).trans
    (tell_eq_none_iff.2 hb))

theorem tell_of_logged (es : List Event) (s : σ) (told : List Event) :
    tell h es s = ((tell (logged h) es (s, told)).1.1, (tell (logged h) es (s, told)).2) :=
  tell_map (f := Prod.fst) (k := h) (h := logged h) (fun _ _ => rfl) es (s, told)

theorem accepts_logged_iff :
    Accepts (logged h) (s, told) es x ↔ Accepts h s es x.1 ∧ x.2 = told ++ es := by
  constructor
  · intro hl
    have ht := tell_of_logged (h := h) es s told
    rw [tell_eq_none_iff.2 hl] at ht
    have ha := tell_eq_none_iff.1 ht
    have hx := (tell_eq_none_iff.2 hl).symm.trans (tell_eq_none_iff.2 (ha.logged told))
    exact ⟨ha, congrArg (·.1.2) hx⟩
  · rintro ⟨ha, hx⟩
    have hl := ha.logged told
    rwa [← hx] at hl

theorem exists_of_rejected_logged (ht : tell (logged h) es (s, told) = (x, some d)) :
    ∃ before e m, e ∈ es ∧ Accepts h s before m ∧ h e m = (x.1, some d) ∧
      x.2 = told ++ (before ++ [e]) := by
  obtain ⟨before, e, after, y, rfl, hl, he⟩ := exists_of_rejected ht
  obtain ⟨ha, hy⟩ := accepts_logged_iff.1 hl
  obtain ⟨rfl, hd⟩ := Prod.mk.inj he
  refine ⟨before, e, y.1, by simp, ha, Prod.ext rfl hd, ?_⟩
  rw [← List.append_assoc, ← hy]

theorem Path.ending (p : Path limit .start ts es r) (ha : Accepts h s es m)
    (ht : turn limit (logged h) r (m, es) item = .ends (s', told) result) :
    Ending limit h s ts item told s' result := by
  cases item with
  | error d =>
      obtain ⟨hx, rfl⟩ := Turn.ends.inj ht
      obtain ⟨rfl, rfl⟩ := Prod.mk.inj hx
      exact .fault ha
  | ok t =>
      rw [turn_token] at ht
      rcases he : tell (logged h) (step limit r t).events (m, es) with ⟨⟨m', told'⟩, _ | d⟩
      · obtain ⟨hm, hx⟩ := accepts_logged_iff.1 (tell_eq_none_iff.1 he)
        dsimp only at hm hx
        subst hx
        have hj := judges_step limit r t
        unfold Step.Judges at hj
        cases hv : (step limit r t).verdict with
        | «continue» r' => simp [he, hv] at ht
        | accept =>
            obtain ⟨⟨rfl, rfl⟩, rfl⟩ : (m' = s' ∧ es ++ (step limit r t).events = told) ∧
                .ok () = result := by simpa [he, hv] using ht
            simp only [hv] at hj
            exact .accepted hj.1 (p.sentence_iff_complete.2 hj.2) (ha.append hm)
        | reject d =>
            obtain ⟨⟨rfl, rfl⟩, rfl⟩ : (m' = s' ∧ es ++ (step limit r t).events = told) ∧
                .error d = result := by simpa [he, hv] using ht
            simp only [hv] at hj
            have hn (r' : State) : (step limit r t).verdict ≠ .continue r' := by simp [hv]
            exact .misfit (p.syntaxError hn hj) (ha.append hm)
      · obtain ⟨⟨rfl, rfl⟩, rfl⟩ : (m' = s' ∧ told' = told) ∧ .error d = result := by
          simpa [he] using ht
        obtain ⟨before, e, m'', hmem, hb, hd, hx⟩ := exists_of_rejected_logged he
        dsimp only at hd hx
        rw [hx, ← List.append_assoc]
        exact .refused (ha.append hb) hd (endsWith_step limit r t e hmem)

theorem Source.eq_some_of_item (hi : source.item n place = .ok t) (ht : t.isEnd = false) :
    source n = some (.ok t) := by
  cases hn : source n with
  | some item => simpa [Source.item, hn] using hi
  | none =>
      obtain rfl : Token.endOfInput place place = t := by simpa [Source.item, hn] using hi
      cases ht

theorem RunsOver.exists_path (hr : RunsOver limit h source q place n s k s' result) :
    ∃ ts es r m, Path limit q ts es r ∧ Accepts h s es m ∧ k = n + ts.length + 1 ∧
      (∀ i < ts.length, source (n + i) = (ts.map .ok)[i]?) ∧
      turn limit h r m (source.item (n + ts.length) (lastStop place ts)) = .ends s' result := by
  induction hr with
  | @ends q _ _ s _ _ ht => exact ⟨[], [], q, s, .nil q, .nil s, rfl, nofun, ht⟩
  | goesOn ht _ ih =>
      obtain ⟨t, hi, rfl, he, hv⟩ := exists_token_of_goesOn ht
      obtain ⟨ts, es, r, m, p, ha, rfl, hts, hx⟩ := ih
      have hp := Path.cons hv p
      have hn := Source.eq_some_of_item hi (hp.isEnd_eq_false t (List.mem_cons_self ..))
      refine ⟨t :: ts, _, r, m, hp, (tell_eq_none_iff.1 he).append ha, ?_, ?_, ?_⟩
      · rw [List.length_cons]
        omega
      · intro i hi
        cases i with
        | zero => exact hn
        | succ i =>
            rw [← Nat.add_assoc, Nat.add_right_comm]
            exact hts i (Nat.lt_of_succ_lt_succ hi)
      · rw [List.length_cons, ← Nat.add_assoc, Nat.add_right_comm]
        exact hx

/-- A run that ends without finding its source exhausted has read over all tokens but the last item
that it has asked for. That item is why it ends, whatever follows: with the same items up to there,
every source makes it end alike, and a list of items is left with those behind. -/
theorem ends_at_item
    (hr : RunsOver limit (logged h) source .start .start 0 (s, []) k (s', told) result)
    (hs : ∀ i < k, source i ≠ none) :
    ∃ (before : List Token) (item : Item) (es : List Event) (r : State),
      k = before.length + 1 ∧ (∀ i < k, source i = (before.map .ok ++ [item])[i]?) ∧
      Path limit .start before es r ∧ (∀ t ∈ before, t.isEnd = false) ∧
      Ending limit h s before item told s' result ∧
      (∀ (source' : Source), (∀ i < k, source' i = source i) → ∀ k' x result',
        RunsOver limit (logged h) source' .start .start 0 (s, []) k' x result' ↔
          k' = k ∧ x = (s', told) ∧ result' = result) ∧
      ∀ after, run limit (logged h) (before.map .ok ++ item :: after) (s, []) =
        ⟨(s', told), result, after⟩ := by
  obtain ⟨ts, es, r, ⟨m, es'⟩, p, ha, rfl, hts, ht⟩ := hr.exists_path
  obtain ⟨ha, rfl⟩ : Accepts h s es m ∧ es' = es := accepts_logged_iff.1 ha
  simp only [Nat.zero_add] at hr hs hts ht ⊢
  obtain ⟨item, hi⟩ := Option.ne_none_iff_exists'.1 (hs ts.length (Nat.lt_succ_self _))
  rw [Source.item, hi, Option.getD_some] at ht
  have hg (i : Nat) (hk : i < ts.length + 1) (after : List Item) :
      source i = (ts.map .ok ++ item :: after)[i]? := by
    rcases Nat.lt_or_eq_of_le (Nat.le_of_lt_succ hk) with hlt | rfl
    · rw [List.getElem?_append_left (by simpa using hlt)]
      exact hts i hlt
    · simp [hi]
  refine ⟨ts, item, _, r, rfl, fun i hk => hg i hk [], p, p.isEnd_eq_false, p.ending ha ht, ?_, ?_⟩
  · intro source' hs' k' x result'
    have hr' := hr.congr hs'
    constructor
    · exact hr'.deterministic
    · rintro ⟨rfl, rfl, rfl⟩
      exact hr'
  · intro after
    have hr' : RunsOver limit (logged h) (.ofItems (ts.map .ok ++ item :: after)) .start .start 0
        (s, []) (ts.length + 1) (s', told) result := hr.congr fun i hk => (hg i hk after).symm
    rw [hr'.run_eq, List.drop_append, List.length_map, Nat.add_sub_cancel_left,
      List.drop_eq_nil_of_le (by simp)]
    rfl

theorem ends_at_item_trailing :
    let token (k : TokenKind) : Token := ⟨k, "a", none, .start, .start⟩
    let source : Source := .ofItems [.ok (token (.keyword .select)), .ok (token .literal),
      .ok (token .literal), .error (.on .start "no matching symbol" .unrecognizedInput)]
    let told : List Event := [.selectField (token .literal).literal]
    let result : Except Diagnostic Unit := .error (token .literal).trailing
    RunsOver 0 (logged ignore) source .start .start 0 ((), []) 3 ((), told) result ∧
      ∃ (before : List Token) (item : Item), 3 = before.length + 1 ∧
        (∀ i < 3, source i = (before.map .ok ++ [item])[i]?) ∧
        Ending 0 ignore () before item told () result := by
  intro token source told result
  have hr : RunsOver 0 (logged ignore) source .start .start 0 ((), []) 3 ((), told) result :=
    .goesOn rfl (.goesOn rfl (.ends rfl))
  have hs : ∀ i < 3, source i ≠ none := by decide
  obtain ⟨before, item, _, _, hk, hi, _, _, he, _⟩ := ends_at_item hr hs
  exact ⟨hr, before, item, hk, hi, he⟩

end Recognizer

end FindExpr

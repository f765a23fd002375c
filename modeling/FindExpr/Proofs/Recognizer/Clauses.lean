import FindExpr.Proofs.Grammar.Unambiguous
import FindExpr.Proofs.Recognizer.Acceptance
import FindExpr.Proofs.Recognizer.Limit
import FindExpr.Proofs.Recognizer.Reading

namespace FindExpr.Recognizer

open Grammar Grammar.Phrase

variable {limit : Nat}

/-- A state behind a clause, where some events are still owed: the keywords of the given clauses go
on, and a token at the end is accepted. -/
structure Ready (q : State) (owed : List Event) (allowed : List Keyword) : Prop where
  enters : ∀ (limit : Nat), ∀ k ∈ allowed, ∀ t : Token, t.kind = .keyword k →
    step limit q t = (enter k t).precededBy owed
  ends : ∀ (limit : Nat) (t : Token), t.isEnd = true → step limit q t = ⟨owed, .accept⟩

theorem Ready.mono {q : State} {owed : List Event} {allowed allowed' : List Keyword}
    (h : Ready q owed allowed) (hs : allowed' ⊆ allowed) : Ready q owed allowed' :=
  ⟨fun limit k hk => h.enters limit k (hs hk), h.ends⟩

theorem ready_of_betweenClauses {q : State} {owed : List Event} {allowed : List Keyword}
    (h : ∀ (limit : Nat) (t : Token), t.kind ∈ .endOfInput :: allowed.map .keyword →
      step limit q t = (betweenClauses allowed t).precededBy owed) :
    Ready q owed allowed := by
  constructor
  · intro limit k hk t ht
    rw [h limit t (by simp [ht, hk])]
    simp [betweenClauses, ht, hk]
  · intro limit t ht
    have hk : t.kind = .endOfInput := by simpa [Token.isEnd] using ht
    rw [h limit t (by simp [hk])]
    simp [betweenClauses, hk, Step.precededBy]

theorem ready_start : Ready .start [] [.select, .filter, .orderBy, .limit, .offset] :=
  ready_of_betweenClauses fun _ _ _ => rfl

theorem ready_afterField : Ready .afterField [] [.filter, .orderBy, .limit, .offset] := by
  apply ready_of_betweenClauses
  intro limit t ht
  simp only [List.map_cons, List.map_nil, List.mem_cons, List.not_mem_nil, or_false] at ht
  rcases ht with h | h | h | h | h <;> simp [step, h, Step.precededBy]

theorem ready_afterTerm :
    Ready (.afterTerm []) [.conjunctionEnd, .conditionEnd] [.orderBy, .limit, .offset] := by
  apply ready_of_betweenClauses
  intro limit t ht
  simp only [List.map_cons, List.map_nil, List.mem_cons, List.not_mem_nil, or_false] at ht
  rcases ht with h | h | h | h <;>
    simp [step, continueCondition, h, TokenKind.alternative?, endCondition]

theorem ready_afterSortKey : Ready .afterSortKey [] [.limit, .offset] := by
  apply ready_of_betweenClauses
  intro limit t ht
  simp only [List.map_cons, List.map_nil, List.mem_cons, List.not_mem_nil, or_false] at ht
  rcases ht with h | h | h <;> simp [step, continueSort, h, Step.precededBy]

theorem ready_afterSortField (field : Literal) :
    Ready (.afterSortField field) [.sortKey field none] [.limit, .offset] := by
  apply ready_of_betweenClauses
  intro limit t ht
  simp only [List.map_cons, List.map_nil, List.mem_cons, List.not_mem_nil, or_false] at ht
  rcases ht with h | h | h <;> simp [step, continueSort, h, TokenKind.direction?]

theorem ready_afterLimit : Ready .afterLimit [] [.offset] :=
  ready_of_betweenClauses fun _ _ _ => rfl

theorem ready_afterOffset : Ready .afterOffset [] [] :=
  ready_of_betweenClauses fun _ _ _ => rfl

/-- How the recognizer reads the tokens of some clauses behind those before them, and with which
events. It may owe the last of them in the end. -/
def ReadsClauses (limit : Nat) (allowed after : List Keyword) (tokens : List Token)
    (events : List Event) : Prop :=
  ∀ q owed, Ready q owed allowed →
    ∃ r es owed', Path limit q tokens es r ∧ Ready r owed' after ∧
      owed ++ events = es ++ owed'

theorem readsClauses_absent {k : Keyword} {after : List Keyword} :
    ReadsClauses limit (k :: after) after [] [] := fun q owed hq =>
  ⟨q, [], owed, .nil q, hq.mono (List.subset_cons_self ..), by simp⟩

theorem ReadsClauses.append {ks ls ms : List Keyword} {ts us : List Token} {es fs : List Event}
    (h : ReadsClauses limit ks ls ts es) (h' : ReadsClauses limit ls ms us fs) :
    ReadsClauses limit ks ms (ts ++ us) (es ++ fs) := by
  intro q owed hq
  obtain ⟨r, es', owed', hp, hr, hes⟩ := h q owed hq
  obtain ⟨s, fs', owed'', hp', hs, hfs⟩ := h' r owed' hr
  refine ⟨s, _, owed'', hp.append hp', hs, ?_⟩
  rw [← List.append_assoc, hes, List.append_assoc, hfs, List.append_assoc]

theorem Ready.path_enter {q r : State} {owed : List Event} {k : Keyword} {after : List Keyword}
    {t : Token} (hq : Ready q owed (k :: after)) (ht : t.kind = .keyword k)
    (hr : enter k t = .silent r) : Path limit q [t] owed r := by
  apply Path.single
  rw [hq.enters limit k (List.mem_cons_self ..) t ht, hr]
  simp [Step.silent, Step.precededBy]

theorem read_moreFields (d : Derivation moreFields) :
    Path limit .afterField d.tokens
      ((d.fold eventsOf).map fun (_, name) => .selectField name.literal) .afterField := by
  induction d using Derivation.many_induction with
  | done => exact .nil _
  | more d e ih =>
      obtain ⟨c, hc, f, rfl⟩ := d.exists_token_seq
      obtain ⟨f, hf, rfl⟩ := f.exists_token
      have hp : Path limit .afterField [c] [] .expectField :=
        .single (by simp [step, hc, Step.silent])
      have hq : Path limit .expectField [f] [.selectField f.literal] .afterField :=
        .single (by simp [step, withLiteral, hf])
      simpa [Derivation.fold, Derivation.tokens] using (hp.append hq).append ih

theorem read_select (d : Derivation (.rule .select)) :
    ReadsClauses limit [.select, .filter, .orderBy, .limit, .offset]
      [.filter, .orderBy, .limit, .offset] d.tokens d.events := by
  intro q owed hq
  obtain ⟨w, hw, f, hf, e, rfl⟩ := d.exists_select
  have hp : Path limit .expectField [f] [.selectField f.literal] .afterField :=
    .single (by simp [step, withLiteral, hf])
  have he := ((hq.path_enter hw rfl).append hp).append (read_moreFields e)
  refine ⟨_, _, [], he, ready_afterField, ?_⟩
  simp [Derivation.fold, eventsOf]

theorem path_afterWhere {t : Token} {ts : List Token} {es : List Event} {r : State}
    {place : Position} (p : Path limit (.expectTerm []) (t :: ts) es r)
    (ht : t.kind ≠ .keyword .omits) :
    Path limit (.afterWhere place) (t :: ts)
      ([.filter false place, .conditionStart, .conjunctionStart] ++ es) r := by
  cases p with
  | cons h p =>
      rw [← List.append_assoc]
      refine .cons ?_ p
      have hb : beginTerm limit [] t = _ := h
      simp [step, ht, hb, Step.precededBy]

theorem read_filter (d : Derivation (.rule .filter)) (h : d.tokens.length ≤ limit) :
    ReadsClauses limit [.filter, .orderBy, .limit, .offset] [.orderBy, .limit, .offset] d.tokens
      d.events := by
  intro q owed hq
  obtain ⟨w, hw, o, c, rfl⟩ := d.exists_filter
  simp only [Derivation.tokens, List.length_append] at h
  have hr : Reads limit .condition c := reads c
  obtain ⟨es, hes, hc⟩ := hr [] (by rw [List.length_nil]; omega)
  have hw : Path limit q [w] owed (.afterWhere w.start) := hq.path_enter hw rfl
  rcases o.absent_or_present with rfl | ⟨o, rfl⟩
  · obtain ⟨t, ts, ht⟩ : ∃ t ts, c.tokens = t :: ts := by
      apply List.exists_cons_of_ne_nil
      intro hn
      cases c.nullable_of_tokens hn
    have hs := c.starts_tokens
    rw [ht] at hc hs
    have ho : t.kind ≠ .keyword .omits := by
      have hm := hs t rfl
      intro hk
      simp [hk, first, firstOf] at hm
    have hp := hw.append (path_afterWhere hc ho)
    rw [← ht] at hp
    refine ⟨_, _, _, hp, ready_afterTerm, ?_⟩
    simp [Derivation.fold, eventsOf, hes]
  · obtain ⟨t, ht, rfl⟩ := o.exists_token
    have ho : Path limit (.afterWhere w.start) [t]
        [.filter true w.start, .conditionStart, .conjunctionStart] (.expectTerm []) :=
      .single (by simp [step, ht])
    refine ⟨_, _, _, (hw.append ho).append hc, ready_afterTerm, ?_⟩
    simp [Derivation.fold, eventsOf, hes]

structure SortReady (q : State) (owed : List Event) : Prop where
  ready : Ready q owed [.limit, .offset]
  comma : ∀ (limit : Nat) (t : Token), t.kind = .symbol .comma →
    step limit q t = ⟨owed, .continue .expectSortField⟩

theorem read_sortKey (limit : Nat) (d : Derivation sortKey) :
    ∃ r es owed, Path limit .expectSortField d.tokens es r ∧ SortReady r owed ∧
      [sortEvent (d.fold eventsOf)] = es ++ owed := by
  obtain ⟨f, hf, o, rfl⟩ := d.exists_token_seq
  have hp : Path limit .expectSortField [f] [] (.afterSortField f.literal) :=
    .single (by simp [step, withLiteral, hf, Step.silent])
  rcases o.absent_or_present with rfl | ⟨o, rfl⟩
  · refine ⟨_, _, [.sortKey f.literal none], hp, ⟨ready_afterSortField _, ?_⟩, rfl⟩
    intro limit t ht
    simp [step, continueSort, ht, TokenKind.direction?, Step.silent, Step.precededBy]
  · obtain ⟨t, s, hs, hd, hf⟩ := o.exists_direction
    have ha : Path limit (.afterSortField f.literal) o.tokens
        [.sortKey f.literal (some (directionOf s))] .afterSortKey := by
      rw [hs]
      exact .single (by simp [step, hd])
    refine ⟨_, _, [], hp.append ha, ⟨ready_afterSortKey, ?_⟩, ?_⟩
    · intro limit t ht
      simp [step, continueSort, ht, Step.silent]
    · simp [Derivation.fold, hf eventsOf, sortEvent]

theorem read_moreSortKeys (d : Derivation moreSortKeys) {q : State} {owed : List Event}
    (hq : SortReady q owed) :
    ∃ r es owed', Path limit q d.tokens es r ∧ SortReady r owed' ∧
      owed ++ (d.fold eventsOf).map (fun (_, key) => sortEvent key) = es ++ owed' := by
  induction d using Derivation.many_induction generalizing q owed with
  | done => exact ⟨q, [], owed, .nil q, hq, by simp [Derivation.fold]⟩
  | more d e ih =>
      obtain ⟨c, hc, d, rfl⟩ := d.exists_token_seq
      have hp : Path limit q [c] owed .expectSortField := .single (hq.comma limit c hc)
      obtain ⟨r, es, owed₁, hd, hr, hes⟩ := read_sortKey limit d
      obtain ⟨s, fs, owed₂, he, hs, hfs⟩ := ih hr
      refine ⟨s, _, owed₂, (hp.append hd).append he, hs, ?_⟩
      rw [List.append_assoc, ← hfs, ← List.append_assoc, List.append_assoc owed, ← hes]
      simp [Derivation.fold]

theorem read_orderBy (d : Derivation (.rule .orderBy)) :
    ReadsClauses limit [.orderBy, .limit, .offset] [.limit, .offset] d.tokens d.events := by
  intro q owed hq
  obtain ⟨w, hw, d, e, rfl⟩ := d.exists_orderBy
  obtain ⟨r, es, owed₁, hd, hr, hes⟩ := read_sortKey limit d
  obtain ⟨s, fs, owed₂, he, hs, hfs⟩ := read_moreSortKeys e hr
  refine ⟨s, _, owed₂, ((hq.path_enter hw rfl).append hd).append he, hs.ready, ?_⟩
  rw [List.append_assoc, ← hfs, ← List.append_assoc, List.append_assoc owed, ← hes]
  simp [Derivation.fold, eventsOf]

theorem read_limit (d : Derivation (.rule .limit)) :
    ReadsClauses limit [.limit, .offset] [.offset] d.tokens d.events := by
  intro q owed hq
  obtain ⟨w, hw, l, hl, rfl⟩ := d.exists_limit
  have hp : Path limit .expectLimit [l] [.limit l.literal] .afterLimit :=
    .single (by simp [step, withLiteral, hl])
  refine ⟨_, _, [], (hq.path_enter hw rfl).append hp, ready_afterLimit, ?_⟩
  simp [Derivation.fold, eventsOf]

theorem read_offset (d : Derivation (.rule .offset)) :
    ReadsClauses limit [.offset] [] d.tokens d.events := by
  intro q owed hq
  obtain ⟨w, hw, l, hl, rfl⟩ := d.exists_offset
  have hp : Path limit .expectOffset [l] [.offset l.literal] .afterOffset :=
    .single (by simp [step, withLiteral, hl])
  refine ⟨_, _, [], (hq.path_enter hw rfl).append hp, ready_afterOffset, ?_⟩
  simp [Derivation.fold, eventsOf]

/-- A query is read from the start to a state in which it may end. Its events are those that have
been told and those that are owed there. -/
theorem read_query (d : Derivation (.rule .query)) (h : d.tokens.length ≤ limit) :
    ∃ r es owed, Path limit .start d.tokens es r ∧ Ready r owed [] ∧
      d.events = es ++ owed := by
  obtain ⟨s, f, o, l, x, rfl⟩ := d.exists_query
  simp only [Derivation.tokens, List.length_append] at h
  have hs : ReadsClauses limit [.select, .filter, .orderBy, .limit, .offset]
      [.filter, .orderBy, .limit, .offset] s.tokens ((s.fold eventsOf).getD []) := by
    rcases s.absent_or_present with rfl | ⟨d, rfl⟩
    · exact readsClauses_absent
    · exact read_select d
  have hf : ReadsClauses limit [.filter, .orderBy, .limit, .offset]
      [.orderBy, .limit, .offset] f.tokens ((f.fold eventsOf).getD []) := by
    rcases f.absent_or_present with rfl | ⟨d, rfl⟩
    · exact readsClauses_absent
    · exact read_filter d (by simp only [Derivation.tokens] at h; omega)
  have ho : ReadsClauses limit [.orderBy, .limit, .offset] [.limit, .offset] o.tokens
      ((o.fold eventsOf).getD []) := by
    rcases o.absent_or_present with rfl | ⟨d, rfl⟩
    · exact readsClauses_absent
    · exact read_orderBy d
  have hl : ReadsClauses limit [.limit, .offset] [.offset] l.tokens
      ((l.fold eventsOf).getD []) := by
    rcases l.absent_or_present with rfl | ⟨d, rfl⟩
    · exact readsClauses_absent
    · exact read_limit d
  have hx : ReadsClauses limit [.offset] [] x.tokens ((x.fold eventsOf).getD []) := by
    rcases x.absent_or_present with rfl | ⟨d, rfl⟩
    · exact readsClauses_absent
    · exact read_offset d
  obtain ⟨r, es, owed, hp, hr, he⟩ :=
    (hs.append (hf.append (ho.append (hl.append hx)))) .start [] ready_start
  exact ⟨r, es, owed, hp, hr, by simp [← he, Derivation.fold, eventsOf]⟩

theorem path_of_sentence {ts : List Token} (h : Sentence limit (kinds ts)) :
    ∃ es r, Path limit .start ts es r := by
  obtain ⟨us, es, r, rest, hts, p, hs⟩ := exists_stop limit .start (ts.map .ok)
  obtain ⟨us', vs, rfl, hus, rfl⟩ := List.map_eq_append_iff.1 hts
  obtain rfl : us' = us := (List.map_inj_right fun _ _ => Except.ok.inj).1 hus
  cases vs with
  | nil => exact ⟨es, r, by rwa [List.append_nil]⟩
  | cons t vs =>
      refine absurd ⟨kinds vs, ?_⟩ (p.not_viable hs)
      rwa [kinds_append, kinds_cons, List.append_cons] at h

theorem trace_of_derivation (d : Derivation (.rule .query)) (h : Sentence limit (kinds d.tokens))
    {last : Token} (hl : last.isEnd = true) (rest : List Item) :
    trace limit (d.tokens.map .ok ++ .ok last :: rest) = ⟨d.events, .ok (), rest⟩ := by
  obtain ⟨es, r, p⟩ := path_of_sentence h
  obtain ⟨r', es', owed, p', hr, he⟩ := read_query d (Nat.le_max_right limit _)
  obtain ⟨rfl, rfl⟩ := (p.mono (Nat.le_max_left ..)).deterministic p'
  rw [trace, traceFrom_append p]
  simp [traceFrom, hr.ends limit last hl, he]

/-- Where parentheses nest too deeply, the recognizer ends with this diagnostic, and has told the
events of the derivation up to there. -/
theorem trace_of_tooDeep (d : Derivation (.rule .query)) (h : limit < nesting (kinds d.tokens))
    {last : Token} (hl : last.isEnd = true) (rest : List Item) :
    let outcome := trace limit (d.tokens.map .ok ++ .ok last :: rest)
    ∃ t fs, outcome.result = .error (Token.tooDeep t limit) ∧ d.events = outcome.state ++ fs := by
  have hw : Sentence (nesting (kinds d.tokens)) (kinds d.tokens) := ⟨d.derives, Nat.le_refl _⟩
  obtain ⟨es, r, p⟩ := path_of_sentence hw
  have ht := trace_of_derivation d hw hl rest
  rcases traceFrom_limit (Nat.le_of_lt h) .start .start (d.tokens.map .ok ++ .ok last :: rest)
    with he | ⟨t, fs, hr, he⟩
  · have hb : tokensBeforeEnd (d.tokens.map .ok ++ .ok last :: rest) = some d.tokens := by
      rw [tokensBeforeEnd_append p.isEnd_eq_false]
      simp [tokensBeforeEnd, hl]
    have ha : (trace limit (d.tokens.map .ok ++ .ok last :: rest)).result = .ok () := by
      rw [trace, he]
      exact congrArg Outcome.result ht
    exact absurd (sentence_of_accepted hb ha).nesting_le (Nat.not_le.2 h)
  · exact ⟨t, fs, hr, (congrArg Outcome.state ht).symm.trans he⟩

end FindExpr.Recognizer

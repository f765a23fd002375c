import FindExpr.Proofs.Lexer.Calls
import FindExpr.Proofs.Lexer.Scan
import FindExpr.Proofs.Text.Blank

namespace FindExpr

/-- Where a token lies in a source: behind `before`, and in front of `after`, which does not begin
with a blank. What is written has the blanks `lead` and `trail` around it. -/
structure Token.LiesIn (source before lead trail after : List Char) (t : Token) : Prop where
  source_eq : source = before ++ lead ++ t.written.toList ++ trail ++ after
  start_eq : t.start = .behind before
  stop_eq : t.stop = .behind (before ++ lead ++ t.written.toList ++ trail)
  lead_blank : lead.all Text.isBlank = true
  trail_blank : trail.all Text.isBlank = true
  written_ne : t.written.toList ≠ []
  not_blank : ∀ c, after.head? = some c → Text.isBlank c = false

/-- Tokens that lie in a source one behind the other, from behind `before` on and up to behind the
last argument. Blanks lead only where the source begins. -/
inductive Tiles (source : List Char) : List Char → List Token → List Char → Prop
  | done {before} : Tiles source before [] before
  | next {before lead trail after t ts stop} (h : t.LiesIn source before lead trail after)
      (hlead : before ≠ [] → lead = [])
      (hs : Tiles source (before ++ lead ++ t.written.toList ++ trail) ts stop) :
      Tiles source before (t :: ts) stop

/-- What comes behind tokens that reach up to behind `stop`: the end of the source, with blanks
only in between, or a diagnostic that begins there. -/
def Item.EndsAt (source stop : List Char) : Item → Prop
  | .ok t => t.isEnd = true ∧ t.start = .behind stop ∧ t.stop = .behind source ∧
    ∃ blanks, source = stop ++ blanks ∧ blanks.all Text.isBlank = true
  | .error d => d.start = .behind stop

/-- The tokens among the answers to calls, up to the first diagnostic and without those that are at
the end of the input. -/
def delivered : List (Option Item) → List Token
  | [] => []
  | none :: answers => delivered answers
  | some (.error _) :: _ => []
  | some (.ok t) :: answers => if t.isEnd then delivered answers else t :: delivered answers

def Token.piece? (source : List Char) (t : Token) : Option (List Char) :=
  Text.slice? source t.start.offset t.stop.offset

variable {source before lead trail after stop rest : List Char} {t : Token} {ts : List Token}
  {x : Lexeme}

theorem Token.LiesIn.piece?_eq (h : t.LiesIn source before lead trail after) :
    t.piece? source = some (lead ++ t.written.toList ++ trail) := by
  have hs := Text.slice?_append_append before (lead ++ t.written.toList ++ trail) after
  rw [piece?, h.start_eq, h.stop_eq]
  rw [← Text.size_append] at hs
  simp only [← List.append_assoc, ← h.source_eq] at hs
  exact hs

theorem Tiles.exists_pieces (h : Tiles source before ts stop) :
    ∃ pieces : List (List Char), ts.map (Token.piece? source) = pieces.map some ∧
      before ++ pieces.flatten = stop := by
  induction h with
  | done => exact ⟨[], rfl, List.append_nil _⟩
  | next h _ _ ih =>
      obtain ⟨pieces, hp, he⟩ := ih
      refine ⟨_ :: pieces, List.cons_eq_cons.2 ⟨h.piece?_eq, hp⟩, ?_⟩
      rw [← he]
      simp

theorem Tiles.start_eq (h : Tiles source before ts stop) {us vs : List Token}
    (hs : ts = us ++ t :: vs) : t.start = (us.getLast?.map Token.stop).getD (.behind before) := by
  induction h generalizing us with
  | done => simp at hs
  | next h _ _ ih =>
      cases us with
      | nil =>
          obtain ⟨rfl, rfl⟩ := List.cons.inj hs
          exact h.start_eq
      | cons u us =>
          obtain ⟨rfl, rfl⟩ := List.cons.inj hs
          rw [ih rfl, List.getLast?_cons, ← h.stop_eq]
          cases us.getLast? <;> rfl

theorem Tiles.column_lt (h : Tiles source before ts stop) :
    ∀ t ∈ ts, t.start.column < t.stop.column := by
  induction h with
  | done => simp
  | next h _ _ ih =>
      refine List.forall_mem_cons.2 ⟨?_, ih⟩
      have hl := List.length_pos_iff.2 h.written_ne
      rw [h.start_eq, h.stop_eq]
      simp only [Position.behind, List.length_append]
      omega

theorem Lexeme.written_token (x : Lexeme) (start stop : Position) :
    (x.token start stop).written.toList = x.written := by
  obtain ⟨kind, value, _ | style⟩ := x
  · exact String.toList_ofList
  · simp [Lexeme.token, Token.written, FindExpr.written, Lexeme.written]

namespace Lexer

variable {l : Lexer}

theorem StandsBehind.liesIn (h : l.StandsBehind source before)
    (hx : Lexeme.first? (Text.skipBlank l.rest) = some (x, rest)) :
    (x.token l.position (l.behind x rest).position).LiesIn source before
      (Text.leadingBlank l.rest) (Text.leadingBlank rest) (Text.skipBlank rest) := by
  have hb := h.behind hx
  constructor
  · rw [Lexeme.written_token]
    exact hb.source_eq
  · exact h.position_eq
  · rw [Lexeme.written_token]
    exact hb.position_eq
  · exact Text.all_leadingBlank _
  · exact Text.all_leadingBlank _
  · rw [Lexeme.written_token]
    exact (Lexeme.proper_of_first? hx).written_ne
  · exact fun c => Text.head?_skipBlank

theorem call_of_some (hf : l.finished = false)
    (hx : Lexeme.first? (Text.skipBlank l.rest) = some (x, rest)) (c : Call) :
    l.call c = (some (.ok (x.token l.position (l.behind x rest).position)), l.behind x rest) := by
  cases c with
  | nextToken => rw [call, nextToken_of_some hx]
  | next =>
      have hl : isLast (.ok (x.token l.position (l.behind x rest).position)) = false :=
        Lexeme.isEnd_token (Lexeme.proper_of_first? hx) ..
      rw [call, next?_of_unfinished hf, nextToken_of_some hx]
      simp only [hl, Bool.or_false]

theorem call_of_blank (hb : Text.skipBlank l.rest = []) (c : Call) :
    Text.skipBlank (l.call c).2.rest = [] ∧
      ∀ answers, delivered ((l.call c).1 :: answers) = delivered answers := by
  have hn : Text.skipBlank l.nextToken.2.rest = [] ∧
      l.nextToken.1 = .ok (.endOfInput l.position l.skipBlank.position) := by
    rw [nextToken_of_blank hb]
    exact ⟨congrArg Text.skipBlank hb, rfl⟩
  cases c with
  | nextToken =>
      rw [call, hn.2]
      exact ⟨hn.1, fun _ => rfl⟩
  | next =>
      cases hf : l.finished with
      | true =>
          rw [call, next?_of_finished hf]
          exact ⟨hb, fun _ => rfl⟩
      | false =>
          rw [call, next?_of_unfinished hf, hn.2]
          exact ⟨hn.1, fun _ => rfl⟩

theorem delivered_of_blank (hb : Text.skipBlank l.rest = []) (cs : List Call) :
    delivered (l.answers cs) = [] := by
  induction cs generalizing l with
  | nil => rfl
  | cons c cs ih =>
      obtain ⟨hr, hd⟩ := call_of_blank hb c
      rw [answers, hd, ih hr]

theorem endsAt_of_blank (h : l.StandsBehind source before) (hb : Text.skipBlank l.rest = []) :
    Item.EndsAt source before (.ok (.endOfInput l.position l.skipBlank.position)) := by
  have hr := h.skipBlank.source_eq
  have hs : source = before ++ Text.leadingBlank l.rest := by
    rwa [Lexer.skipBlank, advance, hb, List.append_nil] at hr
  refine ⟨rfl, h.position_eq, ?_, _, hs, Text.all_leadingBlank _⟩
  rw [hs]
  exact h.skipBlank.position_eq

theorem start_fault (start : Position) (l : Lexer) : (l.fault start).start = start := by
  unfold fault
  split
  · simp
  · split
    · simp
    · rfl

theorem delivered_of_none (hb : Text.skipBlank l.rest ≠ [])
    (h : Lexeme.first? (Text.skipBlank l.rest) = none) (hf : l.finished = false) (cs : List Call) :
    delivered (l.answers cs) = [] := by
  cases cs with
  | nil => rfl
  | cons c cs =>
      cases c <;> simp [answers, call, next?_of_unfinished hf, nextToken_of_none hb h, delivered]

/-- What a lexer reads by iteration: tokens that tile its source, which calls of any kind deliver
as well, and one item more. -/
structure Reads (source before : List Char) (l : Lexer) (items : List Item) (ts : List Token)
    (last : Item) (stop : List Char) : Prop where
  items_eq : items = ts.map .ok ++ [last]
  not_end : ∀ t ∈ ts, t.isEnd = false
  tiles : Tiles source before ts stop
  ends : last.EndsAt source stop
  delivered_eq : ∀ cs, delivered (l.answers cs) = ts.take cs.length

theorem StandsBehind.reads_blank (h : l.StandsBehind source before) (hf : l.finished = false)
    (hs : Text.skipBlank l.rest = []) (n : Nat) :
    Reads source before l (l.take (n + 1)) []
      (.ok (.endOfInput l.position l.skipBlank.position)) before := by
  refine ⟨take_last n hf (nextToken_of_blank hs) rfl, by simp, .done, endsAt_of_blank h hs, ?_⟩
  intro cs
  rw [delivered_of_blank hs, List.take_nil]

theorem StandsBehind.reads_none (h : l.StandsBehind source before) (hf : l.finished = false)
    (hs : Text.skipBlank l.rest ≠ []) (hx : Lexeme.first? (Text.skipBlank l.rest) = none)
    (n : Nat) :
    Reads source before l (l.take (n + 1)) [] (.error (l.skipBlank.fault l.position)) before := by
  refine ⟨take_last n hf (nextToken_of_none hs hx) rfl, by simp, .done, ?_, ?_⟩
  · exact (start_fault ..).trans h.position_eq
  · intro cs
    rw [delivered_of_none hs hx hf, List.take_nil]

theorem StandsBehind.reads_some {n : Nat} {last : Item} (h : l.StandsBehind source before)
    (hb : before ≠ [] → Text.skipBlank l.rest = l.rest) (hf : l.finished = false)
    (hx : Lexeme.first? (Text.skipBlank l.rest) = some (x, rest))
    (hr : Reads source (before ++ Text.leadingBlank l.rest ++ x.written ++ Text.leadingBlank rest)
      (l.behind x rest) ((l.behind x rest).take n) ts last stop) :
    Reads source before l (l.take (n + 1))
      (x.token l.position (l.behind x rest).position :: ts) last stop := by
  have hn := Lexeme.isEnd_token (Lexeme.proper_of_first? hx) l.position (l.behind x rest).position
  constructor
  · rw [take_some n hf hx, hr.items_eq]
    rfl
  · exact List.forall_mem_cons.2 ⟨hn, hr.not_end⟩
  · refine .next (h.liesIn hx) (fun hn => Text.leadingBlank_of_skipBlank (hb hn)) ?_
    rw [Lexeme.written_token]
    exact hr.tiles
  · exact hr.ends
  · intro cs
    cases cs with
    | nil => rfl
    | cons c cs =>
        rw [answers, call_of_some hf hx, delivered, hn, hr.delivered_eq]
        rfl

theorem StandsBehind.exists_reads (n : Nat) (h : l.StandsBehind source before)
    (hb : before ≠ [] → Text.skipBlank l.rest = l.rest) (hf : l.finished = false)
    (hn : l.rest.length < n) : ∃ ts last stop, Reads source before l (l.take n) ts last stop := by
  induction n generalizing l before with
  | zero => exact absurd hn (Nat.not_lt_zero _)
  | succ n ih =>
      by_cases hs : Text.skipBlank l.rest = []
      · exact ⟨_, _, _, h.reads_blank hf hs n⟩
      · cases hx : Lexeme.first? (Text.skipBlank l.rest) with
        | none => exact ⟨_, _, _, h.reads_none hf hs hx n⟩
        | some split =>
            obtain ⟨x, rest⟩ := split
            have hlt := length_behind_lt hx
            obtain ⟨ts, last, stop, hr⟩ :=
              ih (h.behind hx) (fun _ => Text.skipBlank_skipBlank rest) hf (by omega)
            exact ⟨_, last, stop, h.reads_some hb hf hx hr⟩

theorem isLast_or_some (l : Lexer) :
    isLast l.nextToken.1 = true ∨
      ∃ x rest, Lexeme.first? (Text.skipBlank l.rest) = some (x, rest) := by
  by_cases hb : Text.skipBlank l.rest = []
  · rw [nextToken_of_blank hb]
    exact .inl rfl
  · cases hx : Lexeme.first? (Text.skipBlank l.rest) with
    | none =>
        rw [nextToken_of_none hb hx]
        exact .inl rfl
    | some split => exact .inr ⟨split.1, split.2, rfl⟩

theorem answers_next (n : Nat) (hf : l.finished = false) (hn : l.rest.length < n) :
    let cs := List.replicate (l.take n).length Call.next
    l.answers cs = (l.take n).map some ∧ (l.calls cs).finished = true := by
  induction n generalizing l with
  | zero => exact absurd hn (Nat.not_lt_zero _)
  | succ n ih =>
      rcases isLast_or_some l with hl | ⟨x, rest, hx⟩
      · have ht : l.take (n + 1) = [l.nextToken.1] := take_last n hf rfl hl
        rw [ht, List.length_singleton, List.replicate_one]
        simp only [answers, calls, List.foldl_cons, List.foldl_nil, call, next?_of_unfinished hf,
          hl, Bool.or_true]
        exact ⟨rfl, trivial⟩
      · have hlt := length_behind_lt hx
        obtain ⟨ha, hc⟩ := ih (l := l.behind x rest) hf (by omega)
        rw [take_some n hf hx, List.length_cons, List.replicate_succ]
        simp only [answers, calls, List.foldl_cons, call_of_some hf hx, List.map_cons]
        exact ⟨congrArg (List.cons _) ha, hc⟩

theorem finished_call (h : l.finished = true) (c : Call) : (l.call c).2.finished = true := by
  cases c with
  | next => rwa [call, next?_of_finished h]
  | nextToken =>
      by_cases hb : Text.skipBlank l.rest = []
      · rw [call, nextToken_of_blank hb]
        exact h
      · cases hx : Lexeme.first? (Text.skipBlank l.rest) with
        | none => rw [call, nextToken_of_none hb hx]
        | some split => rwa [call, nextToken_of_some hx]

theorem finished_calls (h : l.finished = true) (cs : List Call) : (l.calls cs).finished = true := by
  induction cs generalizing l with
  | nil => exact h
  | cons c cs ih => exact ih (finished_call h c)

theorem length_take_le (n : Nat) (l : Lexer) : (l.take n).length ≤ n := by
  induction n generalizing l with
  | zero => exact Nat.le_refl _
  | succ n ih =>
      rw [take]
      split
      · exact Nat.zero_le _
      · exact Nat.succ_le_succ (ih _)

end Lexer

theorem Item.EndsAt.exists_pieces (htile : Tiles source [] ts stop)
    (h : Item.EndsAt source stop (.ok t)) :
    ∃ pieces : List (List Char), (ts ++ [t]).map (Token.piece? source) = pieces.map some ∧
      pieces.flatten = source := by
  obtain ⟨pieces, hp, hf⟩ := htile.exists_pieces
  obtain ⟨-, hstart, hstop, blanks, hb, -⟩ := h
  have hs := Text.slice?_append_append stop blanks []
  rw [List.append_nil, ← Text.size_append, ← hb] at hs
  refine ⟨pieces ++ [blanks], ?_, ?_⟩
  · rw [List.map_append, List.map_append, hp, List.map_singleton, List.map_singleton, Token.piece?,
      hstart, hstop]
    exact congrArg (pieces.map some ++ [·]) hs
  · rw [List.flatten_append, List.flatten_singleton, hb]
    exact congrArg (· ++ blanks) hf

/-- The tokens of a source tile it, whether they are fetched by iteration or one by one, and behind
them comes the end of the source or a diagnostic. Then iteration is over. -/
theorem tokens_tile (source : String) :
    (∀ cs : List Call, ∃ before,
      source.toList = before ++ ((Lexer.ofSource source).calls cs).rest ∧
      ((Lexer.ofSource source).calls cs).position.offset = Text.size before ∧
      ((Lexer.ofSource source).calls cs).position.index = 1 + before.length) ∧
    ∃ (ts : List Token) (last : Item) (stop : List Char),
      tokenize source = ts.map .ok ++ [last] ∧
      (tokenize source).length ≤ source.toList.length + 1 ∧
      (∀ t ∈ ts, t.isEnd = false) ∧
      Tiles source.toList [] ts stop ∧
      (∀ us t vs, ts = us ++ t :: vs → t.start = (us.getLast?.map Token.stop).getD .start) ∧
      (∀ t ∈ ts, t.start.column < t.stop.column) ∧
      last.EndsAt source.toList stop ∧
      (∀ t, last = .ok t → ∃ pieces : List (List Char),
        (ts ++ [t]).map (Token.piece? source.toList) = pieces.map some ∧
          pieces.flatten = source.toList) ∧
      (∀ cs, delivered ((Lexer.ofSource source).answers cs) = ts.take cs.length) ∧
      let run := List.replicate (tokenize source).length Call.next
      (Lexer.ofSource source).answers run = (tokenize source).map some ∧
        ∀ cs, ((Lexer.ofSource source).calls (run ++ cs)).next?.1 = none := by
  have h := Lexer.standsBehind_ofSource source
  have hn : (Lexer.ofSource source).rest.length < source.toList.length + 1 := Nat.lt_succ_self _
  constructor
  · intro cs
    obtain ⟨before, hb⟩ := h.calls cs
    exact ⟨before, hb.source_eq, congrArg Position.offset hb.position_eq,
      by rw [hb.position_eq, Position.index_behind]⟩
  · obtain ⟨ts, last, stop, hr⟩ := h.exists_reads _ (by simp) rfl hn
    obtain ⟨ha, hf⟩ := Lexer.answers_next _ rfl hn
    refine ⟨ts, last, stop, hr.items_eq, Lexer.length_take_le _ _, hr.not_end, hr.tiles,
      fun us t vs => hr.tiles.start_eq, hr.tiles.column_lt, hr.ends, ?_, hr.delivered_eq, ha, ?_⟩
    · rintro t rfl
      exact hr.ends.exists_pieces hr.tiles
    · intro cs
      rw [Lexer.calls, List.foldl_append]
      exact congrArg Prod.fst (Lexer.next?_of_finished (Lexer.finished_calls hf cs))

end FindExpr

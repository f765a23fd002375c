import FindExpr.Proofs.Lexer.Replacement
import FindExpr.Proofs.Query.Agreement
import FindExpr.Proofs.Recognizer.Notes

namespace FindExpr

open Grammar Recognizer

def TokenKind.all : List TokenKind :=
  [.endOfInput, .literal]
    ++ [Keyword.select, .filter, .orderBy, .limit, .offset, .like, .and, .or, .omits, .asc,
      .desc].map .keyword
    ++ [Symbol.leftParen, .rightParen, .eq, .lt, .gt, .le, .ge, .comma].map .symbol

theorem TokenKind.find?_display (k : TokenKind) :
    all.find? (·.display == k.display) = some k := by
  cases k with
  | endOfInput | literal => decide
  | keyword word => cases word <;> decide
  | symbol sign => cases sign <;> decide

theorem TokenKind.display_injective : Function.Injective display := by
  intro k k' h
  have hk := find?_display k
  rw [h, find?_display k'] at hk
  exact (Option.some.inj hk).symm

/-- What the diagnostic names as expected: kinds that may come behind the tokens before the one that
it is about, and the kind of that one is none of them. -/
def Diagnostic.Expects (source : String) (d : Diagnostic) (names : List String) : Prop :=
  ∃ (before : List Token) (t : Token) (rest : List Item),
    tokenize source = before.map .ok ++ .ok t :: rest ∧ d.start = t.start ∧
      (∀ name ∈ names, ∃ k : TokenKind, k.display = name) ∧
      ∀ k : TokenKind, k.display ∈ names →
        (∃ w, Derives (.rule .query) (kinds before ++ k :: w)) ∧ k ≠ t.kind

/-- The note suggests to put the token that the diagnostic is about into double quotes. The source
with them is not rejected at that token, nor in front of it. -/
def Note.Mends (limit : Nat) (source : String) (d : Diagnostic) (n : Note) : Prop :=
  ∃ (before : List Token) (t : Token) (rest : List Item) (front back : List Char),
    tokenize source = before.map .ok ++ .ok t :: rest ∧ d.start = t.start ∧
      t.kind.isKeyword = true ∧
      source.toList = front ++ t.value.toList ++ back ∧ t.start = .behind front ∧
      let quoted := QuoteStyle.double.enclose t.value.toList
      n.message.toList = '`' :: t.value.toList
        ++ "` is a keyword; quote it to use it as a value, e.g. ".toList ++ quoted ∧
      let mended := String.ofList (front ++ quoted ++ back)
      check limit mended = .ok () ∨
        ∃ e, check limit mended = .error e ∧ t.start.precedes e.start = true

variable {limit : Nat} {source : String} {q : State} {t : Token} {d : Diagnostic} {n : Note}
  {names : List String}

theorem expects_of_check (h : check limit source = .error d)
    (hc : (∃ found, d.cause = .unexpectedToken names found) ∨ d.cause = .unexpectedEnd names) :
    d.Expects source names := by
  rcases exists_rejection h with hd | ⟨ts, es, q, t, rest, hi, p, hr⟩
  · obtain ⟨style, lead, blanks, text, hd⟩ := exists_runaway_of_mem hd
    simp [hd.cause_eq] at hc
  · obtain ⟨ht, rfl⟩ : t.kind ∉ q.expected ∧ names = q.expected.map TokenKind.display := by
      rcases hr.cause_cases with ⟨-, hu | hu⟩ | ⟨ht, hu⟩
      · simp [hu] at hc
      · simp [hu] at hc
      · refine ⟨ht, ?_⟩
        cases he : t.isEnd <;> simpa [hu, he, eq_comm] using hc
    refine ⟨ts, t, rest, hi, hr.start_eq, fun name hn => ?_, fun k hk => ?_⟩
    · obtain ⟨k, -, rfl⟩ := List.mem_map.1 hn
      exact ⟨k, rfl⟩
    · rw [List.mem_map_of_injective TokenKind.display_injective] at hk
      exact ⟨p.exists_derives_of_mem_expected hk, fun he => ht (he ▸ hk)⟩

theorem mem_of_quoting {message : List Char}
    (h : "quote it to use it as a value".toList <:+: message) : 'v' ∈ message :=
  h.subset (by decide)

theorem Recognizer.Remark.quoting_of_message (h : Remark q t n) (hk : n.kind = .help)
    (hm : "quote it to use it as a value".toList <:+: n.message.toList) :
    .literal ∈ q.expected ∧ t.kind.isKeyword = true ∧ n.message = t.quotingHelp := by
  cases h with
  | quoting hq ht => exact ⟨hq, ht, rfl⟩
  | clauses | spaces => exact absurd (mem_of_quoting hm) (by decide +kernel)
  | unclosed => cases hk

theorem not_quoting_of_runaway {text lead blanks body : List Char} {style : QuoteStyle}
    (h : Runaway text style lead blanks body d) (hn : n ∈ d.notes) :
    ¬ "quote it to use it as a value".toList <:+: n.message.toList := by
  have hs : 'v' ∉ "string started here".toList := by decide
  simp only [h.notes_eq, List.mem_cons, List.not_mem_nil, or_false] at hn
  intro hm
  have hv := mem_of_quoting hm
  rcases hn with rfl | rfl
  · exact hs hv
  · cases style <;> exact absurd hv (by decide)

theorem mended_of_path {ts : List Token} {es : List Event} {more : List Item} {t' : Token}
    (p : Path limit .start ts es q) (hq : .literal ∈ q.expected) (ht : t'.kind = .literal)
    (hi : tokenize source = ts.map .ok ++ .ok t' :: more) :
    check limit source = .ok () ∨
      ∃ e, check limit source = .error e ∧ t'.start.precedes e.start = true := by
  obtain ⟨r, hr⟩ : ∃ r, (step limit q t').verdict = .continue r :=
    exists_continue_of_literal hq ht
  have hs : step limit q t' = ⟨(step limit q t').events, .continue r⟩ := by rw [← hr]
  have hi' : tokenize source = (ts ++ [t']).map .ok ++ more := by simp [hi]
  cases hc : check limit source with
  | ok => exact .inl rfl
  | error e => exact .inr ⟨e, rfl, precedes_of_check hi' (p.append (.single hs)) hc t' (by simp)⟩

theorem mends_of_check (h : check limit source = .error d) (hn : n ∈ d.notes)
    (hk : n.kind = .help) (hm : "quote it to use it as a value".toList <:+: n.message.toList) :
    n.Mends limit source d := by
  rcases exists_rejection h with hd | ⟨ts, es, q, t, rest, hi, p, hr⟩
  · obtain ⟨style, lead, blanks, text, hd⟩ := exists_runaway_of_mem hd
    exact absurd hm (not_quoting_of_runaway hd hn)
  · obtain ⟨hq, ht, hmessage⟩ := (hr.remark hn).quoting_of_message hk hm
    have hts : ts ≠ [] := by
      rintro rfl
      cases p
      cases hq
    obtain ⟨word, hw⟩ : ∃ word, t.kind = .keyword word := by
      cases hw : t.kind with
      | keyword word => exact ⟨word, rfl⟩
      | _ => simp [hw, TokenKind.isKeyword] at ht
    obtain ⟨front, back, hs, hf, t', more, ht', hst, hi'⟩ :=
      tokenize_enclose hi hts p.isEnd_eq_false hw .double
    refine ⟨ts, t, rest, front, back, hi, hr.start_eq, ht, hs, hf, ?_, ?_⟩
    · simp [hmessage, Token.quotingHelp, QuoteStyle.enclose, QuoteStyle.mark]
    · rw [← hst]
      exact mended_of_path p hq ht' hi'

/-- What syntax errors suggest is sound: every kind they name as expected can come next, and if they
suggest to quote a keyword, then the source is read on over it once it is quoted. -/
theorem suggestions_sound (source : String) (limit : Nat) (d : Diagnostic)
    (h : check limit source = .error d) :
    (∀ names, (∃ found, d.cause = .unexpectedToken names found) ∨ d.cause = .unexpectedEnd names →
      d.Expects source names) ∧
    ∀ n ∈ d.notes, n.kind = .help →
      "quote it to use it as a value".toList <:+: n.message.toList → n.Mends limit source d :=
  ⟨fun _ => expects_of_check h, fun _ => mends_of_check h⟩

theorem suggestions_sound_value :
    let d := (Token.mk (.keyword .or) "or" none ⟨10, 10⟩ ⟨12, 12⟩).unexpected [.literal]
    check 1 "WHERE a = or" = .error d ∧ d.Expects "WHERE a = or" ["string"] ∧
      (∃ n ∈ d.notes, n.kind = .help ∧
        "quote it to use it as a value".toList <:+: n.message.toList) ∧
      ∀ n ∈ d.notes, n.Mends 1 "WHERE a = or" d := by
  intro d
  have h : check 1 "WHERE a = or" = .error d := rfl
  have hs := suggestions_sound "WHERE a = or" 1 d h
  let help : Note := ⟨.help, "`or` is a keyword; quote it to use it as a value, e.g. \"or\"", none⟩
  have hd : d.notes = [help] := rfl
  have hm : "quote it to use it as a value".toList <:+: help.message.toList :=
    ⟨"`or` is a keyword; ".toList, ", e.g. \"or\"".toList, by decide +kernel⟩
  have hn : help ∈ d.notes := hd ▸ List.mem_singleton_self help
  refine ⟨h, hs.1 _ (.inl ⟨_, rfl⟩), ⟨help, hn, rfl, hm⟩, fun n hn => ?_⟩
  obtain rfl := List.mem_singleton.1 (hd ▸ hn)
  exact hs.2 help hn rfl hm

end FindExpr

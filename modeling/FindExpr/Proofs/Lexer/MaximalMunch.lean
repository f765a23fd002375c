import FindExpr.Proofs.Lexer.Items
import FindExpr.Proofs.Lexer.Units
import FindExpr.Proofs.Position

namespace FindExpr

namespace MaximalMunch

/-- The keyword that a word spells, in any case. `ORDER BY` is no word. -/
def keyword? (w : List Char) : Option Keyword :=
  match String.ofList (w.map Char.toUpper) with
  | "SELECT" => some .select
  | "WHERE" => some .filter
  | "LIKE" => some .like
  | "AND" => some .and
  | "OR" => some .or
  | "OMIT" => some .omits
  | "ASC" => some .asc
  | "DESC" => some .desc
  | "LIMIT" => some .limit
  | "OFFSET" => some .offset
  | _ => none

def orderBy? (run rest : List Char) : Option (Lexeme × List Char) :=
  let blanks := Text.leadingBlank rest
  let next := (Text.skipBlank rest).takeWhile isBare
  if Text.sameFolded run "ORDER".toList ∧ blanks ≠ [] ∧ Text.sameFolded next "BY".toList then
    some (⟨.keyword .orderBy, run ++ blanks ++ next, none⟩, (Text.skipBlank rest).dropWhile isBare)
  else none

def word (run rest : List Char) : Lexeme × List Char :=
  match orderBy? run rest, keyword? run with
  | some split, _ => split
  | none, some k => (⟨.keyword k, run, none⟩, rest)
  | none, none => (⟨.literal, run, none⟩, rest)

def quoted? (style : QuoteStyle) (text : List Char) : Option (Lexeme × List Char) :=
  match (units text).dropWhile style.inside with
  | [] => none
  | _ :: tail =>
    some (⟨.literal, ((units text).takeWhile style.inside).flatten, some style⟩, tail.flatten)

def sign (s : Symbol) (rest : List Char) : Option (Lexeme × List Char) :=
  some (⟨.symbol s, s.text.toList, none⟩, rest)

/-- The lexeme that begins with a character, which is not blank, and what follows it. There is none
if the character is a quote that is never closed. -/
def first? : Char → List Char → Option (Lexeme × List Char)
  | '<', '=' :: rest => sign .le rest
  | '>', '=' :: rest => sign .ge rest
  | '<', rest => sign .lt rest
  | '>', rest => sign .gt rest
  | '=', rest => sign .eq rest
  | '(', rest => sign .leftParen rest
  | ')', rest => sign .rightParen rest
  | ',', rest => sign .comma rest
  | '\x22', rest => quoted? .double rest
  | '\x27', rest => quoted? .single rest
  | c, rest => some (word (c :: rest.takeWhile isBare) (rest.dropWhile isBare))

variable {c : Char} {text rest next w : List Char} {x : Lexeme}

theorem spells_eq (w : List Char) (k : Keyword) :
    Lexeme.spells w k = (String.ofList (w.map Char.toUpper) == k.text) := by
  rw [Lexeme.spells, Bool.eq_iff_iff, beq_iff_eq, beq_iff_eq, ← String.toList_inj,
    String.toList_ofList]

theorem keyword?_eq (w : List Char) :
    keyword? w = Lexeme.keywords.find? (Lexeme.spells w) := by
  simp only [keyword?, funext (spells_eq w)]
  generalize String.ofList (w.map Char.toUpper) = s
  split
  case h_11 =>
    symm
    rw [List.find?_eq_none]
    simp only [Lexeme.keywords, Keyword.text, List.forall_mem_cons, beq_iff_eq]
    grind
  all_goals rfl

theorem orderBy?_eq (hw : w.all isBare = true) (hr : wordEnds rest = true) :
    orderBy? w rest = Lexeme.orderBy? (w ++ rest) := by
  have ho : Text.sameFolded w "ORDER".toList = true ↔ w.map Char.toUpper = "ORDER".toList :=
    beq_iff_eq
  have hb (next : List Char) : Text.sameFolded next "BY".toList = true ↔
      next.map Char.toUpper = "BY".toList := beq_iff_eq
  rw [Lexeme.orderBy?_append hw hr, Lexeme.wholeWord?_eq (by decide), orderBy?]
  simp only [ho, hb]
  by_cases h₁ : w.map Char.toUpper = "ORDER".toList ∧ Text.leadingBlank rest ≠ []
  · by_cases h₂ : ((Text.skipBlank rest).takeWhile isBare).map Char.toUpper = "BY".toList
    · rw [if_pos ⟨h₁.1, h₁.2, h₂⟩, if_pos h₁, if_pos h₂, Option.map_some]
    · rw [if_neg (fun h => h₂ h.2.2), if_pos h₁, if_neg h₂, Option.map_none]
  · rw [if_neg (fun h => h₁ ⟨h.1, h.2.1⟩), if_neg h₁]

theorem word_eq (hn : w ≠ []) (hw : w.all isBare = true) (hr : wordEnds rest = true) :
    some (word w rest) = Lexeme.first? (w ++ rest) := by
  rw [Lexeme.first?_word hn hw hr, ← orderBy?_eq hw hr, word, Lexeme.word, Lexeme.classify,
    ← keyword?_eq]
  cases orderBy? w rest <;> cases keyword? w <;> rfl

theorem quoted?_eq (style : QuoteStyle) (text : List Char) :
    quoted? style text = Lexeme.first? (style.mark :: text) := by
  rw [Lexeme.first?_mark, Lexeme.quoted?, QuoteStyle.quoted?, if_pos rfl,
    QuoteStyle.body?_eq_units, quoted?]
  cases (units text).dropWhile style.inside <;> rfl

theorem first?_eq (hb : Text.isBlank c = false) (text : List Char) :
    first? c text = Lexeme.first? (c :: text) := by
  have hne (h : ∀ rest, text = '=' :: rest → False) : text.head? ≠ some '=' := by
    intro he
    obtain ⟨rest, hr⟩ := List.head?_eq_some_iff.1 he
    exact h rest hr
  fun_cases first? c text with
  | case1 => exact (Lexeme.first?_sign .le (by simp)).symm
  | case2 => exact (Lexeme.first?_sign .ge (by simp)).symm
  | case3 _ h => exact (Lexeme.first?_sign .lt fun _ => hne h).symm
  | case4 _ h => exact (Lexeme.first?_sign .gt fun _ => hne h).symm
  | case5 => exact (Lexeme.first?_sign .eq (by simp)).symm
  | case6 => exact (Lexeme.first?_sign .leftParen (by simp)).symm
  | case7 => exact (Lexeme.first?_sign .rightParen (by simp)).symm
  | case8 => exact (Lexeme.first?_sign .comma (by simp)).symm
  | case9 => exact quoted?_eq .double text
  | case10 => exact quoted?_eq .single text
  | case11 =>
      have hd : c ∉ delimiters := by
        simp only [delimiters, List.mem_cons, List.not_mem_nil, or_false, not_or]
        grind
      have hc : isBare c = true := by simp [isBare, hb, hd]
      have hw : (c :: text.takeWhile isBare).all isBare = true := by
        rw [List.all_cons, hc, List.all_takeWhile, Bool.and_self]
      rw [word_eq (List.cons_ne_nil _ _) hw (wordEnds_dropWhile text), List.cons_append,
        List.takeWhile_append_dropWhile]

theorem first?_mark (style : QuoteStyle) (text : List Char) :
    first? style.mark text = quoted? style text := by
  cases style <;> rfl

theorem quoted?_eq_none_iff {style : QuoteStyle} :
    quoted? style text = none ↔ [style.mark] ∉ units text := by
  rw [← QuoteStyle.dropWhile_inside_eq_nil_iff, quoted?]
  cases (units text).dropWhile style.inside <;> simp

theorem first?_eq_none_iff :
    first? c text = none ↔ ∃ style : QuoteStyle, c = style.mark ∧ [style.mark] ∉ units text := by
  constructor
  · fun_cases first? c text with
    | case9 => exact fun h => ⟨.double, rfl, quoted?_eq_none_iff.1 h⟩
    | case10 => exact fun h => ⟨.single, rfl, quoted?_eq_none_iff.1 h⟩
    | _ => exact fun h => nomatch h
  · rintro ⟨style, rfl, h⟩
    rw [first?_mark, quoted?_eq_none_iff.2 h]

theorem length_skipBlank_lt (h : Text.skipBlank rest = c :: text)
    (h' : first? c text = some (x, next)) : (Text.skipBlank next).length < rest.length := by
  have h₁ := Text.length_skipBlank_le rest
  have h₂ := Text.length_skipBlank_le next
  have hb := Text.isBlank_of_skipBlank h
  have h₃ := Lexeme.length_lt_of_first? ((first?_eq hb text).symm.trans h')
  rw [h] at h₁
  omega

def unterminated (mark : Char) (start opening stop : Position) : Diagnostic where
  message := "runaway string"
  cause := .unterminatedString
  start := start
  stop := stop
  notes := [⟨.note, "string started here", some opening⟩,
    ⟨.help, "add a closing `" ++ String.singleton mark ++ "`", none⟩]

def items (seen rest : List Char) : List Item :=
  let blanks := Text.leadingBlank rest
  match h : Text.skipBlank rest with
  | [] => [.ok (.endOfInput (.behind seen) (.behind (seen ++ rest)))]
  | c :: text =>
    match h' : first? c text with
    | none =>
      [.error (unterminated c (.behind seen) (.behind (seen ++ blanks)) (.behind (seen ++ rest)))]
    | some (x, next) =>
      have := length_skipBlank_lt h h'
      let seen' := seen ++ blanks ++ x.written ++ Text.leadingBlank next
      .ok ⟨x.kind, String.ofList x.value, x.quote, .behind seen, .behind seen'⟩
        :: items seen' (Text.skipBlank next)
termination_by rest.length

/-- The places where tokens begin, as what the source has from there on. -/
inductive Boundary : List Char → List Char → Prop
  | first {source} : Boundary source (Text.skipBlank source)
  | next {source c text x rest place} (h : Text.skipBlank source = c :: text)
      (hx : first? c text = some (x, rest)) (hb : Boundary (Text.skipBlank rest) place) :
      Boundary source place

/-- Whether a quote that is opened where a token begins is never closed. -/
def Unclosed (source : List Char) : Prop :=
  ∃ (style : QuoteStyle) (text : List Char),
    Boundary source (style.mark :: text) ∧ [style.mark] ∉ units text

theorem boundary_iff {source place : List Char} :
    Boundary source place ↔ place = Text.skipBlank source ∨
      ∃ c text x rest, Text.skipBlank source = c :: text ∧ first? c text = some (x, rest) ∧
        Boundary (Text.skipBlank rest) place := by
  constructor
  · rintro (_ | ⟨h, hx, hb⟩)
    · exact .inl rfl
    · exact .inr ⟨_, _, _, _, h, hx, hb⟩
  · rintro (rfl | ⟨c, text, x, rest, h, hx, hb⟩)
    · exact .first
    · exact .next h hx hb

theorem not_unclosed_of_blank (h : Text.skipBlank rest = []) : ¬ Unclosed rest := by
  rintro ⟨style, text, hb, -⟩
  rcases boundary_iff.1 hb with hb | ⟨c, text, x, rest, hr, -⟩
  · rw [h] at hb
    cases hb
  · rw [h] at hr
    cases hr

theorem unclosed_of_none (h : Text.skipBlank rest = c :: text) (hx : first? c text = none) :
    Unclosed rest := by
  obtain ⟨style, rfl, hu⟩ := first?_eq_none_iff.1 hx
  exact ⟨style, text, h ▸ .first, hu⟩

theorem unclosed_iff_of_some (h : Text.skipBlank rest = c :: text)
    (hx : first? c text = some (x, next)) : Unclosed rest ↔ Unclosed (Text.skipBlank next) := by
  constructor
  · rintro ⟨style, text', hb, hu⟩
    rcases boundary_iff.1 hb with hb | ⟨c', text', x', next', hr, hx', hb⟩
    · rw [h] at hb
      obtain ⟨rfl, rfl⟩ := List.cons.inj hb
      rw [first?_eq_none_iff.2 ⟨style, rfl, hu⟩] at hx
      cases hx
    · rw [h] at hr
      obtain ⟨rfl, rfl⟩ := List.cons.inj hr
      rw [hx] at hx'
      obtain ⟨rfl, rfl⟩ := hx'
      exact ⟨style, _, hb, hu⟩
  · rintro ⟨style, text', hb, hu⟩
    exact ⟨style, text', .next h hx hb, hu⟩

theorem error_mem_items_iff {seen rest : List Char} :
    (∃ d, .error d ∈ items seen rest) ↔ Unclosed rest := by
  fun_induction items seen rest with
  | case1 seen rest hr => exact iff_of_false (by simp) (not_unclosed_of_blank hr)
  | case2 seen rest blanks c text hr hx =>
      exact iff_of_true ⟨_, List.mem_singleton_self _⟩ (unclosed_of_none hr hx)
  | case3 seen rest blanks c text hr x next hx hlt seen' ih =>
      rw [unclosed_iff_of_some hr hx, ← ih]
      simp

end MaximalMunch

namespace Lexer

variable {l : Lexer} {start : Position} {text : List Char}

theorem fault_eq {style : QuoteStyle} (h : l.rest = style.mark :: text)
    (hs : start.precedes (l.position.after l.rest) = true) :
    l.fault start =
      MaximalMunch.unterminated style.mark start l.position (l.position.after l.rest) := by
  cases style with
  | double | single =>
      simp [fault, h, QuoteStyle.mark, Diagnostic.on, Diagnostic.noteAt, Diagnostic.help,
        Diagnostic.withNote, Diagnostic.spanningTo, MaximalMunch.unterminated] at hs ⊢
      simp [hs]

theorem position_skipBlank {seen : List Char} (hp : l.position = .behind seen) :
    l.skipBlank.position = .behind (seen ++ Text.leadingBlank l.rest) := by
  rw [Position.behind_append, ← hp]
  rfl

theorem position_behind {seen : List Char} (hp : l.position = .behind seen) (x : Lexeme)
    (rest : List Char) : (l.behind x rest).position =
      .behind (seen ++ Text.leadingBlank l.rest ++ x.written ++ Text.leadingBlank rest) := by
  rw [Position.behind_append, Position.behind_append, ← position_skipBlank hp]
  rfl

theorem fault_skipBlank {seen : List Char} {style : QuoteStyle} (hp : l.position = .behind seen)
    (h : Text.skipBlank l.rest = style.mark :: text) :
    l.skipBlank.fault l.position = MaximalMunch.unterminated style.mark (.behind seen)
      (.behind (seen ++ Text.leadingBlank l.rest)) (.behind (seen ++ l.rest)) := by
  have hn : l.rest ≠ [] := by
    intro hn
    rw [hn] at h
    cases h
  have hstop : l.skipBlank.position.after l.skipBlank.rest = .behind (seen ++ l.rest) := by
    rw [position_skipBlank hp, ← Position.behind_append, List.append_assoc]
    exact congrArg (Position.behind <| seen ++ ·) (Text.leadingBlank_append_skipBlank l.rest)
  have hlt : l.position.precedes (l.skipBlank.position.after l.skipBlank.rest) = true := by
    rw [hstop, hp]
    exact Position.behind_precedes hn seen
  rw [fault_eq h hlt, hstop, hp, position_skipBlank hp]

theorem take_eq_items {seen : List Char} {n : Nat} (hp : l.position = .behind seen)
    (hf : l.finished = false) (hn : l.rest.length < n) :
    l.take n = MaximalMunch.items seen l.rest := by
  induction n generalizing l seen with
  | zero => exact absurd hn (Nat.not_lt_zero _)
  | succ n ih =>
      rw [MaximalMunch.items]
      split
      · next hr =>
          have hb := Text.leadingBlank_append_skipBlank l.rest
          rw [hr, List.append_nil] at hb
          rw [take_last n hf (nextToken_of_blank hr) rfl, hp, position_skipBlank hp, hb]
      · next c text hr =>
          have hc := MaximalMunch.first?_eq (Text.isBlank_of_skipBlank hr) text
          rw [← hr] at hc
          split
          · next hx =>
              obtain ⟨style, rfl, -⟩ := MaximalMunch.first?_eq_none_iff.1 hx
              rw [hc] at hx
              rw [take_last n hf (nextToken_of_none (by simp [hr]) hx) rfl, fault_skipBlank hp hr]
          · next x rest hx =>
              rw [hc] at hx
              have hlt := length_behind_lt hx
              rw [take_some n hf hx, hp, position_behind hp]
              refine congrArg (List.cons _) ?_
              exact ih (l := l.behind x rest) (position_behind hp x rest) hf (by omega)

theorem cause_fault {style : QuoteStyle} (h : l.rest = style.mark :: text) :
    (l.fault start).cause = .unterminatedString := by
  cases style <;> simp [fault, h, QuoteStyle.mark]

theorem cause_of_nextToken {d : Diagnostic} (h : l.nextToken.1 = .error d) :
    d.cause = .unterminatedString := by
  cases hr : Text.skipBlank l.rest with
  | nil =>
      rw [nextToken_of_blank hr] at h
      cases h
  | cons c text =>
      cases hx : Lexeme.first? (Text.skipBlank l.rest) with
      | some split =>
          rw [nextToken_of_some hx] at h
          cases h
      | none =>
          rw [nextToken_of_none (by simp [hr]) hx] at h
          rw [hr, ← MaximalMunch.first?_eq (Text.isBlank_of_skipBlank hr) text] at hx
          obtain ⟨style, rfl, -⟩ := MaximalMunch.first?_eq_none_iff.1 hx
          cases h
          exact cause_fault hr

end Lexer

/-- The lexer finds the tokens of a source by maximal munch: they are of the same kinds, with the
same values, quotes and places, and it fails exactly where a quote that begins a token is never
closed. -/
theorem tokenize_eq_maximalMunch (source : String) :
    tokenize source = MaximalMunch.items [] source.toList ∧
      (∀ (l : Lexer) (d : Diagnostic), l.nextToken.1 = .error d → d.cause = .unterminatedString) ∧
      ((∃ d, .error d ∈ tokenize source) ↔ MaximalMunch.Unclosed source.toList) := by
  have h : tokenize source = MaximalMunch.items [] source.toList :=
    Lexer.take_eq_items rfl rfl (Nat.lt_succ_self _)
  refine ⟨h, fun l d => Lexer.cause_of_nextToken, ?_⟩
  rw [h]
  exact MaximalMunch.error_mem_items_iff

end FindExpr

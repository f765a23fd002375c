import FindExpr.Proofs.Lexer.Marks
import FindExpr.Proofs.Lexer.Scan
import FindExpr.Proofs.Text.Blank
import Mathlib.Data.List.Chain

namespace FindExpr

namespace Lexeme

/-- The lexemes that may be written into a text. -/
inductive Printable : Lexeme → Prop
  | sign (s : Symbol) : Printable ⟨.symbol s, s.text.toList, none⟩
  | keyword {k w} (hk : k ∈ keywords) (hw : w.map Char.toUpper = k.text.toList) :
      Printable ⟨.keyword k, w, none⟩
  | orderBy {o blanks b} (ho : o.map Char.toUpper = "ORDER".toList) (hn : blanks ≠ [])
      (hs : blanks.all Text.isBlank = true) (hb : b.map Char.toUpper = "BY".toList) :
      Printable ⟨.keyword .orderBy, o ++ blanks ++ b, none⟩
  | bare {w} (hn : w ≠ []) (hw : w.all isBare = true)
      (hk : ∀ k ∈ keywords, w.map Char.toUpper ≠ k.text.toList) : Printable ⟨.literal, w, none⟩
  | quoted (style : QuoteStyle) {us : List (List Char)} (hu : ∀ u ∈ us, style.BodyUnit u) :
      Printable ⟨.literal, us.flatten, some style⟩

def isWord (x : Lexeme) : Bool :=
  match x.kind, x.quote with
  | .keyword _, _ | .literal, none => true
  | _, _ => false

def BareText (capitals : String) (x : Lexeme) : Prop :=
  x.kind = .literal ∧ x.quote = none ∧ x.value.map Char.toUpper = capitals.toList

instance (capitals : String) (x : Lexeme) : Decidable (x.BareText capitals) :=
  inferInstanceAs (Decidable (_ ∧ _ ∧ _))

/-- Whether a lexeme and the one behind it are read as something else without blanks in between. -/
def Merges (x y : Lexeme) : Prop :=
  x.isWord = true ∧ y.isWord = true ∨
    (x.kind = .symbol .lt ∨ x.kind = .symbol .gt) ∧ y.kind = .symbol .eq

instance (x y : Lexeme) : Decidable (x.Merges y) := inferInstanceAs (Decidable (_ ∨ _))

structure EndsBefore (x : Lexeme) (rest : List Char) : Prop where
  word : x.isWord = true → wordEnds rest = true
  sign : x.kind = .symbol .lt ∨ x.kind = .symbol .gt → rest.head? ≠ some '='
  order : x.BareText "ORDER" → wholeWord? "BY".toList (Text.skipBlank rest) = none

end Lexeme

def Separated (p q : Lexeme × List Char) : Prop :=
  (p.1.Merges q.1 → p.2 ≠ []) ∧ ¬ (p.1.BareText "ORDER" ∧ q.1.BareText "BY")

instance (p q : Lexeme × List Char) : Decidable (Separated p q) :=
  inferInstanceAs (Decidable (_ ∧ _))

/-- Lexemes with the blanks behind them, and the blanks before the first one. -/
structure Layout where
  lead : List Char
  pieces : List (Lexeme × List Char)
  lead_blank : lead.all Text.isBlank = true
  printable : ∀ p ∈ pieces, p.1.Printable ∧ p.2.all Text.isBlank = true
  separated : pieces.IsChain Separated

namespace Layout

def print (pieces : List (Lexeme × List Char)) : List Char :=
  pieces.flatMap fun p => p.1.written ++ p.2

def text (l : Layout) : String := String.ofList (l.lead ++ print l.pieces)

def lexemes (l : Layout) : List Lexeme := l.pieces.map Prod.fst

end Layout

variable {x y : Lexeme} {sep text rest w : List Char} {pieces : List (Lexeme × List Char)}

theorem head?_append_ne {blanks : List Char} (h : blanks.all Text.isBlank = true)
    (ht : blanks = [] → text.head? ≠ some '=') : (blanks ++ text).head? ≠ some '=' := by
  cases blanks with
  | nil => exact ht rfl
  | cons c blanks =>
      rw [List.all_cons, Bool.and_eq_true] at h
      intro hc
      obtain rfl := Option.some.inj hc
      exact absurd h.1 (by decide)

namespace Lexeme

theorem Printable.isBare_head (h : x.Printable) :
    ∃ c cs, x.written = c :: cs ∧ isBare c = x.isWord ∧ (c = '=' → x.kind = .symbol .eq) := by
  have hw (w tail : List Char) (hn : w ≠ [] ∧ w.all isBare = true) :
      ∃ c cs, w ++ tail = c :: cs ∧ isBare c = true ∧ c ≠ '=' := by
    obtain ⟨c, w, rfl⟩ := List.exists_cons_of_ne_nil hn.1
    have hc := List.all_eq_true.1 hn.2 c List.mem_cons_self
    exact ⟨c, w ++ tail, rfl, hc, ne_of_isBare hc (by decide)⟩
  cases h with
  | sign s => cases s <;> exact ⟨_, _, rfl, by decide, by decide⟩
  | quoted style hu =>
      have hq : isBare style.mark = false ∧ style.mark ≠ '=' := by cases style <;> decide
      exact ⟨_, _, rfl, hq.1, fun h => absurd h hq.2⟩
  | @keyword k w hk hs =>
      obtain ⟨c, cs, he, hc, hne⟩ := hw w [] (bare_of_keyword hk hs)
      rw [List.append_nil] at he
      exact ⟨c, cs, he, hc, fun h => absurd h hne⟩
  | @orderBy o blanks b ho hn hs hb =>
      obtain ⟨c, cs, he, hc, hne⟩ := hw o (blanks ++ b) (bare_of_spelled (by decide) (by decide) ho)
      rw [← List.append_assoc] at he
      exact ⟨c, cs, he, hc, fun h => absurd h hne⟩
  | @bare w hn ha hk =>
      obtain ⟨c, cs, he, hc, hne⟩ := hw w [] ⟨hn, ha⟩
      rw [List.append_nil] at he
      exact ⟨c, cs, he, hc, fun h => absurd h hne⟩

theorem Printable.first?_append (h : x.Printable) (hr : x.EndsBefore rest) :
    first? (x.written ++ rest) = some (x, rest) := by
  cases h with
  | sign s => exact first?_sign s (fun h => hr.sign (by simpa using h))
  | quoted style hu => exact first?_enclose hu rest
  | @keyword k w hk he =>
      have ho : ∀ k ∈ keywords, k.text.toList ≠ "ORDER".toList := by decide
      obtain ⟨hn, ha⟩ := bare_of_keyword hk he
      have h := first?_word_append hn ha (hr.word rfl) fun h => absurd (he.symm.trans h) (ho k hk)
      rwa [word, classify_of_eq hk he] at h
  | orderBy ho hn hs' hb' => exact first?_orderBy ho hn hs' hb' (hr.word rfl)
  | bare hn ha hk =>
      have h := first?_word_append hn ha (hr.word rfl) fun he => hr.order ⟨rfl, rfl, he⟩
      rwa [word, classify_of_ne hk] at h

theorem wholeWord?_of_first? (h : first? text = some (x, rest)) (hx : ¬ x.BareText "BY") :
    wholeWord? "BY".toList text = none := by
  rw [Option.eq_none_iff_forall_not_mem]
  rintro ⟨b, behind⟩ hb
  obtain ⟨hs, hr⟩ := Option.filter_eq_some_iff.1 hb
  obtain ⟨rfl, hu⟩ := Text.splitFolded?_eq_some_iff.1 hs
  obtain ⟨hn, hw⟩ := bare_of_spelled (by decide) (by decide) hu
  have ho : "BY".toList ≠ "ORDER".toList := by decide
  have hk : ∀ k ∈ keywords, "BY".toList ≠ k.text.toList := by decide
  rw [first?_word_append hn hw hr fun h => absurd (hu.symm.trans h) ho] at h
  obtain rfl := congrArg Prod.fst (Option.some.inj h)
  exact hx ⟨classify_of_ne (hu ▸ hk), rfl, hu⟩

/-- A lexeme ends before one that it is separated from. -/
theorem endsBefore_of_separated {sep' : List Char} (hs : sep.all Text.isBlank = true)
    (hy : y.Printable) (hf : first? text = some (y, rest)) (h : Separated (x, sep) (y, sep')) :
    x.EndsBefore (sep ++ text) := by
  obtain ⟨hm, hb⟩ := h
  obtain ⟨c, cs, hw, hc, he⟩ := hy.isBare_head
  have ht := eq_append_of_first? hf
  refine ⟨fun hx => wordEnds_append hs fun hn => ?_, fun hx => head?_append_ne hs fun hn => ?_,
    fun hx => ?_⟩
  · have hn : y.isWord = false := by
      rw [Bool.eq_false_iff]
      exact fun hy => hm (.inl ⟨hx, hy⟩) hn
    simp [wordEnds, ht, hw, hc, hn]
  · have hn : c ≠ '=' := fun hc => hm (.inr ⟨hx, he hc⟩) hn
    simpa [ht, hw] using hn
  · rw [Text.skipBlank_append hs, skipBlank_of_first? hf]
    exact wholeWord?_of_first? hf fun hy => hb ⟨hx, hy⟩

end Lexeme

namespace Layout

@[simp] theorem print_cons (p : Lexeme × List Char) (pieces : List (Lexeme × List Char)) :
    print (p :: pieces) = p.1.written ++ (p.2 ++ print pieces) := by
  simp [print]

theorem first?_print (hp : ∀ p ∈ (x, sep) :: pieces, p.1.Printable ∧ p.2.all Text.isBlank = true)
    (hc : ((x, sep) :: pieces).IsChain Separated) :
    Lexeme.first? (x.written ++ (sep ++ print pieces)) = some (x, sep ++ print pieces) := by
  -- Whether `BY` follows a bare `ORDER` is known from how the next lexeme is read, hence the
  -- induction from the back.
  induction pieces generalizing x sep with
  | nil =>
      obtain ⟨hx, hs⟩ := hp _ List.mem_cons_self
      refine hx.first?_append ⟨fun _ => wordEnds_append hs fun _ => rfl,
        fun _ => head?_append_ne hs fun _ => by simp [print], fun _ => ?_⟩
      rw [Text.skipBlank_append hs]
      rfl
  | cons p pieces ih =>
      obtain ⟨y, sep'⟩ := p
      obtain ⟨⟨hx, hs⟩, hp⟩ := List.forall_mem_cons.1 hp
      obtain ⟨hsep, hc⟩ := List.isChain_cons_cons.1 hc
      rw [print_cons]
      have hy := (hp _ List.mem_cons_self).1
      exact hx.first?_append (Lexeme.endsBefore_of_separated hs hy (ih hp hc) hsep)

theorem scans_print (hp : ∀ p ∈ pieces, p.1.Printable ∧ p.2.all Text.isBlank = true)
    (hc : pieces.IsChain Separated) : Scans (print pieces) (pieces.map Prod.fst) [] := by
  induction pieces with
  | nil => exact .done
  | cons p pieces ih =>
      obtain ⟨x, sep⟩ := p
      have hs := (hp _ List.mem_cons_self).2
      rw [print_cons]
      exact .next (first?_print hp hc)
        (.blanks hs (ih (List.forall_mem_cons.1 hp).2 hc.tail))

theorem tokenize_text (l : Layout) :
    ∃ (ts : List Token) (last : Token), tokenize l.text = ts.map .ok ++ [.ok last] ∧
      last.isEnd = true ∧ ts.map Token.lexeme = l.lexemes := by
  apply tokenize_of_scans
  rw [text, String.toList_ofList]
  exact .blanks l.lead_blank (scans_print l.printable l.separated)

end Layout

end FindExpr

import FindExpr.Proofs.Lexer.Marks
import FindExpr.Proofs.Lexer.Scan
import FindExpr.Proofs.Text.Numeral
import FindExpr.Query.Render
import Mathlib.Data.List.Forall2

namespace FindExpr

def Lexeme.ofKind (kind : TokenKind) : Lexeme := ⟨kind, kind.display.toList, none⟩

def Lexeme.ofValue (value : String) : Lexeme :=
  if standsBare value.toList then ⟨.literal, value.toList, none⟩
  else ⟨.literal, escape value.toList, some .double⟩

def Comparator.kind : Comparator → TokenKind
  | eq => .symbol .eq
  | lt => .symbol .lt
  | gt => .symbol .gt
  | le => .symbol .le
  | ge => .symbol .ge
  | like => .keyword .like

def Connective.kind : Connective → TokenKind
  | and => .keyword .and
  | or => .keyword .or
  | omits => .keyword .omits

def Direction.kind : Direction → TokenKind
  | ascending => .keyword .asc
  | descending => .keyword .desc

open Lexeme

def Comparison.lexemes (c : Comparison) : List Lexeme :=
  [ofValue c.field, ofKind c.op.kind, ofValue c.value]

namespace Condition

def groupIf (grouped : Bool) (xs : List Lexeme) : List Lexeme :=
  if grouped then ofKind (.symbol .leftParen) :: xs ++ [ofKind (.symbol .rightParen)] else xs

def lexemes : Condition → List Lexeme
  | comparison c => c.lexemes
  | binary op lhs rhs =>
    groupIf (lhs.level < op.level) lhs.lexemes
      ++ ofKind op.kind :: groupIf (rhs.level ≤ op.level) rhs.lexemes

end Condition

def SortKey.lexemes (k : SortKey) : List Lexeme :=
  match k.direction with
  | none => [ofValue k.field]
  | some d => [ofValue k.field, ofKind d.kind]

namespace Query

def commaJoin (items : List (List Lexeme)) : List Lexeme :=
  List.intercalate [ofKind (.symbol .comma)] items

def selectLexemes : List String → List (List Lexeme)
  | [] => []
  | fields => [ofKind (.keyword .select) :: commaJoin (fields.map ([ofValue ·]))]

def filterLexemes (omits : Bool) : Option Condition → List (List Lexeme)
  | none => []
  | some c =>
    [ofKind (.keyword .filter) :: (if omits then [ofKind (.keyword .omits)] else []) ++ c.lexemes]

def sortLexemes : List SortKey → List (List Lexeme)
  | [] => []
  | keys => [ofKind (.keyword .orderBy) :: commaJoin (keys.map SortKey.lexemes)]

def countLexemes (word : Keyword) : Option UInt64 → List (List Lexeme)
  | none => []
  | some n => [[ofKind (.keyword word), ofValue (String.ofList (Nat.toDigits 10 n.toNat))]]

def clauseLexemes (q : Query) : List (List Lexeme) :=
  selectLexemes q.fields ++ filterLexemes q.omits q.condition ++ sortLexemes q.sort
    ++ countLexemes .limit q.limit ++ countLexemes .offset q.offset

def lexemes (q : Query) : List Lexeme := q.clauseLexemes.flatten

end Query

variable {rest : List Char}

/-- The words that have to be quoted are those of which keywords are made. -/
theorem classify_of_standsBare {w : List Char} (h : standsBare w = true) :
    classify w = .literal ∧ w.map Char.toUpper ≠ "ORDER".toList := by
  have hk : ∀ k ∈ keywords, ∃ r ∈ reservedWords, r.toList.map Char.toUpper = k.text.toList := by
    decide
  have ho : ∃ r ∈ reservedWords, r.toList.map Char.toUpper = "ORDER".toList := by decide
  have hw : ∀ r ∈ reservedWords, w.map Char.toUpper ≠ r.toList.map Char.toUpper := by
    intro r hr he
    rw [standsBare, Bool.and_eq_true, Bool.not_eq_true', List.any_eq_false] at h
    exact h.2 r hr (by simp [Text.sameFolded, he])
  constructor
  · refine classify_of_ne fun k hm => ?_
    obtain ⟨r, hr, he⟩ := hk k hm
    exact he ▸ hw r hr
  · obtain ⟨r, hr, he⟩ := ho
    exact he ▸ hw r hr

theorem standsBare_of_isDigit {w : List Char} (hn : w ≠ []) (hd : ∀ c ∈ w, c.isDigit = true) :
    standsBare w = true := by
  have hb : w.all isBare = true := by
    rw [List.all_eq_true]
    intro c hc
    exact isBare_of_isAlphanum (by rw [Char.isAlphanum, hd c hc, Bool.or_true])
  have hu : ∀ r ∈ reservedWords, (r.toList.map Char.toUpper).head?.any Char.isUpper = true := by
    decide
  have hr : ∀ r ∈ reservedWords, Text.sameFolded r.toList w = false := by
    intro r hm
    rw [Text.sameFolded, beq_eq_false_iff_ne]
    intro he
    obtain ⟨c, w, rfl⟩ := List.exists_cons_of_ne_nil hn
    have hc := hu r hm
    rw [he] at hc
    simp [Text.isUpper_toUpper_of_isDigit (hd c List.mem_cons_self)] at hc
  simp only [standsBare, hb, Bool.and_true, Bool.and_eq_true, Bool.not_eq_true',
    List.isEmpty_eq_false_iff, List.any_eq_false]
  exact ⟨hn, fun r hm => by simp [hr r hm]⟩

theorem first?_renderValue (value : String) (hr : wordEnds rest = true) :
    first? (renderValue value ++ rest) = some (ofValue value, rest) := by
  cases hs : standsBare value.toList with
  | true =>
      obtain ⟨hc, ho⟩ := classify_of_standsBare hs
      have hv : value.toList ≠ [] ∧ value.toList.all isBare = true := by
        simp only [standsBare, Bool.and_eq_true, Bool.not_eq_true',
          List.isEmpty_eq_false_iff] at hs
        exact hs.1
      rw [renderValue, if_pos hs, first?_word_append hv.1 hv.2 hr fun h => absurd h ho, ofValue,
        if_pos hs, word, hc]
  | false =>
      have hn : ¬ standsBare value.toList = true := by simp [hs]
      rw [renderValue, if_neg hn, first?_escape, ofValue, if_neg hn]

theorem first?_keyword (k : Keyword) (hr : wordEnds rest = true) :
    first? (k.text.toList ++ rest) = some (ofKind (.keyword k), rest) := by
  by_cases hk : k = .orderBy
  · subst hk
    have h : first? ("ORDER".toList ++ [' '] ++ "BY".toList ++ rest) = _ :=
      first?_orderBy (by decide) (by decide) (by decide) (by decide) hr
    exact h
  · have hm : k ∈ keywords := by cases k <;> first | decide | exact absurd rfl hk
    have hc : ∀ k ∈ keywords, k.text.toList.map Char.toUpper = k.text.toList ∧
        k.text.toList ≠ "ORDER".toList := by decide
    obtain ⟨hu, ho⟩ := hc k hm
    obtain ⟨hn, hw⟩ := bare_of_keyword hm hu
    rw [first?_word_append hn hw hr fun h => absurd (hu.symm.trans h) ho, word,
      classify_of_eq hm hu]
    rfl

theorem head?_renderValue (value : String) : (renderValue value ++ rest).head? ≠ some '=' := by
  cases hs : standsBare value.toList with
  | true =>
      rw [renderValue, if_pos hs]
      simp only [standsBare, Bool.and_eq_true, Bool.not_eq_true', List.isEmpty_eq_false_iff] at hs
      obtain ⟨c, w, hw⟩ := List.exists_cons_of_ne_nil hs.1.1
      have hc : isBare c = true := List.all_eq_true.1 hs.1.2 c (hw ▸ List.mem_cons_self)
      simpa [hw] using ne_of_isBare hc (by decide)
  | false => simp [renderValue, hs, QuoteStyle.enclose, QuoteStyle.mark]

theorem intercalate_cons {α : Type} (sep xs : List α) (xss : List (List α)) :
    List.intercalate sep (xs :: xss) = xs ++ xss.flatMap (sep ++ ·) := by
  induction xss generalizing xs with
  | nil => simp
  | cons ys yss ih =>
      have h : List.intercalate sep (xs :: ys :: yss) =
          xs ++ sep ++ List.intercalate sep (ys :: yss) := by simp [List.intercalate]
      rw [h, ih]
      simp

/-- A text that is read as certain lexemes wherever a word ends behind it. -/
def Stands (text : List Char) (xs : List Lexeme) : Prop :=
  ∀ rest, wordEnds rest = true → Scans (text ++ rest) xs rest

namespace Stands

variable {s t : List Char} {xs ys : List Lexeme}

theorem nil : Stands [] [] := fun _ _ => .done

theorem value (v : String) : Stands (renderValue v) [ofValue v] :=
  fun _ hr => .single (first?_renderValue v hr)

theorem keyword (k : Keyword) : Stands k.text.toList [ofKind (.keyword k)] :=
  fun _ hr => .single (first?_keyword k hr)

theorem spaced (hs : Stands s xs) (ht : Stands t ys) : Stands (s ++ ' ' :: t) (xs ++ ys) := by
  intro rest hr
  rw [List.append_assoc, List.cons_append]
  exact (hs _ rfl).append (ht rest hr).space

theorem intercalate {sep : List Char} {zs : List Lexeme}
    (h : ∀ s t xs ys, Stands s xs → Stands t ys → Stands (s ++ sep ++ t) (xs ++ zs ++ ys))
    {ss : List (List Char)} {xss : List (List Lexeme)} (hs : List.Forall₂ Stands ss xss) :
    Stands (List.intercalate sep ss) (List.intercalate zs xss) := by
  induction hs with
  | nil => exact nil
  | @cons s xs ss xss hs hss ih =>
      cases hss with
      | nil => simpa [List.intercalate] using hs
      | cons ht hts => simpa [List.intercalate] using h _ _ _ _ hs ih

theorem spaceSeparated {ss : List (List Char)} {xss : List (List Lexeme)}
    (hs : List.Forall₂ Stands ss xss) : Stands (List.intercalate [' '] ss) xss.flatten := by
  have hf : List.intercalate [] xss = xss.flatten := by
    cases xss <;> simp [intercalate_cons]
  rw [← hf]
  refine intercalate ?_ hs
  intro s t xs ys hs ht
  simpa using hs.spaced ht

theorem commaSeparated {ss : List (List Char)} {xss : List (List Lexeme)}
    (hs : List.Forall₂ Stands ss xss) : Stands (Query.commaSeparated ss) (Query.commaJoin xss) := by
  refine intercalate ?_ hs
  intro s t xs ys hs ht rest hr
  rw [List.append_assoc, List.append_assoc, List.append_assoc]
  exact (hs _ rfl).append (.next (first?_sign .comma (by simp)) (ht rest hr).space)

theorem group (hs : Stands s xs) (grouped : Bool) :
    Stands (Condition.parenthesizeIf grouped s) (Condition.groupIf grouped xs) := by
  cases grouped with
  | false => exact hs
  | true =>
      intro rest hr
      have hc : Scans (')' :: rest) [ofKind (.symbol .rightParen)] rest :=
        .single (first?_sign .rightParen (by simp))
      have hb : Scans (s ++ ')' :: rest) (xs ++ [ofKind (.symbol .rightParen)]) rest :=
        (hs _ rfl).append hc
      have ht : Condition.parenthesizeIf true s ++ rest = '(' :: (s ++ ')' :: rest) := by
        simp [Condition.parenthesizeIf]
      rw [ht]
      exact .next (first?_sign .leftParen (by simp)) hb

theorem sign (u v : String) (z : Symbol) : Stands (renderValue u ++ z.text.toList ++ renderValue v)
    [ofValue u, ofKind (.symbol z), ofValue v] := by
  intro rest hr
  have hz : wordEnds (z.text.toList ++ (renderValue v ++ rest)) = true := by
    cases z <;> rfl
  rw [List.append_assoc, List.append_assoc]
  exact .next (first?_renderValue u hz)
    (.next (first?_sign z fun _ => head?_renderValue v) (value v rest hr))

theorem comparison (c : Comparison) : Stands c.render c.lexemes := by
  obtain ⟨u, op, v⟩ := c
  cases op with
  | like =>
      have h := (value u).spaced ((keyword .like).spaced (value v))
      simpa [Comparison.render, Comparison.lexemes, Comparator.text, Comparator.kind,
        Keyword.text] using h
  | eq => exact sign u v .eq
  | lt => exact sign u v .lt
  | gt => exact sign u v .gt
  | le => exact sign u v .le
  | ge => exact sign u v .ge

theorem condition (c : Condition) : Stands c.render c.lexemes := by
  induction c with
  | comparison c => exact comparison c
  | binary op lhs rhs ihl ihr =>
      have ho : Stands op.text.toList [ofKind op.kind] := by
        cases op with
        | and => exact keyword .and
        | or => exact keyword .or
        | omits => exact keyword .omits
      have h := (ihl.group (lhs.level < op.level)).spaced
        (ho.spaced (ihr.group (rhs.level ≤ op.level)))
      simpa [Condition.render, Condition.lexemes] using h

theorem sortKey (k : SortKey) : Stands k.render k.lexemes := by
  obtain ⟨field, _ | d⟩ := k
  · exact value field
  · have hd : Stands d.text.toList [ofKind d.kind] := by
      cases d with
      | ascending => exact keyword .asc
      | descending => exact keyword .desc
    simpa [SortKey.render, SortKey.lexemes] using (value field).spaced hd

theorem count (n : Nat) :
    Stands (Nat.toDigits 10 n) [ofValue (String.ofList (Nat.toDigits 10 n))] := by
  have hs : standsBare (Nat.toDigits 10 n) = true :=
    standsBare_of_isDigit Nat.toDigits_ne_nil Text.isDigit_of_mem_toDigits
  have h := value (String.ofList (Nat.toDigits 10 n))
  rwa [renderValue, String.toList_ofList, if_pos hs] at h

theorem clauses (q : Query) : List.Forall₂ Stands q.clauses q.clauseLexemes := by
  have hs : List.Forall₂ Stands (Query.renderFields q.fields) (Query.selectLexemes q.fields) := by
    cases q.fields with
    | nil => exact .nil
    | cons field fields =>
        refine .cons ((keyword .select).spaced (commaSeparated ?_)) .nil
        rw [List.forall₂_map_left_iff, List.forall₂_map_right_iff, List.forall₂_same]
        exact fun v _ => value v
  have hf : List.Forall₂ Stands (Query.renderCondition q.omits q.condition)
      (Query.filterLexemes q.omits q.condition) := by
    cases q.condition with
    | none => exact .nil
    | some c =>
        cases q.omits with
        | false => exact .cons ((keyword .filter).spaced (condition c)) .nil
        | true =>
            exact .cons ((keyword .filter).spaced ((keyword .omits).spaced (condition c))) .nil
  have ho : List.Forall₂ Stands (Query.renderSort q.sort) (Query.sortLexemes q.sort) := by
    cases q.sort with
    | nil => exact .nil
    | cons key keys =>
        refine .cons ((keyword .orderBy).spaced (commaSeparated ?_)) .nil
        rw [List.forall₂_map_left_iff, List.forall₂_map_right_iff, List.forall₂_same]
        exact fun k _ => sortKey k
  have hc (k : Keyword) (n : Option UInt64) :
      List.Forall₂ Stands (Query.renderCount k n) (Query.countLexemes k n) := by
    cases n with
    | none => exact .nil
    | some n =>
        have h := (keyword k).spaced (count n.toNat)
        rw [List.append_cons] at h
        exact .cons h .nil
  exact List.rel_append (List.rel_append (List.rel_append (List.rel_append hs hf) ho)
    (hc .limit q.limit)) (hc .offset q.offset)

theorem query (q : Query) : Stands q.render q.lexemes := spaceSeparated (clauses q)

end Stands

end FindExpr

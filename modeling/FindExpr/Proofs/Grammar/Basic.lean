import FindExpr.Token.Basic

namespace FindExpr.Grammar

inductive Nonterminal where
  | query | select | filter | condition | conjunction | term | comparator | orderBy | limit | offset
  deriving DecidableEq, Repr

inductive Phrase where
  | token (kind : TokenKind)
  | rule (n : Nonterminal)
  | seq (p q : Phrase)
  | alt (p q : Phrase)
  | opt (p : Phrase)
  | many (p : Phrase)
  deriving DecidableEq, Repr

namespace Phrase

abbrev word (k : Keyword) : Phrase := token (.keyword k)

abbrev sign (s : Symbol) : Phrase := token (.symbol s)

abbrev string : Phrase := token .literal

abbrev moreFields : Phrase := many (seq (sign .comma) string)

abbrev moreConjunctions : Phrase := many (seq (alt (word .or) (word .omits)) (rule .conjunction))

abbrev moreTerms : Phrase := many (seq (word .and) (rule .term))

abbrev sortKey : Phrase := seq string (opt (alt (word .asc) (word .desc)))

abbrev moreSortKeys : Phrase := many (seq (sign .comma) sortKey)

end Phrase

open Phrase

@[reducible, simp] def body : Nonterminal → Phrase
  | .query =>
    seq (opt (rule .select)) <| seq (opt (rule .filter)) <| seq (opt (rule .orderBy)) <|
      seq (opt (rule .limit)) (opt (rule .offset))
  | .select => seq (word .select) <| seq string moreFields
  | .filter => seq (word .filter) <| seq (opt (word .omits)) (rule .condition)
  | .condition => seq (rule .conjunction) moreConjunctions
  | .conjunction => seq (rule .term) moreTerms
  | .term =>
    alt (seq (sign .leftParen) <| seq (rule .condition) (sign .rightParen))
      (seq string <| seq (rule .comparator) string)
  | .comparator =>
    alt (sign .eq) <| alt (sign .lt) <| alt (sign .gt) <| alt (sign .le) <| alt (sign .ge)
      (word .like)
  | .orderBy => seq (word .orderBy) <| seq sortKey moreSortKeys
  | .limit => seq (word .limit) string
  | .offset => seq (word .offset) string

inductive Derives : Phrase → List TokenKind → Prop
  | token (k) : Derives (.token k) [k]
  | rule {n w} (h : Derives (body n) w) : Derives (.rule n) w
  | seq {p q u v} (hu : Derives p u) (hv : Derives q v) : Derives (.seq p q) (u ++ v)
  | left {p q w} (h : Derives p w) : Derives (.alt p q) w
  | right {p q w} (h : Derives q w) : Derives (.alt p q) w
  | absent {p} : Derives (.opt p) []
  | present {p w} (h : Derives p w) : Derives (.opt p) w
  | done {p} : Derives (.many p) []
  | more {p u v} (hu : Derives p u) (hv : Derives (.many p) v) : Derives (.many p) (u ++ v)

def DerivesAll : List Phrase → List TokenKind → Prop
  | [], w => w = []
  | p :: ps, w => ∃ u v, Derives p u ∧ DerivesAll ps v ∧ w = u ++ v

namespace DerivesAll

variable {p q : Phrase} {ps : List Phrase} {j k : TokenKind} {n : Nonterminal}
  {w : List TokenKind}

@[simp] theorem nil_iff : DerivesAll [] w ↔ w = [] := Iff.rfl

theorem singleton_iff : DerivesAll [p] w ↔ Derives p w := by
  constructor
  · rintro ⟨u, v, hu, rfl, rfl⟩
    rwa [List.append_nil]
  · intro h
    exact ⟨w, [], h, rfl, (List.append_nil w).symm⟩

@[simp] theorem token_iff : DerivesAll (.token k :: ps) (j :: w) ↔ j = k ∧ DerivesAll ps w := by
  constructor
  · rintro ⟨u, v, ⟨⟩, hv, h⟩
    obtain ⟨rfl, rfl⟩ := List.cons.inj h
    exact ⟨rfl, hv⟩
  · rintro ⟨rfl, h⟩
    exact ⟨[j], w, .token j, h, rfl⟩

@[simp] theorem token_nil : ¬ DerivesAll (.token k :: ps) [] := by
  rintro ⟨u, v, ⟨⟩, -, h⟩
  exact absurd h (by simp)

theorem rule_iff : DerivesAll (.rule n :: ps) w ↔ DerivesAll (body n :: ps) w := by
  constructor
  · rintro ⟨u, v, ⟨⟩, hv, rfl⟩
    exact ⟨u, v, ‹_›, hv, rfl⟩
  · rintro ⟨u, v, hu, hv, rfl⟩
    exact ⟨u, v, .rule hu, hv, rfl⟩

@[simp] theorem seq_iff : DerivesAll (.seq p q :: ps) w ↔ DerivesAll (p :: q :: ps) w := by
  constructor
  · rintro ⟨_, v, ⟨⟩, hv, rfl⟩
    exact ⟨_, _, ‹_›, ⟨_, v, ‹_›, hv, rfl⟩, List.append_assoc ..⟩
  · rintro ⟨u, _, hu, ⟨v, w, hv, hw, rfl⟩, rfl⟩
    exact ⟨u ++ v, w, .seq hu hv, hw, (List.append_assoc ..).symm⟩

theorem alt_iff :
    DerivesAll (.alt p q :: ps) w ↔ DerivesAll (p :: ps) w ∨ DerivesAll (q :: ps) w := by
  constructor
  · rintro ⟨u, v, hu, hv, rfl⟩
    cases hu with
    | left hu => exact .inl ⟨u, v, hu, hv, rfl⟩
    | right hu => exact .inr ⟨u, v, hu, hv, rfl⟩
  · rintro (⟨u, v, hu, hv, rfl⟩ | ⟨u, v, hu, hv, rfl⟩)
    · exact ⟨u, v, .left hu, hv, rfl⟩
    · exact ⟨u, v, .right hu, hv, rfl⟩

theorem opt_iff : DerivesAll (.opt p :: ps) w ↔ DerivesAll ps w ∨ DerivesAll (p :: ps) w := by
  constructor
  · rintro ⟨u, v, hu, hv, rfl⟩
    cases hu with
    | absent => exact .inl hv
    | present hu => exact .inr ⟨u, v, hu, hv, rfl⟩
  · rintro (h | ⟨u, v, hu, hv, rfl⟩)
    · exact ⟨[], w, .absent, h, rfl⟩
    · exact ⟨u, v, .present hu, hv, rfl⟩

theorem many_iff :
    DerivesAll (.many p :: ps) w ↔ DerivesAll ps w ∨ DerivesAll (p :: .many p :: ps) w := by
  constructor
  · rintro ⟨u, v, hu, hv, rfl⟩
    cases hu with
    | done => exact .inl hv
    | more hu hu' => exact .inr ⟨_, _, hu, ⟨_, v, hu', hv, rfl⟩, List.append_assoc ..⟩
  · rintro (h | ⟨u, _, hu, ⟨v, w, hv, hw, rfl⟩, rfl⟩)
    · exact ⟨[], w, .done, h, rfl⟩
    · exact ⟨u ++ v, w, .more hu hv, hw, (List.append_assoc ..).symm⟩

@[simp] theorem rule_cons :
    DerivesAll (.rule n :: ps) (k :: w) ↔ DerivesAll (body n :: ps) (k :: w) :=
  rule_iff

@[simp] theorem alt_cons : DerivesAll (.alt p q :: ps) (k :: w) ↔
    DerivesAll (p :: ps) (k :: w) ∨ DerivesAll (q :: ps) (k :: w) :=
  alt_iff

@[simp] theorem opt_cons : DerivesAll (.opt p :: ps) (k :: w) ↔
    DerivesAll ps (k :: w) ∨ DerivesAll (p :: ps) (k :: w) :=
  opt_iff

@[simp] theorem many_cons : DerivesAll (.many p :: ps) (k :: w) ↔
    DerivesAll ps (k :: w) ∨ DerivesAll (p :: .many p :: ps) (k :: w) :=
  many_iff

@[simp] theorem conjunction_iff : DerivesAll (.rule .conjunction :: ps) w ↔
    DerivesAll (.rule .term :: moreTerms :: ps) w := by
  rw [rule_iff, body, seq_iff]

@[simp] theorem condition_iff : DerivesAll (.rule .condition :: ps) w ↔
    DerivesAll (.rule .term :: moreTerms :: moreConjunctions :: ps) w := by
  rw [rule_iff, body, seq_iff, conjunction_iff]

end DerivesAll

def kinds (ts : List Token) : List TokenKind := ts.map Token.kind

@[simp] theorem kinds_nil : kinds [] = [] := rfl

@[simp] theorem kinds_cons (t : Token) (ts : List Token) : kinds (t :: ts) = t.kind :: kinds ts :=
  rfl

@[simp] theorem kinds_append (ts us : List Token) : kinds (ts ++ us) = kinds ts ++ kinds us :=
  List.map_append

end FindExpr.Grammar

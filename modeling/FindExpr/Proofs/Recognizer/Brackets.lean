import FindExpr.Proofs.Grammar.Nesting
import FindExpr.Proofs.Recognizer.Moves

namespace FindExpr.Recognizer

open Grammar

/-- The parentheses that are open behind a token, the innermost first. -/
def brackets (opened : List Token) (t : Token) : List Token :=
  match t.kind with
  | .symbol .leftParen => t :: opened
  | .symbol .rightParen => opened.tail
  | _ => opened

theorem length_brackets (opened : List Token) (t : Token) :
    (brackets opened t).length = shift opened.length t.kind := by
  cases h : t.kind with
  | symbol s => cases s <;> simp [brackets, shift, h]
  | endOfInput | keyword | literal => simp [brackets, shift, h]

theorem State.opened_of_mem_clauses {q : State} {k : Keyword} (h : k ∈ q.clauses) :
    q.opened = [] := by
  cases q with
  | afterTerm opened =>
      cases opened with
      | nil => rfl
      | cons => cases h
  | _ => first | rfl | cases h

variable {t : Token} {limit : Nat} {q r : State} {es : List Event}

theorem Move.opened (h : Move limit q t es r) : r.opened = brackets q.opened t := by
  cases h with
  | select hq ht | filter hq ht | orderBy hq ht | limit hq ht | offset hq ht =>
      rw [State.opened_of_mem_clauses hq]
      simp [brackets, ht, State.opened]
  | comparator ht =>
      cases hk : t.kind with
      | endOfInput | keyword | literal => simp [brackets, hk, State.opened]
      | symbol s => cases s <;> simp_all [brackets, State.opened, TokenKind.comparator?]
  | alternative ht | direction ht =>
      cases hk : t.kind with
      | keyword k => simp [brackets, hk, State.opened]
      | endOfInput | symbol | literal =>
          simp [hk, TokenKind.alternative?, TokenKind.direction?] at ht
  | _ => simp_all [brackets, State.opened]

theorem Move.depth_lt (h : Move limit q t es r) (ht : t.kind = .symbol .leftParen) :
    q.depth < limit := by
  cases h with
  | group _ _ hd => exact hd
  | _ => simp_all [TokenKind.comparator?, TokenKind.alternative?, TokenKind.direction?]

theorem Move.depth_pos (h : Move limit q t es r) (ht : t.kind = .symbol .rightParen) :
    0 < q.depth := by
  cases h with
  | close => exact Nat.succ_pos _
  | _ => simp_all [TokenKind.comparator?, TokenKind.alternative?, TokenKind.direction?]

theorem opened_step (h : (step limit q t).verdict = .continue r) :
    r.opened = brackets q.opened t :=
  (move_of_continue h).opened

theorem depth_lt_of_leftParen (h : (step limit q t).verdict = .continue r)
    (ht : t.kind = .symbol .leftParen) : q.depth < limit :=
  (move_of_continue h).depth_lt ht

theorem depth_pos_of_rightParen (h : (step limit q t).verdict = .continue r)
    (ht : t.kind = .symbol .rightParen) : 0 < q.depth :=
  (move_of_continue h).depth_pos ht

end FindExpr.Recognizer

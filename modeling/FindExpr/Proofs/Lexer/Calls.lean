import FindExpr.Proofs.Lexer.Items
import FindExpr.Proofs.Position

namespace FindExpr

/-- The two ways in which a lexer is asked for its next item: by iteration, or for one token. -/
inductive Call where
  | next | nextToken

namespace Lexer

def call (l : Lexer) : Call → Option Item × Lexer
  | .next => l.next?
  | .nextToken => (some l.nextToken.1, l.nextToken.2)

def answers : List Call → Lexer → List (Option Item)
  | [], _ => []
  | c :: cs, l => (l.call c).1 :: answers cs (l.call c).2

def calls (cs : List Call) (l : Lexer) : Lexer := cs.foldl (fun l c => (l.call c).2) l

variable {l : Lexer} {x : Lexeme} {source before text rest : List Char}

theorem next?_of_finished (h : l.finished = true) : l.next? = (none, l) := by simp [next?, h]

theorem next?_of_unfinished (h : l.finished = false) :
    l.next? = (some l.nextToken.1,
      { l.nextToken.2 with finished := l.nextToken.2.finished || isLast l.nextToken.1 }) := by
  simp [next?, h]

structure StandsBehind (source before : List Char) (l : Lexer) : Prop where
  source_eq : source = before ++ l.rest
  position_eq : l.position = .behind before

theorem standsBehind_ofSource (source : String) :
    (ofSource source).StandsBehind source.toList [] :=
  ⟨rfl, rfl⟩

namespace StandsBehind

theorem advance (h : l.StandsBehind source before) (hl : l.rest = text ++ rest) :
    (l.advance text rest).StandsBehind source (before ++ text) := by
  constructor
  · rw [h.source_eq, hl, List.append_assoc]
    rfl
  · rw [Position.behind_append, ← h.position_eq]
    rfl

theorem skipBlank (h : l.StandsBehind source before) :
    l.skipBlank.StandsBehind source (before ++ Text.leadingBlank l.rest) :=
  h.advance (Text.leadingBlank_append_skipBlank l.rest).symm

theorem behind (h : l.StandsBehind source before)
    (hx : Lexeme.first? (Text.skipBlank l.rest) = some (x, rest)) :
    (l.behind x rest).StandsBehind source
      (before ++ Text.leadingBlank l.rest ++ x.written ++ Text.leadingBlank rest) :=
  (h.skipBlank.advance (Lexeme.eq_append_of_first? hx)).skipBlank

theorem nextToken (h : l.StandsBehind source before) :
    ∃ before', l.nextToken.2.StandsBehind source before' := by
  by_cases hb : Text.skipBlank l.rest = []
  · rw [nextToken_of_blank hb]
    exact ⟨_, h.skipBlank⟩
  · cases hx : Lexeme.first? (Text.skipBlank l.rest) with
    | none =>
        rw [nextToken_of_none hb hx]
        exact ⟨_, h.skipBlank.source_eq, h.skipBlank.position_eq⟩
    | some split =>
        rw [nextToken_of_some hx]
        exact ⟨_, h.behind hx⟩

theorem call (h : l.StandsBehind source before) (c : Call) :
    ∃ before', (l.call c).2.StandsBehind source before' := by
  obtain ⟨before', h'⟩ := h.nextToken
  cases c with
  | nextToken => exact ⟨before', h'⟩
  | next =>
      cases hf : l.finished with
      | true =>
          rw [Lexer.call, next?_of_finished hf]
          exact ⟨before, h⟩
      | false =>
          rw [Lexer.call, next?_of_unfinished hf]
          exact ⟨before', h'.source_eq, h'.position_eq⟩

theorem calls (h : l.StandsBehind source before) (cs : List Call) :
    ∃ before', (l.calls cs).StandsBehind source before' := by
  induction cs generalizing l before with
  | nil => exact ⟨before, h⟩
  | cons c cs ih =>
      obtain ⟨before', h'⟩ := h.call c
      exact ih h'

end StandsBehind

end Lexer

end FindExpr

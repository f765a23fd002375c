import FindExpr.Lexer
import FindExpr.Recognizer.Step

namespace FindExpr

structure Outcome (σ : Type) where
  state : σ
  result : Except Diagnostic Unit
  unread : List Item

namespace Recognizer

/-- Tells a handler events up to the first one that it rejects. -/
def tell {σ : Type} (h : Handler σ) : List Event → σ → σ × Option Diagnostic
  | [], s => (s, none)
  | e :: events, s =>
    match h e s with
    | (s, none) => tell h events s
    | (s, some d) => (s, some d)

inductive Turn (σ : Type) where
  | ends (s : σ) (result : Except Diagnostic Unit)
  | goesOn (q : State) (place : Position) (s : σ)

def turnBy {σ : Type} (read : State → σ → Token → Step) (h : Handler σ) (q : State) (s : σ) :
    Item → Turn σ
  | .error d => .ends s (.error d)
  | .ok t =>
    let next := read q s t
    match tell h next.events s with
    | (s, some d) => .ends s (.error d)
    | (s, none) =>
      match next.verdict with
      | .continue q => .goesOn q t.stop s
      | .accept => .ends s (.ok ())
      | .reject d => .ends s (.error d)

/-- Takes turns from state `q` on, behind a token that ended at `place`. Where there are no more
items, an end-of-input token follows the last token. -/
def runBy {σ : Type} (read : State → σ → Token → Step) (h : Handler σ) :
    State → Position → List Item → σ → Outcome σ
  | q, place, [], s =>
    match turnBy read h q s (.ok (.endOfInput place place)) with
    | .ends s result => ⟨s, result, []⟩
    | .goesOn _ _ s => ⟨s, .ok (), []⟩
  | q, _, item :: unread, s =>
    match turnBy read h q s item with
    | .ends s result => ⟨s, result, unread⟩
    | .goesOn q place s => runBy read h q place unread s

def turn {σ : Type} (limit : Nat) : Handler σ → State → σ → Item → Turn σ :=
  turnBy fun q _ => step limit q

def runFrom {σ : Type} (limit : Nat) : Handler σ → State → Position → List Item → σ → Outcome σ :=
  runBy fun q _ => step limit q

section Turns

variable {σ : Type} (limit : Nat) (h : Handler σ) (q : State) (place : Position) (s : σ)

theorem turn_token (t : Token) :
    turn limit h q s (.ok t) =
      match tell h (step limit q t).events s with
      | (s, some d) => .ends s (.error d)
      | (s, none) =>
        match (step limit q t).verdict with
        | .continue q => .goesOn q t.stop s
        | .accept => .ends s (.ok ())
        | .reject d => .ends s (.error d) := rfl

theorem runFrom_nil :
    runFrom limit h q place [] s =
      match turn limit h q s (.ok (.endOfInput place place)) with
      | .ends s result => ⟨s, result, []⟩
      | .goesOn _ _ s => ⟨s, .ok (), []⟩ := rfl

theorem runFrom_cons (item : Item) (unread : List Item) :
    runFrom limit h q place (item :: unread) s =
      match turn limit h q s item with
      | .ends s result => ⟨s, result, unread⟩
      | .goesOn q place s => runFrom limit h q place unread s := rfl

end Turns

def run {σ : Type} (limit : Nat) (h : Handler σ) (items : List Item) (s : σ) : Outcome σ :=
  runFrom limit h .start .start items s

def defaultLimit : Nat := 64

def ignore : Handler Unit := fun _ s => (s, none)

def checkItems (limit : Nat) (items : List Item) : Except Diagnostic Unit :=
  (run limit ignore items ()).result

def check (limit : Nat) (source : String) : Except Diagnostic Unit :=
  checkItems limit (tokenize source)

end Recognizer

end FindExpr

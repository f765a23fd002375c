import FindExpr.Event
import FindExpr.Proofs.Grammar.Derivation

namespace FindExpr.Grammar

def comparatorOf : Token ⊕ Token ⊕ Token ⊕ Token ⊕ Token ⊕ Token → Comparator
  | .inl _ => .eq
  | .inr (.inl _) => .lt
  | .inr (.inr (.inl _)) => .gt
  | .inr (.inr (.inr (.inl _))) => .le
  | .inr (.inr (.inr (.inr (.inl _)))) => .ge
  | .inr (.inr (.inr (.inr (.inr _)))) => .like

def alternativeOf : Token ⊕ Token → Connective × Token
  | .inl t => (.or, t)
  | .inr t => (.omits, t)

def directionOf : Token ⊕ Token → Direction
  | .inl _ => .ascending
  | .inr _ => .descending

def sortEvent : Token × Option (Token ⊕ Token) → Event
  | (field, direction) => .sortKey field.literal (direction.map directionOf)

abbrev EventSem : Nonterminal → Type
  | .comparator => Comparator
  | _ => List Event

/-- The events of a rule, given those of the rules it is made of. -/
def eventsOf : ∀ n, Meaning EventSem (body n) → EventSem n
  | .query, (select, filter, orderBy, limit, offset) =>
    select.getD [] ++ filter.getD [] ++ orderBy.getD [] ++ limit.getD [] ++ offset.getD []
  | .select, (_, name, more) => (name :: more.map (·.2)).map fun t => .selectField t.literal
  | .filter, (word, omits, condition) => .filter omits.isSome word.start :: condition
  | .condition, (first, more) =>
    .conditionStart :: first
      ++ more.flatMap (fun (op, next) =>
        .connective (alternativeOf op).1 (alternativeOf op).2.start :: next)
      ++ [.conditionEnd]
  | .conjunction, (first, more) =>
    .conjunctionStart :: first
      ++ more.flatMap (fun (word, next) => .connective .and word.start :: next)
      ++ [.conjunctionEnd]
  | .term, .inl (left, condition, right) =>
    .groupStart left.start :: condition ++ [.groupEnd right.start]
  | .term, .inr (field, op, value) => [.comparison field.literal op value.literal]
  | .comparator, signs => comparatorOf signs
  | .orderBy, (_, key, more) => (key :: more.map (·.2)).map sortEvent
  | .limit, (_, count) => [.limit count.literal]
  | .offset, (_, count) => [.offset count.literal]

def Derivation.events {n : Nonterminal} (d : Derivation (.rule n)) : EventSem n := d.fold eventsOf

@[simp] theorem Derivation.fold_eventsOf {n : Nonterminal} (d : Derivation (.rule n)) :
    d.fold eventsOf = d.events := rfl

@[simp] theorem Derivation.events_rule {n : Nonterminal} (d : Derivation (body n)) :
    (rule d).events = eventsOf n (d.fold eventsOf) := rfl

end FindExpr.Grammar

import FindExpr.Proofs.Grammar.Events
import FindExpr.Proofs.Text.Numeral
import FindExpr.Query.Basic

namespace FindExpr.Grammar

/-- The count that a literal stands for, if it is a numeral that fits into 64 bits. -/
def countOf (l : Literal) : Option UInt64 :=
  let digits := Text.unsigned l.unescaped.toList
  if digits ≠ [] ∧ digits.all Char.isDigit = true ∧ Nat.ofDigitChars 10 digits 0 < UInt64.size then
    some (UInt64.ofNat (Nat.ofDigitChars 10 digits 0))
  else none

/-- What the parts of a query mean. Counts and the queries they belong to may have no meaning. -/
abbrev ValueSem : Nonterminal → Type
  | .query => Option Query
  | .select => List String
  | .filter => Bool × Condition
  | .condition | .conjunction | .term => Condition
  | .comparator => Comparator
  | .orderBy => List SortKey
  | .limit | .offset => Option UInt64

def sortKeyOf : Token × Option (Token ⊕ Token) → SortKey
  | (field, direction) => ⟨field.unescaped, direction.map directionOf⟩

def optionalCount : Option (Option UInt64) → Option (Option UInt64)
  | none => some none
  | some count => count.map some

/-- What a rule means, given the meanings of the rules it is made of. -/
def valueOf : ∀ n, Meaning ValueSem (body n) → ValueSem n
  | .query, (select, filter, orderBy, limit, offset) =>
    (optionalCount limit).bind fun limit => (optionalCount offset).map fun offset =>
      { fields := select.getD []
        omits := (filter.map (·.1)).getD false
        condition := filter.map (·.2)
        sort := orderBy.getD []
        limit, offset }
  | .select, (_, name, more) => (name :: more.map (·.2)).map Token.unescaped
  | .filter, (_, omits, condition) => (omits.isSome, condition)
  | .condition, (first, more) =>
    more.foldl (fun joined (op, next) => .binary (alternativeOf op).1 joined next) first
  | .conjunction, (first, more) =>
    more.foldl (fun joined (_, next) => .binary .and joined next) first
  | .term, .inl (_, condition, _) => condition
  | .term, .inr (field, op, value) => .comparison ⟨field.unescaped, op, value.unescaped⟩
  | .comparator, signs => comparatorOf signs
  | .orderBy, (_, key, more) => (key :: more.map (·.2)).map sortKeyOf
  | .limit, (_, count) => countOf count.literal
  | .offset, (_, count) => countOf count.literal

namespace Derivation

variable {n : Nonterminal}

def value (d : Derivation (.rule n)) : ValueSem n := d.fold valueOf

@[simp] theorem fold_valueOf (d : Derivation (.rule n)) : d.fold valueOf = d.value := rfl

@[simp] theorem value_rule (d : Derivation (body n)) :
    (rule d).value = valueOf n (d.fold valueOf) := rfl

end Derivation

end FindExpr.Grammar

import FindExpr.Json
import FindExpr.Query.Basic

namespace FindExpr

def Json.optional {α : Type} (f : α → Json) : Option α → Json
  | none => .null
  | some a => f a

namespace Condition

def toJson : Condition → Json
  | comparison c =>
    .object [("type", .text "comparison"), ("field", .text c.field),
      ("comparator", .text c.op.text), ("value", .text c.value)]
  | binary op lhs rhs =>
    .object [("type", .text "binary"), ("operator", .text op.text), ("lhs", lhs.toJson),
      ("rhs", rhs.toJson)]

end Condition

namespace SortKey

def toJson (k : SortKey) : Json :=
  .object [("field", .text k.field), ("direction", .optional (.text ·.text) k.direction)]

end SortKey

namespace Query

def toJson (q : Query) : Json :=
  .object [("fields", .list (q.fields.map .text)), ("omit", .bool q.omits),
    ("condition", .optional Condition.toJson q.condition),
    ("sort", .list (q.sort.map SortKey.toJson)),
    ("limit", .optional (.number ·.toNat) q.limit),
    ("offset", .optional (.number ·.toNat) q.offset)]

def compactText (s : Json.Serializer) (q : Query) : String := String.ofList (s.compact q.toJson)

def prettyText (s : Json.Serializer) (q : Query) : String := String.ofList (s.pretty q.toJson)

def compactJson (q : Query) : String := q.compactText Json.standard

def prettyJson (q : Query) : String := q.prettyText Json.standard

end Query

end FindExpr

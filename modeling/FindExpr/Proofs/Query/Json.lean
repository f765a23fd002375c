import FindExpr.Proofs.Json.Reading
import FindExpr.Query.Json
import Mathlib.Data.Option.Basic

namespace FindExpr

def Comparator.ofText? (s : String) : Option Comparator :=
  [eq, lt, gt, le, ge, like].find? (·.text == s)

def Connective.ofText? (s : String) : Option Connective := [and, or, omits].find? (·.text == s)

def Direction.ofText? (s : String) : Option Direction := [ascending, descending].find? (·.text == s)

theorem Comparator.ofText?_text (op : Comparator) : ofText? op.text = some op := by
  cases op <;> decide

theorem Connective.ofText?_text (op : Connective) : ofText? op.text = some op := by
  cases op <;> decide

theorem Direction.ofText?_text (d : Direction) : ofText? d.text = some d := by
  cases d <;> decide

namespace Json

def text? : Json → Option String
  | text s => some s
  | _ => none

def count? : Json → Option UInt64
  | number n => if h : n < UInt64.size then some (UInt64.ofNatLT n h) else none
  | _ => none

def optional? {α : Type} (f : Json → Option α) : Json → Option (Option α)
  | null => some none
  | j => (f j).map some

theorem text?_text (s : String) : text? (text s) = some s := rfl

theorem count?_number (n : UInt64) : count? (number n.toNat) = some n := by
  rw [count?, dif_pos n.toNat_lt, UInt64.ofNatLT_toNat]

section Parts

variable {α : Type} {f : α → Json} {g : Json → Option α} (h : ∀ a, g (f a) = some a)
include h

theorem optional?_optional (hnull : g null = none) (a : Option α) :
    optional? g (optional f a) = some a := by
  cases a with
  | none => rfl
  | some a =>
      have hf : f a ≠ null := by
        intro hf
        rw [← hf, h a] at hnull
        exact Option.some_ne_none a hnull
      rw [optional, optional?, h a]
      · rfl
      · exact hf

theorem mapM_map_eq_some (as : List α) : (as.map f).mapM g = some as := by
  have hgf : g ∘ f = pure := funext h
  rw [List.mapM_map, hgf, List.mapM_pure]
  exact congrArg some (List.map_id' as)

end Parts

end Json

namespace Condition

def ofJson? : Json → Option Condition
  | .object [("type", .text "comparison"), ("field", .text field), ("comparator", .text op),
      ("value", .text value)] =>
    (Comparator.ofText? op).map fun op => comparison ⟨field, op, value⟩
  | .object [("type", .text "binary"), ("operator", .text op), ("lhs", lhs), ("rhs", rhs)] => do
    return binary (← Connective.ofText? op) (← ofJson? lhs) (← ofJson? rhs)
  | _ => none

theorem ofJson?_toJson (c : Condition) : ofJson? c.toJson = some c := by
  induction c with
  | comparison c => rw [toJson, ofJson?, Comparator.ofText?_text, Option.map_some]
  | binary op lhs rhs ihl ihr => rw [toJson, ofJson?, Connective.ofText?_text, ihl, ihr]; rfl

end Condition

namespace SortKey

def ofJson? : Json → Option SortKey
  | .object [("field", .text field), ("direction", direction)] =>
    (Json.optional? (·.text?.bind Direction.ofText?) direction).map (⟨field, ·⟩)
  | _ => none

theorem ofJson?_toJson (k : SortKey) : ofJson? k.toJson = some k := by
  rw [toJson, ofJson?, Json.optional?_optional Direction.ofText?_text rfl]
  rfl

end SortKey

namespace Query

def ofJson? : Json → Option Query
  | .object [("fields", .list fields), ("omit", .bool omits), ("condition", condition),
      ("sort", .list sort), ("limit", limit), ("offset", offset)] => do
    return ⟨← fields.mapM Json.text?, omits, ← Json.optional? Condition.ofJson? condition,
      ← sort.mapM SortKey.ofJson?, ← Json.optional? Json.count? limit,
      ← Json.optional? Json.count? offset⟩
  | _ => none

theorem ofJson?_toJson (q : Query) : ofJson? q.toJson = some q := by
  rw [toJson, ofJson?, Json.mapM_map_eq_some Json.text?_text,
    Json.mapM_map_eq_some SortKey.ofJson?_toJson,
    Json.optional?_optional Condition.ofJson?_toJson rfl,
    Json.optional?_optional Json.count?_number rfl, Json.optional?_optional Json.count?_number rfl]
  rfl

/-- The query that a JSON text in either layout was written for, by whatever serializer. -/
def ofJsonText? (text : String) : Option Query := (Json.read? text.toList).bind ofJson?

theorem injective_of_ofJsonText? {layout : Query → String}
    (h : ∀ q, ofJsonText? (layout q) = some q) : Function.Injective layout := by
  have hs : ofJsonText? ∘ layout = some := funext h
  have hi : Function.Injective (ofJsonText? ∘ layout) := by
    rw [hs]
    exact Option.some_injective Query
  exact hi.of_comp

section Serializer

variable {s : Json.Serializer} (h : s.Documented)
include h

theorem ofJsonText?_compactText (q : Query) : ofJsonText? (q.compactText s) = some q := by
  rw [ofJsonText?, compactText, String.toList_ofList, Json.read?_compact h, Option.bind_some,
    ofJson?_toJson]

theorem ofJsonText?_prettyText (q : Query) : ofJsonText? (q.prettyText s) = some q := by
  rw [ofJsonText?, prettyText, String.toList_ofList, Json.read?_pretty h, Option.bind_some,
    ofJson?_toJson]

theorem squeeze_prettyText (q : Query) :
    Json.squeeze (q.prettyText s).toList = (q.compactText s).toList := by
  rw [prettyText, compactText, String.toList_ofList, String.toList_ofList, Json.squeeze_pretty h]

end Serializer

/-- Whatever serializer writes them, both layouts are decoded to the query they were written for, so
no two queries share one. They differ by blanks outside of string literals only. -/
theorem layouts_determine (s : Json.Serializer) (h : s.Documented) :
    (∀ q, ofJsonText? (compactText s q) = some q ∧ ofJsonText? (prettyText s q) = some q) ∧
      Function.Injective (compactText s) ∧ Function.Injective (prettyText s) ∧
      ∀ q, Json.squeeze (prettyText s q).toList = (compactText s q).toList :=
  ⟨fun q => ⟨ofJsonText?_compactText h q, ofJsonText?_prettyText h q⟩,
    injective_of_ofJsonText? (ofJsonText?_compactText h),
    injective_of_ofJsonText? (ofJsonText?_prettyText h), squeeze_prettyText h⟩

theorem layouts_determine_standard :
    Json.standard.Documented ∧
      (∀ q, ofJsonText? (compactJson q) = some q ∧ ofJsonText? (prettyJson q) = some q) ∧
      Function.Injective compactJson ∧ Function.Injective prettyJson ∧
      ∀ q, Json.squeeze (prettyJson q).toList = (compactJson q).toList :=
  ⟨Json.documented_standard, layouts_determine Json.standard Json.documented_standard⟩

end Query

end FindExpr

import FindExpr.Position

namespace FindExpr.Position

def behind (before : List Char) : Position := ⟨before.length, Text.size before⟩

@[simp] theorem behind_nil : behind [] = start := rfl

theorem behind_append (before text : List Char) :
    behind (before ++ text) = (behind before).after text := by
  simp [behind, after]

@[simp] theorem index_behind (before : List Char) : (behind before).index = 1 + before.length :=
  Nat.add_comm ..

/-- The position is a place between two characters of a source, counted as all places are. -/
def IsIn (source : List Char) (p : Position) : Prop :=
  ∃ before after, source = before ++ after ∧ p.offset = Text.size before ∧
    p.index = 1 + before.length

theorem isIn_behind {source before after : List Char} (h : source = before ++ after) :
    (behind before).IsIn source :=
  ⟨before, after, h, rfl, index_behind before⟩

theorem behind_precedes {text : List Char} (h : text ≠ []) (before : List Char) :
    (behind before).precedes (behind (before ++ text)) = true := by
  have hl := List.length_pos_iff.2 h
  refine precedes_iff.2 (.inl ?_)
  simpa [behind] using hl

end FindExpr.Position

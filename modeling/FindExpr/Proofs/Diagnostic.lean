import FindExpr.Diagnostic.Basic

namespace FindExpr.Diagnostic

variable (d : Diagnostic) (place : Position) (message : String)

@[simp] theorem start_spanningTo : (d.spanningTo place).start = d.start := by
  unfold spanningTo
  split <;> rfl

@[simp] theorem cause_spanningTo : (d.spanningTo place).cause = d.cause := by
  unfold spanningTo
  split <;> rfl

theorem stop_spanningTo (h : d.start.precedes place = true) : (d.spanningTo place).stop = place :=
  congrArg stop (if_pos h)

@[simp] theorem notes_spanningTo : (d.spanningTo place).notes = d.notes := by
  unfold spanningTo
  split <;> rfl

@[simp] theorem start_help : (d.help message).start = d.start := rfl

@[simp] theorem cause_help : (d.help message).cause = d.cause := rfl

@[simp] theorem stop_help : (d.help message).stop = d.stop := rfl

@[simp] theorem notes_help : (d.help message).notes = d.notes ++ [⟨.help, message, none⟩] := rfl

@[simp] theorem start_noteAt : (d.noteAt message place).start = d.start := rfl

@[simp] theorem cause_noteAt : (d.noteAt message place).cause = d.cause := rfl

@[simp] theorem stop_noteAt : (d.noteAt message place).stop = d.stop := rfl

@[simp] theorem notes_noteAt :
    (d.noteAt message place).notes = d.notes ++ [⟨.note, message, some place⟩] := rfl

@[simp] theorem start_on (c : Cause) : (on place message c).start = place := rfl

@[simp] theorem cause_on (c : Cause) : (on place message c).cause = c := rfl

@[simp] theorem stop_on (c : Cause) : (on place message c).stop = place := rfl

@[simp] theorem notes_on (c : Cause) : (on place message c).notes = [] := rfl

end FindExpr.Diagnostic

import FindExpr.Proofs.Recognizer.Owed

namespace FindExpr

namespace Event

def count? : Event → Option Literal
  | limit l | offset l => some l
  | _ => none

end Event

namespace TokenKind

def announcesCount : TokenKind → Bool
  | .keyword .limit | .keyword .offset => true
  | _ => false

end TokenKind

namespace Recognizer

def State.expectsCount : State → Bool
  | expectLimit | expectOffset => true
  | _ => false

def countsOf (es : List Event) : List Literal := es.filterMap Event.count?

variable {limit : Nat} {q r : State} {t : Token} {ts : List Token} {es : List Event} {l : Literal}

theorem countsOf_append (es fs : List Event) : countsOf (es ++ fs) = countsOf es ++ countsOf fs :=
  List.filterMap_append ..

theorem countsOf_owed (q : State) : countsOf q.owed = [] := by
  cases q <;> rfl

theorem Move.of_mem_countsOf (h : Move limit q t es r) (hl : l ∈ countsOf es) :
    q.expectsCount = true ∧ t.kind = .literal ∧ l = t.literal := by
  cases h with
  | limitCount ht | offsetCount ht => exact ⟨rfl, ht, List.mem_singleton.1 hl⟩
  | select | filter | orderBy | limit | offset | operand =>
      rw [countsOf_owed] at hl
      cases hl
  | group =>
      rw [countsOf_append, countsOf_owed] at hl
      cases hl
  | _ => cases hl

theorem of_mem_countsOf_step (hl : l ∈ countsOf (step limit q t).events) :
    q.expectsCount = true ∧ t.kind = .literal ∧ l = t.literal := by
  by_cases hs : ∃ r, (step limit q t).verdict = .continue r
  · obtain ⟨r, hr⟩ := hs
    exact (move_of_continue hr).of_mem_countsOf hl
  · rw [events_of_stop fun r hr => hs ⟨r, hr⟩, countsOf_owed] at hl
    cases hl

theorem Move.announcesCount (h : Move limit q t es r) (hr : r.expectsCount = true) :
    t.kind.announcesCount = true := by
  cases h with
  | limit _ ht | offset _ ht =>
      rw [ht]
      rfl
  | _ => cases hr

theorem Path.exists_count {w : Token} (p : Path limit q ts es r)
    (hw : q.expectsCount = true → w.kind.announcesCount = true) (hl : l ∈ countsOf es) :
    ∃ us u t vs, w :: ts = us ++ u :: t :: vs ∧ u.kind.announcesCount = true ∧
      t.kind = .literal ∧ l = t.literal := by
  induction p generalizing w with
  | nil => cases hl
  | @cons q t e r ts es s h _ ih =>
      have hm := move_of_step h
      rw [countsOf_append, List.mem_append] at hl
      rcases hl with hl | hl
      · obtain ⟨hq, ht, hl⟩ := hm.of_mem_countsOf hl
        exact ⟨[], w, t, ts, rfl, hw hq, ht, hl⟩
      · obtain ⟨us, u, t', vs, hu, hk⟩ := ih hm.announcesCount hl
        exact ⟨w :: us, u, t', vs, congrArg (w :: ·) hu, hk⟩

end Recognizer

end FindExpr

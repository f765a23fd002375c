import FindExpr.Proofs.Report
import FindExpr.Proofs.Text.Utf8
import Mathlib.Data.Nat.Digits.Defs

namespace FindExpr

def clamp? (low high n : Nat) : Option Nat :=
  if low ≤ high then some (clamp low high n) else none

namespace Text

def lastBreak? : List Char → Option Nat
  | [] => none
  | c :: rest =>
    match lastBreak? rest with
    | some n => some (c.utf8Size + n)
    | none => if c = '\n' then some 0 else none

def lineStart (text : List Char) : Nat := (lastBreak? text).elim 0 (· + 1)

end Text

namespace Spot

def textBefore (source : List Char) (offset : Nat) : List Char :=
  (Text.takeBytes? (min offset (Text.size source)) source).getD source

def ofOffset? (source : List Char) (offset : Nat) : Option Spot :=
  let before := textBefore source offset
  (Text.dropBytes? (Text.lineStart before) before).map fun row =>
    ⟨before.count '\n', row.length⟩

end Spot

namespace Diagnostic

def caretOffset? (d : Diagnostic) (source : List Char) : Option Nat := do
  let start := min d.start.offset (Text.size source)
  let stop ← clamp? start (Text.size source) d.stop.offset
  match Text.slice? source start stop with
  | none => some start
  | some marked =>
    if Text.skipBlank marked = [] then some start
    else some (start + Text.size (Text.leadingBlank marked))

def highlighted? (d : Diagnostic) (source : List Char) : Option (List Char) := do
  let caret ← d.caretOffset? source
  let stop ← clamp? caret (Text.size source) d.stop.offset
  some (Text.trimEnd ((Text.slice? source caret stop).getD []))

def spot? (d : Diagnostic) (source : List Char) : Option Spot :=
  (d.caretOffset? source).bind (Spot.ofOffset? source)

end Diagnostic

def Note.checkedLines? (n : Note) (source : List Char) : Option (List (List Char)) :=
  match n.place with
  | none => some [n.headline]
  | some place => do
    let spot ← Spot.ofOffset? source place.offset
    let line ← spot.numberedLine? source
    let dash ← spot.markLine? ['-']
    some [n.headline, List.replicate 5 ' ' ++ line, List.replicate 5 ' ' ++ dash]

namespace Diagnostic

def checkedLines? (d : Diagnostic) (source : List Char) : Option (List (List Char)) := do
  let spot ← d.spot? source
  let marked ← d.highlighted? source
  let gutter ← Text.alignRight? spot.gutter []
  let line ← spot.numberedLine? source
  let underline ← spot.markLine? (List.replicate (max 1 marked.length) '^')
  let notes ← d.notes.mapM (·.checkedLines? source)
  some
    (["error: ".toList ++ d.message.toList,
        "  --> <query>:".toList ++ spot.number ++ [':'] ++ Nat.toDigits 10 (spot.column + 1),
        gutter ++ " |".toList, line, underline]
      ++ notes.flatten)

/-- The report with the source, if no check fails. -/
def checkedReport? (d : Diagnostic) (source : String) : Option String :=
  (d.checkedLines? source.toList).map fun lines => String.ofList (lines.flatMap (· ++ ['\n']))

/-- Nothing goes wrong in a report on `source`, neither in the ranges it moves offsets into nor in
the cuts it makes, unless something is laid out too far to the right for a line to be filled up to
there. The caret stands at the start of what is marked or behind that. -/
structure ReportsSafely (source : String) (d : Diagnostic) : Prop where
  caret_le : d.caretOffset source.toList ≤ Text.size source.toList
  clamp?_start : ∃ stop,
    clamp? (min d.start.offset (Text.size source.toList)) (Text.size source.toList)
      d.stop.offset = some stop
  clamp?_caret : ∃ stop,
    clamp? (d.caretOffset source.toList) (Text.size source.toList) d.stop.offset = some stop
  lineStart_boundary : ∀ offset,
    let before := Spot.textBefore source.toList offset
    Text.IsBoundary before (Text.lineStart before)
  column_le : ∀ offset, (Spot.ofOffset source.toList offset).column ≤ source.toList.length
  caret_boundary : Text.IsBoundary source.toList d.start.offset →
    Text.IsBoundary source.toList (d.caretOffset source.toList) ∧
      d.start.offset ≤ d.caretOffset source.toList ∧
      d.caretOffset source.toList ≤ max d.start.offset d.stop.offset
  checkedReport?_eq : d.checkedReport? source = d.report? (some source)
  isSome_iff : (d.report? (some source)).isSome = true ↔ d.Fits source.toList
  isSome_of_short : source.toList.length ≤ Text.maxWidth →
    (d.report? (some source)).isSome = true

end Diagnostic

variable {low high n : Nat} {source head tail text : List Char} {d : Diagnostic}

theorem clamp?_of_le (h : low ≤ high) (n : Nat) : clamp? low high n = some (clamp low high n) :=
  if_pos h

namespace Text

theorem lastBreak?_eq_none (h : '\n' ∉ text) : lastBreak? text = none := by
  induction text with
  | nil => rfl
  | cons c text ih =>
      rw [List.mem_cons, not_or] at h
      rw [lastBreak?, ih h.2]
      exact if_neg (Ne.symm h.1)

theorem lastBreak?_append (head : List Char) (ht : '\n' ∉ tail) :
    lastBreak? (head ++ '\n' :: tail) = some (size head) := by
  induction head with
  | nil => rw [List.nil_append, lastBreak?, lastBreak?_eq_none ht]; rfl
  | cons c head ih => rw [List.cons_append, lastBreak?, ih]; rfl

/-- One byte behind the last line feed there is a boundary, since a line feed takes one byte. -/
theorem lineStart_append (hh : OpensLine head) (ht : '\n' ∉ tail) :
    lineStart (head ++ tail) = size head := by
  rcases hh with rfl | hh
  · rw [List.nil_append, lineStart, lastBreak?_eq_none ht]
    rfl
  · obtain ⟨head, rfl⟩ := List.getLast?_eq_some_iff.1 hh
    rw [List.append_assoc, List.singleton_append, lineStart, lastBreak?_append head ht, size_append]
    rfl

theorem isBoundary_lineStart (text : List Char) : IsBoundary text (lineStart text) := by
  obtain ⟨head, tail, rfl, hh, ht⟩ := exists_opensLine text
  rw [lineStart_append hh ht]
  exact isBoundary_size head tail

end Text

theorem Spot.ofOffset?_eq (source : List Char) (offset : Nat) :
    ofOffset? source offset = some (ofOffset source offset) := by
  obtain ⟨head, tail, hb, hh, ht⟩ := Text.exists_opensLine (textBefore source offset)
  have hs : ofOffset source offset = behind (textBefore source offset) := rfl
  rw [hs, ofOffset?, hb, Text.lineStart_append hh ht, Text.dropBytes?_size_append,
    Spot.behind_append hh ht, List.count_append, List.count_eq_zero_of_not_mem ht]
  rfl

theorem Spot.length_textBefore_le (source : List Char) (offset : Nat) :
    (textBefore source offset).length ≤ source.length := by
  unfold textBefore
  cases h : Text.takeBytes? (min offset (Text.size source)) source with
  | none => exact Nat.le_refl _
  | some before =>
      obtain ⟨rest, hs, -⟩ := Text.exists_append_of_takeBytes? h
      rw [hs, List.length_append]
      exact Nat.le_add_right ..

theorem Spot.column_ofOffset_le (source : List Char) (offset : Nat) :
    (ofOffset source offset).column ≤ source.length := by
  obtain ⟨head, tail, hb, hh, ht⟩ := Text.exists_opensLine (textBefore source offset)
  have hs : ofOffset source offset = behind (textBefore source offset) := rfl
  have hl := length_textBefore_le source offset
  rw [hb, List.length_append] at hl
  rw [hs, hb, Spot.behind_append hh ht]
  exact Nat.le_trans (Nat.le_add_left ..) hl

theorem Spot.line_ofOffset_le (source : List Char) (offset : Nat) :
    (ofOffset source offset).line ≤ source.length :=
  Nat.le_trans List.count_le_length (length_textBefore_le source offset)

theorem Spot.fits_ofOffset (h : source.length ≤ Text.maxWidth) (offset : Nat) :
    (ofOffset source offset).Fits := by
  have hl := Nat.le_trans (line_ofOffset_le source offset) h
  have hd : (ofOffset source offset).number.length ≤ 5 :=
    Nat.toDigits_length 10 _ 5 (by decide) (by unfold Text.maxWidth at hl; omega)
  refine ⟨?_, Nat.le_trans (column_ofOffset_le source offset) h⟩
  unfold gutter Text.maxWidth
  omega

theorem Note.checkedLines?_eq (n : Note) (source : List Char) :
    n.checkedLines? source = n.lines? (some source) := by
  unfold Note.checkedLines? Note.lines?
  cases n.place with
  | none => rfl
  | some place =>
      simp only [Spot.ofOffset?_eq, snippet?, Option.bind_eq_bind, Option.bind_some,
        Option.map_bind, Function.comp_def, Option.map_some]

namespace Diagnostic

theorem caretOffset?_eq (d : Diagnostic) (source : List Char) :
    d.caretOffset? source = some (d.caretOffset source) := by
  rw [caretOffset?, clamp?_of_le (Nat.min_le_right ..), caretOffset]
  dsimp only [Option.bind_eq_bind, Option.bind_some]
  cases Text.slice? source (min d.start.offset (Text.size source))
      (clamp (min d.start.offset (Text.size source)) (Text.size source) d.stop.offset) with
  | none => rfl
  | some marked => exact (apply_ite some ..).symm

theorem caretOffset_cases (d : Diagnostic) (source : List Char) :
    let start := min d.start.offset (Text.size source)
    d.caretOffset source = start ∨
      ∃ before lead text after, source = before ++ (lead ++ text) ++ after ∧
        Text.size before = start ∧
        start + Text.size (lead ++ text) = clamp start (Text.size source) d.stop.offset ∧
        d.caretOffset source = Text.size (before ++ lead) := by
  intro start
  unfold caretOffset
  dsimp only
  split
  · exact .inl rfl
  · next marked hm =>
      split
      · exact .inl rfl
      · obtain ⟨before, after, hs, hb, hc⟩ := Text.exists_append_of_slice? hm
        refine .inr ⟨before, Text.leadingBlank marked, Text.skipBlank marked, after, ?_, hb, ?_, ?_⟩
        · rwa [Text.leadingBlank_append_skipBlank]
        · rwa [Text.leadingBlank_append_skipBlank]
        · rw [Text.size_append, hb]

theorem caretOffset_le (d : Diagnostic) (source : List Char) :
    d.caretOffset source ≤ Text.size source := by
  rcases d.caretOffset_cases source with hc | ⟨before, lead, text, after, hs, -, -, hc⟩
  · rw [hc]
    exact Nat.min_le_right ..
  · rw [hc, hs]
    simp only [Text.size_append]
    omega

theorem highlighted?_eq (d : Diagnostic) (source : List Char) :
    d.highlighted? source = some (d.highlighted source) := by
  rw [highlighted?, caretOffset?_eq]
  dsimp only [Option.bind_eq_bind, Option.bind_some]
  rw [clamp?_of_le (d.caretOffset_le source)]
  rfl

theorem spot?_eq (d : Diagnostic) (source : List Char) :
    d.spot? source = some (d.spot source) := by
  rw [spot?, caretOffset?_eq, Option.bind_some, Spot.ofOffset?_eq, spot]

theorem checkedLines?_eq (d : Diagnostic) (source : List Char) :
    d.checkedLines? source = d.reportLines? (some source) := by
  simp only [checkedLines?, spot?_eq, highlighted?_eq, Note.checkedLines?_eq, reportLines?,
    snippet?, arrow_some, carets, Option.elim_some, Option.bind_eq_bind, Option.bind_some,
    Option.bind_assoc]
  rfl

theorem boundary_caretOffset (h : Text.IsBoundary source d.start.offset) :
    Text.IsBoundary source (d.caretOffset source) ∧ d.start.offset ≤ d.caretOffset source ∧
      d.caretOffset source ≤ max d.start.offset d.stop.offset := by
  have hstart : min d.start.offset (Text.size source) = d.start.offset := Nat.min_eq_left h.le
  have hcases := d.caretOffset_cases source
  rw [hstart] at hcases
  rcases hcases with hc | ⟨before, lead, text, after, hs, hb, hstop, hc⟩
  · rw [hc]
    exact ⟨h, Nat.le_refl _, Nat.le_max_left ..⟩
  · have hle : clamp d.start.offset (Text.size source) d.stop.offset ≤
        max d.start.offset d.stop.offset := by
      unfold clamp
      omega
    rw [hc]
    simp only [Text.size_append] at hstop ⊢
    refine ⟨⟨before ++ lead, text ++ after, by rw [hs]; simp, by simp⟩, ?_, ?_⟩
    · omega
    · omega

/-- Whether there is a report depends on nothing but how far to the right it reaches: neither need
the places of the diagnostic and of its notes lie in the source, nor the end of what it marks behind
the start. -/
theorem reports_safely (source : String) (d : Diagnostic) : d.ReportsSafely source where
  caret_le := d.caretOffset_le source.toList
  clamp?_start := ⟨_, clamp?_of_le (Nat.min_le_right ..) _⟩
  clamp?_caret := ⟨_, clamp?_of_le (d.caretOffset_le source.toList) _⟩
  lineStart_boundary := fun _ => Text.isBoundary_lineStart _
  column_le := Spot.column_ofOffset_le source.toList
  caret_boundary := boundary_caretOffset
  checkedReport?_eq := by
    rw [checkedReport?, checkedLines?_eq]
    rfl
  isSome_iff := isSome_report?_iff
  isSome_of_short := fun h => isSome_report?_iff.2
    ⟨Spot.fits_ofOffset h _, fun _ _ place _ => Spot.fits_ofOffset h place.offset⟩

theorem report?_behind_blanks {n : Nat} (hn : Text.maxWidth < n) :
    let source := String.ofList (List.replicate n ' ')
    (on (.behind source.toList) "" .unrecognizedInput).report? (some source) = none := by
  intro source
  have hs : source.toList = List.replicate n ' ' := String.toList_ofList
  have hm : (on (.behind source.toList) "" .unrecognizedInput).Marks source.toList source.toList
      [] [] [] [] := ⟨by simp, rfl, by simp [on], rfl, rfl, rfl, .inl ⟨rfl, rfl, rfl⟩⟩
  refine hm.report?_eq_none ?_ ?_
  · simp [hs]
  · simpa [hs] using hn

/-- A diagnostic about the end of a line that is too long. -/
theorem report_missing_behind_blanks :
    let source := String.ofList (List.replicate 65536 ' ')
    (on (.behind source.toList) "" .unrecognizedInput).report? (some source) = none :=
  report?_behind_blanks (Nat.lt_succ_self 65535)

-- Ends are compared by index first, so an end can have fewer bytes in front of it than the start.
example :
    let d := (on ⟨1, 3⟩ "" .unrecognizedInput).spanningTo ⟨2, 1⟩
    d.stop.offset < d.start.offset ∧ d.caretOffset ['a', 'é', ' ', 'b'] = 3 := by decide

end Diagnostic

end FindExpr

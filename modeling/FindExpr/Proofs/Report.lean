import FindExpr.Diagnostic.Report
import FindExpr.Proofs.Position
import FindExpr.Proofs.Text.Blank
import FindExpr.Proofs.Text.Lines

namespace FindExpr

/-- The diagnostic marks `text` with blanks around it, behind `before`. It may mark no text at all,
and then no blanks. -/
structure Diagnostic.Marks (source before lead text trail after : List Char) (d : Diagnostic) :
    Prop where
  source_eq : source = before ++ lead ++ text ++ trail ++ after
  start_eq : d.start = .behind before
  stop_eq : d.stop = .behind (before ++ lead ++ text ++ trail)
  lead_blank : lead.all Text.isBlank = true
  trail_blank : trail.all Text.isBlank = true
  trimmed : Text.trimEnd text = text
  begins : text = [] ∧ lead = [] ∧ trail = [] ∨ ∃ c rest, text = c :: rest ∧ Text.isBlank c = false

/-- The widths with which a spot is laid out are not too large. -/
def Spot.Fits (s : Spot) : Prop := s.gutter ≤ Text.maxWidth ∧ s.column ≤ Text.maxWidth

instance (s : Spot) : Decidable s.Fits := inferInstanceAs (Decidable (_ ∧ _))

/-- All that a report lays out fits: what it is about, and what its notes are about. -/
def Diagnostic.Fits (source : List Char) (d : Diagnostic) : Prop :=
  (d.spot source).Fits ∧ ∀ n ∈ d.notes, ∀ place, n.place = some place →
    (Spot.ofOffset source place.offset).Fits

variable {source before lead text trail after head tail row rest : List Char} {d : Diagnostic}

theorem Text.length_alignRight {width : Nat} (h : text.length ≤ width) :
    (alignRight width text).length = width := by
  rw [alignRight, List.length_append, List.length_replicate, Nat.sub_add_cancel h]

theorem Text.alignRight?_eq_some_iff {width : Nat} {filled : List Char} :
    alignRight? width text = some filled ↔ width ≤ maxWidth ∧ filled = alignRight width text := by
  unfold alignRight?
  split <;> simp [*, eq_comm]

theorem Text.alignRight_nil (width : Nat) : alignRight width [] = List.replicate width ' ' :=
  List.append_nil _

theorem clamp_of_le {low high n : Nat} (hl : low ≤ n) (hh : n ≤ high) : clamp low high n = n := by
  rw [clamp, Nat.min_eq_right hh, Nat.max_eq_right hl]

namespace Spot

theorem ofOffset_append (before rest : List Char) :
    ofOffset (before ++ rest) (Text.size before) = behind before := by
  rw [ofOffset, Nat.min_eq_left (by simp), Text.takeBytes?_size_append]
  rfl

theorem behind_append (hh : Text.OpensLine head) (ht : '\n' ∉ tail) :
    behind (head ++ tail) = ⟨head.count '\n', tail.length⟩ := by
  have hw : (head ++ tail).reverse.takeWhile (· ≠ '\n') = tail.reverse := by
    have hp : ∀ c ∈ tail.reverse, decide (c ≠ '\n') = true := by
      intro c hc
      exact decide_eq_true fun he => ht (he ▸ List.mem_reverse.1 hc)
    rw [List.reverse_append, List.takeWhile_append_of_pos hp, List.append_right_eq_self]
    rcases hh with rfl | hh
    · rfl
    · obtain ⟨head, rfl⟩ := List.getLast?_eq_some_iff.1 hh
      simp
  rw [behind, hw, List.length_reverse, List.count_append, List.count_eq_zero_of_not_mem ht]
  rfl

theorem behind_onLine {place : List Char} (h : Text.OnLine before place tail row) :
    behind before = ⟨before.count '\n', tail.length⟩ := by
  obtain ⟨head, rest, rfl, hh, ht, -⟩ := h
  rw [behind_append hh ht, List.count_append, List.count_eq_zero_of_not_mem ht, Nat.add_zero]

theorem lineOf_onLine {place : List Char} (h : Text.OnLine before place tail row) (column : Nat) :
    lineOf (before ++ place) ⟨before.count '\n', column⟩ = row := by
  rw [lineOf, h.getElem?_lines]
  split
  · next hn =>
      obtain ⟨head, rest, -, -, -, hl, -⟩ := h
      rw [hn] at hl
      exact (List.append_eq_nil_iff.1 hl.symm).1.symm
  · rfl

variable {line marks : List Char} {s : Spot}

theorem numberedLine?_eq_some_iff :
    s.numberedLine? source = some line ↔
      s.gutter ≤ Text.maxWidth ∧
        line = Text.alignRight s.gutter s.number ++ " | ".toList ++ s.lineOf source := by
  rw [numberedLine?, Option.map_eq_some_iff]
  simp only [Text.alignRight?_eq_some_iff]
  constructor
  · rintro ⟨_, ⟨hg, rfl⟩, rfl⟩
    exact ⟨hg, rfl⟩
  · rintro ⟨hg, rfl⟩
    exact ⟨_, ⟨hg, rfl⟩, rfl⟩

theorem markLine?_eq_some_iff :
    s.markLine? marks = some line ↔
      s.Fits ∧ line = List.replicate s.gutter ' ' ++ " | ".toList ++ List.replicate s.column ' '
        ++ marks := by
  simp only [markLine?, Option.bind_eq_bind, Option.bind_eq_some_iff, Text.alignRight?_eq_some_iff,
    Text.alignRight_nil, Option.some.injEq]
  constructor
  · rintro ⟨_, ⟨hg, rfl⟩, _, ⟨hc, rfl⟩, rfl⟩
    exact ⟨⟨hg, hc⟩, rfl⟩
  · rintro ⟨⟨hg, hc⟩, rfl⟩
    exact ⟨_, ⟨hg, rfl⟩, _, ⟨hc, rfl⟩, rfl⟩

end Spot

theorem Diagnostic.snippet?_eq_some_iff {lines : List (List Char)} :
    d.snippet? source = some lines ↔
      (d.spot source).Fits ∧ lines =
        [List.replicate (d.spot source).gutter ' ' ++ " |".toList,
          Text.alignRight (d.spot source).gutter (d.spot source).number ++ " | ".toList
            ++ (d.spot source).lineOf source,
          List.replicate (d.spot source).gutter ' ' ++ " | ".toList
            ++ List.replicate (d.spot source).column ' ' ++ d.carets source] := by
  simp only [snippet?, Option.bind_eq_bind, Option.bind_eq_some_iff, Text.alignRight?_eq_some_iff,
    Text.alignRight_nil, Spot.numberedLine?_eq_some_iff, Spot.markLine?_eq_some_iff,
    Option.some.injEq]
  constructor
  · rintro ⟨_, ⟨-, rfl⟩, _, ⟨-, rfl⟩, _, ⟨hf, rfl⟩, rfl⟩
    exact ⟨hf, rfl⟩
  · rintro ⟨hf, rfl⟩
    exact ⟨_, ⟨hf.1, rfl⟩, _, ⟨hf.1, rfl⟩, _, ⟨hf, rfl⟩, rfl⟩

theorem Diagnostic.reportLines?_eq_some_iff {lines : List (List Char)} :
    d.reportLines? (some source) = some lines ↔
      ∃ snippet notes, d.snippet? source = some snippet ∧
        d.notes.mapM (·.lines? (some source)) = some notes ∧
        lines = ["error: ".toList ++ d.message.toList, d.arrow (some source)] ++ snippet
          ++ notes.flatten := by
  simp only [reportLines?, Option.elim_some, Option.bind_eq_bind, Option.bind_eq_some_iff,
    Option.some.injEq]
  constructor
  · rintro ⟨snippet, hs, notes, hn, rfl⟩
    exact ⟨snippet, notes, hs, hn, rfl⟩
  · rintro ⟨snippet, notes, hs, hn, rfl⟩
    exact ⟨snippet, hs, notes, hn, rfl⟩

theorem isSome_mapM_iff {α β : Type} {f : α → Option β} {xs : List α} :
    (xs.mapM f).isSome = true ↔ ∀ x ∈ xs, (f x).isSome = true := by
  induction xs with
  | nil => simp
  | cons x xs ih =>
      rw [List.forall_mem_cons, ← ih, List.mapM_cons]
      cases f x <;> cases xs.mapM f <;> simp

theorem Note.isSome_snippet?_iff {place : Position} :
    (snippet? source place).isSome = true ↔ (Spot.ofOffset source place.offset).Fits := by
  simp only [Option.isSome_iff_exists, snippet?, Option.bind_eq_bind, Option.bind_eq_some_iff,
    Option.some.injEq]
  constructor
  · rintro ⟨_, _, -, _, hm, -⟩
    exact (Spot.markLine?_eq_some_iff.1 hm).1
  · intro hf
    exact ⟨_, _, Spot.numberedLine?_eq_some_iff.2 ⟨hf.1, rfl⟩, _,
      Spot.markLine?_eq_some_iff.2 ⟨hf, rfl⟩, rfl⟩

theorem Note.isSome_lines?_iff {n : Note} :
    (n.lines? (some source)).isSome = true ↔
      ∀ place, n.place = some place → (Spot.ofOffset source place.offset).Fits := by
  unfold lines?
  cases n.place with
  | none => simp
  | some place => simp [isSome_snippet?_iff]

theorem Diagnostic.isSome_report?_iff {source : String} :
    (d.report? (some source)).isSome = true ↔ d.Fits source.toList := by
  have hn : (∃ notes, d.notes.mapM (·.lines? (some source.toList)) = some notes) ↔
      ∀ n ∈ d.notes, ∀ place, n.place = some place →
        (Spot.ofOffset source.toList place.offset).Fits := by
    rw [← Option.isSome_iff_exists, isSome_mapM_iff]
    exact forall₂_congr fun n _ => Note.isSome_lines?_iff
  rw [report?, Option.isSome_map, Option.map_some, Option.isSome_iff_exists, Fits, ← hn]
  simp only [reportLines?_eq_some_iff, snippet?_eq_some_iff]
  constructor
  · rintro ⟨_, _, notes, ⟨hf, -⟩, hn, -⟩
    exact ⟨hf, notes, hn⟩
  · rintro ⟨hf, notes, hn⟩
    exact ⟨_, _, notes, ⟨hf, rfl⟩, hn, rfl⟩

theorem Diagnostic.report?_eq_none_iff {source : String} :
    d.report? (some source) = none ↔ ¬ d.Fits source.toList := by
  rw [← isSome_report?_iff, Option.not_isSome_iff_eq_none]

theorem Diagnostic.arrow_some (d : Diagnostic) (source : List Char) :
    d.arrow (some source) =
      "  --> <query>:".toList ++ (d.spot source).number ++ [':']
        ++ Nat.toDigits 10 ((d.spot source).column + 1) := by
  unfold Diagnostic.arrow
  dsimp only

namespace Diagnostic.Marks

theorem caretOffset_eq (h : d.Marks source before lead text trail after) :
    d.caretOffset source = Text.size (before ++ lead) := by
  have hs : source = before ++ (lead ++ (text ++ trail)) ++ after := by simp [h.source_eq]
  have hslice := Text.slice?_append_append before (lead ++ (text ++ trail)) after
  rw [← hs, ← Text.size_append] at hslice
  have hstart : min d.start.offset (Text.size source) = Text.size before := by
    rw [h.start_eq]
    exact Nat.min_eq_left (by simp [h.source_eq, Position.behind])
  have hstop : clamp (Text.size before) (Text.size source) d.stop.offset =
      Text.size (before ++ (lead ++ (text ++ trail))) := by
    rw [h.stop_eq, List.append_assoc, List.append_assoc]
    exact clamp_of_le (by simp [Position.behind]) (by simp [hs, Position.behind])
  simp only [caretOffset, hstart, hstop, hslice]
  rcases h.begins with ⟨rfl, rfl, rfl⟩ | ⟨c, rest, rfl, hc⟩
  · simp [Text.skipBlank]
  · have hk : Text.skipBlank (c :: rest ++ trail) = c :: rest ++ trail :=
      List.dropWhile_cons_of_neg (by simp [hc])
    rw [Text.skipBlank_append h.lead_blank, hk, Text.leadingBlank_append h.lead_blank hk,
      if_neg (by simp), Text.size_append]

theorem highlighted_eq (h : d.Marks source before lead text trail after) :
    d.highlighted source = text := by
  have hs : source = (before ++ lead) ++ (text ++ trail) ++ after := by simp [h.source_eq]
  have hslice := Text.slice?_append_append (before ++ lead) (text ++ trail) after
  rw [← hs, ← Text.size_append] at hslice
  have hstop : clamp (Text.size (before ++ lead)) (Text.size source) d.stop.offset =
      Text.size (before ++ lead ++ (text ++ trail)) := by
    rw [h.stop_eq, List.append_assoc (before ++ lead)]
    exact clamp_of_le (by simp [Position.behind]) (by simp [hs, Position.behind])
  simp only [highlighted, h.caretOffset_eq, hstop, hslice, Option.getD_some]
  rw [Text.trimEnd_append h.trail_blank, h.trimmed]

theorem spot_eq (h : d.Marks source before lead text trail after)
    (hl : Text.OnLine (before ++ lead) (text ++ (trail ++ after)) tail row) :
    d.spot source = ⟨(before ++ lead).count '\n', tail.length⟩ := by
  have hs : source = (before ++ lead) ++ (text ++ trail ++ after) := by simp [h.source_eq]
  rw [spot, h.caretOffset_eq, hs, Spot.ofOffset_append, Spot.behind_onLine hl]

theorem report?_eq_none {source : String} (h : d.Marks source.toList before lead text trail after)
    (hn : '\n' ∉ before ++ lead) (hw : Text.maxWidth < (before ++ lead).length) :
    d.report? (some source) = none := by
  obtain ⟨row, hl⟩ := Text.exists_onLine_of_not_mem hn (text ++ (trail ++ after))
  rw [report?_eq_none_iff, Fits, h.spot_eq hl]
  exact fun hf => Nat.not_le_of_gt hw hf.1.2

end Diagnostic.Marks

end FindExpr

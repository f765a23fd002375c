import FindExpr.Proofs.Command.Schedule
import FindExpr.Proofs.Query.Report
import Mathlib.Data.List.Basic

namespace FindExpr.Command.Check

/-- Where an expression stands: among the arguments, or on a line of a file. All is counted
from 0. -/
inductive Place where
  | argument (i : Nat)
  | line (file i : Nat)

inductive Place.Before : Place → Place → Prop
  | arguments {i j} (h : i < j) : Before (.argument i) (.argument j)
  | argument {i file j} : Before (.argument i) (.line file j)
  | lines {file i j} (h : i < j) : Before (.line file i) (.line file j)
  | files {file file' i j} (h : file < file') : Before (.line file i) (.line file' j)

/-- The expressions to check, with the names of their places. A blank line is none, but it is
counted where lines are numbered. -/
inductive Stands (inline : List String) (found : List (Path × String)) :
    Place → (origin source : String) → Prop
  | argument {i source} (h : inline[i]? = some source) :
      Stands inline found (.argument i) ("argument " ++ toString (i + 1)) source
  | line {file i path text row} (hf : found[file]? = some (path, text))
      (hl : (Text.lines text.toList)[i]? = some row) (hb : row.all Text.isBlank = false) :
      Stands inline found (.line file i) (path.text ++ ":" ++ toString (i + 1)) (String.ofList row)

/-- The rejected expressions in the order of their places, which no two of them share. -/
structure Lists (limit : Nat) (inline : List String) (found : List (Path × String))
    (rejected : List (Place × Failure)) : Prop where
  ordered : rejected.Pairwise fun a b => a.1.Before b.1
  mem_iff : ∀ place f, (place, f) ∈ rejected ↔
    Stands inline found place f.origin f.source ∧
      Recognizer.check limit f.source = .error f.diagnostic

def lineCount (found : List (Path × String)) : Nat :=
  (found.flatMap fun f => Text.lines f.2.toList).countP fun row => !row.all Text.isBlank

/-- The response says that all expressions are accepted, or else how many of them are not, and then
lists these with their diagnostics. There is no response if one of these has no report. -/
structure Tells (limit : Nat) (inline : List String) (found : List (Path × String))
    (rejected : List (Place × Failure)) (response : Option Response) : Prop
    extends Lists limit inline found rejected where
  exitCode_eq_zero_iff : response.map Response.exitCode = some 0 ↔
    ∀ place origin source, Stands inline found place origin source →
      Recognizer.check limit source = .ok ()
  eq_of_nil : rejected = [] → response = some (.success
    ("\u2705 All find expressions validated successfully:\n" ++
      "  * Validated " ++ toString inline.length ++ " inline expressions.\n" ++
      "  * Validated " ++ toString (lineCount found) ++ " expressions from " ++
      toString found.length ++ " query files."))
  eq_of_ne_nil : rejected ≠ [] → response =
    ((rejected.map Prod.snd).mapM fun f : Failure =>
      (f.diagnostic.report? (some f.source)).map fun report =>
        f.origin ++ ":\n" ++ String.ofList (Text.indent 2 report.toList)).map fun texts =>
          .failure ("\u274c " ++ toString rejected.length ++ " of " ++
            toString (inline.length + lineCount found) ++ " find expressions are invalid:\n\n" ++
            "\n\n".intercalate texts)
  eq_none_iff : response = none ↔
    ∃ r ∈ rejected, ¬ r.2.diagnostic.Fits r.2.source.toList

def rejectedArguments (limit : Nat) (inline : List String) : List (Place × Failure) :=
  inline.zipIdx.filterMap fun (source, i) =>
    (failure? limit ("argument " ++ toString (i + 1)) source).map (Place.argument i, ·)

def rejectedLines (limit file : Nat) (path : Path) (text : String) : List (Place × Failure) :=
  (Text.lines text.toList).zipIdx.filterMap fun (row, i) =>
    if row.all Text.isBlank then none
    else (failure? limit (path.text ++ ":" ++ toString (i + 1)) (String.ofList row)).map
      (Place.line file i, ·)

def rejected (limit : Nat) (inline : List String) (found : List (Path × String)) :
    List (Place × Failure) :=
  rejectedArguments limit inline ++
    found.zipIdx.flatMap fun (f, file) => rejectedLines limit file f.1 f.2

variable {limit file : Nat} {files : FileSource} {inline paths extensions : List String}
  {found : List (Path × String)} {origin source text : String} {path : Path} {f : Failure}
  {place : Place}

theorem failure?_eq_some_iff :
    failure? limit origin source = some f ↔
      f.origin = origin ∧ f.source = source ∧
        Recognizer.check limit source = .error f.diagnostic := by
  unfold failure?
  cases Recognizer.check limit source with
  | ok u => simp
  | error d =>
      rw [Option.some.injEq, Except.error.injEq]
      constructor
      · rintro rfl
        exact ⟨rfl, rfl, rfl⟩
      · rintro ⟨rfl, rfl, rfl⟩
        rfl

theorem pairwise_zipIdx {α : Type} (xs : List α) (n : Nat) :
    (xs.zipIdx n).Pairwise fun a b => a.2 < b.2 := by
  induction xs generalizing n with
  | nil => exact .nil
  | cons x xs ih =>
      rw [List.zipIdx_cons, List.pairwise_cons]
      exact ⟨fun b hb => List.le_snd_of_mem_zipIdx hb, ih (n + 1)⟩

section Members

theorem mem_rejectedArguments_iff :
    (place, f) ∈ rejectedArguments limit inline ↔
      ∃ i, place = .argument i ∧ inline[i]? = some f.source ∧
        f.origin = "argument " ++ toString (i + 1) ∧
        Recognizer.check limit f.source = .error f.diagnostic := by
  simp only [rejectedArguments, List.mem_filterMap, Prod.exists, List.mem_zipIdx_iff_getElem?,
    Option.map_eq_some_iff, failure?_eq_some_iff, Prod.mk.injEq]
  constructor
  · rintro ⟨source, i, hi, f, ⟨ho, rfl, hd⟩, rfl, rfl⟩
    exact ⟨i, rfl, hi, ho, hd⟩
  · rintro ⟨i, rfl, hi, ho, hd⟩
    exact ⟨f.source, i, hi, f, ⟨ho, rfl, hd⟩, rfl, rfl⟩

theorem mem_rejectedLines_iff :
    (place, f) ∈ rejectedLines limit file path text ↔
      ∃ i row, place = .line file i ∧ (Text.lines text.toList)[i]? = some row ∧
        row.all Text.isBlank = false ∧ f.origin = path.text ++ ":" ++ toString (i + 1) ∧
        f.source = String.ofList row ∧ Recognizer.check limit f.source = .error f.diagnostic := by
  simp only [rejectedLines, List.mem_filterMap, Prod.exists, List.mem_zipIdx_iff_getElem?,
    Option.ite_none_left_eq_some, Option.map_eq_some_iff, failure?_eq_some_iff, Prod.mk.injEq,
    Bool.not_eq_true]
  constructor
  · rintro ⟨row, i, hi, hb, f, ⟨ho, hs, hd⟩, rfl, rfl⟩
    exact ⟨i, row, rfl, hi, hb, ho, hs, hs ▸ hd⟩
  · rintro ⟨i, row, rfl, hi, hb, ho, hs, hd⟩
    exact ⟨row, i, hi, hb, f, ⟨ho, hs, hs ▸ hd⟩, rfl, rfl⟩

theorem mem_rejected_iff :
    (place, f) ∈ rejected limit inline found ↔
      Stands inline found place f.origin f.source ∧
        Recognizer.check limit f.source = .error f.diagnostic := by
  rw [rejected, List.mem_append, mem_rejectedArguments_iff, List.mem_flatMap]
  simp only [Prod.exists, List.mem_zipIdx_iff_getElem?, mem_rejectedLines_iff]
  constructor
  · rintro (⟨i, rfl, hi, ho, hd⟩ | ⟨path, text, file, hf, i, row, rfl, hl, hb, ho, hs, hd⟩)
    · rw [ho]
      exact ⟨.argument hi, hd⟩
    · rw [ho]
      refine ⟨?_, hd⟩
      rw [hs]
      exact .line hf hl hb
  · rcases f with ⟨origin, source, d⟩
    rintro ⟨h, hd⟩
    cases h with
    | argument hi => exact .inl ⟨_, rfl, hi, rfl, hd⟩
    | line hf hl hb => exact .inr ⟨_, _, _, hf, _, _, rfl, hl, hb, rfl, rfl, hd⟩

end Members

section Order

theorem pairwise_rejectedArguments :
    (rejectedArguments limit inline).Pairwise fun a b => a.1.Before b.1 := by
  refine (pairwise_zipIdx inline 0).filterMap _ ?_
  rintro ⟨s, i⟩ ⟨t, j⟩ hij a ha b hb
  obtain ⟨f, -, rfl⟩ := Option.map_eq_some_iff.1 ha
  obtain ⟨g, -, rfl⟩ := Option.map_eq_some_iff.1 hb
  exact .arguments hij

theorem pairwise_rejectedLines :
    (rejectedLines limit file path text).Pairwise fun a b => a.1.Before b.1 := by
  refine (pairwise_zipIdx (Text.lines text.toList) 0).filterMap _ ?_
  rintro ⟨s, i⟩ ⟨t, j⟩ hij a ha b hb
  obtain ⟨-, ha⟩ := Option.ite_none_left_eq_some.1 ha
  obtain ⟨-, hb⟩ := Option.ite_none_left_eq_some.1 hb
  obtain ⟨f, -, rfl⟩ := Option.map_eq_some_iff.1 ha
  obtain ⟨g, -, rfl⟩ := Option.map_eq_some_iff.1 hb
  exact .lines hij

theorem pairwise_rejected :
    (rejected limit inline found).Pairwise fun a b => a.1.Before b.1 := by
  refine List.pairwise_append.2 ⟨pairwise_rejectedArguments, ?_, ?_⟩
  · refine List.pairwise_flatMap.2 ⟨fun _ _ => pairwise_rejectedLines, ?_⟩
    refine (pairwise_zipIdx found 0).imp ?_
    rintro ⟨f, k⟩ ⟨g, m⟩ hkm ⟨p, a⟩ ha ⟨q, b⟩ hb
    obtain ⟨i, -, rfl, -⟩ := mem_rejectedLines_iff.1 ha
    obtain ⟨j, -, rfl, -⟩ := mem_rejectedLines_iff.1 hb
    exact .files hkm
  · rintro ⟨p, a⟩ ha ⟨q, b⟩ hb
    obtain ⟨i, rfl, -⟩ := mem_rejectedArguments_iff.1 ha
    obtain ⟨⟨f, file⟩, -, hb⟩ := List.mem_flatMap.1 hb
    obtain ⟨j, -, rfl, -⟩ := mem_rejectedLines_iff.1 hb
    exact .argument

end Order

theorem lists_rejected (limit : Nat) (inline : List String) (found : List (Path × String)) :
    Lists limit inline found (rejected limit inline found) :=
  ⟨pairwise_rejected, fun _ _ => mem_rejected_iff⟩

section Totals

theorem map_rejectedArguments :
    (rejectedArguments limit inline).map Prod.snd = inlineFailures limit inline := by
  rw [rejectedArguments, List.map_filterMap, inlineFailures]
  refine List.filterMap_congr fun x _ => ?_
  simp [Function.comp_def]

theorem map_rejectedLines :
    (rejectedLines limit file path text).map Prod.snd = (fileReport limit path text).failures := by
  rw [rejectedLines, List.map_filterMap, fileReport, expressions, List.filterMap_filterMap]
  refine List.filterMap_congr fun ⟨row, i⟩ _ => ?_
  cases hb : row.all Text.isBlank <;> simp [hb, Function.comp_def]

theorem map_rejected :
    (rejected limit inline found).map Prod.snd =
      inlineFailures limit inline ++
        (found.map fun f => fileReport limit f.1 f.2).flatMap FileReport.failures := by
  have hf : (found.zipIdx.flatMap fun (f, file) => rejectedLines limit file f.1 f.2).map Prod.snd =
      (found.zipIdx.map Prod.fst).flatMap fun f => (fileReport limit f.1 f.2).failures := by
    rw [List.map_flatMap, List.flatMap_map]
    exact List.flatMap_congr fun _ _ => map_rejectedLines
  rw [rejected, List.map_append, map_rejectedArguments, hf, List.zipIdx_map_fst, List.flatMap_map]

theorem expressions_eq (text : String) :
    expressions text =
      ((Text.lines text.toList).zipIdx.filter fun x => !x.1.all Text.isBlank).map fun x =>
        (x.2 + 1, String.ofList x.1) := by
  rw [expressions]
  induction (Text.lines text.toList).zipIdx with
  | nil => rfl
  | cons x xs ih =>
      rcases x with ⟨row, i⟩
      rw [List.filterMap_cons, ih]
      cases hb : row.all Text.isBlank <;> simp [hb]

theorem count_fileReport :
    (fileReport limit path text).count =
      (Text.lines text.toList).countP fun row => !row.all Text.isBlank := by
  have hz := List.zipIdx_map_fst 0 (Text.lines text.toList)
  have hl : (fileReport limit path text).count = (expressions text).length := rfl
  rw [hl, expressions_eq, List.length_map, ← List.countP_eq_length_filter, ← hz, List.countP_map,
    hz]
  rfl

theorem count_fileReports :
    (found.map fun f => fileReport limit f.1 f.2).foldr (fun r n => r.count + n) 0 =
      lineCount found := by
  induction found with
  | nil => rfl
  | cons f found ih =>
      rw [List.map_cons, List.foldr_cons, ih, count_fileReport, lineCount, lineCount,
        List.flatMap_cons, List.countP_append]

theorem rejected_eq_nil_iff :
    rejected limit inline found = [] ↔
      ∀ place origin source, Stands inline found place origin source →
        Recognizer.check limit source = .ok () := by
  rw [List.eq_nil_iff_forall_not_mem]
  constructor
  · intro h place origin source hs
    cases hc : Recognizer.check limit source with
    | ok u => rfl
    | error d =>
        have hm : (place, (⟨origin, source, d⟩ : Failure)) ∈ rejected limit inline found :=
          mem_rejected_iff.2 ⟨hs, hc⟩
        exact absurd hm (h _)
  · rintro h ⟨place, f⟩ hm
    obtain ⟨hs, hd⟩ := mem_rejected_iff.1 hm
    cases (h place f.origin f.source hs).symm.trans hd

end Totals

section Answering

theorem conclude?_of_nil (h : rejected limit inline found = []) :
    conclude? limit inline (found.map fun f => fileReport limit f.1 f.2) =
      some (.success (successText inline.length (lineCount found)
        (found.map fun f => fileReport limit f.1 f.2))) := by
  unfold conclude?
  rw [← map_rejected, count_fileReports, h]
  exact if_pos rfl

theorem conclude?_of_ne_nil (h : rejected limit inline found ≠ []) :
    conclude? limit inline (found.map fun f => fileReport limit f.1 f.2) =
      (failureText? (inline.length + lineCount found)
        ((rejected limit inline found).map Prod.snd)).map .failure := by
  have hn : ¬ ((rejected limit inline found).map Prod.snd).isEmpty = true := by
    rwa [List.isEmpty_iff, List.map_eq_nil_iff]
  unfold conclude?
  rw [← map_rejected, count_fileReports]
  exact if_neg hn

theorem failureText?_eq_none_iff {count : Nat} {failures : List Failure} :
    failureText? count failures = none ↔
      ∃ f ∈ failures, ¬ f.diagnostic.Fits f.source.toList := by
  rw [failureText?, Option.map_eq_none_iff, ← Option.not_isSome_iff_eq_none, isSome_mapM_iff]
  simp only [Failure.text?, Option.isSome_map, Diagnostic.isSome_report?_iff, not_forall,
    exists_prop]

theorem conclude?_eq_none_iff :
    conclude? limit inline (found.map fun f => fileReport limit f.1 f.2) = none ↔
      ∃ r ∈ rejected limit inline found, ¬ r.2.diagnostic.Fits r.2.source.toList := by
  by_cases hn : rejected limit inline found = []
  · simp [conclude?_of_nil hn, hn]
  · rw [conclude?_of_ne_nil hn, Option.map_eq_none_iff, failureText?_eq_none_iff]
    simp only [List.mem_map, exists_exists_and_eq_and]

theorem eq_conclude_of_answers {response : Option Response}
    (hf : collect files paths extensions = .ok (found.map Prod.fst))
    (hr : ∀ f ∈ found, files.read f.1 = some f.2)
    (h : Answers limit files (checkFile limit files) inline paths extensions response) :
    response = conclude? limit inline (found.map fun f => fileReport limit f.1 f.2) := by
  have ho : (found.map Prod.fst).map (checkFile limit files) =
      (found.map fun f => fileReport limit f.1 f.2).map .ok := by
    rw [List.map_map, List.map_map]
    refine List.map_congr_left fun f hm => ?_
    rw [Function.comp_apply, checkFile, hr f hm]
    rfl
  have hs : ((found.map fun f => fileReport limit f.1 f.2).map FileReport.path).Pairwise
      fun p q => p.before q = true := by
    rw [List.map_map]
    exact pairwise_collect hf
  cases h with
  | unscanned h => cases hf.symm.trans h
  | completed h hc =>
      obtain rfl := Except.ok.inj (hf.symm.trans h)
      have he : ∀ p ∈ found.map Prod.fst, ∀ q ∈ found.map Prod.fst, ∀ e e',
          checkFile limit files p = .error e → checkFile limit files q = .error e' → e = e' := by
        intro p hp q hq e e' he he'
        have hm := List.mem_map_of_mem (f := checkFile limit files) hp
        rw [ho, he] at hm
        obtain ⟨r, -, hr⟩ := List.mem_map.1 hm
        cases hr
      rw [concludeCompleted?, gather_outcomes (fun _ _ => path_checkFile) he hc, ho,
        gather_of_sorted hs]

end Answering

/-- If all files can be read, any answer lists the rejected expressions, those of the files in the
order of their paths, and there is no answer if one of them has no report. -/
theorem answer_lists_rejected (limit : Nat) (files : FileSource)
    (inline paths extensions : List String) (found : List (Path × String))
    (response : Option Response) (hf : collect files paths extensions = .ok (found.map Prod.fst))
    (hr : ∀ f ∈ found, files.read f.1 = some f.2)
    (h : Answers limit files (checkFile limit files) inline paths extensions response) :
    (found.map Prod.fst).Pairwise (fun p q => p.before q = true) ∧
      ∃ rejected, Tells limit inline found rejected response := by
  have hc := eq_conclude_of_answers hf hr h
  refine ⟨pairwise_collect hf, rejected limit inline found,
    ⟨lists_rejected limit inline found, ?_, fun hn => ?_, fun hn => ?_, ?_⟩⟩
  · rw [← rejected_eq_nil_iff]
    by_cases hn : rejected limit inline found = []
    · rw [hc, conclude?_of_nil hn]
      exact iff_of_true rfl hn
    · refine iff_of_false ?_ hn
      rw [hc, conclude?_of_ne_nil hn, Option.map_map, Option.map_eq_some_iff]
      rintro ⟨_, -, he⟩
      exact Nat.one_ne_zero he
  · rw [hc, conclude?_of_nil hn, successText, List.length_map]
    rfl
  · rw [hc, conclude?_of_ne_nil hn, failureText?, List.length_map, Option.map_map]
    rfl
  · rw [hc, conclude?_eq_none_iff]

theorem answer_lists_rejected_line :
    let found : List (Path × String) :=
      [(⟨["q", "a.fmq"]⟩, "SELECT a\n \nWHERE (b=1"), (⟨["q", "b.fmq"]⟩, "LIMIT 2")]
    let response := run? 64 twoFiles ["LIMIT"] ["/q"] ["fmq"]
    collect twoFiles ["/q"] ["fmq"] = .ok (found.map Prod.fst) ∧
      (∀ f ∈ found, twoFiles.read f.1 = some f.2) ∧
      Answers 64 twoFiles (checkFile 64 twoFiles) ["LIMIT"] ["/q"] ["fmq"] response ∧
      (found.map Prod.fst).Pairwise (fun p q => p.before q = true) ∧
      ∃ rejected, Tells 64 ["LIMIT"] found rejected response := by
  intro found response
  have hf : collect twoFiles ["/q"] ["fmq"] = .ok (found.map Prod.fst) := by
    refine collect_ok_iff.2 ⟨_, rfl, Path.mergeSort_eq ?_ ?_⟩
    · decide
    · decide
  have hr : ∀ f ∈ found, twoFiles.read f.1 = some f.2 := by decide
  have ha := run_answers 64 twoFiles ["LIMIT"] ["/q"] ["fmq"]
  exact ⟨hf, hr, ha, answer_lists_rejected 64 twoFiles _ _ _ found response hf hr ha⟩

/-- A parenthesis too far to the right for its place to be shown. -/
theorem answer_missing_far_right :
    collect twoFiles [] ["fmq"] = .ok [] ∧
      Stands [indented 65536] [] (.argument 0) "argument 1" (indented 65536) ∧
      run? 64 twoFiles [indented 65536] [] ["fmq"] = none := by
  have hf : collect twoFiles [] ["fmq"] = .ok [] :=
    collect_ok_iff.2 ⟨[], rfl, Path.mergeSort_eq (.refl _) .nil⟩
  have hs : Stands [indented 65536] [] (.argument 0) "argument 1" (indented 65536) := .argument rfl
  refine ⟨hf, hs, ?_⟩
  obtain ⟨d, hc, hd⟩ := exists_indented_unreported 64 (Nat.lt_succ_self Text.maxWidth)
  have hr : ∀ f ∈ ([] : List (Path × String)), twoFiles.read f.1 = some f.2 := nofun
  rw [eq_conclude_of_answers hf hr (run_answers ..), conclude?_eq_none_iff]
  exact ⟨(.argument 0, ⟨_, _, d⟩), mem_rejected_iff.2 ⟨hs, hc⟩, Diagnostic.report?_eq_none_iff.1 hd⟩

example :
    ((conclude? 64 ["LIMIT 1"] [fileReport 64 ⟨["a"]⟩ "\n("]).bind Response.stderr) =
      some ("\u274c 1 of 2 find expressions are invalid:\n\n/a:2:\n" ++
        "  error: Syntax error: unexpected `(`\n    --> <query>:1:1\n" ++
        "     |\n   1 | (\n     | ^") := by
  decide +kernel

end FindExpr.Command.Check

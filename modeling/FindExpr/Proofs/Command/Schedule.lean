import FindExpr.Command.Check
import FindExpr.Proofs.Text.Order
import Mathlib.Data.List.Perm.Basic

namespace FindExpr.Command

namespace Path

theorem before_trans (p q r : Path) (hpq : p.before q = true) (hqr : q.before r = true) :
    p.before r = true :=
  Text.lexLE_trans Text.textLE_trans _ _ _ hpq hqr

theorem before_total (p q : Path) : (p.before q || q.before p) = true :=
  Text.lexLE_total Text.textLE_total _ _

theorem before_antisymm (p q : Path) (hpq : p.before q = true) (hqp : q.before p = true) :
    p = q := by
  cases p
  cases q
  exact congrArg Path.mk (Text.lexLE_antisymm Text.textLE_antisymm _ _ hpq hqp)

theorem pairwise_sorted (paths : List Path) :
    (paths.mergeSort before).Pairwise fun p q => p.before q = true :=
  List.pairwise_mergeSort before_trans before_total paths

/-- There is only one way to sort paths, since paths of one rank are equal. -/
theorem mergeSort_eq {paths sorted : List Path} (hp : paths.Perm sorted)
    (hs : sorted.Pairwise fun p q => p.before q = true) : paths.mergeSort before = sorted :=
  List.Perm.eq_of_pairwise (fun p q _ _ => before_antisymm p q) (pairwise_sorted paths) hs
    ((List.mergeSort_perm ..).trans hp)

end Path

namespace Check

/-- The answers to a check. Each file found has an outcome of its own, and these may be completed in
any order. -/
inductive Answers (limit : Nat) (files : FileSource) (outcome : Path → Except String FileReport)
    (inline paths extensions : List String) : Option Response → Prop
  | unscanned {text} (h : collect files paths extensions = .error text) :
      Answers limit files outcome inline paths extensions
        (some (.failure (Response.crossMark ++ " " ++ text)))
  | completed {found completed} (h : collect files paths extensions = .ok found)
      (hc : completed.Perm (found.map outcome)) :
      Answers limit files outcome inline paths extensions
        (concludeCompleted? limit inline completed)

def wanted (extensions : List String) (f : FoundFile) : Bool :=
  (extension? f.name.toList).any (extensions.map (·.toList.dropWhile (· = '.'))).contains

def matchesAt (files : FileSource) (extensions : List String) (path : String) : List Path :=
  match files.scan path with
  | .ok found => (found.files.filter (wanted extensions)).map FoundFile.path
  | .error _ => []

variable {limit : Nat} {files : FileSource} {outcome : Path → Except String FileReport}
  {inline paths paths' extensions : List String} {found : List Path}
  {reports reports' : List FileReport} {completed completed' : List (Except String FileReport)}

theorem run_answers (limit : Nat) (files : FileSource) (inline paths extensions : List String) :
    Answers limit files (checkFile limit files) inline paths extensions
      (run? limit files inline paths extensions) := by
  unfold run?
  cases h : collect files paths extensions with
  | ok found => exact .completed h (.refl _)
  | error text => exact .unscanned h

theorem path_checkFile {path : Path} {report : FileReport}
    (h : checkFile limit files path = .ok report) : report.path = path := by
  unfold checkFile at h
  cases hr : files.read path with
  | none =>
      rw [hr] at h
      cases h
  | some text =>
      rw [hr] at h
      obtain rfl := Except.ok.inj h
      rfl

section Mapping

variable {α β ε : Type} {f : α → Except ε β} {e : ε} {xs ys : List α} {bs : List β}

theorem mapM_ok_iff : xs.mapM f = .ok bs ↔ List.Forall₂ (fun a b => f a = .ok b) xs bs := by
  induction xs generalizing bs with
  | nil =>
      rw [List.mapM_nil, List.forall₂_nil_left_iff]
      exact ⟨fun h => (Except.ok.inj h).symm, fun h => congrArg Except.ok h.symm⟩
  | cons a xs ih =>
      rw [List.mapM_cons, List.forall₂_cons_left_iff]
      simp only [← ih]
      cases ha : f a with
      | error e => simp [bind, Except.bind]
      | ok b =>
          cases hs : xs.mapM f with
          | error e => simp [bind, Except.bind]
          | ok bs' => simp [bind, Except.bind, pure, Except.pure, eq_comm]

theorem exists_of_mapM_error (h : xs.mapM f = .error e) : ∃ a ∈ xs, f a = .error e := by
  induction xs with
  | nil => cases h
  | cons a xs ih =>
      rw [List.mapM_cons] at h
      cases ha : f a with
      | error e' =>
          rw [ha] at h
          obtain rfl := Except.error.inj h
          exact ⟨a, List.mem_cons_self, ha⟩
      | ok b =>
          rw [ha] at h
          cases hs : xs.mapM f with
          | error e' =>
              rw [hs] at h
              obtain rfl := Except.error.inj h
              obtain ⟨a', hm, ha'⟩ := ih hs
              exact ⟨a', List.mem_cons_of_mem a hm, ha'⟩
          | ok bs =>
              rw [hs] at h
              cases h

theorem exists_mapM_of_perm (hp : xs.Perm ys) (h : xs.mapM f = .ok bs) :
    ∃ cs, ys.mapM f = .ok cs ∧ cs.Perm bs := by
  obtain ⟨cs, hc, hb⟩ := List.perm_comp_forall₂ hp.symm (mapM_ok_iff.1 h)
  exact ⟨cs, mapM_ok_iff.2 hc, hb⟩

end Mapping

section Gathering

theorem gather_ok (reports : List FileReport) :
    gather (reports.map .ok) = .ok (reports.mergeSort fun r s => r.path.before s.path) := by
  have h : (reports.map Except.ok).mapM id = (.ok reports : Except String (List FileReport)) := by
    rw [mapM_ok_iff, List.forall₂_map_left_iff, List.forall₂_same]
    exact fun _ _ => rfl
  rw [gather, h]
  rfl

theorem gather_cases (completed : List (Except String FileReport)) :
    (∃ reports : List FileReport, completed = reports.map .ok) ∨
      ∃ text, .error text ∈ completed ∧ gather completed = .error text := by
  cases h : completed.mapM id with
  | error text =>
      obtain ⟨c, hm, rfl⟩ := exists_of_mapM_error h
      exact .inr ⟨text, hm, by rw [gather, h]; rfl⟩
  | ok reports =>
      refine .inl ⟨reports, ?_⟩
      rw [← List.forall₂_eq_eq_eq, List.forall₂_map_right_iff]
      exact mapM_ok_iff.1 h

/-- The order of completion is hidden by sorting: reports on one path are alike, so it does not
matter that sorting keeps their order. -/
theorem gather_perm (hc : completed.Perm completed')
    (hr : ∀ r s, .ok r ∈ completed → .ok s ∈ completed → r.path = s.path → r = s)
    (he : ∀ e e', .error e ∈ completed → .error e' ∈ completed → e = e') :
    gather completed = gather completed' := by
  rcases gather_cases completed with ⟨reports, rfl⟩ | ⟨e, hm, hg⟩ <;>
    rcases gather_cases completed' with ⟨reports', rfl⟩ | ⟨e', hm', hg'⟩
  · have hp : reports.Perm reports' :=
      (List.map_perm_map_iff fun _ _ h => Except.ok.inj h).1 hc
    have hs (reports : List FileReport) :
        (reports.mergeSort fun r s => r.path.before s.path).Pairwise fun r s =>
          r.path.before s.path = true :=
      List.pairwise_mergeSort (fun r s t => Path.before_trans r.path s.path t.path)
        (fun r s => Path.before_total r.path s.path) reports
    rw [gather_ok, gather_ok]
    refine congrArg Except.ok (List.Perm.eq_of_pairwise ?_ (hs reports) (hs reports') ?_)
    · intro r s hmr hms hrs hsr
      have hmr : r ∈ reports := List.mem_mergeSort.1 hmr
      have hms : s ∈ reports := hp.symm.subset (List.mem_mergeSort.1 hms)
      exact hr r s (List.mem_map_of_mem hmr) (List.mem_map_of_mem hms)
        (Path.before_antisymm _ _ hrs hsr)
    · exact (List.mergeSort_perm ..).trans (hp.trans (List.mergeSort_perm ..).symm)
  · obtain ⟨r, -, hr⟩ := List.mem_map.1 (hc.symm.subset hm')
    cases hr
  · obtain ⟨r, -, hr⟩ := List.mem_map.1 (hc.subset hm)
    cases hr
  · rw [hg, hg', he e e' hm (hc.symm.subset hm')]

theorem gather_outcomes (hp : ∀ path report, outcome path = .ok report → report.path = path)
    (he : ∀ p ∈ found, ∀ q ∈ found, ∀ e e', outcome p = .error e → outcome q = .error e' → e = e')
    (hc : completed.Perm (found.map outcome)) :
    gather completed = gather (found.map outcome) := by
  refine gather_perm hc (fun r s hr hs hrs => ?_) (fun e e' hm hm' => ?_)
  · obtain ⟨p, -, ho⟩ := List.mem_map.1 (hc.subset hr)
    obtain ⟨q, -, ho'⟩ := List.mem_map.1 (hc.subset hs)
    have hpq : p = q := ((hp p r ho).symm.trans hrs).trans (hp q s ho')
    exact Except.ok.inj ((ho.symm.trans (congrArg outcome hpq)).trans ho')
  · obtain ⟨p, hm, ho⟩ := List.mem_map.1 (hc.subset hm)
    obtain ⟨q, hm', ho'⟩ := List.mem_map.1 (hc.subset hm')
    exact he p hm q hm' e e' ho ho'

theorem exists_reports (hp : ∀ path report, outcome path = .ok report → report.path = path)
    (ho : ∀ path ∈ found, ∃ report, outcome path = .ok report) :
    ∃ reports : List FileReport, found.map outcome = reports.map .ok ∧
      reports.map FileReport.path = found ∧ ∀ r ∈ reports, outcome r.path = .ok r := by
  induction found with
  | nil => exact ⟨[], rfl, rfl, by simp⟩
  | cons path found ih =>
      obtain ⟨r, hr⟩ := ho path List.mem_cons_self
      obtain ⟨reports, hf, hn, ha⟩ := ih fun q hq => ho q (List.mem_cons_of_mem path hq)
      obtain rfl := hp path r hr
      refine ⟨r :: reports, ?_, ?_, List.forall_mem_cons.2 ⟨hr, ha⟩⟩
      · rw [List.map_cons, List.map_cons, hr, hf]
      · rw [List.map_cons, hn]

theorem gather_of_sorted (h : (reports.map FileReport.path).Pairwise fun p q => p.before q = true) :
    gather (reports.map .ok) = .ok reports := by
  rw [List.pairwise_map] at h
  rw [gather_ok, List.mergeSort_of_pairwise h]

end Gathering

section Collecting

variable {scans scans' : List Scan} {exts : List (List Char)}

theorem collect_ok_iff :
    collect files paths extensions = .ok found ↔
      ∃ scans, paths.mapM (scan files) = .ok scans ∧
        (choose (extensions.map (·.toList.dropWhile (· = '.'))) scans).mergeSort Path.before =
          found := by
  unfold collect
  cases paths.mapM (scan files) with
  | error text => simp [Except.map]
  | ok scans => simp [Except.map]

theorem pairwise_collect (h : collect files paths extensions = .ok found) :
    found.Pairwise fun p q => p.before q = true := by
  obtain ⟨scans, -, rfl⟩ := collect_ok_iff.1 h
  exact Path.pairwise_sorted _

/-- The one path given is taken whatever its extension is, but only if it is the only one. -/
theorem choose_perm (h : scans.Perm scans') : (choose exts scans).Perm (choose exts scans') := by
  have hc := (h.flatMap_right Scan.files).filter fun f =>
    (extension? f.name.toList).any exts.contains
  by_cases hf : ∃ f, scans = [.file f]
  · obtain ⟨f, rfl⟩ := hf
    rw [List.singleton_perm.1 h]
  · have hf' : ¬ ∃ f, scans' = [.file f] := by
      rintro ⟨f, rfl⟩
      exact hf ⟨f, List.perm_singleton.1 h⟩
    have hn (scans : List Scan) (hf : ¬ ∃ f, scans = [.file f]) :
        choose exts scans = ((scans.flatMap Scan.files).filter fun f =>
          (extension? f.name.toList).any exts.contains).map FoundFile.path := by
      unfold choose
      dsimp only
      split
      · exact absurd ⟨_, rfl⟩ hf
      · rfl
    rw [hn scans hf, hn scans' hf']
    exact hc.map _

theorem collect_perm (hp : paths.Perm paths') (h : collect files paths extensions = .ok found) :
    collect files paths' extensions = .ok found := by
  obtain ⟨scans, hm, rfl⟩ := collect_ok_iff.1 h
  obtain ⟨scans', hm', hs⟩ := exists_mapM_of_perm hp hm
  refine collect_ok_iff.2 ⟨scans', hm', Path.mergeSort_eq ?_ (Path.pairwise_sorted _)⟩
  exact (choose_perm hs).trans (List.mergeSort_perm ..).symm

theorem flatMap_matchesAt (h : paths.mapM (scan files) = .ok scans) :
    paths.flatMap (matchesAt files extensions) =
      ((scans.flatMap Scan.files).filter (wanted extensions)).map FoundFile.path := by
  have hs := mapM_ok_iff.1 h
  clear h
  induction hs with
  | nil => rfl
  | @cons path s paths scans hs _ ih =>
      have hpath : matchesAt files extensions path =
          (s.files.filter (wanted extensions)).map FoundFile.path := by
        unfold scan at hs
        unfold matchesAt
        cases hf : files.scan path with
        | error e =>
            rw [hf] at hs
            cases hs
        | ok s' =>
            rw [hf] at hs
            rw [Except.ok.inj hs]
      rw [List.flatMap_cons, List.flatMap_cons, hpath, ih, List.filter_append, List.map_append]

theorem collect_perm_matches (h : collect files paths extensions = .ok found)
    (hn : paths.flatMap (matchesAt files extensions) ≠ []) :
    found.Perm (paths.flatMap (matchesAt files extensions)) := by
  obtain ⟨scans, hm, rfl⟩ := collect_ok_iff.1 h
  refine (List.mergeSort_perm ..).trans (List.Perm.of_eq ?_)
  rw [flatMap_matchesAt hm] at hn ⊢
  unfold choose
  dsimp only
  split
  · next hc =>
      unfold wanted at hn
      rw [hc] at hn
      exact absurd rfl hn
  · rfl

end Collecting

/-- There is one answer to a check, and it stays the same if the paths are given in another order.
If all files are read, it is drawn from one report for each time that a file is found. -/
theorem answer_of_any_order (limit : Nat) (files : FileSource)
    (outcome : Path → Except String FileReport) (inline paths paths' extensions : List String)
    (found : List Path) (hf : collect files paths extensions = .ok found)
    (hp : paths.Perm paths')
    (hr : ∀ path report, outcome path = .ok report → report.path = path)
    (he : ∀ p ∈ found, ∀ q ∈ found, ∀ e e', outcome p = .error e → outcome q = .error e' → e = e') :
    ∃ response,
      (∀ r, Answers limit files outcome inline paths extensions r ↔ r = response) ∧
      (∀ r, Answers limit files outcome inline paths' extensions r ↔ r = response) ∧
      (paths.flatMap (matchesAt files extensions) ≠ [] →
        found.Perm (paths.flatMap (matchesAt files extensions))) ∧
      ((∀ path ∈ found, ∃ report, outcome path = .ok report) →
        ∃ reports, reports.map FileReport.path = found ∧
          (∀ r ∈ reports, outcome r.path = .ok r) ∧ response = conclude? limit inline reports) := by
  have ha {paths : List String} (hf : collect files paths extensions = .ok found)
      (r : Option Response) :
      Answers limit files outcome inline paths extensions r ↔
        r = concludeCompleted? limit inline (found.map outcome) := by
    constructor
    · rintro (h | ⟨h, hc⟩)
      · cases hf.symm.trans h
      · obtain rfl := Except.ok.inj (hf.symm.trans h)
        rw [concludeCompleted?, gather_outcomes hr he hc, concludeCompleted?]
    · rintro rfl
      exact .completed hf (.refl _)
  refine ⟨concludeCompleted? limit inline (found.map outcome), ha hf, ha (collect_perm hp hf),
    collect_perm_matches hf, fun ho => ?_⟩
  obtain ⟨reports, hm, hn, hs⟩ := exists_reports hr ho
  refine ⟨reports, hn, hs, ?_⟩
  rw [concludeCompleted?, hm, gather_of_sorted (hn ▸ pairwise_collect hf)]

def twoFiles : FileSource where
  scan path :=
    if path = "/q" then
      .ok (.directory [⟨"b.fmq", ⟨["q", "b.fmq"]⟩⟩, ⟨"a.fmq", ⟨["q", "a.fmq"]⟩⟩])
    else if path = "/q/a.fmq" then .ok (.file ⟨"a.fmq", ⟨["q", "a.fmq"]⟩⟩)
    else .error .notFound
  read path :=
    if path = ⟨["q", "a.fmq"]⟩ then some "SELECT a\n \nWHERE (b=1"
    else if path = ⟨["q", "b.fmq"]⟩ then some "LIMIT 2"
    else none

theorem answer_of_any_order_overlapping :
    let outcome := checkFile 64 twoFiles
    let found : List Path := [⟨["q", "a.fmq"]⟩, ⟨["q", "a.fmq"]⟩, ⟨["q", "b.fmq"]⟩]
    collect twoFiles ["/q", "/q/a.fmq"] ["fmq"] = .ok found ∧
      ["/q", "/q/a.fmq"].Perm ["/q/a.fmq", "/q"] ∧
      ∃ response,
        (∀ r, Answers 64 twoFiles outcome ["LIMIT"] ["/q", "/q/a.fmq"] ["fmq"] r ↔ r = response) ∧
        (∀ r, Answers 64 twoFiles outcome ["LIMIT"] ["/q/a.fmq", "/q"] ["fmq"] r ↔ r = response) ∧
        (["/q", "/q/a.fmq"].flatMap (matchesAt twoFiles ["fmq"]) ≠ [] →
          found.Perm (["/q", "/q/a.fmq"].flatMap (matchesAt twoFiles ["fmq"]))) ∧
        ((∀ path ∈ found, ∃ report, outcome path = .ok report) →
          ∃ reports, reports.map FileReport.path = found ∧
            (∀ r ∈ reports, outcome r.path = .ok r) ∧
            response = conclude? 64 ["LIMIT"] reports) := by
  intro outcome found
  have hf : collect twoFiles ["/q", "/q/a.fmq"] ["fmq"] = .ok found := by
    refine collect_ok_iff.2 ⟨_, rfl, Path.mergeSort_eq ?_ ?_⟩
    · decide
    · decide
  have hp : ["/q", "/q/a.fmq"].Perm ["/q/a.fmq", "/q"] := .swap ..
  have ho : ∀ path ∈ found, ∃ report, outcome path = .ok report := by
    intro path hm
    simp only [found, List.mem_cons, List.not_mem_nil, or_false] at hm
    rcases hm with rfl | rfl | rfl <;> exact ⟨_, rfl⟩
  refine ⟨hf, hp, answer_of_any_order 64 twoFiles outcome ["LIMIT"] _ _ ["fmq"] found hf hp
    (fun _ _ => path_checkFile) ?_⟩
  intro p hm q _ e e' he _
  obtain ⟨report, hr⟩ := ho p hm
  cases hr.symm.trans he

end Check

end FindExpr.Command

import Mathlib
import SheetPolicy.Proofs.Independence
import SheetPolicy.Proofs.RelativePath

/-!
Files are inspected each on its own. A run over some files puts their reports together and counts
those that parse, or ends with the first that does not (`Linter.inspectAll_eq`). Sorting all reports
keeps the report of each file as it is, since different files have different paths as seen from the
root (`Linter.filter_combined`).
-/

namespace SheetPolicy

/-! ## The files of a search -/

namespace Path

instance : Std.LawfulEqCmp Step.compare where
  eq_of_compare {a b} h := by
    cases a <;> cases b
    case name.name s t =>
      unfold Step.compare at h
      dsimp only at h
      split at h
      · cases h
      · split at h
        · rename_i heq
          rw [heq]
        · cases h
    all_goals first | rfl | cases h

theorem steps_eq_of_compare {a b : String} (h : compare a b = .eq) : steps a = steps b := by
  rw [compare, compareSteps_eq] at h
  exact Std.LawfulEqCmp.eq_of_compare h

theorem steps_ne_of_lt {a b : String} (h : compare a b = .lt) : steps a ≠ steps b := by
  intro hsteps
  have hself : compareSteps (steps b) (steps b) = .eq := Std.ReflCmp.compare_self
  rw [compare, hsteps, hself] at h
  cases h

end Path

namespace Linter

/-- The paths that the patterns find and that are not left out. One may be found more than once. -/
def candidates? (l : Linter) (tree : FileTree) : Option (List String) :=
  (l.patterns.mapM (Search.files? tree)).map fun found =>
    found.flatten.filter fun path => !l.isExcluded path

theorem exists_of_mem_mapM {α β : Type} {f : α → Option β} {xs : List α} {ys : List β}
    (h : xs.mapM f = some ys) {y : β} (hy : y ∈ ys) : ∃ x ∈ xs, f x = some y := by
  induction xs generalizing ys with
  | nil =>
    cases h
    cases hy
  | cons x xs ih =>
    rw [List.mapM_cons] at h
    obtain ⟨first, hfirst, h⟩ := Option.bind_eq_some_iff.1 h
    obtain ⟨rest, hrest, h⟩ := Option.bind_eq_some_iff.1 h
    cases h
    rcases List.mem_cons.1 hy with rfl | hy
    · exact ⟨x, List.mem_cons_self, hfirst⟩
    · obtain ⟨z, hz, hfz⟩ := ih hrest hy
      exact ⟨z, List.mem_cons_of_mem _ hz, hfz⟩

theorem isAbsolute_of_mem_candidates? {l : Linter} {tree : FileTree} {found : List String}
    (h : l.candidates? tree = some found) : ∀ path ∈ found, Path.isAbsolute path = true := by
  obtain ⟨lists, hlists, rfl⟩ := Option.map_eq_some_iff.1 h
  intro path hpath
  obtain ⟨list, hlist, hpath⟩ := List.mem_flatten.1 (List.mem_of_mem_filter hpath)
  obtain ⟨pattern, _, hfiles⟩ := exists_of_mem_mapM hlists hlist
  exact Search.isAbsolute_of_mem_files? hfiles path hpath

/-- Of paths that name the same steps one is kept, and no others are left out. -/
structure Keeps (found kept : List String) : Prop where
  apart : kept.Pairwise fun a b => Path.steps a ≠ Path.steps b
  subset : kept ⊆ found
  complete : ∀ path ∈ found, ∃ file ∈ kept, Path.steps file = Path.steps path

theorem Keeps.concat {found kept : List String} (h : Keeps found kept) (path : String) :
    Keeps (found ++ [path])
      (if kept.any fun p => Path.steps p == Path.steps path then kept else kept ++ [path]) := by
  have hsubset : kept ⊆ found ++ [path] := List.subset_append_of_subset_left _ h.subset
  split
  · rename_i hany
    obtain ⟨file, hfile, hsteps⟩ := List.any_eq_true.1 hany
    refine ⟨h.apart, hsubset, fun p hp => ?_⟩
    rcases List.mem_append.1 hp with hp | hp
    · exact h.complete p hp
    · obtain rfl := List.mem_singleton.1 hp
      exact ⟨file, hfile, beq_iff_eq.1 hsteps⟩
  · rename_i hnone
    refine ⟨?_, ?_, fun p hp => ?_⟩
    · refine List.pairwise_append.2 ⟨h.apart, List.pairwise_singleton _ _, ?_⟩
      intro file hfile p hp hsteps
      obtain rfl := List.mem_singleton.1 hp
      exact hnone (List.any_eq_true.2 ⟨file, hfile, beq_iff_eq.2 hsteps⟩)
    · exact List.append_subset.2 ⟨hsubset, List.subset_append_right _ _⟩
    · rcases List.mem_append.1 hp with hp | hp
      · obtain ⟨file, hfile, hsteps⟩ := h.complete p hp
        exact ⟨file, List.mem_append_left _ hfile, hsteps⟩
      · exact ⟨p, List.mem_append_right _ hp, rfl⟩

theorem Keeps.foldl {found kept : List String} (h : Keeps found kept) (paths : List String) :
    Keeps (found ++ paths) (paths.foldl (fun kept path =>
      if kept.any fun p => Path.steps p == Path.steps path then kept else kept ++ [path]) kept) := by
  induction paths generalizing found kept with
  | nil => rwa [List.append_nil]
  | cons path paths ih =>
    rw [List.append_cons]
    exact ih (h.concat path)

/-- The files are those found, each of them once and in order of path. -/
structure Gathers (found files : List String) : Prop where
  increasing : files.Pairwise fun a b => Path.compare a b = .lt
  subset : files ⊆ found
  complete : ∀ path ∈ found, ∃ file ∈ files, Path.steps file = Path.steps path

theorem gathers_ordered (found : List String) : Gathers found (ordered found) := by
  have hkeeps : Keeps ([] ++ found) _ := Keeps.foldl ⟨.nil, List.nil_subset _, by simp⟩ found
  unfold ordered
  generalize List.foldl _ [] found = kept at *
  have hperm := List.mergeSort_perm kept fun a b => Path.compare a b != .gt
  have hsorted : (kept.mergeSort fun a b => Path.compare a b != .gt).Pairwise fun a b =>
      (Path.compare a b != .gt) = true := by
    refine List.pairwise_mergeSort (fun a b c hab hbc => ?_) (fun a b => ?_) kept
    · rw [bne_iff_ne, ne_eq, ← Ordering.isLE_iff_ne_gt] at *
      exact Std.TransCmp.isLE_trans hab hbc
    · rw [@Std.OrientedCmp.eq_swap _ Path.compare _ b a]
      cases Path.compare a b <;> rfl
  have hapart := (hperm.pairwise_iff fun h => Ne.symm h).2 hkeeps.apart
  refine ⟨?_, ?_, ?_⟩
  · refine List.Pairwise.imp₂ (fun a b hle hne => ?_) hsorted hapart
    cases h : Path.compare a b with
    | lt => rfl
    | eq => exact absurd (Path.steps_eq_of_compare h) hne
    | gt => simp [h] at hle
  · exact fun path hpath => hkeeps.subset (hperm.subset hpath)
  · intro path hpath
    obtain ⟨file, hfile, hsteps⟩ := hkeeps.complete path hpath
    exact ⟨file, hperm.symm.subset hfile, hsteps⟩

theorem discover_of_candidates? {l : Linter} {tree : FileTree} {found : List String}
    (h : l.candidates? tree = some found) : l.discover tree = .ok (ordered found) := by
  obtain ⟨lists, hlists, rfl⟩ := Option.map_eq_some_iff.1 h
  unfold discover
  rw [hlists]

end Linter

/-! ## One file -/

/-- There is a sheet at the path. -/
def FileTree.parses (tree : FileTree) (path : String) : Bool :=
  (tree.read? path).any fun source => (Sheet.parse source).isOk

/-- Why there is no sheet at the path. -/
def FileTree.failure? (tree : FileTree) (path : String) : Option LintError :=
  (tree.read? path).bind fun source =>
    match Sheet.parse source with
    | .ok _ => none
    | .error e => some (.unparsable path e (Position.ofOffset source e.offset))

theorem FileTree.failure?_of_parses {tree : FileTree} {path : String}
    (h : tree.parses path = true) : tree.failure? path = none := by
  obtain ⟨source, hread, hok⟩ := (Option.any_eq_true _ _).1 h
  unfold failure?
  rw [hread, Option.bind_some]
  cases hparse : Sheet.parse source with
  | ok sheet => rfl
  | error e => simp [hparse, Except.isOk, Except.toBool] at hok

theorem FileTree.failure?_of_error {tree : FileTree} {path source : String} {e : ParseError}
    (hread : tree.read? path = some source) (hparse : Sheet.parse source = .error e) :
    tree.failure? path = some (.unparsable path e (Position.ofOffset source e.offset)) := by
  unfold failure?
  rw [hread, Option.bind_some, hparse]

theorem Rule.file_of_mem_violations {rule : Rule} {severity : Severity} {options : Options}
    {file : SheetFile} {sheet : Sheet} {v : Violation}
    (hv : v ∈ rule.violations severity options file sheet) : v.location.file = file.path := by
  obtain ⟨finding, _, hv⟩ := List.mem_filterMap.1 hv
  have hlocation := (Finding.violation?_eq_some hv).2
  cases finding with
  | invalidOption key message => rw [hlocation.2]
  | policy offset node key message mild =>
    rw [hlocation.2.1]
    rfl

namespace Linter

/-- What the linter has to say of one file alone. -/
def report (l : Linter) (tree : FileTree) (path : String) : List Violation :=
  ((tree.read? path).bind fun source => (l.lint path source).toOption).getD []

section File

variable {l : Linter} {tree : FileTree} {path : String}

theorem file_of_mem_report {v : Violation} (hv : v ∈ l.report tree path) :
    v.location.file = Path.relativeTo l.root path := by
  unfold report at hv
  cases hread : tree.read? path with
  | none => simp [hread] at hv
  | some source =>
    cases hparse : Sheet.parse source with
    | error e => simp [hread, lint, hparse, Except.toOption] at hv
    | ok sheet =>
      simp only [hread, Option.bind_some, lint_of_parse _ _ hparse, Except.toOption,
        Option.getD_some, List.mem_mergeSort] at hv
      obtain ⟨r, _, hv⟩ := List.mem_flatMap.1 hv
      exact Rule.file_of_mem_violations hv

theorem report_sorted : (l.report tree path).Pairwise fun v w => v.comesBefore w = true := by
  unfold report
  cases hread : tree.read? path with
  | none => exact .nil
  | some source =>
    cases hparse : Sheet.parse source with
    | error e =>
      simp only [Option.bind_some, lint, hparse]
      exact .nil
    | ok sheet =>
      rw [Option.bind_some, lint_of_parse _ _ hparse]
      exact List.pairwise_mergeSort Violation.comesBefore_trans Violation.comesBefore_total _

theorem report_of_not_parses (h : tree.parses path = false) : l.report tree path = [] := by
  unfold report
  unfold FileTree.parses at h
  cases hread : tree.read? path with
  | none => rfl
  | some source =>
    cases hparse : Sheet.parse source with
    | error e =>
      simp only [Option.bind_some, lint, hparse]
      rfl
    | ok sheet => simp [hread, hparse, Except.isOk, Except.toBool] at h

/-- A file adds its own report to the result, or nothing if it does not parse and that is no
reason to stop. -/
theorem inspectFile_eq (hread : (tree.read? path).isSome = true) (result : Inspection) :
    l.inspectFile tree result path =
      match tree.failure? path, l.failOnParseError with
      | some e, true => .error e
      | _, _ => .ok ⟨result.violations ++ l.report tree path,
          result.filesChecked + if tree.parses path then 1 else 0⟩ := by
  obtain ⟨source, hsource⟩ := Option.isSome_iff_exists.1 hread
  unfold inspectFile FileTree.failure? report FileTree.parses
  cases hparse : Sheet.parse source with
  | ok sheet => simp [hsource, hparse, lint_of_parse _ _ hparse, Except.toOption, Except.isOk,
      Except.toBool]
  | error e =>
    cases l.failOnParseError <;>
      simp [hsource, hparse, lint, Except.toOption, Except.isOk, Except.toBool]

end File

/-! ## Some files -/

theorem inspect_of_candidates? {l : Linter} {tree : FileTree} {found : List String}
    (h : l.candidates? tree = some found) :
    l.inspect tree = l.inspectAll tree (ordered found) := by
  unfold inspect
  rw [discover_of_candidates? h]
  rfl

/-- The reports of some files put together. -/
def combined (l : Linter) (tree : FileTree) (files : List String) : Inspection where
  violations := (files.flatMap (l.report tree)).mergeSort Violation.comesBefore
  filesChecked := files.countP tree.parses

section Files

variable {l : Linter} {tree : FileTree} {files : List String}

theorem foldlM_inspectFile (hread : ∀ path ∈ files, (tree.read? path).isSome = true)
    (result : Inspection) :
    files.foldlM (l.inspectFile tree) result =
      match files.findSome? tree.failure?, l.failOnParseError with
      | some e, true => .error e
      | _, _ => .ok ⟨result.violations ++ files.flatMap (l.report tree),
          result.filesChecked + files.countP tree.parses⟩ := by
  induction files generalizing result with
  | nil => simp [pure, Except.pure]
  | cons path files ih =>
    have hrest := ih fun p hp => hread p (List.mem_cons_of_mem _ hp)
    rw [List.foldlM_cons, inspectFile_eq (hread path List.mem_cons_self), List.findSome?_cons]
    cases hstrict : l.failOnParseError with
    | false =>
      simp only [hstrict] at hrest
      cases tree.failure? path <;>
        simp [bind, Except.bind, hrest, List.countP_cons, Nat.add_comm, Nat.add_left_comm]
    | true =>
      simp only [hstrict] at hrest
      cases tree.failure? path with
      | some e => rfl
      | none =>
        simp [bind, Except.bind, hrest, List.countP_cons, Nat.add_comm, Nat.add_left_comm]

/-- A run over readable files puts their reports together, unless one does not parse and that is
reason to stop. -/
theorem inspectAll_eq (hread : ∀ path ∈ files, (tree.read? path).isSome = true) :
    l.inspectAll tree files =
      match files.findSome? tree.failure?, l.failOnParseError with
      | some e, true => .error e
      | _, _ => .ok (l.combined tree files) := by
  unfold inspectAll combined
  rw [foldlM_inspectFile hread]
  cases files.findSome? tree.failure? <;> cases l.failOnParseError <;>
    simp [bind, Except.bind, pure, Except.pure]

theorem inspectAll_lenient (hread : ∀ path ∈ files, (tree.read? path).isSome = true) :
    { l with failOnParseError := false }.inspectAll tree files = .ok (l.combined tree files) := by
  rw [inspectAll_eq hread]
  cases files.findSome? tree.failure? <;> rfl

/-- Files that do not parse change nothing. -/
theorem combined_filter_parses :
    l.combined tree (files.filter tree.parses) = l.combined tree files := by
  have hreports : (files.filter tree.parses).flatMap (l.report tree) =
      files.flatMap (l.report tree) := by
    induction files with
    | nil => rfl
    | cons path files ih =>
      cases h : tree.parses path with
      | true => rw [List.filter_cons_of_pos h, List.flatMap_cons, List.flatMap_cons, ih]
      | false =>
        rw [List.filter_cons_of_neg (by simp [h]), List.flatMap_cons, report_of_not_parses h, ih]
        rfl
  unfold combined
  rw [hreports, List.countP_filter]
  simp

/-- If only what one of different elements gives is kept, nothing else is left. -/
theorem filter_flatMap_of_mem {α β : Type} {xs : List α} {f : α → List β} {keep : β → Bool} {x : α}
    (hnodup : xs.Nodup) (hx : x ∈ xs) (hown : ∀ b ∈ f x, keep b = true)
    (hothers : ∀ y ∈ xs, y ≠ x → ∀ b ∈ f y, keep b = false) :
    (xs.flatMap f).filter keep = f x := by
  induction xs with
  | nil => cases hx
  | cons y ys ih =>
    obtain ⟨hy, hys⟩ := List.nodup_cons.1 hnodup
    rw [List.flatMap_cons, List.filter_append]
    rcases List.mem_cons.1 hx with rfl | hx
    · have hrest : (ys.flatMap f).filter keep = [] := by
        refine List.filter_eq_nil_iff.2 fun b hb => ?_
        obtain ⟨z, hz, hb⟩ := List.mem_flatMap.1 hb
        have hne : z ≠ x := fun h => hy (h ▸ hz)
        simp [hothers z (List.mem_cons_of_mem _ hz) hne b hb]
      rw [List.filter_eq_self.2 hown, hrest, List.append_nil]
    · have hne : y ≠ x := fun h => hy (h ▸ hx)
      have hhead : (f y).filter keep = [] :=
        List.filter_eq_nil_iff.2 fun b hb => by simp [hothers y List.mem_cons_self hne b hb]
      rw [hhead, List.nil_append, ih hys hx fun z hz => hothers z (List.mem_cons_of_mem _ hz)]

/-- The reports of one of some different files are found again among those of all. -/
theorem filter_combined (hroot : Path.isAbsolute l.root = true)
    (habsolute : ∀ path ∈ files, Path.isAbsolute path = true)
    (hincreasing : files.Pairwise fun a b => Path.compare a b = .lt) {path : String}
    (hpath : path ∈ files) :
    (l.combined tree files).violations.filter (fun v =>
      Path.steps v.location.file = Path.steps (Path.relativeTo l.root path)) =
      l.report tree path := by
  have hapart : files.Pairwise fun a b => Path.steps a ≠ Path.steps b :=
    hincreasing.imp Path.steps_ne_of_lt
  have hnodup : files.Nodup := hapart.imp fun {a b} hne heq => hne (congrArg Path.steps heq)
  unfold combined
  dsimp only
  rw [← mergeSort_filter Violation.comesBefore_trans Violation.comesBefore_total,
    filter_flatMap_of_mem hnodup hpath]
  · exact List.mergeSort_of_pairwise report_sorted
  · intro v hv
    rw [decide_eq_true_eq, file_of_mem_report hv]
  · intro other hother hne v hv
    rw [decide_eq_false_iff_not, file_of_mem_report hv]
    intro heq
    have : Std.Symm fun a b : String => Path.steps a ≠ Path.steps b := ⟨fun _ _ h => h.symm⟩
    exact hapart.forall hother hpath hne
      (Path.steps_eq_of_relativeTo hroot (habsolute other hother) (habsolute path hpath) heq)

/-- Each file has its own part in the result, whatever the others are. -/
structure Isolates (l : Linter) (tree : FileTree) (files : List String) (result : Inspection) :
    Prop where
  checked : result.filesChecked = files.countP tree.parses
  sorted : result.violations.Pairwise fun v w =>
    Path.compare v.location.file w.location.file ≠ .gt
  placed : ∀ v ∈ result.violations, ∃ path ∈ files,
    v.location.file = Path.relativeTo l.root path
  alone : ∀ path ∈ files, ∀ source, tree.read? path = some source →
    result.violations.filter (fun v =>
      Path.steps v.location.file = Path.steps (Path.relativeTo l.root path)) =
      match l.lint path source with
      | .ok violations => violations
      | .error _ => []

theorem isolates_combined (hroot : Path.isAbsolute l.root = true)
    (habsolute : ∀ path ∈ files, Path.isAbsolute path = true)
    (hincreasing : files.Pairwise fun a b => Path.compare a b = .lt) :
    l.Isolates tree files (l.combined tree files) where
  checked := rfl
  sorted := by
    refine (List.pairwise_mergeSort Violation.comesBefore_trans Violation.comesBefore_total
      _).imp fun {v w} hbefore hgt => ?_
    simp [Violation.comesBefore, hgt] at hbefore
  placed v hv := by
    obtain ⟨path, hpath, hv⟩ := List.mem_flatMap.1 (List.mem_mergeSort.1 hv)
    exact ⟨path, hpath, file_of_mem_report hv⟩
  alone path hpath source hsource := by
    rw [filter_combined hroot habsolute hincreasing hpath, report, hsource, Option.bind_some]
    cases l.lint path source <;> rfl

end Files

/-- What a run over the files found comes to, whichever way it is made. If it passes over sheets that
cannot be read it has a result: this counts the files that parse, is in order of path, holds for each
file what is found in that file alone, and is the same without the files that do not parse. If it
stops at such a sheet it gives the error of the first, and else the same result. -/
def RunsApart (l : Linter) (tree : FileTree) (found : List String)
    (run : Linter → Except LintError Inspection) : Prop :=
  ∃ files result, Gathers found files ∧ l.Isolates tree files result ∧
    run { l with failOnParseError := false } = .ok result ∧
    { l with failOnParseError := false }.inspectAll tree (files.filter tree.parses) =
      .ok result ∧
    run { l with failOnParseError := true } =
      match files.findSome? tree.failure? with
      | some e => .error e
      | none => .ok result

theorem runsApart_inspectAll {l : Linter} (hroot : Path.isAbsolute l.root = true)
    {tree : FileTree} {found : List String}
    (habsolute : ∀ path ∈ found, Path.isAbsolute path = true)
    (hread : ∀ path ∈ found, (tree.read? path).isSome = true) :
    l.RunsApart tree found fun l => l.inspectAll tree (ordered found) := by
  have hgathers := gathers_ordered found
  have habsolute : ∀ path ∈ ordered found, Path.isAbsolute path = true := fun path hpath =>
    habsolute path (hgathers.subset hpath)
  have hread : ∀ path ∈ ordered found, (tree.read? path).isSome = true := fun path hpath =>
    hread path (hgathers.subset hpath)
  refine ⟨_, l.combined tree (ordered found), hgathers,
    isolates_combined hroot habsolute hgathers.increasing, inspectAll_lenient hread, ?_,
    (inspectAll_eq hread).trans ?_⟩
  · rw [inspectAll_lenient fun path hpath => hread path (List.mem_of_mem_filter hpath),
      combined_filter_parses]
  · cases (ordered found).findSome? tree.failure? <;> rfl

end Linter

/-- Files are inspected each on its own, whatever absolute paths to readable files are found, in
whatever order and however often. What the patterns of the linter find is such a list. -/
theorem inspect_isolated {l : Linter} (hroot : Path.isAbsolute l.root = true) {tree : FileTree}
    {found : List String} (hread : ∀ path ∈ found, (tree.read? path).isSome = true) :
    ((∀ path ∈ found, Path.isAbsolute path = true) →
      l.RunsApart tree found fun l => l.inspectAll tree (Linter.ordered found)) ∧
    (l.candidates? tree = some found → l.RunsApart tree found fun l => l.inspect tree) := by
  refine ⟨fun habsolute => Linter.runsApart_inspectAll hroot habsolute hread, fun hfound => ?_⟩
  have hsearch : ∀ strict, { l with failOnParseError := strict }.inspect tree =
      { l with failOnParseError := strict }.inspectAll tree (Linter.ordered found) :=
    fun _ => Linter.inspect_of_candidates? hfound
  have hfiles :=
    Linter.runsApart_inspectAll hroot (Linter.isAbsolute_of_mem_candidates? hfound) hread
  unfold Linter.RunsApart at hfiles ⊢
  simpa only [hsearch] using hfiles

theorem Linter.isAbsolute_root_build (plan : Plan) {workingDirectory : String}
    (h : Path.isAbsolute workingDirectory = true) :
    Path.isAbsolute (plan.build workingDirectory).root = true :=
  Path.isAbsolute_join h _

/-- Two sheets, and between them a file with a block that is not closed. -/
def sampleTree : FileTree :=
  .directory [("a", .directory [("x.css", .file (some ":x\x7b\x7d"))]),
    ("b.css", .file (some "a\x7b")), ("c.css", .file (some "\n:y\x7b\x7d"))]

/-- The sample plan with patterns that find some files twice. -/
def samplePlanTwice : Linter.Plan :=
  { samplePlan with included := ["**/*.css", "*.css"] }

def sampleFound : List String :=
  ["/a/x.css", "/b.css", "/c.css", "/b.css", "/c.css"]

theorem candidates?_sample :
    (samplePlanTwice.build "/").candidates? sampleTree = some sampleFound := by
  have hend : Search.expand sampleTree [] = fun path => [path] := by
    funext path
    rw [Search.expand]
  have hdeep : Search.files? sampleTree "//**/*.css" = some ["/a/x.css", "/b.css", "/c.css"] := by
    have hparts : Search.parts? "//**/*.css" =
        some [.exact "", .anyPath, .wild (.anyRun :: ".css".toList.map .char)] := by
      cbv
    simp only [Search.files?, hparts, Option.map_some, Search.expand, hend]
    decide +kernel
  have hflat : Search.files? sampleTree "//*.css" = some ["/b.css", "/c.css"] := by
    have hparts : Search.parts? "//*.css" =
        some [.exact "", .wild (.anyRun :: ".css".toList.map .char)] := by
      cbv
    simp only [Search.files?, hparts, Option.map_some, Search.expand, hend]
    decide +kernel
  have hpatterns : (samplePlanTwice.build "/").patterns = ["//**/*.css", "//*.css"] := by
    decide +kernel
  have hexcluded : sampleFound.filter (fun path => !(samplePlanTwice.build "/").isExcluded path) =
      sampleFound := by
    decide +kernel
  unfold Linter.candidates?
  rw [hpatterns, List.mapM_cons, hdeep, List.mapM_cons, hflat]
  exact congrArg some hexcluded

theorem gathers_sampleFound {files : List String} (h : Linter.Gathers sampleFound files) :
    files = ["/a/x.css", "/b.css", "/c.css"] := by
  have hsteps : ∀ file ∈ sampleFound, ∀ path ∈ sampleFound,
      Path.steps file = Path.steps path → file = path := by
    decide +kernel
  have hmem : ∀ path, path ∈ files ↔ path ∈ ["/a/x.css", "/b.css", "/c.css"] := by
    intro path
    constructor
    · intro hpath
      have hfound := h.subset hpath
      simp only [sampleFound, List.mem_cons, List.not_mem_nil, or_false] at hfound ⊢
      tauto
    · intro hpath
      have hfound : path ∈ sampleFound := List.mem_append_left ["/b.css", "/c.css"] hpath
      obtain ⟨file, hfile, heq⟩ := h.complete path hfound
      rwa [← hsteps file (h.subset hfile) path hfound heq]
  have hnodup : files.Nodup :=
    h.increasing.imp fun {a b} hlt heq => Path.steps_ne_of_lt hlt (congrArg Path.steps heq)
  have hperm := (List.perm_ext_iff_of_nodup hnodup (by decide)).2 hmem
  refine hperm.eq_of_pairwise (fun a b _ _ hab hba => ?_) h.increasing (by decide +kernel)
  rw [@Std.OrientedCmp.eq_swap _ Path.compare, hba] at hab
  cases hab

/-- What a violation says of itself in the sample: where it is and what it is about. -/
def Violation.brief (v : Violation) : String × Nat × Nat × String :=
  (v.location.file, v.location.line, v.location.column, v.key)

/-- A rule without its options, a rule on one line and an unknown pseudo-class, in both sheets. -/
def sampleBriefs : List (String × Nat × Nat × String) :=
  [("a/x.css", 1, 1, "expected-option"), ("a/x.css", 1, 1, "rejected"),
    ("a/x.css", 1, 1, "rejected"), ("c.css", 1, 1, "expected-option"), ("c.css", 2, 1, "rejected"),
    ("c.css", 2, 1, "rejected")]

/-- Reports that are in order are given as they are found. -/
theorem Linter.report_of_sorted {l : Linter} {tree : FileTree} {path source : String} {sheet : Sheet}
    (hread : tree.read? path = some source) (hparse : (Sheet.parse source).toOption = some sheet)
    (hsorted : (l.found path sheet).Pairwise fun v w => v.comesBefore w = true) :
    l.report tree path = l.found path sheet := by
  cases h : Sheet.parse source with
  | error e => simp [h, Except.toOption] at hparse
  | ok read =>
    obtain rfl : read = sheet := by simpa [h, Except.toOption] using hparse
    rw [report, hread, Option.bind_some, lint_of_parse _ _ h, List.mergeSort_of_pairwise hsorted]
    rfl

theorem briefs_sample :
    ((samplePlanTwice.build "/").combined sampleTree ["/a/x.css", "/c.css"]).violations.map
      Violation.brief = sampleBriefs := by
  have hfound : (Sheet.parse ":x\x7b\x7d").toOption.any (fun first =>
      (Sheet.parse "\n:y\x7b\x7d").toOption.any fun second =>
        let found := (samplePlanTwice.build "/").found "/a/x.css" first ++
          (samplePlanTwice.build "/").found "/c.css" second
        found.Pairwise (fun v w => v.comesBefore w = true) ∧
          found.map Violation.brief = sampleBriefs) = true := by
    decide +kernel
  obtain ⟨first, hfirst, hfound⟩ := (Option.any_eq_true _ _).1 hfound
  obtain ⟨second, hsecond, hfound⟩ := (Option.any_eq_true _ _).1 hfound
  obtain ⟨hsorted, hbriefs⟩ := of_decide_eq_true hfound
  obtain ⟨hsortedFirst, hsortedSecond, _⟩ := List.pairwise_append.1 hsorted
  rw [Linter.combined, List.flatMap_cons, List.flatMap_cons, List.flatMap_nil, List.append_nil,
    Linter.report_of_sorted (by decide +kernel) hfirst hsortedFirst,
    Linter.report_of_sorted (by decide +kernel) hsecond hsortedSecond,
    List.mergeSort_of_pairwise hsorted]
  exact hbriefs

/-- The files are found in two lists, and the one between the others does not parse. -/
theorem inspect_isolated_sample : ∃ result e,
    (samplePlanTwice.build "/").candidates? sampleTree = some sampleFound ∧
    (∀ path ∈ sampleFound, Path.isAbsolute path = true ∧ (sampleTree.read? path).isSome = true) ∧
    (samplePlanTwice.build "/").RunsApart sampleTree sampleFound
      (fun l => l.inspectAll sampleTree (Linter.ordered sampleFound)) ∧
    { samplePlanTwice.build "/" with failOnParseError := false }.inspect sampleTree = .ok result ∧
    (samplePlanTwice.build "/").Isolates sampleTree ["/a/x.css", "/b.css", "/c.css"] result ∧
    result.filesChecked = 2 ∧
    result.violations.map Violation.brief = sampleBriefs ∧
    Sheet.parse "a\x7b" = .error e ∧
    { samplePlanTwice.build "/" with failOnParseError := true }.inspect sampleTree =
      .error (.unparsable "/b.css" e (Position.ofOffset "a\x7b" e.offset)) := by
  have hfound : ∀ path ∈ sampleFound,
      Path.isAbsolute path = true ∧ (sampleTree.read? path).isSome = true := by
    decide +kernel
  have hread : ∀ path ∈ sampleFound, (sampleTree.read? path).isSome = true := fun path hpath =>
    (hfound path hpath).2
  obtain ⟨hall, hsearch⟩ :=
    @inspect_isolated (samplePlanTwice.build "/")
      (Linter.isAbsolute_root_build samplePlanTwice (by decide)) sampleTree sampleFound hread
  have hall := hall fun path hpath => (hfound path hpath).1
  obtain ⟨files, result, hgathers, hisolates, hlenient, hparsed, hstrict⟩ :=
    hsearch candidates?_sample
  obtain rfl := gathers_sampleFound hgathers
  have hparses : ["/a/x.css", "/b.css", "/c.css"].countP sampleTree.parses = 2 := by
    decide +kernel
  have hviolations : result.violations.map Violation.brief = sampleBriefs := by
    rw [show ["/a/x.css", "/b.css", "/c.css"].filter sampleTree.parses = ["/a/x.css", "/c.css"] by
      decide +kernel, Linter.inspectAll_lenient (by decide +kernel)] at hparsed
    rw [← Except.ok.inj hparsed]
    exact briefs_sample
  have hsecond : sampleTree.read? "/b.css" = some "a\x7b" ∧ (Sheet.parse "a\x7b").isOk = false := by
    decide +kernel
  cases hparse : Sheet.parse "a\x7b" with
  | ok sheet => simp [hparse, Except.isOk, Except.toBool] at hsecond
  | error e =>
    refine ⟨result, e, candidates?_sample, hfound, hall, hlenient, hisolates,
      hisolates.checked.trans hparses, hviolations, rfl, hstrict.trans ?_⟩
    have hnone : sampleTree.failure? "/a/x.css" = none :=
      FileTree.failure?_of_parses (by decide +kernel)
    simp only [List.findSome?_cons, hnone, FileTree.failure?_of_error hsecond.1 hparse]

end SheetPolicy

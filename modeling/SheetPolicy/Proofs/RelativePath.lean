import Mathlib
import SheetPolicy.Files.Search
import SheetPolicy.Proofs.Excerpt

/-!
Paths seen from a directory. Below the directory the steps that lead there are left out
(`steps_relativeTo`), elsewhere the path stays as it is. A path with the root in front is never what
is left of another, so absolute paths that look the same from a directory are the same
(`steps_eq_of_relativeTo`). All that a search finds is absolute (`Search.isAbsolute_of_mem_files?`).
-/

namespace SheetPolicy

theorem Text.splitOnChar_eq (p : Char → Bool) (cs : List Char) : splitOnChar p cs = cs.splitOnP p := by
  induction cs with
  | nil => rfl
  | cons c cs ih =>
    rw [splitOnChar, ih, List.splitOnP_cons_eq_if_modifyHead]
    cases hparts : cs.splitOnP p with
    | nil => exact absurd hparts (List.splitOnP_ne_nil p cs)
    | cons part parts => rfl

theorem Text.not_mem_of_mem_splitOnChar {c : Char} {part cs : List Char}
    (h : part ∈ splitOnChar (· == c) cs) : c ∉ part := by
  induction cs generalizing part with
  | nil =>
    obtain rfl := List.mem_singleton.1 h
    exact List.not_mem_nil
  | cons d cs ih =>
    rw [splitOnChar] at h
    split at h
    · obtain rfl := List.mem_singleton.1 h
      exact List.not_mem_nil
    · rename_i first parts hparts
      rw [hparts] at ih
      split at h
      · rcases List.mem_cons.1 h with rfl | h
        · exact List.not_mem_nil
        · exact ih h
      · rename_i hd
        rcases List.mem_cons.1 h with rfl | h
        · rw [List.mem_cons, not_or]
          exact ⟨fun hc => hd (beq_iff_eq.2 hc.symm), ih List.mem_cons_self⟩
        · exact ih (List.mem_cons_of_mem _ h)

namespace Path

/-! ## Segments -/

theorem Segment.step?_inner_ne_root (text : String) : (Segment.inner text).step? ≠ some .root := by
  unfold inner
  dsimp only
  split
  · simp
  · split <;> simp

theorem root_not_mem_steps (names : List String) :
    Step.root ∉ (names.map Segment.inner).filterMap Segment.step? := by
  intro h
  obtain ⟨segment, hsegment, hstep⟩ := List.mem_filterMap.1 h
  obtain ⟨name, _, rfl⟩ := List.mem_map.1 hsegment
  exact Segment.step?_inner_ne_root name hstep

/-- The segments of an absolute path: the root, then names without slashes. -/
theorem exists_segments {path : String} (h : isAbsolute path = true) :
    ∃ names : List String, (∀ name ∈ names, '/' ∉ name.toList) ∧
      segments path = ⟨"", some .root⟩ :: names.map Segment.inner := by
  unfold isAbsolute at h
  cases hcs : path.toList with
  | nil => simp [hcs] at h
  | cons c cs =>
    obtain rfl : c = '/' := by simpa [hcs] using h
    refine ⟨(Text.splitOnChar (· == '/') cs).map String.ofList, ?_, ?_⟩
    · intro name hname
      obtain ⟨part, hpart, rfl⟩ := List.mem_map.1 hname
      rw [String.toList_ofList]
      exact Text.not_mem_of_mem_splitOnChar hpart
    · have hsplit : Text.splitOnChar (· == '/') ('/' :: cs) =
          [] :: Text.splitOnChar (· == '/') cs := by
        simp only [Text.splitOnChar_eq, List.splitOnP_cons_eq_if_modifyHead, beq_self_eq_true,
          if_true]
      have hne : Text.splitOnChar (· == '/') cs ≠ [] := by
        rw [Text.splitOnChar_eq]
        exact List.splitOnP_ne_nil _ _
      simp [segments, hcs, hsplit, hne]

theorem exists_steps {path : String} (h : isAbsolute path = true) :
    ∃ rest, steps path = .root :: rest := by
  obtain ⟨names, _, hsegments⟩ := exists_segments h
  exact ⟨(names.map Segment.inner).filterMap Segment.step?, by rw [steps, hsegments]; rfl⟩

/-- Names in a row are read back if the first of them is a step. -/
theorem steps_ofSegments {names : List String} (hslash : ∀ name ∈ names, '/' ∉ name.toList)
    (hhead : ∀ name ∈ names.head?, (Segment.inner name).step? ≠ none) :
    steps (ofSegments (names.map Segment.inner)) =
      (names.map Segment.inner).filterMap Segment.step? := by
  have hroot : (names.map Segment.inner).map Segment.step? ≠ [some .root] := by
    intro h
    have hmem : some Step.root ∈ (names.map Segment.inner).map Segment.step? := by
      rw [h]
      exact List.mem_singleton_self _
    obtain ⟨segment, hsegment, hstep⟩ := List.mem_map.1 hmem
    obtain ⟨name, _, rfl⟩ := List.mem_map.1 hsegment
    exact Segment.step?_inner_ne_root name hstep
  have htexts : (names.map Segment.inner).map Segment.text = names := by
    rw [List.map_map]
    exact List.map_id names
  rw [ofSegments, if_neg hroot, htexts]
  cases names with
  | nil => decide
  | cons name names =>
    have hsplit : (Text.splitOnChar (· == '/') (String.intercalate "/" (name :: names)).toList).map
        String.ofList = name :: names := by
      have hparts : ∀ part ∈ (name :: names).map String.toList, '/' ∉ part := by
        intro part hpart
        obtain ⟨text, htext, rfl⟩ := List.mem_map.1 hpart
        exact hslash text htext
      rw [Text.splitOnChar_eq, String.toList_intercalate]
      have hback := List.splitOn_intercalate '/' hparts (by simp)
      rw [List.splitOn_eq_splitOnP] at hback
      show List.map String.ofList (List.splitOnP (· == '/') (['/'].intercalate _)) = _
      rw [hback, List.map_map]
      simp
    have hstep : (Segment.inner name).step? ≠ none := hhead name rfl
    have hname : name ≠ "" ∧ name ≠ "." := by
      constructor
      · rintro rfl
        exact hstep rfl
      · rintro rfl
        exact hstep rfl
    simp only [steps, segments, hsplit, hname, false_and, if_false, List.map_cons]

/-! ## Below a directory -/

theorem filterMap_dropWhile_void (segs : List Segment) :
    (segs.dropWhile fun s => s.step?.isNone).filterMap Segment.step? =
      segs.filterMap Segment.step? := by
  induction segs with
  | nil => rfl
  | cons segment segs ih =>
    cases h : segment.step? with
    | none => rw [List.dropWhile_cons_of_pos (by simp [h]), List.filterMap_cons_none h, ih]
    | some step => rw [List.dropWhile_cons_of_neg (by simp [h])]

theorem filterMap_dropRightWhile_void (segs : List Segment) :
    (Text.dropRightWhile (fun s => s.step?.isNone) segs).filterMap Segment.step? =
      segs.filterMap Segment.step? := by
  rw [Text.dropRightWhile, List.filterMap_reverse, filterMap_dropWhile_void,
    ← List.filterMap_reverse, List.reverse_reverse]

theorem after?_eq_some {base : List Step} {segs rest : List Segment}
    (h : after? base segs = some rest) :
    rest <:+ segs ∧ segs.filterMap Segment.step? = base ++ rest.filterMap Segment.step? := by
  induction base generalizing segs with
  | nil =>
    cases h
    exact ⟨List.suffix_rfl, rfl⟩
  | cons step base ih =>
    rw [after?] at h
    split at h
    · rename_i segment inner hsegs
      split at h
      · rename_i hstep
        obtain ⟨hsuffix, hsteps⟩ := ih h
        have hdrop := List.dropWhile_suffix (l := segs) fun s : Segment => s.step?.isNone
        rw [hsegs] at hdrop
        refine ⟨(hsuffix.trans (List.suffix_cons _ _)).trans hdrop, ?_⟩
        rw [← filterMap_dropWhile_void, hsegs, List.filterMap_cons_some hstep, hsteps]
        rfl
      · cases h
    · cases h

/-- Names from which segments without a step are dropped at both ends are read back. -/
theorem steps_trimmed {names : List String} (hslash : ∀ name ∈ names, '/' ∉ name.toList) :
    steps (ofSegments (Text.dropRightWhile (fun s => s.step?.isNone)
      ((names.map Segment.inner).dropWhile fun s => s.step?.isNone))) =
      (names.map Segment.inner).filterMap Segment.step? := by
  rw [← filterMap_dropWhile_void, ← filterMap_dropRightWhile_void]
  generalize hkept : Text.dropRightWhile (fun s : Segment => s.step?.isNone)
    ((names.map Segment.inner).dropWhile fun s => s.step?.isNone) = kept
  have hfront : kept <+: (names.map Segment.inner).dropWhile fun s => s.step?.isNone := by
    rw [← hkept]
    exact ⟨_, Excerpt.append_takeWhile_reverse _ _⟩
  obtain ⟨texts, htexts, rfl⟩ :=
    List.sublist_map_iff.1 (hfront.sublist.trans (List.dropWhile_sublist _))
  refine steps_ofSegments (fun name hname => hslash name (htexts.subset hname)) ?_
  intro name hname
  cases texts with
  | nil => cases hname
  | cons text texts =>
    obtain rfl : text = name := Option.some.inj hname
    obtain ⟨after, hafter⟩ := hfront
    have hhead := List.head?_dropWhile_not (fun s : Segment => s.step?.isNone)
      (names.map Segment.inner)
    rw [← hafter] at hhead
    exact Option.isNone_eq_false_iff.1 hhead |> Option.isSome_iff_ne_none.1

/-- A path seen from a directory is the path, or the steps from there on. -/
theorem steps_relativeTo {base path : String} (hbase : isAbsolute base = true)
    (hpath : isAbsolute path = true) :
    relativeTo base path = path ∨
      (Step.root ∉ steps (relativeTo base path) ∧
        steps path = steps base ++ steps (relativeTo base path)) := by
  unfold relativeTo
  split
  · exact .inl rfl
  · rename_i rest hrest
    obtain ⟨above, habove⟩ := exists_steps hbase
    obtain ⟨names, hslash, hsegments⟩ := exists_segments hpath
    obtain ⟨hsuffix, hsteps⟩ := after?_eq_some hrest
    -- The root is a step of the directory, so what is left is made of names.
    have hnames : rest <:+ names.map Segment.inner := by
      rw [hsegments, List.suffix_cons_iff] at hsuffix
      rcases hsuffix with hall | hsuffix
      · rw [hsegments, ← hall, habove] at hsteps
        have hlength := congrArg List.length hsteps
        simp at hlength
        omega
      · exact hsuffix
    obtain ⟨left, hleft, rfl⟩ := List.suffix_map_iff.1 hnames
    have hne : steps base ≠ [] := by
      rw [habove]
      exact List.cons_ne_nil _ _
    have hleft := steps_trimmed fun name hname => hslash name (hleft.subset hname)
    simp only [hne, if_false, hleft]
    exact .inr ⟨root_not_mem_steps left, hsteps⟩

/-- Absolute paths that look the same from a directory are the same. -/
theorem steps_eq_of_relativeTo {base path path' : String} (hbase : isAbsolute base = true)
    (hpath : isAbsolute path = true) (hpath' : isAbsolute path' = true)
    (h : steps (relativeTo base path) = steps (relativeTo base path')) :
    steps path = steps path' := by
  have hroot : ∀ {p : String}, isAbsolute p = true → Step.root ∈ steps p := by
    intro p hp
    obtain ⟨rest, hrest⟩ := exists_steps hp
    rw [hrest]
    exact List.mem_cons_self
  rcases steps_relativeTo hbase hpath with hsame | ⟨hleft, hsteps⟩ <;>
    rcases steps_relativeTo hbase hpath' with hsame' | ⟨hleft', hsteps'⟩
  · rwa [hsame, hsame'] at h
  · rw [hsame] at h
    exact absurd (h ▸ hroot hpath) hleft'
  · rw [hsame'] at h
    exact absurd (h.symm ▸ hroot hpath') hleft
  · rw [hsteps, hsteps', h]

/-! ## Search -/

theorem isAbsolute_join {base : String} (h : isAbsolute base = true) (path : String) :
    isAbsolute (join base path) = true := by
  have hhead : ∀ s : String, isAbsolute (base ++ s) = true := by
    intro s
    unfold isAbsolute at *
    rw [String.toList_append]
    cases hcs : base.toList with
    | nil => simp [hcs] at h
    | cons c cs => simpa [hcs] using h
  unfold join
  split
  · rename_i hpath
    rcases hpath with hpath | rfl
    · exact hpath
    · exact absurd h (by decide)
  · split
    · exact hhead path
    · rw [String.append_assoc]
      exact hhead _

end Path

mutual

theorem FileTree.isAbsolute_descendants {path : String} (h : Path.isAbsolute path = true) :
    ∀ (tree : FileTree), ∀ place ∈ tree.descendants path, Path.isAbsolute place.1 = true
  | .file _ => by simp [descendants]
  | .directory entries => by
    rw [descendants]
    exact FileTree.isAbsolute_descendantsOf h entries

theorem FileTree.isAbsolute_descendantsOf {path : String} (h : Path.isAbsolute path = true) :
    ∀ (entries : List (String × FileTree)), ∀ place ∈ descendantsOf path entries,
      Path.isAbsolute place.1 = true
  | [] => by simp [descendantsOf]
  | (name, tree) :: entries => by
    have hplace := Path.isAbsolute_join h name
    intro place hmem
    rw [descendantsOf, List.cons_append, List.mem_cons, List.mem_append] at hmem
    rcases hmem with rfl | hmem | hmem
    · exact hplace
    · exact FileTree.isAbsolute_descendants hplace tree place hmem
    · exact FileTree.isAbsolute_descendantsOf h entries place hmem

end

namespace Search

theorem isAbsolute_children {tree : FileTree} {path : String} (h : Path.isAbsolute path = true) :
    ∀ entry ∈ children tree path, Path.isAbsolute entry.2 = true := by
  intro entry hentry
  unfold children at hentry
  split at hentry
  · obtain ⟨child, _, rfl⟩ := List.mem_map.1 hentry
    exact Path.isAbsolute_join h child.1
  · cases hentry

theorem isAbsolute_descendants {tree : FileTree} {path : String}
    (h : Path.isAbsolute path = true) :
    ∀ place ∈ descendants tree path, Path.isAbsolute place.1 = true := by
  intro place hplace
  unfold descendants at hplace
  cases hget : tree.get? path with
  | none => simp [hget] at hplace
  | some here =>
    rw [hget] at hplace
    exact FileTree.isAbsolute_descendants h here place hplace

theorem isAbsolute_expand {tree : FileTree} {parts : List Part} {path : String}
    (h : Path.isAbsolute path = true) :
    ∀ found ∈ expand tree parts path, Path.isAbsolute found = true := by
  fun_induction expand tree parts path with
  | case1 path =>
    intro found hfound
    obtain rfl := List.mem_singleton.1 hfound
    exact h
  | case2 name parts path next isThere hthere ih => exact ih (Path.isAbsolute_join h name)
  | case3 => exact fun found hfound => absurd hfound List.not_mem_nil
  | case4 tokens parts path named dotted ih =>
    intro found hfound
    obtain ⟨place, hplace, hfound⟩ := List.mem_flatMap.1 hfound
    refine ih place ?_ found hfound
    rcases List.mem_append.1 hplace with hplace | hplace
    · obtain ⟨name, _, rfl⟩ := List.mem_map.1 hplace
      exact Path.isAbsolute_join h name
    · obtain ⟨entry, hentry, rfl⟩ := List.mem_map.1 hplace
      exact isAbsolute_children h entry (List.mem_of_mem_filter hentry)
  | case5 path =>
    intro found hfound
    obtain ⟨place, hplace, rfl⟩ := List.mem_map.1 hfound
    exact isAbsolute_descendants h place (List.mem_of_mem_filter hplace)
  | case6 parts path ih => exact ih h
  | case7 part parts path hpart ih =>
    intro found hfound
    obtain ⟨place, hplace, hfound⟩ := List.mem_flatMap.1 hfound
    obtain ⟨entry, hentry, rfl⟩ := List.mem_map.1 (List.mem_of_mem_filter hplace)
    exact ih _ (isAbsolute_descendants h entry hentry) found hfound

theorem isAbsolute_of_mem_files? {tree : FileTree} {pattern : String} {found : List String}
    (h : files? tree pattern = some found) : ∀ path ∈ found, Path.isAbsolute path = true := by
  obtain ⟨parts, _, rfl⟩ := Option.map_eq_some_iff.1 h
  intro path hpath
  split at hpath
  · cases hpath
  · exact isAbsolute_expand (by decide) path (List.mem_of_mem_filter hpath)

end Search

end SheetPolicy

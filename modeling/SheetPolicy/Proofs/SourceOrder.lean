import Mathlib
import SheetPolicy.Proofs.Independence
import SheetPolicy.Proofs.Transparency

/-!
Reports in the order of the source. Violations are sorted by line and column, and these are counted in
characters; between characters they are ordered as the byte offsets are (`Position.compare_ofOffset`).
All violations of a sheet are at such places (`Rule.location_placed`), those about options at the very
first, so what a linter reports is in the order of the offsets (`lint_in_source_order`).
-/

namespace SheetPolicy

/-! ## Positions and offsets -/

namespace Position

open Std

/-- Compares lines, and columns within a line. -/
def compare : Position → Position → Ordering :=
  compareLex (compareOn line) (compareOn column)

instance : TransCmp compare :=
  inferInstanceAs (TransCmp (compareLex _ _))

theorem compare_next (p : Position) (c : Char) : compare p (p.next c) = .lt := by
  unfold compare next compareLex compareOn
  split
  · rw [Nat.compare_eq_lt.2 (Nat.lt_succ_self p.line)]
    rfl
  · rw [Nat.compare_eq_eq.2 rfl, Nat.compare_eq_lt.2 (Nat.lt_succ_self p.column)]
    rfl

theorem isLE_compare_foldl (p : Position) (cs : List Char) :
    (compare p (cs.foldl next p)).isLE = true := by
  induction cs generalizing p with
  | nil => exact ReflCmp.isLE_rfl
  | cons c cs ih =>
    have hfirst : (compare p (p.next c)).isLE = true := by rw [compare_next]; rfl
    exact TransCmp.isLE_trans hfirst (ih (p.next c))

/-- Passing characters leads further on. -/
theorem compare_foldl {cs : List Char} (h : cs ≠ []) (p : Position) :
    compare p (cs.foldl next p) = .lt := by
  cases cs with
  | nil => exact absurd rfl h
  | cons c cs => exact TransCmp.lt_of_lt_of_isLE (compare_next p c) (isLE_compare_foldl _ cs)

variable {source : String} {a b : Nat}

/-- From a place between characters to a later one there are characters to pass. -/
theorem counted_eq_foldl_counted
    (ha : Located.IsCut (Located.ofString source) source.utf8ByteSize a)
    (hb : b ≤ source.utf8ByteSize) (hlt : a < b) :
    ∃ passed, passed ≠ [] ∧ counted source b = passed.foldl next (counted source a) := by
  let back := (Located.ofString source).filter fun c => a ≤ c.offset
  have hfront : ((Located.ofString source).filter fun c => c.offset < a).filter
      (fun c => c.offset < b) = (Located.ofString source).filter fun c => c.offset < a := by
    refine List.filter_eq_self.2 fun c hc => ?_
    have hc : c.offset < a := by simpa using (List.mem_filter.1 hc).2
    simpa using hc.trans hlt
  have hsplit : (Located.ofString source).filter (fun c => c.offset < b) =
      (Located.ofString source).filter (fun c => c.offset < a) ++
        back.filter fun c => c.offset < b := by
    have happend := (Located.runs_ofString source).filter_append a
    calc (Located.ofString source).filter (fun c => c.offset < b)
        = ((Located.ofString source).filter (fun c => c.offset < a) ++ back).filter
            (fun c => c.offset < b) := by rw [happend]
      _ = _ := by rw [List.filter_append, hfront]
  refine ⟨(back.filter fun c => c.offset < b).map Located.char, ?_, ?_⟩
  · -- The character at the earlier place is one of those passed.
    rcases ha with rfl | ⟨c, hc, rfl⟩
    · exact absurd hlt (Nat.not_lt.2 hb)
    · have hmem : c ∈ back.filter fun d => d.offset < b :=
        List.mem_filter.2 ⟨List.mem_filter.2 ⟨hc, by simp⟩, by simpa using hlt⟩
      exact List.ne_nil_of_mem (List.mem_map_of_mem hmem)
  · rw [counted_eq_foldl, counted_eq_foldl, hsplit, List.map_append, List.foldl_append]

theorem compare_ofOffset_of_lt
    (ha : Located.IsCut (Located.ofString source) source.utf8ByteSize a)
    (hb : Located.IsCut (Located.ofString source) source.utf8ByteSize b) (hlt : a < b) :
    compare (ofOffset source a) (ofOffset source b) = .lt := by
  rw [ofOffset_eq_counted ha, ofOffset_eq_counted hb]
  obtain ⟨passed, hpassed, heq⟩ :=
    counted_eq_foldl_counted ha (hb.le (Located.runs_ofString source)) hlt
  rw [heq]
  exact compare_foldl hpassed _

/-- Between characters, line and column compare as the offsets do. -/
theorem compare_ofOffset (ha : Located.IsCut (Located.ofString source) source.utf8ByteSize a)
    (hb : Located.IsCut (Located.ofString source) source.utf8ByteSize b) :
    compare (ofOffset source a) (ofOffset source b) = Ord.compare a b := by
  rcases Nat.lt_trichotomy a b with hlt | rfl | hlt
  · rw [compare_ofOffset_of_lt ha hb hlt, Nat.compare_eq_lt.2 hlt]
  · rw [Nat.compare_eq_eq.2 rfl]
    exact ReflCmp.compare_self
  · rw [@OrientedCmp.eq_swap _ compare, compare_ofOffset_of_lt hb ha hlt, Nat.compare_eq_gt.2 hlt]
    rfl

theorem ofOffset_zero (source : String) : ofOffset source 0 = ⟨1, 1⟩ := by
  unfold ofOffset
  cases source.toList <;> rfl

end Position

/-! ## Where violations are -/

def Location.position (location : Location) : Position :=
  ⟨location.line, location.column⟩

/-- The location is that of its offset, which is a place between characters of the source. -/
structure Location.IsPlaced (file source : String) (location : Location) : Prop where
  cut : Located.IsCut (Located.ofString source) source.utf8ByteSize location.offset
  eq : location = Location.ofOffset file source location.offset

/-- The first line and column are those of the first byte. -/
theorem Location.isPlaced_start (file source : String) :
    (⟨file, 1, 1, 0⟩ : Location).IsPlaced file source := by
  refine ⟨?_, ?_⟩
  · have hcut := @Located.isCut_startOf (Located.ofString source) (Located.ofString source)
      source.utf8ByteSize (List.Subset.refl _)
    rwa [(Located.runs_ofString source).startOf_eq] at hcut
  · rw [Location.ofOffset, Position.ofOffset_zero]

theorem Location.IsPlaced.position_eq {file source : String} {location : Location}
    (h : location.IsPlaced file source) :
    location.position = Position.ofOffset source location.offset := by
  rw [Location.position, h.eq]
  rfl

theorem Rule.location_placed {source : String} {sheet : Sheet}
    (h : Sheet.parse source = .ok sheet) {keywords : Keywords} {rule : Rule}
    (hrule : rule ∈ Rule.builtIn keywords) {path : String} {severity : Severity} {options : Options}
    {v : Violation}
    (hv : v ∈ rule.violations severity options (SheetFile.ofSheet path sheet) sheet) :
    v.location.IsPlaced path source := by
  cases hkind : v.kind with
  | policy =>
    obtain ⟨target, hpoints⟩ := Rule.inspect_pointAt h hrule options
    obtain ⟨offset, node, key, message, mild, hmem, hlocation, _⟩ :=
      Rule.policy_of_mem_violations hv hkind
    obtain ⟨_, _, _, hcut, _⟩ := hpoints _ hmem
    obtain ⟨rfl, _⟩ := Event.parse_reads h
    rw [hlocation]
    exact ⟨hcut, rfl⟩
  | invalidOption =>
    obtain ⟨finding, _, hviolation⟩ := List.mem_filterMap.1 hv
    have hfinding := (Finding.violation?_eq_some hviolation).2
    cases finding with
    | policy offset node key message mild =>
      rw [hkind] at hfinding
      cases hfinding.1
    | invalidOption key message =>
      rw [hfinding.2]
      exact Location.isPlaced_start path source

/-! ## Reports of a linter -/

/-- Within one file violations are sorted by their positions. -/
theorem Violation.isLE_position_of_comesBefore {v w : Violation}
    (hfile : v.location.file = w.location.file) (h : v.comesBefore w = true) :
    (v.location.position.compare w.location.position).isLE = true := by
  rw [comesBefore_eq, comparePlaces, compareLex] at h
  have heq : compareFiles v w = .eq := by
    unfold compareFiles
    rw [hfile]
    exact Std.ReflCmp.compare_self
  rw [heq] at h
  exact h

/-- All rules of the linter are rules of this library, with whatever keyword tables. -/
def Linter.IsBuiltIn (l : Linter) : Prop :=
  ∀ r ∈ l.rules, ∃ keywords, r.rule ∈ Rule.builtIn keywords

theorem Linter.isBuiltIn_build {plan : Plan} {keywords : Keywords}
    (h : ∀ own ∈ plan.rules, own.rule ∈ Rule.builtIn keywords) (workingDirectory : String) :
    (plan.build workingDirectory).IsBuiltIn := by
  intro r hr
  rw [Linter.rules_build] at hr
  obtain ⟨own, hown, rfl⟩ := List.mem_map.1 hr
  rw [Linter.rule_layered]
  exact ⟨keywords, h own (List.mem_of_mem_filter hown)⟩

theorem Linter.location_placed {l : Linter} (hrules : l.IsBuiltIn) {source : String} {sheet : Sheet}
    (h : Sheet.parse source = .ok sheet) {path : String} {v : Violation}
    (hv : v ∈ l.found path sheet) :
    v.location.IsPlaced (Path.relativeTo l.root path) source := by
  obtain ⟨r, hr, hv⟩ := List.mem_flatMap.1 hv
  obtain ⟨keywords, hrule⟩ := hrules r hr
  exact Rule.location_placed h hrule hv

/-- What a linter reports of a sheet that parses is in the order of the source. Lines and columns,
which it is sorted by, compare as the offsets do for any two of its violations. -/
theorem lint_in_source_order {l : Linter} (hrules : l.IsBuiltIn) {source : String} {sheet : Sheet}
    (h : Sheet.parse source = .ok sheet) (path : String) :
    ∃ violations, l.lint path source = .ok violations ∧
      violations.Pairwise (fun v w => v.location.offset ≤ w.location.offset) ∧
      ∀ v ∈ violations, ∀ w ∈ violations,
        v.location.position.compare w.location.position =
          compare v.location.offset w.location.offset := by
  have hplaced : ∀ v ∈ (l.found path sheet).mergeSort Violation.comesBefore,
      v.location.IsPlaced (Path.relativeTo l.root path) source := by
    intro v hv
    exact Linter.location_placed hrules h (List.mem_mergeSort.1 hv)
  have hcompare : ∀ v ∈ (l.found path sheet).mergeSort Violation.comesBefore,
      ∀ w ∈ (l.found path sheet).mergeSort Violation.comesBefore,
        v.location.position.compare w.location.position =
          compare v.location.offset w.location.offset := by
    intro v hv w hw
    rw [(hplaced v hv).position_eq, (hplaced w hw).position_eq]
    exact Position.compare_ofOffset (hplaced v hv).cut (hplaced w hw).cut
  refine ⟨_, Linter.lint_of_parse l path h, ?_, hcompare⟩
  refine (List.pairwise_mergeSort Violation.comesBefore_trans Violation.comesBefore_total
    (l.found path sheet)).imp_of_mem fun {v w} hv hw hbefore => ?_
  have hfile : v.location.file = w.location.file := by
    rw [(hplaced v hv).eq, (hplaced w hw).eq]
    rfl
  have hle := Violation.isLE_position_of_comesBefore hfile hbefore
  rwa [hcompare v hv w hw, Nat.isLE_compare] at hle

/-- Characters of two bytes and a line that ends with two characters. -/
def sampleLines : String :=
  "é:x\x7b\x7d\r\nü:y\x7b\x7d"

theorem isBuiltIn_samplePlan : (samplePlan.build "/").IsBuiltIn := by
  have hall : ∀ own ∈ samplePlan.rules, own.rule ∈ Rule.builtIn {} := by
    simp [samplePlan, Rule.builtIn]
  exact Linter.isBuiltIn_build hall "/"

/-- Rule by rule the reports are at 0, then at 0 and 8, then at 2 and 10. -/
theorem lint_in_source_order_sample : ∃ sheet violations, Sheet.parse sampleLines = .ok sheet ∧
    (samplePlan.build "/").IsBuiltIn ∧
    (((samplePlan.build "/").found "/a.css" sheet).map fun v => v.location.offset) =
      [0, 0, 8, 2, 10] ∧
    (samplePlan.build "/").lint "/a.css" sampleLines = .ok violations ∧
    (violations.map fun v => v.location.offset) = [0, 0, 2, 8, 10] ∧
    ∀ v ∈ violations, ∀ w ∈ violations,
      v.location.position.compare w.location.position =
        compare v.location.offset w.location.offset := by
  have hfound : (Sheet.parse sampleLines).toOption.any (fun sheet =>
      (((samplePlan.build "/").found "/a.css" sheet).map fun v => v.location.offset) =
        [0, 0, 8, 2, 10]) = true := by
    decide +kernel
  cases h : Sheet.parse sampleLines with
  | error e => simp [h, Except.toOption] at hfound
  | ok sheet =>
    simp only [h, Except.toOption, Option.any_some, decide_eq_true_eq] at hfound
    obtain ⟨violations, hlint, hsorted, hcompare⟩ := lint_in_source_order isBuiltIn_samplePlan h "/a.css"
    refine ⟨sheet, violations, rfl, isBuiltIn_samplePlan, hfound, hlint, ?_, hcompare⟩
    have hperm : (violations.map fun v => v.location.offset).Perm [0, 0, 8, 2, 10] := by
      rw [Linter.lint_of_parse _ _ h] at hlint
      obtain rfl := Except.ok.inj hlint
      rw [← hfound]
      exact (List.mergeSort_perm _ _).map _
    have hperm' : (violations.map fun v => v.location.offset).Perm [0, 0, 2, 8, 10] :=
      hperm.trans (by decide)
    exact hperm'.eq_of_pairwise (fun a b _ _ hab hba => le_antisymm hab hba)
      (List.pairwise_map.2 hsorted) (by decide)

end SheetPolicy

import Mathlib
import SheetPolicy.Proofs.OptionGate

/-!
What the forms of an option cover. The forms are alternatives, so that a value is covered if it has
one of them; a list has its form if each of the elements is covered by the forms for elements, and
lists may be among these (`Form.covers`).

The check of a value takes less than that. It looks into an array only by the first list form, and
there only by the forms that are no lists themselves. So nothing passes that is not covered, and a
covered value is refused exactly if it is an array with an element that no such form covers
(`option_passes_iff`). No option of a rule here has such a value: their checks are what the forms
say.
-/

namespace SheetPolicy

namespace Form

/-! ## Coverage -/

mutual

/-- The value has the form. -/
def covers : Form → Toml → Bool
  | .word text, v => v.asString? == some text
  | .test holds, v => holds v
  | .listOf forms, .array elements => elements.all fun v => covered forms v
  | .listOf _, _ => false

/-- The value has one of the forms. -/
def covered : List Form → Toml → Bool
  | [], _ => false
  | form :: forms, v => form.covers v || covered forms v

end

theorem covered_iff {forms : List Form} {v : Toml} :
    covered forms v = true ↔ ∃ form ∈ forms, form.covers v = true := by
  induction forms with
  | nil => simp [covered]
  | cons form forms ih => simp [covered, ih]

theorem covers_listOf_iff {forms : List Form} {v : Toml} :
    (listOf forms).covers v = true ↔
      ∃ elements, v = .array elements ∧ ∀ e ∈ elements, covered forms e = true := by
  cases v <;> simp [covers]

theorem covered_of_subset {forms more : List Form} (h : forms ⊆ more) {v : Toml}
    (hv : covered forms v = true) : covered more v = true := by
  obtain ⟨form, hmem, hcovers⟩ := covered_iff.1 hv
  exact covered_iff.2 ⟨form, h hmem, hcovers⟩

/-! ## The forms that are read -/

def isPlain : Form → Bool
  | .listOf _ => false
  | _ => true

/-- The forms that are no lists. -/
def plain (forms : List Form) : List Form :=
  forms.filter isPlain

/-- If an array is looked into, then each of its elements has a plain form of the first list. -/
def SuitsFirstList (forms : List Form) (v : Toml) : Prop :=
  ∀ inner elements, firstList? forms = some inner → v = .array elements →
    ∀ e ∈ elements, covered (plain inner) e = true

theorem takes_eq (forms : List Form) (v : Toml) : takes forms v = covered (plain forms) v := by
  induction forms with
  | nil => rfl
  | cons form forms ih =>
    rw [takes] at ih
    rw [takes, List.any_cons, ih]
    cases form with
    | word text => rfl
    | test holds => rfl
    | listOf elements => rfl

theorem listOf_mem_of_firstList? {forms inner : List Form} (h : firstList? forms = some inner) :
    listOf inner ∈ forms := by
  obtain ⟨form, hmem, hform⟩ := List.exists_of_findSome?_eq_some h
  cases form with
  | word | test => cases hform
  | listOf => cases hform; exact hmem

/-- Unless an array meets a list form, a value is covered by plain forms only. -/
theorem covered_plain {forms : List Form} {v : Toml}
    (h : ∀ inner elements, firstList? forms = some inner → v ≠ .array elements) :
    covered (plain forms) v = covered forms v := by
  rw [Bool.eq_iff_iff]
  refine ⟨covered_of_subset (List.filter_subset_self _), fun hv => ?_⟩
  obtain ⟨form, hmem, hcovers⟩ := covered_iff.1 hv
  have hplain : form.isPlain = true := by
    cases form with
    | word | test => rfl
    | listOf inner =>
      obtain ⟨elements, rfl, _⟩ := covers_listOf_iff.1 hcovers
      cases hfirst : firstList? forms with
      | some first => exact absurd rfl (h first elements hfirst)
      | none => cases List.findSome?_eq_none_iff.1 hfirst _ hmem
  exact covered_iff.2 ⟨form, List.mem_filter.2 ⟨hmem, hplain⟩, hcovers⟩

/-- A value passes if it is covered, and by what the check reads of the forms. -/
theorem refused_eq_nil_iff (forms : List Form) (v : Toml) :
    refused forms v = [] ↔ covered forms v = true ∧ SuitsFirstList forms v := by
  by_cases h : ∃ inner elements, firstList? forms = some inner ∧ v = .array elements
  · obtain ⟨inner, elements, hfirst, rfl⟩ := h
    have hrefused : refused forms (.array elements) = elements.filter fun e => !takes inner e := by
      simp only [refused, hfirst]
    have hsuits : SuitsFirstList forms (.array elements) ↔
        ∀ e ∈ elements, covered (plain inner) e = true := by
      constructor
      · exact fun hall => hall inner elements hfirst rfl
      · rintro hall _ _ hfirst' heq
        cases hfirst.symm.trans hfirst'
        cases heq
        exact hall
    rw [hrefused, List.filter_eq_nil_iff, hsuits]
    simp only [takes_eq, Bool.not_eq_true', Bool.not_eq_false]
    refine ⟨fun hall => ⟨?_, hall⟩, And.right⟩
    have hcovers : (listOf inner).covers (.array elements) = true :=
      covers_listOf_iff.2 ⟨elements, rfl, fun e he =>
        covered_of_subset (List.filter_subset_self _) (hall e he)⟩
    exact covered_iff.2 ⟨_, listOf_mem_of_firstList? hfirst, hcovers⟩
  · push Not at h
    have hsuits : SuitsFirstList forms v := fun inner elements hfirst heq =>
      absurd heq (h inner elements hfirst)
    have hrefused : refused forms v = if takes forms v then [] else [v] := by
      rw [refused]
      exact fun elements inner heq hfirst => h inner elements hfirst heq
    rw [hrefused, takes_eq, covered_plain h]
    simp [hsuits]

/-- Forms without a list are all read. -/
theorem suitsFirstList_of_plain {forms : List Form} (h : firstList? forms = none) (v : Toml) :
    SuitsFirstList forms v := by
  intro inner elements hfirst
  rw [h] at hfirst
  cases hfirst

/-- A list of words and patterns is had by its elements one by one, and as a whole by no array. -/
theorem suitsFirstList_words {v : Toml} (h : covered WordList.forms v = true) :
    SuitsFirstList WordList.forms v := by
  rintro _ elements ⟨⟩ rfl
  obtain ⟨form, hmem, hcovers⟩ := covered_iff.1 h
  simp only [WordList.forms, List.mem_cons, List.not_mem_nil, or_false] at hmem
  rcases hmem with rfl | rfl
  · cases hcovers
  · obtain ⟨_, ⟨⟩, hall⟩ := covers_listOf_iff.1 hcovers
    exact hall

end Form

/-! ## Checks of options -/

namespace OptionSpec

theorem primaryProblems_eq_nil_iff {forms : List Form} (hforms : forms ≠ []) (v : Toml) :
    primaryProblems forms (some v) = [] ↔
      Form.covered forms v = true ∧ Form.SuitsFirstList forms v := by
  rw [primaryProblems_some hforms, List.map_eq_nil_iff, Form.refused_eq_nil_iff]

theorem secondaryProblems_eq_nil_iff {spec : List (String × List Form)} {option : String}
    {forms : List Form} (h : spec.find? (fun entry => entry.1 == option) = some (option, forms))
    (v : Toml) :
    secondaryProblems spec (option, v) = [] ↔
      Form.covered forms v = true ∧ Form.SuitsFirstList forms v := by
  simp only [secondaryProblems, h, List.map_eq_nil_iff, Form.refused_eq_nil_iff]

/-- A primary value has one of its forms. An option without forms is not given, or switched on. -/
def FitsPrimary (forms : List Form) : Option Toml → Prop
  | none => forms = []
  | some v => Form.covered forms v = true ∨ forms = [] ∧ v = .boolean true

/-- All that is given is declared and has one of its forms. -/
def Fits (spec : OptionSpec) (options : Options) : Prop :=
  FitsPrimary spec.primary options.primary ∧
    ∀ entry ∈ options.secondary.getD [], ∃ forms,
      spec.secondary.find? (fun known => known.1 == entry.1) = some (entry.1, forms) ∧
        Form.covered forms entry.2 = true

/-- A covered value of an option suits the list form, if there is one. -/
def ReadsForms (spec : OptionSpec) : Prop :=
  ∀ forms ∈ spec.primary :: spec.secondary.map Prod.snd, ∀ v,
    Form.covered forms v = true → Form.SuitsFirstList forms v

theorem primaryProblems_eq_nil_iff_fits {forms : List Form}
    (h : ∀ v, Form.covered forms v = true → Form.SuitsFirstList forms v) (primary : Option Toml) :
    primaryProblems forms primary = [] ↔ FitsPrimary forms primary := by
  by_cases hforms : forms = []
  · subst hforms
    cases primary with
    | none => simp [primaryProblems, FitsPrimary]
    | some v =>
      cases v with
      | boolean b => cases b <;> simp [primaryProblems, FitsPrimary, Form.covered]
      | string | integer | float | datetime | array | table =>
        simp [primaryProblems, FitsPrimary, Form.covered]
  · cases primary with
    | none => simp [primaryProblems, FitsPrimary, hforms]
    | some v =>
      rw [primaryProblems_eq_nil_iff hforms, FitsPrimary, and_iff_left_of_imp (h v)]
      simp [hforms]

theorem problems_eq_nil_iff_fits {spec : OptionSpec} (h : spec.ReadsForms) (options : Options) :
    spec.problems options = [] ↔ spec.Fits options := by
  have hprimary := primaryProblems_eq_nil_iff_fits (h _ List.mem_cons_self) options.primary
  rw [problems, List.append_eq_nil_iff, List.flatMap_eq_nil_iff, hprimary, Fits]
  refine and_congr_right fun _ => forall₂_congr fun entry hentry => ?_
  obtain ⟨option, v⟩ := entry
  cases hfind : spec.secondary.find? fun known => known.1 == option with
  | none => simp [secondaryProblems, hfind]
  | some known =>
    obtain ⟨name, forms⟩ := known
    obtain rfl : name = option := by simpa using List.find?_some hfind
    have hforms : forms ∈ spec.secondary.map Prod.snd :=
      List.mem_map.2 ⟨_, List.mem_of_find?_eq_some hfind, rfl⟩
    rw [secondaryProblems_eq_nil_iff hfind,
      and_iff_left_of_imp (h _ (List.mem_cons_of_mem _ hforms) v)]
    simp

end OptionSpec

theorem Rule.readsForms {keywords : Keywords} {rule : Rule} (hrule : rule ∈ Rule.builtIn keywords) :
    rule.spec.ReadsForms := by
  intro forms hforms v hv
  simp only [Rule.builtIn, List.mem_cons, List.not_mem_nil, or_false] at hrule
  rcases hrule with rfl | rfl | rfl | rfl
  · simp only [FontWeight.rule, List.map_cons, List.map_nil, List.mem_cons, List.not_mem_nil,
      or_false] at hforms
    rcases hforms with rfl | rfl
    · exact Form.suitsFirstList_of_plain rfl v
    · exact Form.suitsFirstList_words hv
  · obtain rfl := List.mem_singleton.1 hforms
    exact Form.suitsFirstList_words hv
  · obtain rfl := List.mem_singleton.1 hforms
    exact Form.suitsFirstList_of_plain rfl v
  · obtain rfl := List.mem_singleton.1 hforms
    exact Form.suitsFirstList_of_plain rfl v

/-- A value passes the check of an option exactly if it is covered and, where it is an array and a
list form is declared, all its elements have plain forms of the first list. The options of the rules
here are checked for what their forms cover, no less. -/
theorem option_passes_iff (forms : List Form) (v : Toml) :
    (Form.refused forms v = [] ↔ Form.covered forms v = true ∧ Form.SuitsFirstList forms v) ∧
    (forms ≠ [] → (OptionSpec.primaryProblems forms (some v) = [] ↔
      Form.covered forms v = true ∧ Form.SuitsFirstList forms v)) ∧
    (∀ spec option, spec.find? (fun entry => entry.1 == option) = some (option, forms) →
      (OptionSpec.secondaryProblems spec (option, v) = [] ↔
        Form.covered forms v = true ∧ Form.SuitsFirstList forms v)) ∧
    ∀ keywords, ∀ rule ∈ Rule.builtIn keywords, ∀ options,
      rule.spec.problems options = [] ↔ rule.spec.Fits options :=
  ⟨Form.refused_eq_nil_iff forms v, fun h => OptionSpec.primaryProblems_eq_nil_iff h v,
    fun _ _ h => OptionSpec.secondaryProblems_eq_nil_iff h v,
    fun _ _ hrule options => OptionSpec.problems_eq_nil_iff_fits (Rule.readsForms hrule) options⟩

/-- Two lists, and a list within the first. -/
def sampleLists : List Form :=
  [.listOf [.word "a", .listOf [.word "b"]], .listOf [.word "c"]]

/-- Neither the second list form nor a list form for elements is read. -/
theorem list_forms_overlooked :
    Form.covered sampleLists (.array [.string "c"]) = true ∧
    Form.refused sampleLists (.array [.string "c"]) ≠ [] ∧
    OptionSpec.primaryProblems sampleLists (some (.array [.string "c"])) ≠ [] ∧
    Form.covered sampleLists (.array [.array [.string "b"]]) = true ∧
    Form.refused sampleLists (.array [.array [.string "b"]]) ≠ [] ∧
    OptionSpec.primaryProblems sampleLists (some (.array [.array [.string "b"]])) ≠ [] :=
  ⟨rfl, List.cons_ne_nil _ _, List.cons_ne_nil _ _, rfl, List.cons_ne_nil _ _, List.cons_ne_nil _ _⟩

theorem option_passes_iff_sample :
    sampleLists ≠ [] ∧
    OptionSpec.primaryProblems sampleLists (some (.array [.string "a"])) = [] ∧
    Form.SuitsFirstList sampleLists (.array [.string "a"]) ∧
    [("mode", sampleLists)].find? (fun entry => entry.1 == "mode") = some ("mode", sampleLists) ∧
    OptionSpec.secondaryProblems [("mode", sampleLists)] ("mode", .array [.string "c"]) ≠ [] ∧
    ¬ Form.SuitsFirstList sampleLists (.array [.string "c"]) ∧
    FontWeight.rule {} ∈ Rule.builtIn {} ∧
    (FontWeight.rule {}).spec.Fits sampleTaken ∧
    ¬ (FontWeight.rule {}).spec.Fits sampleRefused := by
  obtain ⟨_, htakes, _, hfits⟩ := option_passes_iff sampleLists (.array [.string "a"])
  obtain ⟨_, _, hsecondary, _⟩ := option_passes_iff sampleLists (.array [.string "c"])
  have hmem : FontWeight.rule {} ∈ Rule.builtIn {} := List.mem_cons_self
  have htaken : (FontWeight.rule {}).spec.problems sampleTaken = [] :=
    List.isEmpty_iff.1 (by decide +kernel)
  have hproblems : (FontWeight.rule {}).spec.problems sampleRefused ≠ [] := by
    intro h
    have hempty : ((FontWeight.rule {}).spec.problems sampleRefused).isEmpty = false := by
      decide +kernel
    simp [h] at hempty
  have hsuits := ((htakes (List.cons_ne_nil _ _)).1 rfl).2
  refine ⟨List.cons_ne_nil _ _, rfl, hsuits, rfl, List.cons_ne_nil _ _, fun h => ?_, hmem,
    (hfits {} _ hmem sampleTaken).1 htaken, fun h => hproblems ((hfits {} _ hmem _).2 h)⟩
  exact List.cons_ne_nil _ _ ((hsecondary [("mode", sampleLists)] "mode" rfl).2 ⟨rfl, h⟩)

end SheetPolicy

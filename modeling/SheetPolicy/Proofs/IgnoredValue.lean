import Mathlib
import SheetPolicy.Proofs.OptionGate

/-!
Values that the rule on font weights is told to ignore. A weight is lowered before it is looked up in
the list, but the words of the list stay as they are written. A word without capitals silences every
spelling of itself; a word with a capital is one that no lowered weight can equal, so that the rule
reports what it reports without that entry (`ignored_word_iff`).
-/

namespace SheetPolicy

theorem Text.lower_lower (s : String) : lower (lower s) = lower s := by
  simp [lower, Function.comp_def]

/-! ## Lists with a word left out -/

namespace WordList

/-- What an option lists: the elements of an array, or the value itself. -/
def listed : Toml → List Toml
  | .array elements => elements
  | v => [v]

/-- The option without the word. -/
def without (word : String) (v : Toml) : Toml :=
  .array ((listed v).filter fun e => e.asString? != some word)

/-- An option is read entry by entry. -/
theorem ofValue_eq_ok_iff {v : Toml} {entries : List Entry} :
    ofValue v = .ok entries ↔
      List.Forall₂ (fun e entry => Entry.ofValue e = .ok entry) (listed v) entries := by
  have hlisted : ofValue v = (listed v).mapM Entry.ofValue := by
    cases v with
    | array elements => rfl
    | string | integer | float | boolean | datetime | table =>
      simp only [ofValue, listed, List.mapM_cons, List.mapM_nil]
      cases Entry.ofValue _ <;> rfl
  rw [hlisted]
  generalize listed v = elements
  induction elements generalizing entries with
  | nil => cases entries <;> simp [pure, Except.pure]
  | cons e elements ih =>
    rw [List.mapM_cons]
    cases he : Entry.ofValue e with
    | error err => cases entries <;> simp [bind, Except.bind, he]
    | ok entry =>
      cases hmore : elements.mapM Entry.ofValue with
      | error err => cases entries <;> simp [bind, Except.bind, he, ← ih, hmore]
      | ok more => cases entries <;> simp [bind, Except.bind, pure, Except.pure, he, ← ih, hmore]

/-- A word is read as itself, and nothing else is read as that word. -/
theorem Entry.ofValue_eq_word_iff {word : String} (hword : isPattern word = false) {e : Toml}
    {entry : Entry} (h : Entry.ofValue e = .ok entry) :
    entry = .word word ↔ e.asString? = some word := by
  cases e with
  | string s =>
    cases hsplit : splitPattern? s with
    | none =>
      have hentry : entry = .word s := by
        simpa [Entry.ofValue, Entry.parse?, hsplit, eq_comm] using h
      simp [hentry, Toml.asString?]
    | some pattern =>
      have hne : s ≠ word := by
        rintro rfl
        simp [isPattern, hsplit] at hword
      have hregex : ∃ regex, entry = .pattern regex := by
        simp only [Entry.ofValue, Entry.parse?, hsplit] at h
        split at h
        · next hparse =>
          obtain ⟨regex, _, rfl⟩ := Option.map_eq_some_iff.1 hparse
          exact ⟨regex, (Except.ok.inj h).symm⟩
        · cases h
      obtain ⟨regex, rfl⟩ := hregex
      simp [Toml.asString?, hne]
  | integer | float | boolean | datetime | array | table => cases h

variable {word : String} {entries : List Entry}

theorem mem_of_listed (hword : isPattern word = false) {v : Toml}
    (h : ofValue v = .ok entries) (hmem : .string word ∈ listed v) : .word word ∈ entries := by
  rw [ofValue_eq_ok_iff] at h
  generalize listed v = elements at h hmem
  induction h with
  | nil => cases hmem
  | cons hentry _ ih =>
    rcases List.mem_cons.1 hmem with rfl | hmem
    · exact List.mem_cons.2 (.inl ((Entry.ofValue_eq_word_iff hword hentry).2 rfl).symm)
    · exact List.mem_cons_of_mem _ (ih hmem)

/-- An option without the word is read as the entries without it. -/
theorem ofValue_without (hword : isPattern word = false) {v : Toml}
    (h : ofValue v = .ok entries) :
    ofValue (without word v) = .ok (entries.filter (· ≠ .word word)) := by
  refine ofValue_eq_ok_iff.2 (List.rel_filter (fun e entry hentry => ?_) (ofValue_eq_ok_iff.1 h))
  simp [Entry.ofValue_eq_word_iff hword hentry]

/-- A word without capitals allows all that differs from it by case alone. -/
theorem allows_lower_of_mem {candidate : String} (hmem : .word word ∈ entries)
    (hlower : Text.lower word = word) (h : Text.sameLetters candidate word = true) :
    allows entries (Text.lower candidate) = true := by
  have heq : Text.lower candidate = word := (beq_iff_eq.1 h).trans hlower
  exact List.any_eq_true.2 ⟨_, hmem, by simp [Entry.allows, heq]⟩

/-- A word with a capital allows nothing that has been lowered. -/
theorem allows_filter_of_capital (hcapital : Text.lower word ≠ word) (entries : List Entry)
    (candidate : String) :
    allows (entries.filter (· ≠ .word word)) (Text.lower candidate) =
      allows entries (Text.lower candidate) := by
  have hnever : Entry.allows (Text.lower candidate) (.word word) = false := by
    have hne : word ≠ Text.lower candidate := by
      rintro rfl
      exact hcapital (Text.lower_lower candidate)
    simpa [Entry.allows] using hne
  rw [allows, allows, List.any_filter]
  refine List.any_congr rfl fun entry => ?_
  by_cases hentry : entry = .word word
  · simp [hentry, hnever]
  · simp [hentry]

end WordList

/-! ## Options with a word left out -/

/-- Changes the value of a key, if there is one. -/
def Toml.Table.modify (table : Toml.Table) (key : String) (f : Toml → Toml) : Toml.Table :=
  table.map fun entry => if entry.1 = key then (key, f entry.2) else entry

/-- The options with a word left out of the values to ignore. -/
def Options.unlisting (options : Options) (word : String) : Options :=
  { options with
    secondary := options.secondary.map fun table =>
      table.modify "ignore-values" (WordList.without word) }

theorem Toml.Table.get?_modify (table : Toml.Table) (key : String) (f : Toml → Toml) :
    (table.modify key f).get? key = (table.get? key).map f := by
  induction table with
  | nil => rfl
  | cons entry table ih =>
    by_cases hkey : entry.1 = key
    · simp [modify, get?, hkey]
    · simpa [modify, get?, hkey] using ih

namespace FontWeight

variable {keywords : Keywords} {options : Options} {word : String}

theorem ignoredBy_unlisting (hword : WordList.isPattern word = false)
    {ignored : List WordList.Entry} (h : ignoredBy options = .ok ignored) :
    ignoredBy (options.unlisting word) = .ok (ignored.filter (· ≠ .word word)) := by
  have hkey : (options.unlisting word).secondary? "ignore-values" =
      (options.secondary? "ignore-values").map (WordList.without word) := by
    simp only [Options.secondary?, Options.unlisting]
    cases options.secondary with
    | none => rfl
    | some table => exact table.get?_modify _ _
  rw [ignoredBy] at h ⊢
  rw [hkey]
  cases hv : options.secondary? "ignore-values" with
  | none =>
    rw [hv] at h
    obtain rfl : [] = ignored := by simpa using h
    rfl
  | some v =>
    rw [hv] at h
    exact WordList.ofValue_without hword h

/-- Options without problems have none when a word is left out. -/
theorem problems_unlisting (hword : WordList.isPattern word = false)
    (h : (rule keywords).spec.problems options = []) :
    (rule keywords).spec.problems (options.unlisting word) = [] := by
  obtain ⟨hprimary, hsecondary⟩ := OptionSpec.problems_eq_nil h
  refine List.append_eq_nil_iff.2 ⟨hprimary, ?_⟩
  cases htable : options.secondary with
  | none => simp [Options.unlisting, htable]
  | some table =>
    rw [htable, Option.getD_some, List.flatMap_eq_nil_iff] at hsecondary
    simp only [Options.unlisting, htable, Option.map_some, Option.getD_some, Toml.Table.modify,
      List.flatMap_eq_nil_iff, List.mem_map, forall_exists_index, and_imp]
    rintro _ entry hentry rfl
    have hnone := hsecondary entry hentry
    split
    · next hkey =>
      obtain ⟨key, v⟩ := entry
      obtain rfl : key = "ignore-values" := hkey
      have hread : ∃ entries, WordList.ofValue v = .ok entries :=
        (WordList.refused_forms_eq_nil_iff v).1 (List.map_eq_nil_iff.1 hnone)
      obtain ⟨entries, hentries⟩ := hread
      exact List.map_eq_nil_iff.2 ((WordList.refused_forms_eq_nil_iff _).2
        ⟨_, WordList.ofValue_without hword hentries⟩)
    · exact hnone

/-! ## Reports of declarations -/

/-- What is reported of one declaration, if the options can be read. -/
def report? (keywords : Keywords) (options : Options) (file : SheetFile) (severity : Severity)
    (x : Declaration × Parent) : Option Violation := do
  let expected ← (Spelling.parse (options.primaryText?.getD "")).toOption
  let ignored ← (ignoredBy options).toOption
  let finding ← finding? keywords expected ignored x
  finding.violation? file (rule keywords).speaker severity

variable {file : SheetFile} {severity : Severity} {x : Declaration × Parent}

theorem report?_eq {expected : Spelling} {ignored : List WordList.Entry}
    (hexpected : Spelling.parse (options.primaryText?.getD "") = .ok expected)
    (hignored : ignoredBy options = .ok ignored) :
    report? keywords options file severity x =
      (finding? keywords expected ignored x).bind
        (Finding.violation? file (rule keywords).speaker severity) := by
  simp only [report?, hexpected, hignored, Except.toOption]
  rfl

/-- The rule reports the declarations one by one. -/
theorem violations_eq_filterMap (h : (rule keywords).spec.problems options = [])
    (severity : Severity) (file : SheetFile) (sheet : Sheet) :
    (rule keywords).violations severity options file sheet =
      sheet.declarations.filterMap (report? keywords options file severity) := by
  obtain ⟨text, expected, ignored, htext, hexpected, hignored⟩ := readable h
  have hspelling : Spelling.parse (options.primaryText?.getD "") = .ok expected := by
    rw [htext, Option.getD_some, hexpected]
  have hcheck : (rule keywords).check options sheet =
      sheet.declarations.filterMap (finding? keywords expected ignored) := by
    rw [Rule.check, h]
    simp only [rule, inspect, hspelling, hignored]
  rw [Rule.violations, hcheck, List.filterMap_filterMap]
  exact List.filterMap_congr fun x _ => (report?_eq hspelling hignored).symm

/-- Nothing is found in a declaration whose weight is exempt. -/
theorem finding?_eq_none_of_isExempt {expected : Spelling} {ignored : List WordList.Entry}
    {weight : Weight} (hweight : weightOf? keywords x.1 = some weight)
    (h : isExempt keywords ignored weight.text = true) :
    finding? keywords expected ignored x = none := by
  simp [finding?, hweight, h]

/-- What is found hangs on the list only through the words that it allows. -/
theorem finding?_congr {expected : Spelling} {ignored ignored' : List WordList.Entry}
    (h : ∀ text, WordList.allows ignored (Text.lower text) =
      WordList.allows ignored' (Text.lower text)) :
    finding? keywords expected ignored x = finding? keywords expected ignored' x := by
  have hexempt : isExempt keywords ignored = isExempt keywords ignored' := by
    funext text
    rw [isExempt, isExempt, h]
  rw [finding?, finding?, hexempt]

/-- A word that the options list to be ignored, and a declaration whose weight differs from it by
case alone. If the word has no capitals the declaration is not reported. If it has one, it is reported
exactly if it is without that entry: then the entry changes nothing in any report of the rule. -/
theorem ignored_word_iff {v : Toml} (h : (rule keywords).spec.problems options = [])
    (hv : options.secondary? "ignore-values" = some v) (hlisted : .string word ∈ WordList.listed v)
    (hword : WordList.isPattern word = false) (severity : Severity) (file : SheetFile)
    (sheet : Sheet) :
    (rule keywords).violations severity options file sheet =
      sheet.declarations.filterMap (report? keywords options file severity) ∧
    (rule keywords).violations severity (options.unlisting word) file sheet =
      sheet.declarations.filterMap (report? keywords (options.unlisting word) file severity) ∧
    (∀ x ∈ sheet.declarations, ∀ weight, weightOf? keywords x.1 = some weight →
      Text.sameLetters weight.text word = true →
      (report? keywords options file severity x = none ↔
        Text.lower word = word ∨
          report? keywords (options.unlisting word) file severity x = none)) ∧
    (Text.lower word ≠ word →
      (rule keywords).violations severity options file sheet =
        (rule keywords).violations severity (options.unlisting word) file sheet) := by
  have hrest := problems_unlisting hword h
  obtain ⟨text, expected, ignored, htext, hexpected, hignored⟩ := readable h
  have hspelling : Spelling.parse (options.primaryText?.getD "") = .ok expected := by
    rw [htext, Option.getD_some, hexpected]
  have hspelling' : Spelling.parse ((options.unlisting word).primaryText?.getD "") = .ok expected :=
    hspelling
  have hmem : .word word ∈ ignored := by
    rw [ignoredBy, hv] at hignored
    exact WordList.mem_of_listed hword hignored hlisted
  have hcapital : Text.lower word ≠ word → ∀ x, report? keywords options file severity x =
      report? keywords (options.unlisting word) file severity x := by
    intro hne x
    rw [report?_eq hspelling hignored,
      finding?_congr fun text => (WordList.allows_filter_of_capital hne ignored text).symm]
    exact (report?_eq hspelling' (ignoredBy_unlisting hword hignored)).symm
  refine ⟨violations_eq_filterMap h severity file sheet,
    violations_eq_filterMap hrest severity file sheet, ?_, ?_⟩
  · intro x _ weight hweight hsame
    by_cases hlower : Text.lower word = word
    · have hexempt : isExempt keywords ignored weight.text = true := by
        rw [isExempt, WordList.allows_lower_of_mem hmem hlower hsame, Bool.or_true]
      rw [report?_eq hspelling hignored, finding?_eq_none_of_isExempt hweight hexempt]
      simp [hlower]
    · simp [hlower, hcapital hlower x]
  · intro hne
    rw [violations_eq_filterMap h, violations_eq_filterMap hrest]
    exact List.filterMap_congr fun x _ => hcapital hne x

/-- Two words to ignore, one of them with a capital. -/
def sampleIgnoring : Options :=
  ⟨some (.string "numeric"), some [("ignore-values", .array [.string "Bold", .string "bolder"])]⟩

/-- A sheet with both words as weights. -/
def sampleWeights : String :=
  "a \x7b font-weight: Bold; font: BOLDER 1em serif \x7d"

/-- The weight that the declaration sets is the word, in some spelling. -/
def spells (word : String) (x : Declaration × Parent) : Bool :=
  (weightOf? {} x.1).any fun weight => Text.sameLetters weight.text word

theorem exists_of_spells {word : String} {x : Declaration × Parent} (h : spells word x = true) :
    ∃ weight, weightOf? {} x.1 = some weight ∧ Text.sameLetters weight.text word = true := by
  cases hweight : weightOf? {} x.1 with
  | none => simp [spells, hweight] at h
  | some weight => exact ⟨weight, rfl, by simpa [spells, hweight] using h⟩

theorem problems_sampleIgnoring : (rule {}).spec.problems sampleIgnoring = [] :=
  List.isEmpty_iff.1 (by decide +kernel)

/-- With the entry or without it, the declaration that spells the word as it is listed is reported. -/
theorem exists_sampleWeights : ∃ sheet bold bolder, Sheet.parse sampleWeights = .ok sheet ∧
    sheet.declarations = [bold, bolder] ∧ spells "Bold" bold = true ∧
    spells "bolder" bolder = true ∧
    ∀ options ∈ [sampleIgnoring, sampleIgnoring.unlisting "Bold"],
      report? {} options (SheetFile.ofSheet "a.css" sheet) .warning bold ≠ none := by
  have hfacts : (Sheet.parse sampleWeights).toOption.any (fun sheet =>
      sheet.declarations.length == 2 &&
        sheet.declarations.head?.any (spells "Bold") &&
        sheet.declarations.getLast?.any (spells "bolder") &&
        sheet.declarations.head?.any fun bold =>
          [sampleIgnoring, sampleIgnoring.unlisting "Bold"].all fun options =>
            (report? {} options (SheetFile.ofSheet "a.css" sheet) .warning bold).isSome) = true := by
    decide +kernel
  cases hparse : Sheet.parse sampleWeights with
  | error e => simp [hparse, Except.toOption] at hfacts
  | ok sheet =>
    simp only [hparse, Except.toOption, Option.any_some, Bool.and_eq_true, beq_iff_eq] at hfacts
    obtain ⟨⟨⟨hlength, hbold⟩, hbolder⟩, hreport⟩ := hfacts
    obtain ⟨bold, bolder, hdecls⟩ := List.length_eq_two.1 hlength
    simp only [hdecls, List.head?_cons, List.getLast?_cons_cons, List.getLast?_singleton,
      Option.any_some, List.all_eq_true] at hbold hbolder hreport
    exact ⟨sheet, bold, bolder, rfl, hdecls, hbold, hbolder, fun options hoptions =>
      Option.isSome_iff_ne_none.1 (hreport options hoptions)⟩

/-- The word with a capital is reported just as it is listed; the other is ignored. -/
theorem ignored_word_iff_sample : ∃ sheet bold bolder, Sheet.parse sampleWeights = .ok sheet ∧
    sheet.declarations = [bold, bolder] ∧ spells "Bold" bold = true ∧
    spells "bolder" bolder = true ∧
    report? {} sampleIgnoring (SheetFile.ofSheet "a.css" sheet) .warning bold ≠ none ∧
    report? {} sampleIgnoring (SheetFile.ofSheet "a.css" sheet) .warning bolder = none ∧
    (rule {}).violations .warning sampleIgnoring (SheetFile.ofSheet "a.css" sheet) sheet =
      (rule {}).violations .warning (sampleIgnoring.unlisting "Bold")
        (SheetFile.ofSheet "a.css" sheet) sheet := by
  obtain ⟨sheet, bold, bolder, hparse, hdecls, hbold, hbolder, hreport⟩ := exists_sampleWeights
  obtain ⟨weight, hweight, hsame⟩ := exists_of_spells hbold
  obtain ⟨weight', hweight', hsame'⟩ := exists_of_spells hbolder
  have hfirst : Toml.string "Bold" ∈ [.string "Bold", .string "bolder"] := List.mem_cons_self
  have hsecond : Toml.string "bolder" ∈ [.string "Bold", .string "bolder"] :=
    List.mem_cons_of_mem _ List.mem_cons_self
  have hcapital := ignored_word_iff problems_sampleIgnoring rfl hfirst (by decide) .warning
    (SheetFile.ofSheet "a.css" sheet) sheet
  have hlower := ignored_word_iff problems_sampleIgnoring rfl hsecond (by decide) .warning
    (SheetFile.ofSheet "a.css" sheet) sheet
  refine ⟨sheet, bold, bolder, hparse, hdecls, hbold, hbolder, fun hnone => ?_, ?_,
    hcapital.2.2.2 (by decide)⟩
  · rcases (hcapital.2.2.1 bold (by simp [hdecls]) weight hweight hsame).1 hnone with heq | hnone
    · exact absurd heq (by decide)
    · exact hreport _ (by simp) hnone
  · exact (hlower.2.2.1 bolder (by simp [hdecls]) weight' hweight' hsame').2 (.inl (by decide))

/-- A weight that is written just as the options list it can be reported. -/
theorem listed_weight_reported :
    ¬∀ source sheet options v word x weight path severity, Sheet.parse source = .ok sheet →
      (rule {}).spec.problems options = [] → options.secondary? "ignore-values" = some v →
      .string word ∈ WordList.listed v → WordList.isPattern word = false →
      x ∈ sheet.declarations → weightOf? {} x.1 = some weight →
      Text.sameLetters weight.text word = true →
      report? {} options (SheetFile.ofSheet path sheet) severity x = none := by
  intro hsilent
  obtain ⟨sheet, bold, bolder, hparse, hdecls, hbold, _, hreport⟩ := exists_sampleWeights
  obtain ⟨weight, hweight, hsame⟩ := exists_of_spells hbold
  exact hreport _ (by simp) (hsilent _ sheet _ _ "Bold" bold weight "a.css" .warning hparse
    problems_sampleIgnoring rfl List.mem_cons_self (by decide) (by simp [hdecls]) hweight hsame)

end FontWeight

end SheetPolicy

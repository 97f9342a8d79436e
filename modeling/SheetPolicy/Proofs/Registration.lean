import Mathlib
import SheetPolicy.Command.Check

/-!
The rules that a check registers. The preset comes first, with its options. Keys of the
configuration add rules to it one by one, and a key that is a code is not recognised as one of a
rule that is there already, so that a rule can come in twice (`presetAndConfigured_nodup_iff`).
Rules named on the command line have the options of the preset at their first mention only
(`namedRules_options_iff`). They take them out of a list that gets shorter and loses its order; as
the names in it are different, that is no more than leaving out the rule (`takeOut_perm_filter`).
-/

namespace SheetPolicy

/-! ## Rules and their names -/

namespace Rule

/-- The name of a rule finds a rule of that name: no name is the code of another rule. -/
theorem name_of_find?_name {rule found : Rule} (hrule : rule ∈ all)
    (h : find? rule.name = some found) : found.name = rule.name := by
  have hall : ∀ rule ∈ all, (find? rule.name).map Rule.name = some rule.name := by decide
  have hfound := hall rule hrule
  rw [h] at hfound
  exact Option.some.inj hfound

end Rule

namespace Preset

theorem mem_all_of_mem_rules {preset : Preset} {entry : Rule × Options}
    (h : entry ∈ preset.rules) : entry.1 ∈ Rule.all := by
  cases preset <;> simp [rules, recommendedRules, Rule.all] at h ⊢ <;> grind

theorem nodup_names (preset : Preset) : (preset.rules.map fun entry => entry.1.name).Nodup := by
  cases preset <;> decide

/-- Every preset says how its rules are to be applied. -/
theorem isSome_primary {preset : Preset} {entry : Rule × Options} (h : entry ∈ preset.rules) :
    entry.2.primary.isSome = true := by
  have hall : ∀ entry ∈ preset.rules, entry.2.primary.isSome = true := by
    cases preset <;> decide
  exact hall entry h

end Preset

/-- The rules of a preset with their options, as they are registered. -/
def Preset.entries (preset : Preset) : List ActiveRule :=
  preset.rules.map fun (rule, options) => ⟨rule, options⟩

namespace Command

/-- The names of registered rules, in order. -/
def ruleNames (rules : List ActiveRule) : List String :=
  rules.map fun r => r.rule.name

/-- One of the keys stands for a rule of this name. -/
def Mentions (keys : List String) (name : String) : Prop :=
  ∃ key ∈ keys, ∃ rule, Rule.find? key = some rule ∧ rule.name = name

/-- A rule of this name is in the preset, or one of the keys stands for it. -/
def BringsIn (preset : Preset) (keys : List String) (name : String) : Prop :=
  name ∈ ruleNames preset.entries ∨ Mentions keys name

theorem ruleNames_entries (preset : Preset) :
    ruleNames preset.entries = preset.rules.map fun entry => entry.1.name := by
  simp [ruleNames, Preset.entries, Function.comp_def]

@[simp] theorem ruleNames_append (rules more : List ActiveRule) :
    ruleNames (rules ++ more) = ruleNames rules ++ ruleNames more :=
  List.map_append

theorem mentions_concat {keys : List String} {key name : String} :
    Mentions (keys ++ [key]) name ↔
      Mentions keys name ∨ ∃ rule, Rule.find? key = some rule ∧ rule.name = name := by
  simp only [Mentions, List.mem_append, List.mem_singleton]
  constructor
  · rintro ⟨k, hk | rfl, hrule⟩
    · exact .inl ⟨k, hk, hrule⟩
    · exact .inr hrule
  · rintro (⟨k, hk, hrule⟩ | hrule)
    · exact ⟨k, .inl hk, hrule⟩
    · exact ⟨key, .inr rfl, hrule⟩

/-! ## Rules that the configuration adds -/

/-- Adds the rule that a key stands for, unless the key is the name of a rule that is there. -/
def extend (rules : List ActiveRule) (key : String) : List ActiveRule :=
  if rules.any fun r => r.rule.name == key then rules
  else rules ++ (Rule.find? key).toList.map fun rule => ⟨rule, {}⟩

theorem presetAndConfigured_eq (preset : Preset) (config : Config) :
    presetAndConfigured preset config = (configuredKeys config).foldl extend preset.entries := rfl

theorem configuredKeys_perm (config : Config) :
    (configuredKeys config).Perm (config.rules.map Prod.fst) :=
  List.mergeSort_perm _ _

/-- The order in which a configuration has its keys is of no account. -/
theorem configuredKeys_eq_of_perm {config other : Config}
    (h : (config.rules.map Prod.fst).Perm (other.rules.map Prod.fst)) :
    configuredKeys config = configuredKeys other := by
  have hsorted : ∀ c, (configuredKeys c).Pairwise (· ≤ ·) := by
    intro c
    refine (List.pairwise_mergeSort (fun a b d hab hbd => ?_) (fun a b => ?_) _).imp
      fun h => of_decide_eq_true h
    · exact decide_eq_true ((of_decide_eq_true hab).trans (of_decide_eq_true hbd))
    · simpa using le_total a b
  have hperm : (configuredKeys config).Perm (configuredKeys other) :=
    (configuredKeys_perm config).trans (h.trans (configuredKeys_perm other).symm)
  exact hperm.eq_of_pairwise (fun a b _ _ hab hba => le_antisymm hab hba) (hsorted _) (hsorted _)

theorem bringsIn_configuredKeys {preset : Preset} {config : Config} {name : String} :
    BringsIn preset (configuredKeys config) name ↔
      BringsIn preset (config.rules.map Prod.fst) name := by
  simp only [BringsIn, Mentions, (configuredKeys_perm config).mem_iff]

/-- A key adds nothing, if it is the name of a rule that is there or stands for none, or it adds the
rule that it stands for, without options. -/
theorem extend_cases (rules : List ActiveRule) (key : String) :
    (extend rules key = rules ∧ (key ∈ ruleNames rules ∨ Rule.find? key = none)) ∨
      ∃ rule, Rule.find? key = some rule ∧ key ∉ ruleNames rules ∧
        extend rules key = rules ++ [⟨rule, {}⟩] := by
  have hany : (rules.any fun r => r.rule.name == key) = true ↔ key ∈ ruleNames rules := by
    simp [ruleNames]
  unfold extend
  by_cases hmem : key ∈ ruleNames rules
  · exact .inl ⟨if_pos (hany.2 hmem), .inl hmem⟩
  · rw [if_neg (hany.not.2 hmem)]
    cases hfind : Rule.find? key with
    | none => exact .inl ⟨List.append_nil rules, .inr rfl⟩
    | some rule => exact .inr ⟨rule, rfl, hmem, rfl⟩

/-- The rules that keys add stand behind those that were there, without options. -/
theorem foldl_extend_eq_append (rules : List ActiveRule) (keys : List String) :
    ∃ added : List Rule, keys.foldl extend rules = rules ++ added.map (⟨·, {}⟩) ∧
      ∀ rule ∈ added, ∃ key ∈ keys, Rule.find? key = some rule := by
  induction keys using List.reverseRecOn with
  | nil => exact ⟨[], by simp, by simp⟩
  | append_singleton keys key ih =>
    obtain ⟨added, heq, hadded⟩ := ih
    have hold : ∀ rule ∈ added, ∃ k ∈ keys ++ [key], Rule.find? k = some rule := by
      intro rule hrule
      obtain ⟨k, hk, hfind⟩ := hadded rule hrule
      exact ⟨k, List.mem_append_left _ hk, hfind⟩
    rw [List.foldl_append, List.foldl_cons, List.foldl_nil]
    rcases extend_cases (keys.foldl extend rules) key with ⟨hsame, _⟩ | ⟨rule, hfind, _, hmore⟩
    · exact ⟨added, hsame.trans heq, hold⟩
    · refine ⟨added ++ [rule], by rw [hmore, heq]; simp, ?_⟩
      intro other hother
      rcases List.mem_append.1 hother with hother | hother
      · exact hold other hother
      · obtain rfl := List.mem_singleton.1 hother
        exact ⟨key, by simp, hfind⟩

/-- Every registered rule is one of all rules. -/
theorem mem_all_of_mem_extended {preset : Preset} {keys : List String} {r : ActiveRule}
    (h : r ∈ keys.foldl extend preset.entries) : r.rule ∈ Rule.all := by
  obtain ⟨added, heq, hadded⟩ := foldl_extend_eq_append preset.entries keys
  rw [heq] at h
  rcases List.mem_append.1 h with h | h
  · obtain ⟨entry, hentry, rfl⟩ := List.mem_map.1 h
    exact Preset.mem_all_of_mem_rules hentry
  · obtain ⟨rule, hrule, rfl⟩ := List.mem_map.1 h
    obtain ⟨key, _, hfind⟩ := hadded rule hrule
    exact List.mem_of_find?_eq_some hfind

/-- A rule is registered exactly if the preset or a key brings it in. -/
theorem mem_ruleNames_foldl (preset : Preset) (keys : List String) (name : String) :
    name ∈ ruleNames (keys.foldl extend preset.entries) ↔ BringsIn preset keys name := by
  induction keys using List.reverseRecOn with
  | nil => simp [BringsIn, Mentions]
  | append_singleton keys key ih =>
    rw [List.foldl_append, List.foldl_cons, List.foldl_nil, BringsIn, mentions_concat, ← or_assoc,
      ← BringsIn, ← ih]
    rcases extend_cases (keys.foldl extend preset.entries) key with
      ⟨hsame, hkey | hkey⟩ | ⟨rule, hfind, _, hmore⟩
    · -- The key is a name, so the rule that it stands for is there under that name.
      rw [hsame, iff_self_or]
      rintro ⟨rule, hfind, rfl⟩
      obtain ⟨r, hr, rfl⟩ := List.mem_map.1 hkey
      rw [Rule.name_of_find?_name (mem_all_of_mem_extended hr) hfind]
      exact hkey
    · simp [hsame, hkey]
    · simp [hmore, hfind, ruleNames, eq_comm]

/-- What holds at every place of a longer list holds at every place of the list and at its end. -/
theorem forall_split_concat {keys : List String} {key : String}
    {P : List String → String → Prop} :
    (∀ before k after, keys ++ [key] = before ++ k :: after → P before k) ↔
      (∀ before k after, keys = before ++ k :: after → P before k) ∧ P keys key := by
  constructor
  · intro h
    exact ⟨fun before k after hkeys => h before k (after ++ [key]) (by simp [hkeys]),
      h keys key [] rfl⟩
  · rintro ⟨hshort, hlast⟩ before k after hkeys
    rcases List.eq_nil_or_concat after with rfl | ⟨after, last, rfl⟩
    · obtain ⟨rfl, hk⟩ := List.append_inj' hkeys rfl
      obtain rfl := by simpa using hk
      exact hlast
    · have hinit : keys ++ [key] = (before ++ k :: after) ++ [last] := by simp [hkeys]
      exact hshort before k after (List.append_inj' hinit rfl).1

/-- A key that is no name registers a rule again if the rule was there before; a name never does. -/
theorem nodup_extend_iff {preset : Preset} {keys : List String} (key : String) :
    (ruleNames (extend (keys.foldl extend preset.entries) key)).Nodup ↔
      (ruleNames (keys.foldl extend preset.entries)).Nodup ∧ ∀ rule, Rule.find? key = some rule →
        key ≠ rule.name → ¬BringsIn preset keys rule.name := by
  rcases extend_cases (keys.foldl extend preset.entries) key with
    ⟨hsame, hkey | hkey⟩ | ⟨rule, hfind, hkey, hmore⟩
  · rw [hsame, iff_self_and]
    intro _ rule hfind hne
    obtain ⟨r, hr, rfl⟩ := List.mem_map.1 hkey
    exact absurd (Rule.name_of_find?_name (mem_all_of_mem_extended hr) hfind).symm hne
  · simp [hsame, hkey]
  · have hnodup : (ruleNames (keys.foldl extend preset.entries ++ [⟨rule, {}⟩])).Nodup ↔
        rule.name ∉ ruleNames (keys.foldl extend preset.entries) ∧
          (ruleNames (keys.foldl extend preset.entries)).Nodup := by
      rw [ruleNames_append, List.nodup_append_comm]
      exact List.nodup_cons
    rw [hmore, hnodup, and_comm, mem_ruleNames_foldl, and_congr_right_iff]
    intro _
    constructor
    · intro hnew other hother _
      obtain rfl : rule = other := Option.some.inj (hfind.symm.trans hother)
      exact hnew
    · intro hcode
      by_cases hname : key = rule.name
      · rwa [← mem_ruleNames_foldl, ← hname]
      · exact hcode rule hfind hname

/-- Rules are registered once each exactly if every key that is no name brings in a rule that was
not there before. -/
theorem nodup_foldl_extend_iff (preset : Preset) (keys : List String) :
    (ruleNames (keys.foldl extend preset.entries)).Nodup ↔
      ∀ before key after, keys = before ++ key :: after → ∀ rule, Rule.find? key = some rule →
        key ≠ rule.name → ¬BringsIn preset before rule.name := by
  induction keys using List.reverseRecOn with
  | nil =>
    rw [List.foldl_nil, ruleNames_entries]
    simp [preset.nodup_names]
  | append_singleton keys key ih =>
    rw [List.foldl_append, List.foldl_cons, List.foldl_nil, nodup_extend_iff, ih,
      ← forall_split_concat]

/-- What a check registers without a list of rules: the rules of the preset with its options and,
behind them, rules that keys of the configuration stand for, without options. The keys are taken in
their own order and not in that of the configuration. A rule comes in twice exactly if a key spells
it by its code although the preset or an earlier key has brought it in. -/
theorem presetAndConfigured_nodup_iff (preset : Preset) (config : Config) :
    (∃ added : List Rule,
      presetAndConfigured preset config = preset.entries ++ added.map (⟨·, {}⟩) ∧
      ∀ rule ∈ added, ∃ key ∈ config.rules.map Prod.fst, Rule.find? key = some rule) ∧
    (∀ name, name ∈ ruleNames (presetAndConfigured preset config) ↔
      BringsIn preset (config.rules.map Prod.fst) name) ∧
    (∀ other : Config, (other.rules.map Prod.fst).Perm (config.rules.map Prod.fst) →
      presetAndConfigured preset other = presetAndConfigured preset config) ∧
    ((ruleNames (presetAndConfigured preset config)).Nodup ↔
      ∀ before key after, configuredKeys config = before ++ key :: after →
        ∀ rule, Rule.find? key = some rule → key ≠ rule.name →
          ¬BringsIn preset before rule.name) := by
  obtain ⟨added, heq, hadded⟩ := foldl_extend_eq_append preset.entries (configuredKeys config)
  refine ⟨⟨added, heq, fun rule hrule => ?_⟩, fun name => ?_, fun other hperm => ?_,
    nodup_foldl_extend_iff _ _⟩
  · obtain ⟨key, hkey, hfind⟩ := hadded rule hrule
    exact ⟨key, (configuredKeys_perm config).subset hkey, hfind⟩
  · rw [presetAndConfigured_eq, mem_ruleNames_foldl, bringsIn_configuredKeys]
  · rw [presetAndConfigured_eq, presetAndConfigured_eq, configuredKeys_eq_of_perm hperm]

/-- A configuration that sets something for the rule on font weights, under its code, registers that
rule beside the one of the preset. -/
theorem registered_twice_by_code :
    ¬(ruleNames (presetAndConfigured .recommended { rules := [("SL001", {})] })).Nodup := by
  have hkeys : configuredKeys { rules := [("SL001", {})] } = ["SL001"] :=
    List.mergeSort_singleton "SL001"
  rw [presetAndConfigured_eq, hkeys]
  decide

/-! ## Rules named on the command line -/

/-- The options that a list of rules has for the rule of this name. -/
def optionsIn (rules : List (Rule × Options)) (name : String) : Option Options :=
  (rules.find? fun entry => entry.1.name == name).map Prod.snd

/-- The defaults are about different rules. -/
def Distinct (defaults : List (Rule × Options)) : Prop :=
  (defaults.map fun d => d.1.name).Nodup

/-- What is left of the defaults when the rule of a name has taken its options. -/
def takeOut (defaults : List (Rule × Options)) (name : String) : List (Rule × Options) :=
  match defaults.findIdx? fun d => d.1.name == name with
  | none => defaults
  | some i => swapRemove defaults i

theorem namedRules_cons_of_find? {defaults : List (Rule × Options)} {name : String}
    {names : List String} {rule : Rule} (h : Rule.find? name = some rule) :
    namedRules defaults (name :: names) =
      ⟨rule, (optionsIn defaults rule.name).getD {}⟩ ::
        namedRules (takeOut defaults rule.name) names := by
  simp only [namedRules, h, optionsIn, takeOut, List.find?_eq_bind_findIdx?_getElem?]
  cases defaults.findIdx? fun d => d.1.name == rule.name <;> rfl

theorem namedRules_cons_of_unknown {defaults : List (Rule × Options)} {name : String}
    {names : List String} (h : Rule.find? name = none) :
    namedRules defaults (name :: names) = namedRules defaults names := by
  simp [namedRules, h]

theorem map_rule_namedRules (defaults : List (Rule × Options)) (names : List String) :
    (namedRules defaults names).map ActiveRule.rule = names.filterMap Rule.find? := by
  induction names generalizing defaults with
  | nil => rfl
  | cons name names ih =>
    cases h : Rule.find? name with
    | none => rw [List.filterMap_cons_none h, namedRules_cons_of_unknown h, ih]
    | some rule =>
      rw [List.filterMap_cons_some h, namedRules_cons_of_find? h, List.map_cons, ih]

/-- Where the last element goes only changes the order of what is left. -/
theorem swapRemove_perm_eraseIdx {α : Type} {xs : List α} {i : Nat} (h : i < xs.length) :
    (swapRemove xs i).Perm (xs.eraseIdx i) := by
  rcases List.eq_nil_or_concat' xs with rfl | ⟨ys, last, rfl⟩
  · cases h
  · have hswap : swapRemove (ys ++ [last]) i = ((ys ++ [last]).set i last).dropLast := by
      simp [swapRemove]
    rw [hswap]
    rcases Nat.lt_or_ge i ys.length with hi | hi
    · rw [List.set_append_left _ _ hi, List.dropLast_concat, List.eraseIdx_append_of_lt_length hi]
      exact (List.set_perm_cons_eraseIdx hi last).trans (List.perm_append_singleton _ _).symm
    · -- The last element is the one that goes.
      obtain rfl : i = ys.length := by
        rw [List.length_append, List.length_singleton] at h
        omega
      rw [List.eraseIdx_append_of_length_le le_rfl]
      simp

section Distinct

variable {defaults : List (Rule × Options)}

theorem optionsIn_of_mem (hdistinct : Distinct defaults) {given : Rule × Options}
    (h : given ∈ defaults) : optionsIn defaults given.1.name = some given.2 := by
  obtain ⟨before, after, rfl⟩ := List.append_of_mem h
  rw [Distinct, List.map_append, List.map_cons, List.nodup_append] at hdistinct
  have hfirst : ∀ d ∈ before, ¬(d.1.name == given.1.name) = true := by
    intro d hd
    simpa using hdistinct.2.2 _ (List.mem_map_of_mem hd) _ List.mem_cons_self
  rw [optionsIn, List.find?_append, List.find?_eq_none.2 hfirst]
  simp

theorem optionsIn_eq_some_iff (hdistinct : Distinct defaults) {name : String} {options : Options} :
    optionsIn defaults name = some options ↔
      ∃ given ∈ defaults, given.1.name = name ∧ given.2 = options := by
  constructor
  · intro h
    obtain ⟨given, hfind, hoptions⟩ := Option.map_eq_some_iff.1 h
    have hname : given.1.name = name := by simpa using List.find?_some hfind
    exact ⟨given, List.mem_of_find?_eq_some hfind, hname, hoptions⟩
  · rintro ⟨given, hgiven, rfl, rfl⟩
    exact optionsIn_of_mem hdistinct hgiven

/-- The order of different rules says nothing about their options. -/
theorem optionsIn_perm {others : List (Rule × Options)} (hdistinct : Distinct defaults)
    (h : others.Perm defaults) (name : String) :
    optionsIn others name = optionsIn defaults name := by
  have hothers : Distinct others := (h.map _).nodup_iff.2 hdistinct
  refine Option.ext fun options => ?_
  rw [optionsIn_eq_some_iff hdistinct, optionsIn_eq_some_iff hothers]
  simp only [h.mem_iff]

/-- The first rule of a name is the only one. -/
theorem eraseP_eq_filter (hdistinct : Distinct defaults) (name : String) :
    (defaults.eraseP fun d => d.1.name == name) = defaults.filter fun d => d.1.name != name := by
  induction defaults with
  | nil => rfl
  | cons d defaults ih =>
    obtain ⟨hd, hdistinct⟩ := List.nodup_cons.1 hdistinct
    by_cases hname : d.1.name = name
    · subst hname
      have hothers : ∀ other ∈ defaults, (other.1.name != d.1.name) = true := by
        intro other hother
        exact bne_iff_ne.2 fun heq => hd (List.mem_map.2 ⟨other, hother, heq⟩)
      rw [List.eraseP_cons_of_pos (by simp), List.filter_cons_of_neg (by simp),
        List.filter_eq_self.2 hothers]
    · rw [List.eraseP_cons_of_neg (by simpa using hname),
        List.filter_cons_of_pos (by simpa using hname), ih hdistinct]

/-- Of different rules, those of other names are left. -/
theorem takeOut_perm_filter (hdistinct : Distinct defaults) (name : String) :
    (takeOut defaults name).Perm (defaults.filter fun d => d.1.name != name) := by
  rw [← eraseP_eq_filter hdistinct, List.eraseP_eq_eraseIdx, takeOut]
  cases hidx : defaults.findIdx? fun d => d.1.name == name with
  | none => rfl
  | some i =>
    obtain ⟨hi, _⟩ := List.findIdx?_eq_some_iff_getElem.1 hidx
    exact swapRemove_perm_eraseIdx hi

theorem Distinct.takeOut (hdistinct : Distinct defaults) (name : String) :
    Distinct (takeOut defaults name) := by
  refine ((takeOut_perm_filter hdistinct name).map _).nodup_iff.2 ?_
  exact hdistinct.sublist (List.filter_sublist.map _)

/-- Once a rule has been taken its options are gone, and those of the others are not. -/
theorem optionsIn_takeOut (hdistinct : Distinct defaults) (taken name : String) :
    optionsIn (takeOut defaults taken) name =
      if name = taken then none else optionsIn defaults name := by
  have hleft : Distinct (defaults.filter fun d => d.1.name != taken) :=
    hdistinct.sublist (List.filter_sublist.map _)
  rw [optionsIn_perm hleft (takeOut_perm_filter hdistinct taken)]
  simp only [optionsIn, List.find?_filter]
  split
  · next h =>
    rw [Option.map_eq_none_iff, List.find?_eq_none]
    simp [h]
  · next h =>
    congr 2
    funext d
    grind

end Distinct

/-- The first mention of a rule has its options, and every later one has none. -/
theorem options_namedRules {defaults : List (Rule × Options)} {names : List String}
    {earlier later : List ActiveRule} {entry : ActiveRule}
    (hdistinct : Distinct defaults) (h : namedRules defaults names = earlier ++ entry :: later) :
    entry.options =
      if entry.rule.name ∈ ruleNames earlier then {}
      else (optionsIn defaults entry.rule.name).getD {} := by
  induction names generalizing defaults earlier with
  | nil => simp [namedRules] at h
  | cons name names ih =>
    cases hfind : Rule.find? name with
    | none => exact ih hdistinct (namedRules_cons_of_unknown hfind ▸ h)
    | some rule =>
      rw [namedRules_cons_of_find? hfind] at h
      cases earlier with
      | nil =>
        obtain ⟨rfl, -⟩ := by simpa using h
        simp [ruleNames]
      | cons first earlier =>
        obtain ⟨rfl, htail⟩ := by simpa using h
        rw [ih (hdistinct.takeOut _) htail, optionsIn_takeOut hdistinct]
        simp only [ruleNames, List.map_cons, List.mem_cons]
        grind

theorem mentions_iff_mem {keys : List String} {name : String} :
    Mentions keys name ↔ name ∈ (keys.filterMap Rule.find?).map Rule.name := by
  simp only [Mentions, List.mem_map, List.mem_filterMap]
  constructor
  · rintro ⟨key, hkey, rule, hfind, hname⟩
    exact ⟨rule, ⟨key, hkey, hfind⟩, hname⟩
  · rintro ⟨rule, ⟨key, hkey, hfind⟩, hname⟩
    exact ⟨key, hkey, rule, hfind, hname⟩

/-- A name that stands for a rule has its entry, behind those of the names before it. -/
theorem exists_entry_of_split {defaults : List (Rule × Options)} {before after : List String}
    {key : String} {rule : Rule} (h : Rule.find? key = some rule) :
    ∃ earlier entry later,
      namedRules defaults (before ++ key :: after) = earlier ++ entry :: later ∧
      entry.rule = rule ∧ earlier.map ActiveRule.rule = before.filterMap Rule.find? := by
  have hrules := map_rule_namedRules defaults (before ++ key :: after)
  rw [List.filterMap_append, List.filterMap_cons_some h] at hrules
  obtain ⟨earlier, rest, hsplit, hearlier, hrest⟩ := List.map_eq_append_iff.1 hrules
  obtain ⟨entry, later, rfl, hentry, -⟩ := List.map_eq_cons_iff.1 hrest
  exact ⟨earlier, entry, later, hsplit, hentry, hearlier⟩

/-- Every entry is that of a name, behind the entries of the names before it. -/
theorem exists_split_of_entry {defaults : List (Rule × Options)} {names : List String}
    {earlier later : List ActiveRule} {entry : ActiveRule}
    (h : namedRules defaults names = earlier ++ entry :: later) :
    ∃ before key after, names = before ++ key :: after ∧ Rule.find? key = some entry.rule ∧
      earlier.map ActiveRule.rule = before.filterMap Rule.find? := by
  have hrules := map_rule_namedRules defaults names
  rw [h, List.map_append, List.map_cons] at hrules
  obtain ⟨before, rest, rfl, hbefore, hrest⟩ := List.filterMap_eq_append_iff.1 hrules.symm
  obtain ⟨unknown, key, after, rfl, hunknown, hkey, -⟩ := List.filterMap_eq_cons_iff.1 hrest
  refine ⟨before ++ unknown, key, after, by simp, hkey, ?_⟩
  rw [List.filterMap_append, List.filterMap_eq_nil_iff.2 hunknown, List.append_nil, hbefore]

theorem mem_ruleNames_iff_mentions {earlier : List ActiveRule} {before : List String}
    (h : earlier.map ActiveRule.rule = before.filterMap Rule.find?) {name : String} :
    name ∈ ruleNames earlier ↔ Mentions before name := by
  rw [mentions_iff_mem, ← h, List.map_map]
  rfl

/-- What a check registers for a list of names: an entry for each name that stands for a rule, in
order. At its first mention a rule has the options of the preset, and at later ones none. So the
rules of the preset all keep their options exactly if none of them is mentioned again. -/
theorem namedRules_options_iff (preset : Preset) (names : List String) :
    (namedRules preset.rules names).map ActiveRule.rule = names.filterMap Rule.find? ∧
    (∀ earlier entry later, namedRules preset.rules names = earlier ++ entry :: later →
      entry.options =
        if entry.rule.name ∈ ruleNames earlier then {}
        else (optionsIn preset.rules entry.rule.name).getD {}) ∧
    ((∀ entry ∈ namedRules preset.rules names, ∀ given ∈ preset.rules,
        given.1.name = entry.rule.name → entry.options = given.2) ↔
      ∀ before key after, names = before ++ key :: after → ∀ rule, Rule.find? key = some rule →
        rule.name ∈ ruleNames preset.entries → ¬Mentions before rule.name) := by
  have hdistinct : Distinct preset.rules := preset.nodup_names
  refine ⟨map_rule_namedRules _ _, fun _ _ _ h => options_namedRules hdistinct h, ?_, ?_⟩
  · rintro hkeeps before key after rfl rule hfind hpreset hmentions
    obtain ⟨earlier, entry, later, hsplit, rfl, hearlier⟩ :=
      @exists_entry_of_split preset.rules before after key rule hfind
    rw [ruleNames_entries] at hpreset
    obtain ⟨given, hgiven, hname⟩ := List.mem_map.1 hpreset
    have hoptions := options_namedRules hdistinct hsplit
    rw [if_pos ((mem_ruleNames_iff_mentions hearlier).2 hmentions),
      hkeeps entry (by simp [hsplit]) given hgiven hname] at hoptions
    simpa [hoptions] using Preset.isSome_primary hgiven
  · intro hfirst entry hentry given hgiven hname
    obtain ⟨earlier, later, hsplit⟩ := List.append_of_mem hentry
    obtain ⟨before, key, after, hnames, hfind, hearlier⟩ := exists_split_of_entry hsplit
    have hpreset : entry.rule.name ∈ ruleNames preset.entries := by
      rw [ruleNames_entries, ← hname]
      exact List.mem_map_of_mem hgiven
    have hnew := hfirst before key after hnames entry.rule hfind hpreset
    rw [← mem_ruleNames_iff_mentions hearlier] at hnew
    rw [options_namedRules hdistinct hsplit, if_neg hnew, ← hname,
      optionsIn_of_mem hdistinct hgiven, Option.getD_some]

/-- A rule of the preset that is named twice has no options the second time. -/
theorem options_lost_by_repetition :
    ¬∀ entry ∈ namedRules Preset.recommended.rules ["SL001", "SL001"],
      ∀ given ∈ Preset.recommended.rules, given.1.name = entry.rule.name →
        entry.options = given.2 := by
  intro h
  have hlost := h ⟨FontWeight.rule {}, {}⟩ (.tail _ (.head _)) _ (.head _) rfl
  simpa [Preset.primaryOnly] using congrArg Options.primary hlost

end Command

end SheetPolicy

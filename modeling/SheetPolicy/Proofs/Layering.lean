import Mathlib
import SheetPolicy.Proofs.Isolation
import SheetPolicy.Proofs.TableOrder

/-!
Layers of options. Laid over one another they form a monoid: how a stack is bracketed does not
matter, and a layer that sets nothing adds nothing. What a stack sets is, for the primary value and
for each secondary key by itself, what its topmost layer sets that sets it at all.

A linter is built with two layers for each rule that is switched on: what the configuration sets for
the rule over what the rule was registered with. The layers of a configuration that is read from a
file are in order.
-/

namespace SheetPolicy

open Toml (Table)

/-! ## Two layers -/

theorem Toml.Table.overlay_assoc {top middle base : Table} (htop : top.Sorted)
    (hmiddle : middle.Sorted) (hbase : base.Sorted) :
    (top.overlay middle).overlay base = top.overlay (middle.overlay base) := by
  have habove : (top.overlay middle).Sorted := hmiddle.overlay top
  refine (hbase.overlay _).ext ((hbase.overlay _).overlay _) fun key => ?_
  rw [get?_overlay habove, get?_overlay htop, get?_overlay htop, get?_overlay hmiddle,
    Option.or_assoc]

namespace Options

/-- The secondary table, if there is one, is in order. -/
def Ordered (o : Options) : Prop :=
  ∀ t ∈ o.secondary, t.Sorted

theorem primary_layeredOver (top base : Options) :
    (top.layeredOver base).primary = top.primary.or base.primary := by
  rw [layeredOver, Option.orElse_eq_orElse, Option.orElse_eq_or]

theorem secondary_layeredOver (top base : Options) :
    (top.layeredOver base).secondary =
      Option.merge Table.overlay top.secondary base.secondary := by
  rcases top with ⟨_, _ | _⟩ <;> rcases base with ⟨_, _ | _⟩ <;> rfl

theorem secondary?_layeredOver {top : Options} (h : top.Ordered) (base : Options) (key : String) :
    (top.layeredOver base).secondary? key = (top.secondary? key).or (base.secondary? key) := by
  simp only [secondary?, secondary_layeredOver]
  cases htop : top.secondary with
  | none =>
    rw [Option.merge_none_left]
    rfl
  | some t =>
    cases base.secondary with
    | none =>
      rw [Option.merge_none_right]
      exact (Option.or_none ..).symm
    | some b => exact Table.get?_overlay (h t htop) b key

theorem Ordered.layeredOver {top base : Options} (htop : top.Ordered) (hbase : base.Ordered) :
    (top.layeredOver base).Ordered := by
  intro t ht
  rw [secondary_layeredOver] at ht
  cases hupper : top.secondary with
  | none =>
    rw [hupper, Option.merge_none_left] at ht
    exact hbase t ht
  | some upper =>
    cases hlower : base.secondary with
    | none =>
      rw [hlower, Option.merge_none_right] at ht
      exact htop t ht
    | some lower =>
      rw [hupper, hlower] at ht
      obtain rfl : upper.overlay lower = t := Option.some_inj.1 ht
      exact (hbase lower hlower).overlay upper

theorem empty_layeredOver (o : Options) : ({} : Options).layeredOver o = o := by
  obtain ⟨_ | _, _ | _⟩ := o <;> rfl

theorem layeredOver_empty (o : Options) : o.layeredOver {} = o := by
  obtain ⟨_ | _, _ | _⟩ := o <;> rfl

theorem layeredOver_assoc {a b c : Options} (ha : a.Ordered) (hb : b.Ordered) (hc : c.Ordered) :
    (a.layeredOver b).layeredOver c = a.layeredOver (b.layeredOver c) := by
  have hprimary : ((a.layeredOver b).layeredOver c).primary =
      (a.layeredOver (b.layeredOver c)).primary := by
    simp only [primary_layeredOver, Option.or_assoc]
  have hsecondary : ((a.layeredOver b).layeredOver c).secondary =
      (a.layeredOver (b.layeredOver c)).secondary := by
    simp only [secondary_layeredOver]
    cases hsa : a.secondary with
    | none => simp only [Option.merge_none_left]
    | some s =>
      cases hsb : b.secondary with
      | none => simp only [Option.merge_none_left, Option.merge_none_right]
      | some t =>
        cases hsc : c.secondary with
        | none => simp only [Option.merge_none_right]
        | some u => exact congrArg some (Table.overlay_assoc (ha s hsa) (hb t hsb) (hc u hsc))
  exact congrArg₂ Options.mk hprimary hsecondary

/-! ## Stacks of layers -/

/-- Options in order. -/
structure Layer extends Options where
  ordered : toOptions.Ordered

namespace Layer

@[ext]
theorem ext {a b : Layer} (h : a.toOptions = b.toOptions) : a = b := by
  cases a
  cases b
  cases h
  rfl

/-- The product of two layers is the first laid over the second. -/
instance : Monoid Layer where
  mul top base := ⟨top.layeredOver base.toOptions, top.ordered.layeredOver base.ordered⟩
  one := ⟨{}, fun _ h => absurd h (Option.not_mem_none _)⟩
  mul_assoc a b c := Layer.ext (layeredOver_assoc a.ordered b.ordered c.ordered)
  one_mul a := Layer.ext (empty_layeredOver a.toOptions)
  mul_one a := Layer.ext (layeredOver_empty a.toOptions)

end Layer

/-- Layers laid over one another, the topmost first. -/
def stack (layers : List Layer) : Options :=
  layers.foldr (fun layer below => layer.layeredOver below) {}

theorem stack_eq_prod (layers : List Layer) : stack layers = layers.prod.toOptions := by
  induction layers with
  | nil => rfl
  | cons layer layers ih =>
    rw [stack, List.foldr_cons, List.prod_cons]
    exact congrArg layer.layeredOver ih

/-- A stack may be cut anywhere. -/
theorem stack_append (upper lower : List Layer) :
    stack (upper ++ lower) = (stack upper).layeredOver (stack lower) := by
  simp only [stack_eq_prod, List.prod_append]
  rfl

/-- What is read off two layers from the upper one, if it is there, is read off a stack from the
topmost layer where it is. -/
theorem read_stack {α : Type} {read : Options → Option α} (hempty : read {} = none)
    (hlayer : ∀ (layer : Layer) (base : Options),
      read (layer.layeredOver base) = (read layer.toOptions).or (read base))
    (layers : List Layer) :
    read (stack layers) = layers.findSome? fun layer => read layer.toOptions := by
  induction layers with
  | nil => exact hempty
  | cons layer layers ih =>
    have hstep : stack (layer :: layers) = layer.layeredOver (stack layers) := rfl
    rw [hstep, hlayer, ih, List.findSome?_cons]
    cases read layer.toOptions <;> rfl

theorem primary_stack (layers : List Layer) :
    (stack layers).primary = layers.findSome? fun layer => layer.primary :=
  read_stack rfl (fun layer base => primary_layeredOver layer.toOptions base) layers

theorem secondary?_stack (layers : List Layer) (key : String) :
    (stack layers).secondary? key = layers.findSome? fun layer => layer.secondary? key :=
  @read_stack _ (fun o => o.secondary? key) rfl
    (fun layer base => secondary?_layeredOver layer.ordered base key) layers

end Options

/-! ## Configurations -/

namespace Config

/-- What the configuration sets for a rule, as a layer. -/
def layer (c : Config) (rule : String) : Options :=
  (c.options? rule).getD {}

theorem isEnabled_eq_false_iff (c : Config) (rule : String) :
    c.isEnabled rule = false ↔ ∃ s, c.settings? rule = some s ∧ s.enabled = some false := by
  rw [isEnabled]
  cases c.settings? rule with
  | none => simp
  | some s => cases henabled : s.enabled <;> simp [henabled]

theorem layer_eq_of_settings? {c : Config} {rule : String} {s : RuleSettings}
    (h : c.settings? rule = some s) :
    c.layer rule = ⟨s.primary, if s.rest.isEmpty then none else some s.rest⟩ := by
  obtain ⟨enabled, severity, primary, rest⟩ := s
  rw [layer, options?, h, Option.bind_some, RuleSettings.options?]
  cases primary with
  | none => cases rest <;> rfl
  | some v => rfl

theorem layer_eq_empty {c : Config} {rule : String} (h : c.settings? rule = none) :
    c.layer rule = {} := by
  rw [layer, options?, h]
  rfl

theorem primary_layer (c : Config) (rule : String) :
    (c.layer rule).primary = (c.settings? rule).bind RuleSettings.primary := by
  cases h : c.settings? rule with
  | none => rw [layer_eq_empty h]; rfl
  | some s => rw [layer_eq_of_settings? h]; rfl

theorem secondary?_layer (c : Config) (rule key : String) :
    (c.layer rule).secondary? key = (c.settings? rule).bind fun s => s.rest.get? key := by
  cases h : c.settings? rule with
  | none => rw [layer_eq_empty h]; rfl
  | some s =>
    rw [layer_eq_of_settings? h]
    cases hrest : s.rest with
    | nil => simp [Options.secondary?, hrest]
    | cons entry rest => simp [Options.secondary?, hrest]

theorem exists_of_optional {α : Type} {t : Table} {key : String} {decode : Toml → Option α} {a : α}
    (h : optional t key decode = some (some a)) : ∃ v, t.get? key = some v ∧ decode v = some a := by
  unfold optional at h
  split at h
  · cases h
  · rename_i v hv
    obtain ⟨b, hb, heq⟩ := Option.map_eq_some_iff.1 h
    cases heq
    exact ⟨v, hv, hb⟩

theorem sorted_rest_of_ruleSettings? {v : Toml} (hv : v.Ordered) {s : RuleSettings}
    (h : ruleSettings? v = some s) : s.rest.Sorted := by
  cases v with
  | table t =>
    obtain ⟨enabled, _, h⟩ := Option.bind_eq_some_iff.1 h
    obtain ⟨severity, _, h⟩ := Option.bind_eq_some_iff.1 h
    cases h
    exact hv.sorted.filter _
  | _ => cases h

theorem sorted_rest_of_rules? {v : Toml} (hv : v.Ordered) {rules : List (String × RuleSettings)}
    (h : rules? v = some rules) : ∀ entry ∈ rules, entry.2.rest.Sorted := by
  cases hv with
  | table _ hvalues =>
    intro entry hentry
    obtain ⟨own, hown, hsettings⟩ := Linter.exists_of_mem_mapM h hentry
    obtain ⟨s, hs, rfl⟩ := Option.map_eq_some_iff.1 hsettings
    exact sorted_rest_of_ruleSettings? (hvalues own hown) hs
  | _ => cases h

theorem sorted_rest_of_parse? {text : String} {c : Config} (h : parse? text = some c) :
    ∀ entry ∈ c.rules, entry.2.rest.Sorted := by
  obtain ⟨t, ht, h⟩ := Option.bind_eq_some_iff.1 h
  obtain ⟨preset, _, h⟩ := Option.bind_eq_some_iff.1 h
  obtain ⟨failOn, _, h⟩ := Option.bind_eq_some_iff.1 h
  obtain ⟨search, _, h⟩ := Option.bind_eq_some_iff.1 h
  obtain ⟨rules, hrules, h⟩ := Option.bind_eq_some_iff.1 h
  cases h
  cases rules with
  | none => exact fun _ hentry => absurd hentry List.not_mem_nil
  | some rules =>
    obtain ⟨v, hv, hdecode⟩ := exists_of_optional hrules
    exact sorted_rest_of_rules? ((Toml.ordered_of_parse? ht).of_get? hv) hdecode

theorem ordered_layer_of_parse? {text : String} {c : Config} (h : parse? text = some c)
    (rule : String) : (c.layer rule).Ordered := by
  intro t ht
  cases hsettings : c.settings? rule with
  | none =>
    rw [layer_eq_empty hsettings] at ht
    exact absurd ht (Option.not_mem_none t)
  | some s =>
    obtain ⟨entry, hentry, rfl⟩ := Option.map_eq_some_iff.1 hsettings
    rw [layer_eq_of_settings? hsettings] at ht
    have hrest : entry.2.rest = t := by
      split at ht
      · cases ht
      · exact Option.some_inj.1 ht
    exact hrest ▸ sorted_rest_of_parse? h entry (List.mem_of_find?_eq_some hentry)

end Config

namespace Linter

/-- Options of the configuration, if there are any, lie over those that were registered. -/
theorem layered_eq (c : Config) (r : ActiveRule) :
    layered c r = ⟨r.rule, (c.layer r.rule.name).layeredOver r.options⟩ := by
  rw [layered, Config.layer]
  cases c.options? r.rule.name with
  | none => exact congrArg (ActiveRule.mk r.rule) (Options.empty_layeredOver r.options).symm
  | some options => rfl

end Linter

/-! ## Main result -/

/-- Layers are a monoid, and the topmost one that sets something wins, for the primary value and for
each key. A linter keeps the rules that are not switched off, in their order, each with the layer of
the configuration over what was registered. That layer holds what the settings of the rule hold, and
one that comes from a file is in order. -/
theorem layering_last_set_wins (layers : List Options.Layer) (plan : Linter.Plan)
    (workingDirectory : String) :
    (∀ a b c : Options.Layer, (a.layeredOver b.toOptions).layeredOver c.toOptions =
      a.layeredOver (b.layeredOver c.toOptions)) ∧
    (∀ o : Options, ({} : Options).layeredOver o = o ∧ o.layeredOver {} = o) ∧
    (∀ cut, Options.stack layers =
      (Options.stack (layers.take cut)).layeredOver (Options.stack (layers.drop cut))) ∧
    (Options.stack layers).primary = layers.findSome? (fun layer => layer.primary) ∧
    (∀ key, (Options.stack layers).secondary? key =
      layers.findSome? fun layer => layer.secondary? key) ∧
    (plan.build workingDirectory).rules =
      (plan.rules.filter fun r => plan.config.isEnabled r.rule.name).map (fun r =>
        ⟨r.rule, (plan.config.layer r.rule.name).layeredOver r.options⟩) ∧
    (∀ rule, (plan.config.isEnabled rule = false ↔
        ∃ s, plan.config.settings? rule = some s ∧ s.enabled = some false) ∧
      (plan.config.layer rule).primary =
        (plan.config.settings? rule).bind RuleSettings.primary ∧
      ∀ key, (plan.config.layer rule).secondary? key =
        (plan.config.settings? rule).bind fun s => s.rest.get? key) ∧
    ∀ text, Config.parse? text = some plan.config →
      ∀ rule, (plan.config.layer rule).Ordered := by
  refine ⟨fun a b c => Options.layeredOver_assoc a.ordered b.ordered c.ordered,
    fun o => ⟨o.empty_layeredOver, o.layeredOver_empty⟩, fun cut => ?_,
    Options.primary_stack layers, Options.secondary?_stack layers, ?_,
    fun rule => ⟨plan.config.isEnabled_eq_false_iff rule, plan.config.primary_layer rule,
      plan.config.secondary?_layer rule⟩,
    fun text h => Config.ordered_layer_of_parse? h⟩
  · rw [← Options.stack_append, List.take_append_drop]
  · rw [Linter.rules_build]
    exact List.map_congr_left fun r _ => Linter.layered_eq plan.config r

/-- A layer without a primary value, one with a table of no keys, and one that they cover in part. -/
def sampleLayers : List Options.Layer :=
  [⟨⟨none, some [("a", .integer 1)]⟩, by rintro _ ⟨⟩; exact List.pairwise_singleton _ _⟩,
    ⟨⟨some (.string "x"), some []⟩, by rintro _ ⟨⟩; exact List.Pairwise.nil⟩,
    ⟨⟨some (.string "y"), some [("a", .integer 2), ("b", .integer 3)]⟩, by
      rintro _ ⟨⟩
      exact .cons (by decide) (List.pairwise_singleton _ _)⟩]

/-- A file that switches one rule off and sets two keys of another, the later one first. -/
def sampleRuleFile : String :=
  "[rules]\nrule-no-single-line.enabled = false\n" ++
    "selector-pseudo-class-whitelist = \x7b z = 1, a = 'b' \x7d\n"

def sampleRegistered : Linter.Plan where
  rules := [⟨SingleLine.rule, {}⟩, ⟨PseudoClass.rule, ⟨some (.string "focus"), none⟩⟩]
  config := (Config.parse? sampleRuleFile).getD {}

theorem layering_last_set_wins_sample :
    (Options.stack sampleLayers).primary = some (.string "x") ∧
    (Options.stack sampleLayers).secondary? "a" = some (.integer 1) ∧
    (Options.stack sampleLayers).secondary? "b" = some (.integer 3) ∧
    (Options.stack sampleLayers).secondary? "c" = none ∧
    Config.parse? sampleRuleFile = some sampleRegistered.config ∧
    ((sampleRegistered.build "/").rules.map fun r => r.rule.name) =
      ["selector-pseudo-class-whitelist"] ∧
    (sampleRegistered.config.layer "selector-pseudo-class-whitelist").Ordered := by
  obtain ⟨-, -, -, hprimary, hsecondary, hbuild, -, hread⟩ :=
    layering_last_set_wins sampleLayers sampleRegistered "/"
  have hsome : (Config.parse? sampleRuleFile).isSome = true := by decide +kernel
  have hparse : Config.parse? sampleRuleFile = some sampleRegistered.config := by
    obtain ⟨config, hconfig⟩ := Option.isSome_iff_exists.1 hsome
    rw [sampleRegistered, hconfig]
    rfl
  have hrules : ((sampleRegistered.rules.filter fun r =>
      sampleRegistered.config.isEnabled r.rule.name).map fun r => r.rule.name) =
      ["selector-pseudo-class-whitelist"] := by
    decide +kernel
  refine ⟨hprimary, hsecondary "a", hsecondary "b", hsecondary "c", hparse, ?_,
    hread _ hparse _⟩
  rw [hbuild, List.map_map]
  exact hrules

end SheetPolicy

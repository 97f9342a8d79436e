import Mathlib
import SheetPolicy.Proofs.Diagnostic
import SheetPolicy.Proofs.Division
import SheetPolicy.Proofs.OptionGate

/-!
The order of reports. A walk meets the text of a node before it meets anything that starts after that
text (`Node.itemsOf_apart`), a rule finds something within the text of one node from left to right,
and so it reports in the order of the source and no place twice (`offsets_increasing`).
-/

namespace SheetPolicy

/-! ## Texts end before what follows them -/

/-- The block of a node is tiled by its nodes, and starts after the text of the node. -/
def Node.TextFirst (source : String) (node : Node) : Prop :=
  ∃ low high, (∀ e, node.excerpt? = some e → e.stop ≤ low) ∧ high ≤ node.span.stop ∧
    Tiles source low high (node.body?.getD [])

section Reading

variable {source : String}

theorem Node.Placed.textFirst_leaf {node : Node} (h : node.Placed source)
    (hleaf : node.body? = none) : node.TextFirst source := by
  refine ⟨node.span.stop, node.span.stop, fun e he => (h.excerpt e he).stop_le, le_rfl, ?_⟩
  rw [hleaf]
  exact tiles_nil _

theorem reads_textFirst {before cs after : List Located} {nodes : List Node}
    (hsource : Located.ofString source = before ++ cs)
    (h : Event.Reads source.utf8ByteSize cs nodes after) :
    ∀ node : Node, node.Occurs nodes → node.TextFirst source := by
  have hplaced := (reads_placed hsource h).2.2
  induction h generalizing before with
  | finish | close => exact fun node hn => absurd hn node.not_occurs_nil
  | @filler c rest after nodes _ _ ih =>
    have hrest : Located.ofString source = (before ++ [c]) ++ rest := by simp [hsource]
    exact ih hrest hplaced
  | @leaf c rest next after node nodes _ _ hstart _ ih =>
    obtain ⟨⟨text, gap, hsplit, _⟩, _⟩ := Event.ofStart_leaf hsource hstart
    have hnext : Located.ofString source = (before ++ text ++ gap) ++ next := by
      simp [hsource, hsplit]
    intro n hn
    have hleaf := body?_of_leaf hstart
    rcases Node.occurs_cons.1 hn with rfl | hbody | hlater
    · exact (hplaced n hn).textFirst_leaf hleaf
    · rw [hleaf] at hbody
      exact absurd hbody n.not_occurs_nil
    · exact ih hnext (fun m hm => hplaced m (Node.occurs_cons.2 (.inr (.inr hm)))) n hlater
  | @block c close rest inner outer after start brace head body nodes _ _ hstart hbody _ _ ihbody ih =>
    obtain ⟨⟨text, b, hsplit, _, rfl⟩, _, hexcerpt⟩ := Event.ofStart_opens hsource hstart
    have hopen : Located.ofString source = (before ++ text) ++ b :: inner := by
      simp [hsource, hsplit]
    have hinner : Located.ofString source = (before ++ text ++ [b]) ++ inner := by simp [hopen]
    obtain ⟨⟨taken, rfl⟩, htiles, _⟩ := reads_placed hinner hbody
    have houter : Located.ofString source =
        (before ++ text ++ b :: taken ++ [close]) ++ outer := by
      simp [hopen]
    have hstop := (Event.runs_of_source hopen).2.startOf_eq
    intro n hn
    rcases Node.occurs_cons.1 hn with rfl | hbody | hlater
    · refine ⟨b.stop, close.offset, ?_, ?_, ?_⟩
      · intro e he
        obtain rfl : head.excerpt = e := by simpa using he
        exact hexcerpt.stop_le.trans b.offset_lt_stop.le
      · simpa using close.offset_lt_stop.le
      · rw [Head.body?_node, Option.getD_some, ← hstop]
        exact htiles
    · have hinside : n.Occurs body := by simpa using hbody
      exact ihbody hinner
        (fun m hm => hplaced m (Node.occurs_cons.2 (.inr (.inl (by simpa using hm))))) n hinside
    · exact ih houter (fun m hm => hplaced m (Node.occurs_cons.2 (.inr (.inr hm)))) n hlater

end Reading

/-! ## Walks -/

def Item.excerpt? : Item → Option Excerpt
  | .rule head => some head.selector
  | .atRule head => some head.params
  | .declaration decl => some decl.value
  | .comment _ => none

@[simp] theorem Node.excerpt?_item (node : Node) : node.item.excerpt? = node.excerpt? := by
  cases node <;> rfl

/-- What a walk meets later starts after the text of what it meets before. -/
theorem Node.itemsOf_apart {source : String} {low high : Nat} {nodes : List Node} (parent : Parent)
    (htiles : Tiles source low high nodes)
    (hplaced : ∀ n : Node, n.Occurs nodes → n.Placed source)
    (hfirst : ∀ n : Node, n.Occurs nodes → n.TextFirst source) :
    (Node.itemsOf parent nodes).Pairwise
        (fun x y => ∀ e, x.2.excerpt? = some e → e.stop ≤ y.2.span.start) ∧
      ∀ x ∈ Node.itemsOf parent nodes, ∀ e, x.2.excerpt? = some e → e.stop ≤ high := by
  induction nodes using Node.forest_induction generalizing parent low high with
  | nil => simp [Node.itemsOf]
  | cons node nodes ihbody ih =>
    have hnode := hplaced node (Node.occurs_cons.2 (.inl rfl))
    have hbodyPlaced := fun n hn => hplaced n (Node.occurs_cons.2 (.inr (.inl hn)))
    have hlaterPlaced := fun n hn => hplaced n (Node.occurs_cons.2 (.inr (.inr hn)))
    obtain ⟨inner, hitems⟩ := node.items_eq parent
    obtain ⟨bodyLow, bodyHigh, htext, hhigh, hbody⟩ := hfirst node (Node.occurs_cons.2 (.inl rfl))
    have hlater := htiles.tail hnode.nonempty
    have hwithin := (htiles.within node List.mem_cons_self).2
    obtain ⟨hbodyApart, hbodyEnd⟩ := ihbody inner hbody hbodyPlaced
      fun n hn => hfirst n (Node.occurs_cons.2 (.inr (.inl hn)))
    obtain ⟨hlaterApart, hlaterEnd⟩ := ih parent hlater hlaterPlaced
      fun n hn => hfirst n (Node.occurs_cons.2 (.inr (.inr hn)))
    have hbodyStart := (Node.itemsOf_increasing inner hbody hbodyPlaced).2
    have hlaterStart := (Node.itemsOf_increasing parent hlater hlaterPlaced).2
    rw [Node.itemsOf, hitems, List.cons_append]
    constructor
    · refine List.pairwise_cons.2 ⟨fun y hy e he => ?_, List.pairwise_append.2
        ⟨hbodyApart, hlaterApart, fun x hx y hy e he => ?_⟩⟩
      · rw [Node.excerpt?_item] at he
        rcases List.mem_append.1 hy with hy | hy
        · exact (htext e he).trans (hbodyStart y hy).1
        · exact (hnode.excerpt e he).stop_le.trans (hlaterStart y hy).1
      · exact (hbodyEnd x hx e he).trans (hhigh.trans (hlaterStart y hy).1)
    · intro x hx e he
      rcases List.mem_cons.1 hx with rfl | hx
      · rw [Node.excerpt?_item] at he
        exact (hnode.excerpt e he).stop_le.trans hwithin
      · rcases List.mem_append.1 hx with hx | hx
        · exact (hbodyEnd x hx e he).trans (hhigh.trans hwithin)
        · exact hlaterEnd x hx e he

section Walks

variable {source : String} {sheet : Sheet} (h : Sheet.parse source = .ok sheet)
include h

/-- A walk that picks the items of one kind. -/
theorem pairwise_of_pick {β : Type} {pick : Parent × Item → Option β} {kind : β → Item}
    (hpick : ∀ x b, pick x = some b → x.2 = kind b) :
    (sheet.items.filterMap pick).Pairwise
      fun a b => ∀ e, (kind a).excerpt? = some e → e.stop ≤ (kind b).span.start := by
  obtain ⟨htiles, hplaced⟩ := parse_placed h
  have hsource : Located.ofString source = [] ++ Located.ofString source := rfl
  have hfirst := reads_textFirst hsource (Event.parse_reads h).2
  rw [List.pairwise_filterMap]
  refine (Node.itemsOf_apart .root htiles hplaced hfirst).1.imp ?_
  intro x y hapart b hb b' hb'
  rwa [← hpick x b hb, ← hpick y b' hb']

theorem declarations_apart :
    sheet.declarations.Pairwise fun x y => x.1.value.stop ≤ y.1.span.start := by
  refine (@pairwise_of_pick _ _ h _ _ (fun x => Item.declaration x.1) ?_).imp
    fun hapart => hapart _ rfl
  rintro ⟨p, item⟩ ⟨decl, parent⟩ hb
  cases item <;> simp_all

theorem rules_apart : sheet.rules.Pairwise fun x y => x.selector.stop ≤ y.span.start := by
  refine (@pairwise_of_pick _ _ h _ _ Item.rule ?_).imp fun hapart => hapart _ rfl
  rintro ⟨p, item⟩ b hb
  cases item <;> simp_all

theorem atRules_apart : sheet.atRules.Pairwise fun x y => x.params.stop ≤ y.span.start := by
  refine (@pairwise_of_pick _ _ h _ _ Item.atRule ?_).imp fun hapart => hapart _ rfl
  rintro ⟨p, item⟩ b hb
  cases item <;> simp_all

end Walks

/-! ## Places of findings -/

/-- The offset that a finding reports. -/
def Finding.place : Finding → Nat
  | .policy offset _ _ _ _ => offset
  | .invalidOption _ _ => 0

theorem Finding.offset_violation? {file : SheetFile} {speaker : Speaker} {severity : Severity}
    {finding : Finding} {v : Violation} (h : finding.violation? file speaker severity = some v) :
    v.location.offset = finding.place := by
  have hlocation := (Finding.violation?_eq_some h).2
  cases finding with
  | invalidOption key message => exact congrArg Location.offset hlocation.2
  | policy offset node key message mild => exact congrArg Location.offset hlocation.2.1

/-- An excerpt lies before its own end. -/
theorem Excerpt.IsFrom.before_stop {source : String} {low high : Nat} {e : Excerpt}
    (h : e.IsFrom source low high) : e.IsFrom source low e.stop :=
  { h with stop_le := le_rfl }

theorem Excerpt.IsFrom.sourceOffset_lt {source : String} {low high : Nat} {e : Excerpt}
    (h : e.IsFrom source low high) {i j : Nat} (hij : i < j) (hj : j ≤ e.text.utf8ByteSize) :
    e.sourceOffset i < e.sourceOffset j := by
  rw [Excerpt.utf8ByteSize_text] at hj
  exact Located.offsetAt_lt_offsetAt h.stretch.pairwise h.le_stop hij hj

/-- Findings node by node are in order if those of each node lie within its text, which ends before
the next node starts. -/
theorem pairwise_place_flatMap {β : Type} {visited : List β} {start stop : β → Nat}
    {find : β → List Finding} (hvisited : visited.Pairwise fun a b => stop a ≤ start b)
    (hfind : ∀ a ∈ visited, (find a).Pairwise (fun x y => x.place < y.place) ∧
      ∀ x ∈ find a, start a ≤ x.place ∧ x.place < stop a) :
    (visited.flatMap find).Pairwise fun x y => x.place < y.place := by
  refine List.pairwise_flatMap.2 ⟨fun a ha => (hfind a ha).1, ?_⟩
  refine hvisited.imp_of_mem fun {a b} ha hb hstop x hx y hy => ?_
  calc x.place < stop a := ((hfind a ha).2 x hx).2
    _ ≤ start b := hstop
    _ ≤ y.place := ((hfind b hb).2 y hy).1

/-! ### Font weights -/

/-- The value of a declaration stands after its first character. -/
theorem Declaration.value_isFrom {source : String} {sheet : Sheet}
    (h : Sheet.parse source = .ok sheet) {decl : Declaration}
    (hdecl : (Node.declaration decl).Occurs sheet.nodes) :
    ∃ low, decl.span.start < low ∧ decl.value.IsFrom source low decl.span.stop := by
  obtain ⟨taken, stop, before, colon, after, gap, prop, value, front, hfront, hstart, _, hdivides,
    rfl⟩ := Declaration.exists_statement h hdecl
  have hsource : Located.ofString source =
      (front ++ before ++ [colon]) ++ (after ++ (gap ++ stop)) := by
    simp [hfront, hdivides.taken_eq]
  have hsuffix : after ++ (gap ++ stop) <:+ Located.ofString source := ⟨_, hsource.symm⟩
  have hruns := (hsource ▸ Located.runs_ofString source).of_append.2
  have hlow := hruns.startOf_eq
  have hcut : Located.IsCut (Located.ofString source) source.utf8ByteSize
      (Located.startOf source.utf8ByteSize (gap ++ stop)) :=
    Located.isCut_startOf fun c hc => hsuffix.subset (List.mem_append_right _ hc)
  refine ⟨_, ?_, Excerpt.splitImportant_isFrom
    (Excerpt.cut_isFrom hsuffix hcut (startOf_le_startOf hsource) hdivides.value_cut)⟩
  rw [hstart, hlow]
  have := Located.size_pos (List.cons_ne_nil colon [])
  simp only [Located.size_append]
  omega

theorem FontWeight.place_finding? {source : String} {sheet : Sheet}
    (h : Sheet.parse source = .ok sheet) {keywords : Keywords} {expected : Spelling}
    {ignored : List WordList.Entry} {x : Declaration × Parent} (hx : x ∈ sheet.declarations)
    {finding : Finding} (hfinding : finding? keywords expected ignored x = some finding) :
    x.1.span.start < finding.place ∧ finding.place ≤ x.1.value.stop := by
  obtain ⟨decl, parent⟩ := x
  obtain ⟨low, hlow, hfrom⟩ := Declaration.value_isFrom h (occurs_declaration h hx)
  obtain ⟨weight, hweight, hfinding⟩ := Option.bind_eq_some_iff.1 hfinding
  split at hfinding
  · cases hfinding
  · obtain ⟨fault, _, hfinding⟩ := Option.bind_eq_some_iff.1 hfinding
    obtain rfl := Option.some.inj hfinding
    obtain ⟨_, before, run, after, hvalue, _, hoffset⟩ := weightOf?_place hweight
    obtain ⟨_, hge, hle⟩ := hfrom.before_stop.place hvalue
    simp only [Finding.place, hoffset]
    exact ⟨hlow.trans_le hge, hle⟩

theorem FontWeight.pairwise_place_inspect {source : String} {sheet : Sheet}
    (h : Sheet.parse source = .ok sheet) (keywords : Keywords) (options : Options) :
    (inspect keywords options sheet).Pairwise fun x y => x.place < y.place := by
  unfold inspect
  split
  · refine List.pairwise_filterMap.2 ((declarations_apart h).imp_of_mem ?_)
    intro x y hx hy hstop a ha b hb
    calc a.place ≤ x.1.value.stop := (place_finding? h hx ha).2
      _ ≤ y.1.span.start := hstop
      _ < b.place := (place_finding? h hy hb).1
  · exact .nil

/-! ### Pseudo-classes -/

namespace PseudoClass

variable {source : String} {low high : Nat} {allowed : List WordList.Entry} {head : StyleRule}

theorem place_findings (hfrom : head.selector.IsFrom source low high) :
    (findings allowed head).Pairwise (fun x y => x.place < y.place) ∧
      ∀ x ∈ findings allowed head, low ≤ x.place ∧ x.place < head.selector.stop := by
  simp only [findings]
  split
  · exact ⟨.nil, by simp⟩
  · rename_i hcolon
    split
    · refine ⟨List.pairwise_singleton _ _, fun x hx => ?_⟩
      obtain rfl := List.mem_singleton.1 hx
      -- The selector has a colon, so it has a first character.
      cases hchars : head.selector.chars with
      | nil =>
        simp [Excerpt.text, hchars, Located.text, Text.contains, Text.splitAtFirst?] at hcolon
      | cons first rest =>
        obtain ⟨hplace, hlt⟩ := hfrom.before_stop.first_place hchars
        have hmem : first ∈ head.selector.chars := by simp [hchars]
        simp only [Finding.place, hplace]
        exact ⟨hfrom.low_le first hmem, hlt⟩
    · rename_i selectors hparse
      have hplace : ∀ pseudo ∈ Selector.pseudosOfList selectors,
          pseudo.index ≤ head.selector.text.utf8ByteSize ∧
            low ≤ head.selector.sourceOffset pseudo.index ∧
            head.selector.sourceOffset pseudo.index < head.selector.stop := by
        intro pseudo hpseudo
        obtain ⟨before, c, piece, after, htext, _, _, hindex⟩ :=
          Selector.parse_piece hparse hpseudo
        have hsize := (Located.runs_ofString head.selector.text).offset_mem (c := c)
          (by simp [htext])
        have hstop := c.offset_lt_stop
        refine ⟨by omega, ?_⟩
        rw [hindex, Located.offset_eq_size htext]
        obtain ⟨d, _, _, hd, hlt⟩ := hfrom.before_stop.char_place htext
        exact ⟨(hfrom.place htext).2.1, hd ▸ hlt⟩
      constructor
      · have hincreasing := Selector.parse_increasing hparse
        rw [List.pairwise_map] at hincreasing
        refine List.pairwise_filterMap.2 (hincreasing.imp_of_mem ?_)
        intro a b _ hb hindex x hx y hy
        obtain ⟨_, _, rfl⟩ := Option.map_eq_some_iff.1 hx
        obtain ⟨_, _, rfl⟩ := Option.map_eq_some_iff.1 hy
        exact hfrom.sourceOffset_lt hindex (hplace b hb).1
      · intro x hx
        obtain ⟨pseudo, hpseudo, hx⟩ := List.mem_filterMap.1 hx
        obtain ⟨_, _, rfl⟩ := Option.map_eq_some_iff.1 hx
        exact (hplace pseudo hpseudo).2

theorem pairwise_place_inspect {sheet : Sheet} (h : Sheet.parse source = .ok sheet)
    (options : Options) : (inspect options sheet).Pairwise fun x y => x.place < y.place := by
  unfold inspect
  split
  · refine pairwise_place_flatMap (rules_apart h) fun head hhead => ?_
    obtain ⟨body, hoccurs⟩ := occurs_rule h hhead
    exact place_findings (((parse_placed h).2 _ hoccurs).excerpt head.selector rfl)
  · exact .nil

end PseudoClass

/-! ### Range operators -/

namespace RangeOperator

theorem pairwise_stopOf (params : String) :
    (operators params).Pairwise fun a b => stopOf a < stopOf b := by
  have hapart := (leftmost_iff.2 rfl).apart (Located.runs_ofString params)
  refine hapart.imp_of_mem fun _ hb hlt => hlt.trans_le ?_
  obtain ⟨hne, front, back, hparams⟩ := mem_operators hb
  have hruns := hparams ▸ Located.runs_ofString params
  rw [startOf_eq hne hruns, stopOf_eq hne hruns, Located.size_append]
  omega

variable {source : String} {low high : Nat} {expected : SpaceAfter} {head : AtRule}

theorem place_findings (hfrom : head.params.IsFrom source low high) :
    (findings expected head).Pairwise (fun x y => x.place < y.place) ∧
      ∀ x ∈ findings expected head, low ≤ x.place ∧ x.place < head.params.stop := by
  unfold findings
  split
  · have hplace : ∀ operator ∈ operators head.params.text,
        stopOf operator ≤ head.params.text.utf8ByteSize ∧
          (SpaceAfter.fault? head.params.text (stopOf operator) expected ≠ none →
            low ≤ head.params.sourceOffset (stopOf operator) ∧
              head.params.sourceOffset (stopOf operator) < head.params.stop) := by
      intro operator hoperator
      obtain ⟨hne, front, back, htext⟩ := mem_operators hoperator
      have hstop := stopOf_eq_size hne htext
      have hsize := (Located.runs_ofString head.params.text).stop_eq
      rw [← List.append_assoc] at htext
      rw [htext, Located.size_append, ← hstop, Nat.zero_add] at hsize
      refine ⟨by omega, fun hfault => ?_⟩
      cases back with
      | nil =>
        -- Nothing follows an operator at the end, so the rule is silent on it.
        rw [Located.size_nil, Nat.add_zero] at hsize
        rw [← hsize, fault?_size] at hfault
        exact absurd rfl hfault
      | cons c back =>
        rw [hstop]
        obtain ⟨d, _, _, hd, hlt⟩ := hfrom.before_stop.char_place htext
        exact ⟨(hfrom.place htext).2.1, hd ▸ hlt⟩
    constructor
    · refine List.pairwise_filterMap.2 ((pairwise_stopOf head.params.text).imp_of_mem ?_)
      intro a b _ hb hstop x hx y hy
      obtain ⟨_, _, rfl⟩ := Option.map_eq_some_iff.1 hx
      obtain ⟨_, _, rfl⟩ := Option.map_eq_some_iff.1 hy
      exact hfrom.sourceOffset_lt hstop (hplace b hb).1
    · intro x hx
      obtain ⟨operator, hoperator, hx⟩ := List.mem_filterMap.1 hx
      obtain ⟨fault, hfault, rfl⟩ := Option.map_eq_some_iff.1 hx
      exact (hplace operator hoperator).2 (by simp [hfault])
  · exact ⟨.nil, by simp⟩

theorem pairwise_place_inspect {sheet : Sheet} (h : Sheet.parse source = .ok sheet)
    (options : Options) : (inspect options sheet).Pairwise fun x y => x.place < y.place := by
  unfold inspect
  split
  · refine pairwise_place_flatMap (atRules_apart h) fun head hhead => ?_
    obtain ⟨node, hoccurs, hitem⟩ := ((visitsOnce_atRules h).complete head).1 hhead
    have hexcerpt : node.excerpt? = some head.params := by
      rw [← Node.excerpt?_item, hitem]
      rfl
    have hspan : node.span = head.span := by
      rw [← Node.span_item, hitem]
      rfl
    exact hspan ▸ place_findings (((parse_placed h).2 node hoccurs).excerpt head.params hexcerpt)
  · exact .nil

end RangeOperator

/-! ## Main result -/

theorem Rule.pairwise_place_inspect {source : String} {sheet : Sheet}
    (h : Sheet.parse source = .ok sheet) {keywords : Keywords} {rule : Rule}
    (hrule : rule ∈ Rule.builtIn keywords) (options : Options) :
    (rule.inspect options sheet).Pairwise fun x y => x.place < y.place := by
  simp only [Rule.builtIn, List.mem_cons, List.not_mem_nil, or_false] at hrule
  rcases hrule with rfl | rfl | rfl | rfl
  · exact FontWeight.pairwise_place_inspect h keywords options
  · exact PseudoClass.pairwise_place_inspect h options
  · exact RangeOperator.pairwise_place_inspect h options
  · exact List.pairwise_map.2 ((visitsOnce_rules h).increasing.filter _)

/-- The policy violations of one rule are in the order of the source, and no two of them are at one
place. -/
theorem offsets_increasing {source : String} {sheet : Sheet} (h : Sheet.parse source = .ok sheet)
    {keywords : Keywords} {rule : Rule} (hrule : rule ∈ Rule.builtIn keywords) (path : String)
    (severity : Severity) (options : Options) :
    (((rule.violations severity options (SheetFile.ofSheet path sheet) sheet).filter
      fun v => v.kind = .policy).map fun v => v.location.offset).Pairwise (· < ·) := by
  by_cases hproblems : rule.spec.problems options = []
  · have hcheck : rule.check options sheet = rule.inspect options sheet := by
      rw [Rule.check, hproblems]
    rw [List.pairwise_map, Rule.violations, hcheck]
    refine .filter _ (List.pairwise_filterMap.2 ?_)
    refine (Rule.pairwise_place_inspect h hrule options).imp ?_
    intro x y hlt v hv w hw
    rwa [Finding.offset_violation? hv, Finding.offset_violation? hw]
  · -- What is said of the options is no policy violation.
    have hnone : (rule.violations severity options (SheetFile.ofSheet path sheet) sheet).filter
        (fun v => v.kind = .policy) = [] := by
      rw [Rule.violations_of_problems hproblems, List.filter_eq_nil_iff]
      intro v hv
      obtain ⟨p, _, rfl⟩ := List.mem_map.1 hv
      simp [Rule.complaint]
    rw [hnone]
    exact .nil

/-- A rule within a rule, two pseudo-classes in one selector and a weight without a text. -/
def sampleNested : String :=
  "@media (a>1)and (b<= 2)\x7b:x:y\x7bfont-weight:;:z\x7b\x7dfont-weight:b\x7d\x7d"

/-- The offsets of what a rule with a primary option reports. -/
def Rule.policyOffsets (rule : Rule) (primary : Option String) (sheet : Sheet) : List Nat :=
  ((rule.violations .error ⟨primary.map .string, none⟩ (SheetFile.ofSheet "a.css" sheet)
    sheet).filter fun v => v.kind = .policy).map fun v => v.location.offset

theorem offsets_increasing_sample : ∃ sheet, Sheet.parse sampleNested = .ok sheet ∧
    (FontWeight.rule {}).policyOffsets "numeric" sheet = [41, 58] ∧
    PseudoClass.rule.policyOffsets "focus" sheet = [24, 26, 42] ∧
    RangeOperator.rule.policyOffsets "never" sheet = [20] ∧
    SingleLine.rule.policyOffsets none sheet = [24, 42] ∧
    ∀ rule ∈ Rule.builtIn {}, ∀ primary, (rule.policyOffsets primary sheet).Pairwise (· < ·) := by
  have hoffsets : (Sheet.parse sampleNested).toOption.any (fun sheet =>
      (FontWeight.rule {}).policyOffsets "numeric" sheet = [41, 58] ∧
      PseudoClass.rule.policyOffsets "focus" sheet = [24, 26, 42] ∧
      RangeOperator.rule.policyOffsets "never" sheet = [20] ∧
      SingleLine.rule.policyOffsets none sheet = [24, 42]) = true := by
    decide +kernel
  cases h : Sheet.parse sampleNested with
  | error e => simp [h, Except.toOption] at hoffsets
  | ok sheet =>
    simp only [h, Except.toOption, Option.any_some, decide_eq_true_eq] at hoffsets
    obtain ⟨hweight, hpseudo, hoperator, hline⟩ := hoffsets
    exact ⟨sheet, rfl, hweight, hpseudo, hoperator, hline, fun rule hrule primary =>
      offsets_increasing h hrule "a.css" .error ⟨primary.map .string, none⟩⟩

end SheetPolicy

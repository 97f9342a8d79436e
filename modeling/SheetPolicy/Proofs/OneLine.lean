import Mathlib
import SheetPolicy.Proofs.Transparency

/-!
Style rules on one line. What stands in a node lies within its span (`Node.Occurs.within`), so a rule
on one line has only rules on one line in it, at any depth and through at-rules. Each style rule starts
at a place of its own, and the rule that forbids them is told what it reports there by the characters
from the first one through the closing brace alone. Main statement: `reports_closed_under_nesting`.
-/

namespace SheetPolicy

/-! ## Nodes within nodes -/

theorem Node.Occurs.nested {node outer : Node} {nodes body : List Node} (houter : outer.Occurs nodes)
    (hbody : outer.body? = some body) (h : node.Occurs body) : node.Occurs nodes := by
  induction houter with
  | here hmem => exact .inside hmem hbody h
  | inside hmem hinner _ ih => exact .inside hmem hinner ih

theorem Node.Occurs.of_mem_body {node outer : Node} {nodes : List Node} (houter : outer ∈ nodes)
    (h : node ∈ outer.body?.getD []) : node.Occurs nodes := by
  cases hbody : outer.body? with
  | none => simp [hbody] at h
  | some body => exact .inside houter hbody (.here (by simpa [hbody] using h))

theorem Node.exists_body {node : Node} {head : StyleRule} (h : node.item = .rule head) :
    ∃ body, node = .rule head body := by
  cases node with
  | rule other body =>
    obtain rfl : other = head := by simpa [Node.item] using h
    exact ⟨body, rfl⟩
  | _ => simp [Node.item] at h

theorem Node.Occurs.within {source : String} {low high : Nat} {node : Node} {nodes : List Node}
    (h : node.Occurs nodes) (htiles : Tiles source low high nodes)
    (hplaced : ∀ n : Node, n.Occurs nodes → n.Placed source) :
    low ≤ node.span.start ∧ node.span.stop ≤ high := by
  induction h generalizing low high with
  | here hmem => exact htiles.within node hmem
  | @inside nodes body outer hmem hbody _ ih =>
    have houter := htiles.within outer hmem
    obtain ⟨innerLow, innerHigh, hlow, hhigh, hinner⟩ := (hplaced outer (.here hmem)).tiles_body
    rw [hbody] at hinner
    have hwithin := ih hinner fun n hn => hplaced n (.inside hmem hbody hn)
    omega

/-- The first character of a style rule and the brace that closes its block. -/
structure StyleRule.Bounds (source : String) (head : StyleRule) (body : List Node)
    (first closing : Located) : Prop where
  first_mem : first ∈ Located.ofString source
  first_offset : first.offset = head.span.start
  closing_mem : closing ∈ Located.ofString source
  closing_char : closing.char = '}'
  closing_stop : closing.stop = head.span.stop
  block : ∃ opening ∈ Located.ofString source, opening.char = '{' ∧
    first.offset ≤ opening.offset ∧ Tiles source opening.stop closing.offset body

/-- No character of the source from `first` through `last` ends a line. -/
def Located.OnOneLine (source : String) (first last : Located) : Prop :=
  ∀ c ∈ Located.ofString source, first.offset ≤ c.offset → c.offset ≤ last.offset →
    c.char ≠ '\n' ∧ c.char ≠ '\r'

section Rules

variable {source : String} {sheet : Sheet} {head : StyleRule} {body : List Node}

theorem StyleRule.exists_bounds (h : Sheet.parse source = .ok sheet)
    (hoccurs : (Node.rule head body).Occurs sheet.nodes) :
    ∃ first closing, head.Bounds source body first closing := by
  have hplaced := (parse_placed h).2 _ hoccurs
  obtain ⟨opening, closing, hopening, hbrace, hclosing, hchar, hstart, hstop, htiles⟩ :=
    hplaced.block body rfl
  have hbounds := hplaced.nonempty.trans_le hplaced.stop_le
  rcases hplaced.start_cut with hsize | ⟨first, hfirst, hoffset⟩
  · omega
  · exact ⟨first, closing, hfirst, hoffset, hclosing, hchar, hstop, opening, hopening, hbrace,
      hoffset.trans_le hstart, htiles⟩

namespace SingleLine

/-- A rule is on one line if no line ends within its span. -/
theorem isSingleLine_iff (h : Sheet.parse source = .ok sheet)
    (hoccurs : (Node.rule head body).Occurs sheet.nodes) :
    isSingleLine sheet head = true ↔
      ∀ c ∈ Located.ofString source, head.span.start ≤ c.offset → c.offset < head.span.stop →
        Text.isBreak c.char = false := by
  have hplaced := (parse_placed h).2 _ hoccurs
  obtain ⟨rfl, _⟩ := Event.parse_reads h
  rw [isSingleLine_eq hplaced.nonempty.le hplaced.start_cut hplaced.stop_cut, Text.breaks,
    List.all_filter, List.all_eq_true]
  refine forall₂_congr fun c _ => ?_
  cases Text.isBreak c.char with
  | false => simp
  | true =>
    simp
    omega

theorem isSingleLine_iff_onOneLine (h : Sheet.parse source = .ok sheet)
    (hoccurs : (Node.rule head body).Occurs sheet.nodes) {first closing : Located}
    (hbounds : head.Bounds source body first closing) :
    isSingleLine sheet head = true ↔ Located.OnOneLine source first closing := by
  have hstop : head.span.stop = closing.offset + 1 := by
    rw [← hbounds.closing_stop, Located.stop, hbounds.closing_char]
    rfl
  rw [isSingleLine_iff h hoccurs, Located.OnOneLine, hbounds.first_offset, hstop]
  simp only [Nat.lt_succ_iff, Text.isBreak, Bool.or_eq_false_iff, beq_eq_false_iff_ne]

/-- A rule within a rule on one line is on one line. -/
theorem isSingleLine_nested (h : Sheet.parse source = .ok sheet)
    (hoccurs : (Node.rule head body).Occurs sheet.nodes) {inner : StyleRule}
    {innerBody : List Node} (hinner : (Node.rule inner innerBody).Occurs body)
    (hline : isSingleLine sheet head = true) : isSingleLine sheet inner = true := by
  have hplaced := (parse_placed h).2
  have hnested : (Node.rule inner innerBody).Occurs sheet.nodes := hoccurs.nested rfl hinner
  obtain ⟨low, high, hlow, hhigh, htiles⟩ := (hplaced _ hoccurs).tiles_body
  have hwithin := hinner.within htiles fun n hn => hplaced n (hoccurs.nested rfl hn)
  rw [isSingleLine_iff h hoccurs] at hline
  rw [isSingleLine_iff h hnested]
  intro c hc hstart hstop
  simp only [Node.span] at hlow hhigh hwithin
  exact hline c hc (by omega) (by omega)

/-! ## Reports -/

/-- The report of a style rule on one line. -/
def report (severity : Severity) (path source : String) (head : StyleRule) : Violation :=
  ⟨rule.code, rule.name, severity, .policy, Location.ofOffset path source head.span.start,
    some .rule, "rejected", "Unexpected single-line rule", none⟩

/-- Without directives every style rule on one line is reported, and nothing else. -/
theorem violations_eq (hfree : ∀ k ∈ sheet.comments, Directive.parse? k.text = none)
    {options : Options} (hvalid : rule.spec.problems options = []) (severity : Severity)
    (path : String) :
    rule.violations severity options (SheetFile.ofSheet path sheet) sheet =
      (sheet.rules.filter (isSingleLine sheet)).map (report severity path sheet.source) := by
  have hcollect : Directive.collect sheet = [] := by
    rw [Directive.collect, List.filterMap_eq_nil_iff]
    intro k hk
    rw [hfree k hk, Option.map_none]
  have hcheck : rule.check options sheet = inspect options sheet := by
    rw [Rule.check, hvalid]
    rfl
  rw [Rule.violations, hcheck, inspect, List.filterMap_map, ← List.filterMap_eq_map]
  refine List.filterMap_congr fun head _ => ?_
  simp [Finding.violation?, SheetFile.ofSheet, hcollect, Directive.find?, report, Rule.speaker]

/-- How often the start of a style rule is reported. -/
def timesReported (severity : Severity) (options : Options) (path : String) (sheet : Sheet)
    (head : StyleRule) : Nat :=
  (rule.violations severity options (SheetFile.ofSheet path sheet) sheet).countP
    fun v => v.location.offset = head.span.start

/-- Of things at places of their own, a picked one is met once where it stands, and another never. -/
theorem countP_filter_eq {α : Type} {place : α → Nat} {xs : List α}
    (h : xs.Pairwise fun a b => place a < place b) (pick : α → Bool) {a : α} (ha : a ∈ xs) :
    (xs.filter pick).countP (fun x => place x = place a) = if pick a then 1 else 0 := by
  obtain ⟨before, after, rfl⟩ := List.append_of_mem ha
  obtain ⟨_, htail, hfront⟩ := List.pairwise_append.1 h
  have hlater := (List.pairwise_cons.1 htail).1
  have hnone : ∀ ys : List α, (∀ y ∈ ys, place y ≠ place a) →
      (ys.filter pick).countP (fun x => place x = place a) = 0 := by
    intro ys hys
    rw [List.countP_eq_zero]
    intro y hy
    simpa using hys y (List.mem_of_mem_filter hy)
  rw [List.filter_append, List.countP_append,
    hnone before fun y hy => (hfront y hy a List.mem_cons_self).ne, Nat.zero_add, List.filter_cons]
  split
  · simp [hnone after fun y hy => (hlater y hy).ne']
  · exact hnone after fun y hy => (hlater y hy).ne'

theorem timesReported_eq (h : Sheet.parse source = .ok sheet)
    (hfree : ∀ k ∈ sheet.comments, Directive.parse? k.text = none) {options : Options}
    (hvalid : rule.spec.problems options = []) (severity : Severity) (path : String)
    (hoccurs : (Node.rule head body).Occurs sheet.nodes) :
    timesReported severity options path sheet head = if isSingleLine sheet head then 1 else 0 := by
  have hvisits := visitsOnce_rules h
  have hmem : head ∈ sheet.rules := (hvisits.complete head).2 ⟨_, hoccurs, rfl⟩
  rw [timesReported, violations_eq hfree hvalid, List.countP_map]
  exact countP_filter_eq hvisits.increasing (isSingleLine sheet) hmem

/-! ## Main result -/

/-- In a source without directives, under valid options, exactly the style rules are reported that have
no line feed or carriage return from their first character through their closing brace, each of them
once; and where a rule is reported, so is every style rule in it, at any depth. -/
theorem reports_closed_under_nesting (h : Sheet.parse source = .ok sheet)
    (hfree : ∀ k ∈ sheet.comments, Directive.parse? k.text = none) {options : Options}
    (hvalid : rule.spec.problems options = []) (severity : Severity) (path : String) :
    (∀ v ∈ rule.violations severity options (SheetFile.ofSheet path sheet) sheet,
      ∃ head body, (Node.rule head body).Occurs sheet.nodes ∧
        v = report severity path source head) ∧
    (∀ head body, (Node.rule head body).Occurs sheet.nodes →
      ∃ first closing, head.Bounds source body first closing ∧
        (Located.OnOneLine source first closing →
          timesReported severity options path sheet head = 1) ∧
        (¬Located.OnOneLine source first closing →
          timesReported severity options path sheet head = 0)) ∧
    ∀ outer outerBody inner innerBody, (Node.rule outer outerBody).Occurs sheet.nodes →
      (Node.rule inner innerBody).Occurs outerBody →
      timesReported severity options path sheet outer ≠ 0 →
      timesReported severity options path sheet inner = 1 := by
  have htimes := fun {head body} => @timesReported_eq source sheet head body h hfree _ hvalid severity path
  refine ⟨fun v hv => ?_, fun head body hoccurs => ?_, ?_⟩
  · obtain ⟨hsource, _⟩ := Event.parse_reads h
    rw [violations_eq hfree hvalid, hsource] at hv
    obtain ⟨head, hhead, rfl⟩ := List.mem_map.1 hv
    obtain ⟨body, hoccurs⟩ := occurs_rule h (List.mem_of_mem_filter hhead)
    exact ⟨head, body, hoccurs, rfl⟩
  · obtain ⟨first, closing, hbounds⟩ := StyleRule.exists_bounds h hoccurs
    have hline := isSingleLine_iff_onOneLine h hoccurs hbounds
    refine ⟨first, closing, hbounds, fun hone => ?_, fun hmore => ?_⟩
    · rw [htimes hoccurs, if_pos (hline.2 hone)]
    · rw [htimes hoccurs, if_neg fun hone => hmore (hline.1 hone)]
  · intro outer outerBody inner innerBody houter hinner hreported
    have hline : isSingleLine sheet outer = true := by
      by_contra hmore
      rw [htimes houter, if_neg hmore] at hreported
      exact hreported rfl
    rw [htimes (houter.nested rfl hinner), if_pos (isSingleLine_nested h houter hinner hline)]

/-- A rule over two lines, a comment that is no directive, and a rule on one line with a rule in an
at-rule in it. -/
def sampleNested : String :=
  "a\x7b\n\x7d/*x*/@m\x7bé\x7b@n\x7bb\x7b\x7d\x7d\x7d\x7d"

def sampleOuter : StyleRule :=
  ⟨⟨12, 23⟩, ⟨[⟨12, 'é'⟩], 14⟩⟩

def sampleInner : StyleRule :=
  ⟨⟨18, 21⟩, ⟨[⟨18, 'b'⟩], 19⟩⟩

/-- The rules stand where they should, and the sheet has no directive. -/
def isSample (sheet : Sheet) : Bool :=
  (sheet.nodes.any fun m => (m.body?.getD []).any fun outer =>
    outer.item == .rule sampleOuter && (outer.body?.getD []).any fun n =>
      (n.body?.getD []).any fun inner => inner.item == .rule sampleInner) &&
  (!sheet.comments.isEmpty && sheet.comments.all fun k => (Directive.parse? k.text).isNone) &&
  sheet.rules.map (timesReported .warning {} "a.css" sheet) == [0, 1, 1] &&
  timesReported .warning {} "a.css" sheet sampleOuter == 1

theorem reports_closed_under_nesting_sample :
    ∃ sheet outerBody innerBody, Sheet.parse sampleNested = .ok sheet ∧
      (∃ k ∈ sheet.comments, Directive.parse? k.text = none) ∧
      (∀ k ∈ sheet.comments, Directive.parse? k.text = none) ∧ rule.spec.problems {} = [] ∧
      (Node.rule sampleOuter outerBody).Occurs sheet.nodes ∧
      (Node.rule sampleInner innerBody).Occurs outerBody ∧
      sheet.rules.map (timesReported .warning {} "a.css" sheet) = [0, 1, 1] ∧
      timesReported .warning {} "a.css" sheet sampleOuter = 1 ∧
      timesReported .warning {} "a.css" sheet sampleInner = 1 := by
  obtain ⟨sheet, hparse, hsample⟩ :
      ∃ sheet, Sheet.parse sampleNested = .ok sheet ∧ isSample sheet := by
    have hsample : (Sheet.parse sampleNested).toOption.any isSample = true := by decide +kernel
    cases hparse : Sheet.parse sampleNested with
    | error e => simp [hparse, Except.toOption] at hsample
    | ok sheet => exact ⟨sheet, rfl, by simpa [hparse, Except.toOption] using hsample⟩
  simp only [isSample, Bool.and_eq_true, List.any_eq_true, List.all_eq_true, beq_iff_eq,
    Option.isNone_iff_eq_none, Bool.not_eq_true', List.isEmpty_eq_false_iff] at hsample
  obtain ⟨⟨⟨⟨m, hm, outer, hmem, houter, n, hn, inner, hinner, hitem⟩, hsome, hfree⟩, htimes⟩,
    hreported⟩ := hsample
  obtain ⟨outerBody, rfl⟩ := Node.exists_body houter
  obtain ⟨innerBody, rfl⟩ := Node.exists_body hitem
  have houter := Node.Occurs.of_mem_body hm hmem
  have hinner := Node.Occurs.of_mem_body hn hinner
  have hvalid : rule.spec.problems {} = [] := List.isEmpty_iff.1 (by decide +kernel)
  obtain ⟨k, hk⟩ := List.exists_mem_of_ne_nil _ hsome
  refine ⟨sheet, outerBody, innerBody, hparse, ⟨k, hk, hfree k hk⟩, hfree, hvalid, houter, hinner,
    htimes, hreported, ?_⟩
  have hclosed := (reports_closed_under_nesting hparse hfree hvalid .warning "a.css").2.2
  exact hclosed sampleOuter outerBody sampleInner innerBody houter hinner
    (by rw [hreported]; exact Nat.one_ne_zero)

end SingleLine

end Rules

end SheetPolicy

import Mathlib
import SheetPolicy.Proofs.Diagnostic
import SheetPolicy.Proofs.Insertion
import SheetPolicy.Proofs.Outline
import SheetPolicy.Proofs.Unmarking

/-!
A comment changes no verdict. Where a comment can stand within a statement, putting one in moves the
tree on behind it and leaves it alone otherwise (`Sheet.parse_insertAt`). What a rule finds hangs on
texts and not on places, so it finds the same in the moved tree, at the moved places
(`Rule.check_insertAt`); and these are on the same lines as before, under the same directives
(`Directive.collect_insertAt`). Main statement: `comment_transparent`.
-/

namespace SheetPolicy

/-- A comment as it is written. -/
def Comment.written (body : String) : String :=
  "/*" ++ body ++ "*/"

/-- The text can be the body of a comment on one line. -/
def Comment.IsInline (body : String) : Prop :=
  ¬['*', '/'] <:+: body.toList ∧ ∀ c ∈ body.toList, Text.isBreak c = false

/-- A comment can be put into the node at `p`. -/
def Node.AdmitsAt (source : String) (p : Nat) (node : Node) : Prop :=
  Sheet.isBoundary source p = true ∧
    node.Admits source.utf8ByteSize
      ((Located.ofString source).filter fun c => node.span.start ≤ c.offset ∧ c.offset < p)
      ((Located.ofString source).filter fun c => p ≤ c.offset)

/-- The sheet with all that stands at `p` or behind moved on by a text put in there. -/
def Sheet.insertAt (sheet : Sheet) (inserted : String) (p : Nat) : Sheet :=
  ⟨Text.insertAt sheet.source inserted p,
    (Retouch.move (shift p inserted.utf8ByteSize)).nodes sheet.nodes⟩

/-! ## The tree -/

namespace Comment

theorem toList_written (body : String) :
    (written body).toList = '/' :: '*' :: (body.toList ++ ['*', '/']) := by
  simp [written]

theorem IsInline.fills {body : String} (h : IsInline body) (p : Nat) :
    Fills p (written body).utf8ByteSize (Located.place p (written body).toList) where
  isUnit _ := by
    rw [Located.map_char_place, toList_written]
    exact ⟨body.toList, by simp, h.1⟩
  runs := Located.runs_place_toList p _

theorem IsInline.not_isBreak {body : String} (h : IsInline body) :
    ∀ c ∈ (written body).toList, Text.isBreak c = false := by
  intro c hc
  simp only [toList_written, List.mem_cons, List.mem_append, List.not_mem_nil, or_false] at hc
  rcases hc with rfl | rfl | hc | rfl | rfl
  · rfl
  · rfl
  · exact h.2 c hc
  · rfl
  · rfl

end Comment

namespace Node.AdmitsAt

variable {source : String} {p : Nat} {node : Node} (h : node.AdmitsAt source p)
include h

theorem isCut : Located.IsCut (Located.ofString source) source.utf8ByteSize p :=
  Located.isBoundary_iff.1 h.1

/-- The node starts before the place. -/
theorem start_lt : node.span.start < p := by
  obtain ⟨c, hc⟩ := List.exists_mem_of_ne_nil _ h.2.ne_nil
  have hrange := (List.mem_filter.1 hc).2
  rw [decide_eq_true_eq] at hrange
  omega

/-- The characters from the start of a node on are those before the place and those behind it, and
what stands in front of the node is before the place too. -/
theorem filter_append {lead cs : List Located} (hsource : Located.ofString source = lead ++ cs)
    (hstart : Located.startOf source.utf8ByteSize cs = node.span.start) :
    (Located.ofString source).filter (fun c => c.offset < p) =
        lead ++ (Located.ofString source).filter
          (fun c => node.span.start ≤ c.offset ∧ c.offset < p) ∧
      cs = (Located.ofString source).filter
          (fun c => node.span.start ≤ c.offset ∧ c.offset < p) ++
        (Located.ofString source).filter fun c => p ≤ c.offset := by
  have hlt := h.start_lt
  have hruns := Located.runs_ofString source
  have hrising := Located.Rising.of_runs hruns
  rw [hsource] at hrising
  have hlead : ∀ c ∈ lead, c.offset < node.span.start := fun c hc => hstart ▸ hrising.lt_startOf hc
  have hcs : ∀ c ∈ cs, node.span.start ≤ c.offset :=
    fun c hc => hstart ▸ hrising.right.startOf_le hc
  have hmiddle : (lead ++ cs).filter (fun c => node.span.start ≤ c.offset ∧ c.offset < p) =
      cs.filter fun c => c.offset < p := by
    rw [List.filter_append, List.filter_eq_nil_iff.2, List.nil_append]
    · refine List.filter_congr fun c hc => ?_
      simp [hcs c hc]
    · intro c hc
      have := hlead c hc
      simp
      omega
  have hback : (lead ++ cs).filter (fun c => p ≤ c.offset) = cs.filter fun c => p ≤ c.offset := by
    rw [List.filter_append, List.filter_eq_nil_iff.2, List.nil_append]
    intro c hc
    have := hlead c hc
    simp
    omega
  rw [hsource] at hruns ⊢
  obtain ⟨_, _, hrest⟩ := Located.runs_append.1 hruns
  refine ⟨?_, by rw [hmiddle, hback, hrest.filter_append]⟩
  rw [hmiddle, List.filter_append, List.filter_eq_self.2]
  intro c hc
  simpa using (hlead c hc).trans hlt

end Node.AdmitsAt

section Parse

variable {source body : String} {sheet : Sheet} {node : Node} {p : Nat}
  (h : Sheet.parse source = .ok sheet) (hoccurs : node.Occurs sheet.nodes)
  (hadmits : node.AdmitsAt source p) (hbody : Comment.IsInline body)
include h hoccurs hadmits hbody

/-- A sheet with a comment put in has the same nodes, moved. -/
theorem Sheet.parse_insertAt :
    Sheet.parse (Text.insertAt source (Comment.written body) p) =
      .ok (sheet.insertAt (Comment.written body) p) := by
  obtain ⟨rfl, hbuilds⟩ := Event.parse_eq_ok_iff.1 h
  have hruns := Located.runs_ofString sheet.source
  obtain ⟨lead, cs, hsource, hstart, hfillable⟩ := hbuilds.fill hoccurs
  obtain ⟨hfront, hcs⟩ := hadmits.filter_append hsource hstart
  have hgap : Gap sheet.source.utf8ByteSize p (Comment.written body).utf8ByteSize
      ((Located.ofString sheet.source).filter fun c => c.offset < p)
      (Located.place p (Comment.written body).toList)
      ((Located.ofString sheet.source).filter fun c => p ≤ c.offset) :=
    { fills := hbody.fills p
      lt := fun c hc => by simpa using (List.mem_filter.1 hc).2
      startOf_back := (hadmits.isCut.runs_filter hruns).2.startOf_eq
      rising := by
        rw [hruns.filter_append]
        exact .of_runs hruns }
  rw [hfront] at hgap
  -- All in front of the node ends before the node starts, so it stays where it is.
  have hlead : Located.Carries (shift p (Comment.written body).utf8ByteSize) lead := by
    intro c hc
    rw [hsource] at hruns
    obtain ⟨middle, hlead, hrest⟩ := Located.runs_append.1 hruns
    have hlt : c.stop < p := by
      have := (hlead.offset_mem hc).2
      have := hrest.startOf_eq
      have := hadmits.start_lt
      omega
    rw [shift_of_lt _ hlt, Located.stop, Located.offset_move,
      shift_of_lt _ (c.offset_lt_stop.trans hlt)]
    rfl
  obtain ⟨_, _, hfilled⟩ := hfillable hcs hgap hlead hadmits.2
  refine Event.parse_eq_ok_iff.2 ⟨rfl, ?_⟩
  rw [Located.ofString_insertAt hadmits.isCut, Located.utf8ByteSize_insertAt hadmits.isCut, hfront]
  exact hfilled

end Parse

/-- Moved nodes have the same texts. -/
theorem Retouch.outlines_move (f : Nat → Nat) (nodes : List Node) :
    Node.outlines ((Retouch.move f).nodes nodes) = Node.outlines nodes := by
  induction nodes using Node.forest_induction with
  | nil => rfl
  | cons node nodes ihbody ih =>
    have hnode : ((Retouch.move f).node node).outline = node.outline := by
      cases node with
      | rule head body =>
        simp only [Retouch.node, Node.outline]
        exact congrArg₂ Outline.rule (Excerpt.text_move f _) ihbody
      | atRule head body =>
        simp only [Retouch.node, Node.outline]
        exact congrArg₂ (Outline.atRule head.name) (Excerpt.text_move f _) ihbody
      | atStatement head => exact congrArg (Outline.atStatement head.name) (Excerpt.text_move f _)
      | declaration decl =>
        exact congrArg (Outline.declaration decl.prop · decl.important) (Excerpt.text_move f _)
      | comment c => rfl
    rw [Retouch.nodes, Node.outlines, Node.outlines, hnode, ih]

/-! ## Findings -/

/-- A place of a moved excerpt is moved. -/
theorem Excerpt.sourceOffset_move (f : Nat → Nat) {e : Excerpt} {before after : List Located}
    (h : Located.ofString e.text = before ++ after) :
    (e.move f).sourceOffset (Located.size before) = f (e.sourceOffset (Located.size before)) := by
  obtain ⟨front, back, hchars, hfront, _, hplace⟩ := split_text h
  rw [hplace, ← Located.size_eq_of_map_char hfront, sourceOffset, move, hchars, List.map_append,
    ← Located.size_move f front, Located.offsetAt_append, Located.startOf_move]

/-- The finding at another place. -/
def Finding.move (f : Nat → Nat) : Finding → Finding
  | .policy offset node key message mild => .policy (f offset) node key message mild
  | .invalidOption key message => .invalidOption key message

section Findings

variable (f : Nat → Nat)

theorem FontWeight.finding?_move (keywords : Keywords) (expected : Spelling)
    (ignored : List WordList.Entry) (decl : Declaration) (parent : Parent) :
    finding? keywords expected ignored
        ((Retouch.move f).declaration decl, (Retouch.move f).parent parent) =
      (finding? keywords expected ignored (decl, parent)).map (Finding.move f) := by
  have hweight : weightOf? keywords ((Retouch.move f).declaration decl) =
      weightOf? keywords decl := by
    simp only [weightOf?, Retouch.declaration, Retouch.move, Excerpt.text_move]
  simp only [finding?, hweight, Retouch.isAtRuleNamed_parent]
  cases hw : weightOf? keywords decl with
  | none => rfl
  | some weight =>
    obtain ⟨_, before, run, after, htext, _, hoffset⟩ := weightOf?_place hw
    have hplace : ((Retouch.move f).declaration decl).value.sourceOffset weight.offset =
        f (decl.value.sourceOffset weight.offset) := by
      rw [hoffset]
      exact Excerpt.sourceOffset_move f htext
    simp only [Option.bind_eq_bind, Option.bind_some, hplace]
    split
    · rfl
    · cases fault? keywords _ weight.text expected <;> rfl

theorem PseudoClass.findings_move (allowed : List WordList.Entry) (head : StyleRule) :
    findings allowed ((Retouch.move f).styleRule head) =
      (findings allowed head).map (Finding.move f) := by
  have htext : ((Retouch.move f).styleRule head).selector.text = head.selector.text :=
    Excerpt.text_move f _
  simp only [findings, htext]
  split
  · rfl
  · cases hparse : Selector.parse head.selector.text with
    | error e =>
      have hplace : ((Retouch.move f).styleRule head).selector.offset = f head.selector.offset :=
        Excerpt.sourceOffset_move f (List.nil_append _).symm
      simp [Finding.move, hplace]
    | ok selectors =>
      simp only [List.map_filterMap, Option.map_map]
      refine List.filterMap_congr fun pseudo hpseudo => ?_
      obtain ⟨before, c, piece, after, hpiece, _, _, hindex⟩ := Selector.parse_piece hparse hpseudo
      rw [Located.offset_eq_size hpiece] at hindex
      have hplace : ((Retouch.move f).styleRule head).selector.sourceOffset pseudo.index =
          f (head.selector.sourceOffset pseudo.index) := by
        rw [hindex]
        exact Excerpt.sourceOffset_move f hpiece
      rw [hplace]
      rfl

theorem RangeOperator.findings_move (expected : SpaceAfter) (head : AtRule) :
    findings expected ((Retouch.move f).atRule head) =
      (findings expected head).map (Finding.move f) := by
  have htext : ((Retouch.move f).atRule head).params.text = head.params.text :=
    Excerpt.text_move f _
  have hname : ((Retouch.move f).atRule head).name = head.name := rfl
  simp only [findings, htext, hname]
  split
  · simp only [List.map_filterMap, Option.map_map]
    refine List.filterMap_congr fun operator hoperator => ?_
    obtain ⟨hne, front, back, hparams⟩ := mem_operators hoperator
    have hplace : ((Retouch.move f).atRule head).params.sourceOffset (stopOf operator) =
        f (head.params.sourceOffset (stopOf operator)) := by
      rw [stopOf_eq_size hne hparams]
      exact Excerpt.sourceOffset_move f (hparams.trans (List.append_assoc ..).symm)
    rw [hplace]
    rfl
  · rfl

end Findings

/-! ## Lines -/

/-- A rule is on one line if no line break is within its span. -/
theorem SingleLine.isSingleLine_eq {sheet : Sheet} {head : StyleRule}
    (hle : head.span.start ≤ head.span.stop)
    (hstart : Located.IsCut (Located.ofString sheet.source) sheet.source.utf8ByteSize
      head.span.start)
    (hstop : Located.IsCut (Located.ofString sheet.source) sheet.source.utf8ByteSize
      head.span.stop) :
    isSingleLine sheet head = (Text.breaks sheet.source).all fun c =>
      !(decide (head.span.start ≤ c.offset) && decide (c.offset < head.span.stop)) := by
  rw [isSingleLine, Sheet.slice, Located.isBoundary_iff.2 hstart, Located.isBoundary_iff.2 hstop,
    if_pos (by simp [hle]), Located.text,
    String.toList_ofList, List.all_map, List.all_filter, Text.breaks, List.all_filter]
  congr 1
  funext c
  rw [Function.comp_apply, Text.isBreak, Bool.not_or, Bool.or_comm]
  rfl

/-- The line is told by the line feeds before an offset. -/
theorem Position.line_eq_countP (source : String) (o : Nat) :
    (ofOffset source o).line =
      (Located.ofString source).countP (fun c => c.char = '\n' ∧ c.offset < o) + 1 := by
  rw [line_ofOffset, counted, List.count, List.countP_map, List.countP_filter]
  exact congrArg (· + 1) (List.countP_congr fun c _ => by simp)

/-- The last character of a comment is a slash. -/
theorem Comment.exists_last {source : String} {sheet : Sheet} (h : Sheet.parse source = .ok sheet)
    {k : Comment} (hk : k ∈ sheet.comments) :
    ∃ c ∈ Located.ofString source, c.char = '/' ∧ c.stop = k.span.stop := by
  obtain ⟨_, hbuilds⟩ := Event.parse_eq_ok_iff.1 h
  obtain ⟨ds, next, ⟨lead, hlead⟩, htakes⟩ := hbuilds.takes_leaf (Sheet.mem_comments.1 hk) rfl
  obtain ⟨front, rfl⟩ := htakes.suffix
  obtain ⟨c, star, body, rfl, _, _, hclose, rfl⟩ := htakes.comment_cases
  obtain ⟨inner, hinner, _⟩ := Lexeme.closeComment_chars hclose
  have hends : body.map Located.char = (inner ++ ['*']) ++ ['/'] := by simp [hinner]
  obtain ⟨xs, ys, rfl, _, hys⟩ := List.map_eq_append_iff.1 hends
  obtain ⟨last, rfl, hlast⟩ := List.map_eq_singleton_iff.1 hys
  refine ⟨last, by simp [← hlead], hlast, ?_⟩
  have hruns := Located.runs_ofString source
  have hsplit : lead ++ (c :: star :: (xs ++ [last]) ++ next) =
      (lead ++ c :: star :: xs) ++ last :: next := by simp
  rw [← hlead, hsplit] at hruns
  exact hruns.of_append.2.2.startOf_eq.symm

/-- A comment ends on the line of its last character. -/
theorem Comment.line_stop {source : String} {sheet : Sheet} (h : Sheet.parse source = .ok sheet)
    {k : Comment} (hk : k ∈ sheet.comments) :
    (Position.ofOffset source (k.span.stop - 1)).line =
      (Position.ofOffset source k.span.stop).line := by
  obtain ⟨last, hlast, hchar, hstop⟩ := exists_last h hk
  have hoffset : k.span.stop = last.offset + 1 := by
    rw [← hstop, Located.stop, hchar]
    rfl
  have hrising := Located.Rising.of_runs (Located.runs_ofString source)
  rw [Position.line_eq_countP, Position.line_eq_countP, hoffset, Nat.add_sub_cancel]
  congr 1
  refine List.countP_congr fun c hc => ?_
  simp only [decide_eq_true_eq]
  refine and_congr_right fun hbreak => ⟨Nat.lt_succ_of_lt, fun hlt => ?_⟩
  have hne : c.offset ≠ last.offset := by
    intro heq
    rw [hrising.eq_of_offset hc hlast heq, hchar] at hbreak
    exact absurd hbreak (by decide)
  omega

section InsertAt

variable {source inserted : String} {sheet : Sheet} {p : Nat}
  (h : Sheet.parse source = .ok sheet)
  (hcut : Located.IsCut (Located.ofString source) source.utf8ByteSize p)
  (hinserted : ∀ c ∈ inserted.toList, Text.isBreak c = false)
include h hcut hinserted

theorem SingleLine.isSingleLine_insertAt {head : StyleRule} (hhead : head ∈ sheet.rules) :
    isSingleLine (sheet.insertAt inserted p)
        ((Retouch.move (shift p inserted.utf8ByteSize)).styleRule head) =
      isSingleLine sheet head := by
  obtain ⟨body, hoccurs⟩ := occurs_rule h hhead
  have hplaced := (parse_placed h).2 _ hoccurs
  have hmono := shift_strictMono p inserted.utf8ByteSize
  obtain ⟨rfl, _⟩ := Event.parse_eq_ok_iff.1 h
  have hstart : Located.IsCut (Located.ofString sheet.source) sheet.source.utf8ByteSize
      head.span.start := hplaced.start_cut
  have hstop : Located.IsCut (Located.ofString sheet.source) sheet.source.utf8ByteSize
      head.span.stop := hplaced.stop_cut
  have hle : head.span.start ≤ head.span.stop := hplaced.nonempty.le
  have hline : isSingleLine (sheet.insertAt inserted p)
      ((Retouch.move (shift p inserted.utf8ByteSize)).styleRule head) = _ :=
    isSingleLine_eq (hmono.monotone hle) (hcut.insertAt inserted hstart)
      (hcut.insertAt inserted hstop)
  rw [hline, isSingleLine_eq hle hstart hstop]
  simp only [Sheet.insertAt, Text.breaks_insertAt hcut hinserted, List.all_map, Function.comp_def,
    Located.offset_move, Retouch.styleRule, Retouch.move, hmono.le_iff_le, hmono.lt_iff_lt]

theorem Rule.inspect_insertAt {keywords : Keywords} {rule : Rule}
    (hrule : rule ∈ Rule.builtIn keywords) (options : Options) :
    rule.inspect options (sheet.insertAt inserted p) =
      (rule.inspect options sheet).map (Finding.move (shift p inserted.utf8ByteSize)) := by
  have hnodes : (sheet.insertAt inserted p).nodes =
      (Retouch.move (shift p inserted.utf8ByteSize)).nodes sheet.nodes := rfl
  simp only [Rule.builtIn, List.mem_cons, List.not_mem_nil, or_false] at hrule
  rcases hrule with rfl | rfl | rfl | rfl
  · simp only [FontWeight.rule, FontWeight.inspect]
    split
    · rw [Retouch.declarations_eq hnodes, List.filterMap_map, List.map_filterMap]
      exact List.filterMap_congr fun x _ => FontWeight.finding?_move ..
    · rfl
  · simp only [PseudoClass.rule, PseudoClass.inspect]
    split
    · rw [Retouch.rules_eq hnodes, List.flatMap_map, List.map_flatMap]
      exact List.flatMap_congr fun head _ => PseudoClass.findings_move ..
    · rfl
  · simp only [RangeOperator.rule, RangeOperator.inspect]
    split
    · rw [Retouch.atRules_eq hnodes, List.flatMap_map, List.map_flatMap]
      exact List.flatMap_congr fun head _ => RangeOperator.findings_move ..
    · rfl
  · simp only [SingleLine.rule, SingleLine.inspect]
    rw [Retouch.rules_eq hnodes, List.filter_map, List.map_map, List.map_map]
    congr 1
    exact List.filter_congr fun head hhead =>
      SingleLine.isSingleLine_insertAt h hcut hinserted hhead

/-- The directives stand for the same lines. -/
theorem Directive.collect_insertAt
    (h' : Sheet.parse (Text.insertAt source inserted p) = .ok (sheet.insertAt inserted p)) :
    collect (sheet.insertAt inserted p) = collect sheet := by
  have hcomments : (sheet.insertAt inserted p).comments =
      sheet.comments.map (Retouch.move (shift p inserted.utf8ByteSize)).comment :=
    Retouch.comments_eq rfl
  rw [collect, hcomments, List.filterMap_map]
  refine List.filterMap_congr fun k hk => ?_
  have hstop : Located.IsCut (Located.ofString source) source.utf8ByteSize k.span.stop :=
    ((parse_placed h).2 _ (Sheet.mem_comments.1 hk)).stop_cut
  -- Were the new text right behind a comment, the end of the comment would move on and its last
  -- character would not; but both are on one line.
  have hlast := Comment.line_stop h' (hcomments ▸ List.mem_map_of_mem hk)
  have hline : (Position.ofOffset (Text.insertAt source inserted p)
      (shift p inserted.utf8ByteSize k.span.stop)).line =
        (Position.ofOffset source k.span.stop).line := by
    rw [Position.ofOffset_insertAt hcut hinserted hstop]
  have hsame := hlast.trans (hline.trans (Comment.line_stop h hk).symm)
  obtain ⟨rfl, _⟩ := Event.parse_eq_ok_iff.1 h
  rw [Function.comp_apply, Sheet.insertAt, hsame]
  rfl

end InsertAt

/-! ## Violations -/

/-- The violation after a text was put in at `p`: it is further on in the source if it is not before
`p`, and further on in its line if that is also the line of `p`. -/
def Violation.insertAt (source inserted : String) (p : Nat) (v : Violation) : Violation :=
  { v with
    location :=
      { v.location with
        offset := shift p inserted.utf8ByteSize v.location.offset
        column := v.location.column +
          if p ≤ v.location.offset ∧ v.location.line = (Position.ofOffset source p).line then
            inserted.length
          else 0 } }

theorem Rule.inspect_pointAt {source : String} {sheet : Sheet} (h : Sheet.parse source = .ok sheet)
    {keywords : Keywords} {rule : Rule} (hrule : rule ∈ Rule.builtIn keywords) (options : Options) :
    ∃ target, ∀ finding ∈ rule.inspect options sheet,
      finding.PointsAt source sheet.nodes target := by
  simp only [Rule.builtIn, List.mem_cons, List.not_mem_nil, or_false] at hrule
  rcases hrule with rfl | rfl | rfl | rfl
  · exact ⟨_, FontWeight.inspect_pointAt h keywords options⟩
  · exact ⟨_, PseudoClass.inspect_pointAt h options⟩
  · exact ⟨_, RangeOperator.inspect_pointAt h options⟩
  · exact ⟨_, SingleLine.inspect_pointAt h options⟩

section Violations

variable {inserted : String} {sheet : Sheet} {p : Nat} (path : String) (speaker : Speaker)
  (severity : Severity)

/-- Problems of the options are reported at the start, which stays where it is. -/
theorem OptionProblem.violation?_insertAt (hpos : 0 < p) (name : String) (problem : OptionProblem) :
    (problem.finding name).violation? (SheetFile.ofSheet path (sheet.insertAt inserted p)) speaker
        severity =
      ((problem.finding name).violation? (SheetFile.ofSheet path sheet) speaker severity).map
        (Violation.insertAt sheet.source inserted p) := by
  simp [OptionProblem.finding, Finding.violation?, SheetFile.ofSheet, Violation.insertAt,
    shift_of_lt _ hpos, Nat.not_le.2 hpos]

/-- A finding that points at something comes to the same violation, moved. -/
theorem Finding.violation?_insertAt
    (hcut : Located.IsCut (Located.ofString sheet.source) sheet.source.utf8ByteSize p)
    (hinserted : ∀ c ∈ inserted.toList, Text.isBreak c = false)
    (hdirectives : Directive.collect (sheet.insertAt inserted p) = Directive.collect sheet)
    {finding : Finding} {target : Node → String → Nat → Prop}
    (hpoints : finding.PointsAt sheet.source sheet.nodes target) :
    (finding.move (shift p inserted.utf8ByteSize)).violation?
        (SheetFile.ofSheet path (sheet.insertAt inserted p)) speaker severity =
      (finding.violation? (SheetFile.ofSheet path sheet) speaker severity).map
        (Violation.insertAt sheet.source inserted p) := by
  have hsource : (sheet.insertAt inserted p).source = Text.insertAt sheet.source inserted p := rfl
  cases finding with
  | invalidOption key message => exact hpoints.elim
  | policy offset node key message mild =>
    obtain ⟨_, _, _, hoffset, _⟩ := hpoints
    simp only [Finding.move, Finding.violation?, SheetFile.ofSheet, hdirectives, hsource,
      Location.ofOffset, Position.ofOffset_insertAt hcut hinserted hoffset]
    cases Directive.find? (Directive.collect sheet) (Position.ofOffset sheet.source offset).line
        speaker.rule with
    | none => rfl
    | some directive =>
      simp only
      split <;> rfl

/-- Text without line breaks that moves the tree moves the violations. -/
theorem Rule.violations_insertAt (h : Sheet.parse sheet.source = .ok sheet)
    (h' : Sheet.parse (Text.insertAt sheet.source inserted p) = .ok (sheet.insertAt inserted p))
    (hcut : Located.IsCut (Located.ofString sheet.source) sheet.source.utf8ByteSize p)
    (hpos : 0 < p) (hinserted : ∀ c ∈ inserted.toList, Text.isBreak c = false)
    {keywords : Keywords} {rule : Rule} (hrule : rule ∈ Rule.builtIn keywords) (options : Options) :
    rule.violations severity options (SheetFile.ofSheet path (sheet.insertAt inserted p))
        (sheet.insertAt inserted p) =
      (rule.violations severity options (SheetFile.ofSheet path sheet) sheet).map
        (Violation.insertAt sheet.source inserted p) := by
  have hdirectives := Directive.collect_insertAt h hcut hinserted h'
  obtain ⟨target, hpoints⟩ := Rule.inspect_pointAt h hrule options
  rw [Rule.violations, Rule.violations, Rule.check, Rule.check,
    Rule.inspect_insertAt h hcut hinserted hrule, List.map_filterMap]
  split
  · rw [List.filterMap_map]
    exact List.filterMap_congr fun finding hfinding =>
      finding.violation?_insertAt _ _ _ hcut hinserted hdirectives (hpoints finding hfinding)
  · rw [List.filterMap_map, List.filterMap_map]
    exact List.filterMap_congr fun problem _ => problem.violation?_insertAt _ _ _ hpos _

end Violations

/-! ## Main result -/

/-- Putting a comment into a sheet, within a statement where a comment can stand, changes no
verdict. The new text parses, into the same tree with everything behind the comment moved on, so into
one of the same shape and with the same texts. Every rule reports the same violations, whatever the
path, the severity, the options and the keyword tables: only the offsets behind the comment and the
columns behind it on its line are moved. -/
theorem comment_transparent {source body : String} {sheet : Sheet} {node : Node} {p : Nat}
    (h : Sheet.parse source = .ok sheet) (hoccurs : node.Occurs sheet.nodes)
    (hadmits : node.AdmitsAt source p) (hbody : Comment.IsInline body) :
    ∃ sheet', Sheet.parse (Text.insertAt source (Comment.written body) p) = .ok sheet' ∧
      sheet'.nodes =
        (Retouch.move (shift p (Comment.written body).utf8ByteSize)).nodes sheet.nodes ∧
      Node.outlines sheet'.nodes = Node.outlines sheet.nodes ∧
      ∀ (keywords : Keywords), ∀ rule ∈ Rule.builtIn keywords, ∀ path severity options,
        rule.violations severity options (SheetFile.ofSheet path sheet') sheet' =
          (rule.violations severity options (SheetFile.ofSheet path sheet) sheet).map
            (Violation.insertAt source (Comment.written body) p) := by
  have h' := Sheet.parse_insertAt h hoccurs hadmits hbody
  have hpos : 0 < p := Nat.zero_lt_of_lt hadmits.start_lt
  obtain ⟨rfl, _⟩ := Event.parse_eq_ok_iff.1 h
  exact ⟨_, h', rfl, Retouch.outlines_move _ _, fun keywords rule hrule path severity options =>
    Rule.violations_insertAt path severity h h' hadmits.isCut hpos hbody.not_isBreak hrule options⟩

/-- A body that reads like a directive, opens a string and opens a block. -/
def sampleBody : String :=
  "sheetlint: allow(all) \"\x7b"

theorem parse_sampleMedia_rule : ∃ sheet, Sheet.parse sampleMedia = .ok sheet ∧
    (FontWeight.rule {}).ReportsAt "named-where-possible" sheet 48 ∧
    ∃ head ∈ sheet.rules, head.span.start = 23 := by
  have hreports : (Sheet.parse sampleMedia).toOption.any (fun sheet =>
      (FontWeight.rule {}).ReportsAt "named-where-possible" sheet 48 ∧
      ∃ head ∈ sheet.rules, head.span.start = 23) = true := by
    decide +kernel
  cases hparse : Sheet.parse sampleMedia with
  | error e => simp [hparse, Except.toOption] at hreports
  | ok sheet => exact ⟨sheet, rfl, by simpa [hparse, Except.toOption] using hreports⟩

/-- The comment splits the name of a pseudo-class. -/
theorem comment_transparent_sample : ∃ (sheet sheet' : Sheet) (node : Node),
    Sheet.parse sampleMedia = .ok sheet ∧ node.Occurs sheet.nodes ∧ node.AdmitsAt sampleMedia 32 ∧
    Comment.IsInline sampleBody ∧
    Sheet.parse (Text.insertAt sampleMedia (Comment.written sampleBody) 32) = .ok sheet' ∧
    Node.outlines sheet'.nodes = Node.outlines sheet.nodes ∧
    (FontWeight.rule {}).ReportsAt "named-where-possible" sheet 48 ∧
    (FontWeight.rule {}).ReportsAt "named-where-possible" sheet' 76 ∧
    ∀ rule ∈ Rule.builtIn {}, ∀ path severity options,
      rule.violations severity options (SheetFile.ofSheet path sheet') sheet' =
        (rule.violations severity options (SheetFile.ofSheet path sheet) sheet).map
          (Violation.insertAt sampleMedia (Comment.written sampleBody) 32) := by
  obtain ⟨sheet, h, hreports, head, hhead, hstart⟩ := parse_sampleMedia_rule
  obtain ⟨body, hoccurs⟩ := occurs_rule h hhead
  have hadmits : (Node.rule head body).AdmitsAt sampleMedia 32 := by
    have hspan : (Node.rule head body).span.start = 23 := hstart
    simp only [Node.AdmitsAt, Node.Admits, Prelude.Parts, hspan]
    decide +kernel
  have hbody : Comment.IsInline sampleBody := by
    have hbreaks : sampleBody.toList.any Text.isBreak = false := by decide +kernel
    exact ⟨by decide +kernel, by simpa using hbreaks⟩
  obtain ⟨sheet', h', _, houtlines, hviolations⟩ := comment_transparent h hoccurs hadmits hbody
  refine ⟨sheet, sheet', _, h, hoccurs, hadmits, hbody, h', houtlines, hreports, ?_, hviolations {}⟩
  rw [Rule.ReportsAt, hviolations {} _ List.mem_cons_self]
  obtain ⟨v, hv, hplace⟩ := List.map_eq_singleton_iff.1 hreports
  obtain ⟨hkind, hoffset⟩ := Prod.mk.inj hplace
  have hmoved : shift 32 (Comment.written sampleBody).utf8ByteSize 48 = 76 := by decide +kernel
  rw [hv]
  simp only [List.map_cons, List.map_nil, Violation.insertAt, hkind, hoffset, hmoved]

end SheetPolicy

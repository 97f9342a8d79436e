import Mathlib
import SheetPolicy.Proofs.Allowance

/-!
Which directive speaks for a line. A comment stops before anything starts that a walk meets later
(`Node.itemsOf_comment_apart`), so the lines on which comments end only grow through a sheet. The
directives that end on the line before and then those that end on the line itself are therefore in
document order, and the earliest of all that cover a line is the one that speaks
(`Directive.find?_eq_head?_speaking`).

Where a rule can be silenced only with a reason, the reason has to be the one of that directive. A
finding is silenced exactly if a directive with a reason stands before all those without one; else,
if there are directives with a reason all the same, it turns into the warning that the reason is
missing (`silenced_iff`).
-/

namespace SheetPolicy

/-! ## Comments in document order -/

/-- A comment stops before the nodes that a walk meets later start. -/
theorem Node.itemsOf_comment_apart {source : String} {low high : Nat} {nodes : List Node}
    (parent : Parent) (htiles : Tiles source low high nodes)
    (hplaced : ∀ n : Node, n.Occurs nodes → n.Placed source) :
    (Node.itemsOf parent nodes).Pairwise
        (fun x y => ∀ k, x.2 = .comment k → k.span.stop ≤ y.2.span.start) ∧
      ∀ x ∈ Node.itemsOf parent nodes, x.2.span.stop ≤ high := by
  induction nodes using Node.forest_induction generalizing parent low high with
  | nil => simp [Node.itemsOf]
  | cons node nodes ihbody ih =>
    have hnode := hplaced node (Node.occurs_cons.2 (.inl rfl))
    have hlaterPlaced := fun n hn => hplaced n (Node.occurs_cons.2 (.inr (.inr hn)))
    obtain ⟨inner, hitems⟩ := node.items_eq parent
    obtain ⟨bodyLow, bodyHigh, hlow, hhigh, hbody⟩ := hnode.tiles_body
    obtain ⟨hbodyApart, hbodyEnd⟩ := ihbody inner hbody
      fun n hn => hplaced n (Node.occurs_cons.2 (.inr (.inl hn)))
    have hlater := htiles.tail hnode.nonempty
    obtain ⟨hlaterApart, hlaterEnd⟩ := ih parent hlater hlaterPlaced
    have hlaterStart := (Node.itemsOf_increasing parent hlater hlaterPlaced).2
    have hwithin := (htiles.within node List.mem_cons_self).2
    rw [Node.itemsOf, hitems, List.cons_append]
    constructor
    · refine List.pairwise_cons.2 ⟨fun y hy k hk => ?_, List.pairwise_append.2
        ⟨hbodyApart, hlaterApart, fun x hx y hy k hk => ?_⟩⟩
      · -- a comment has no nodes in it
        obtain rfl : node = .comment k := by
          cases node with
          | comment =>
            cases hk
            rfl
          | _ => cases hk
        exact (hlaterStart y (by simpa [Node.body?, Node.itemsOf] using hy)).1
      · have hend := hbodyEnd x hx
        rw [hk] at hend
        exact hend.trans (hhigh.trans (hlaterStart y hy).1)
    · intro x hx
      rcases List.mem_cons.1 hx with rfl | hx
      · simpa using hwithin
      · rcases List.mem_append.1 hx with hx | hx
        · exact (hbodyEnd x hx).trans (hhigh.trans hwithin)
        · exact hlaterEnd x hx

section Comments

variable {source : String} {sheet : Sheet}

theorem Sheet.comments_apart (h : Sheet.parse source = .ok sheet) :
    sheet.comments.Pairwise fun k k' => k.span.stop ≤ k'.span.start := by
  obtain ⟨htiles, hplaced⟩ := parse_placed h
  have hitems := (Node.itemsOf_comment_apart .root htiles hplaced).1
  rw [Sheet.comments, List.pairwise_filterMap]
  refine hitems.imp ?_
  rintro ⟨p, item⟩ ⟨q, item'⟩ hapart k hk k' hk'
  cases item <;> cases hk
  cases item' <;> cases hk'
  exact hapart k rfl

theorem Comment.span_nonempty (h : Sheet.parse source = .ok sheet) {k : Comment}
    (hk : k ∈ sheet.comments) : k.span.start < k.span.stop :=
  ((parse_placed h).2 _ (Sheet.mem_comments.1 hk)).nonempty

theorem Position.line_counted_mono {a b : Nat} (h : a ≤ b) :
    (counted source a).line ≤ (counted source b).line := by
  have hsub : ((Located.ofString source).filter fun c => c.offset < a).Sublist
      ((Located.ofString source).filter fun c => c.offset < b) :=
    List.monotone_filter_right _ fun c hc => by
      have hbefore : c.offset < a := by simpa using hc
      simpa using hbefore.trans_le h
  exact Nat.succ_le_succ ((hsub.map Located.char).count_le _)

theorem Sheet.lastLine_mono (h : Sheet.parse source = .ok sheet) :
    sheet.comments.Pairwise fun k k' => k.lastLine sheet.source ≤ k'.lastLine sheet.source := by
  refine (Sheet.comments_apart h).imp_of_mem fun {k k'} _ hk' hapart => ?_
  have hspan := Comment.span_nonempty h hk'
  exact Position.line_counted_mono (by omega)

end Comments

/-! ## The directives that cover a line -/

/-- A comment is a directive for the rule that covers the line. -/
structure Sheet.Speaks (sheet : Sheet) (rule : String) (line : Nat) (k : Comment)
    (d : Directive) : Prop where
  mem : k ∈ sheet.comments
  reads : Directive.parse? k.text = some d
  names : rule ∈ d.rules ∨ "all" ∈ d.rules
  near : k.lastLine sheet.source + 1 = line ∨ k.lastLine sheet.source = line

/-- The directives for a rule with their comments, in document order. -/
def Sheet.naming (sheet : Sheet) (rule : String) : List (Comment × Directive) :=
  sheet.comments.filterMap fun k =>
    ((Directive.parse? k.text).filter fun d => rule ∈ d.rules ∨ "all" ∈ d.rules).map (k, ·)

/-- The directives for a rule that cover a line, in document order. -/
def Sheet.speaking (sheet : Sheet) (rule : String) (line : Nat) : List (Comment × Directive) :=
  (sheet.naming rule).filter fun x =>
    x.1.lastLine sheet.source + 1 = line ∨ x.1.lastLine sheet.source = line

namespace Sheet

variable {source : String} {sheet : Sheet} {rule : String} {line : Nat}
  {k : Comment} {d : Directive}

theorem mem_speaking : (k, d) ∈ sheet.speaking rule line ↔ sheet.Speaks rule line k d := by
  simp only [speaking, naming, List.mem_filter, List.mem_filterMap, Option.map_eq_some_iff,
    Option.filter_eq_some_iff, decide_eq_true_eq, Prod.mk.injEq]
  constructor
  · rintro ⟨⟨_, hmem, _, ⟨hreads, hnames⟩, rfl, rfl⟩, hnear⟩
    exact ⟨hmem, hreads, hnames, hnear⟩
  · rintro ⟨hmem, hreads, hnames, hnear⟩
    exact ⟨⟨k, hmem, d, ⟨hreads, hnames⟩, rfl, rfl⟩, hnear⟩

theorem allowedOn_eq (sheet : Sheet) (rule : String) (line : Nat) :
    sheet.allowedOn rule line =
      ((sheet.naming rule).filter fun x => x.1.lastLine sheet.source = line).map Prod.snd := by
  rw [naming, List.filter_filterMap, List.map_filterMap, allowedOn]
  refine List.filterMap_congr fun k _ => ?_
  cases Directive.parse? k.text with
  | none => rfl
  | some d =>
    by_cases hnames : rule ∈ d.rules ∨ "all" ∈ d.rules <;>
      by_cases hline : k.lastLine sheet.source = line <;> simp [Option.filter_some, hnames, hline]

/-- What holds of comments in document order holds of directives in document order. -/
theorem pairwise_naming {R : Comment → Comment → Prop} (h : sheet.comments.Pairwise R)
    (rule : String) :
    (sheet.naming rule).Pairwise fun x y => R x.1 y.1 := by
  rw [naming, List.pairwise_filterMap]
  refine h.imp fun {k k'} hR x hx y hy => ?_
  obtain ⟨_, _, rfl⟩ := Option.map_eq_some_iff.1 hx
  obtain ⟨_, _, rfl⟩ := Option.map_eq_some_iff.1 hy
  exact hR

end Sheet

/-- Where a number only grows, the members with it and those with the next one follow each other. -/
theorem filter_append_filter_succ {α : Type} {f : α → Nat} {xs : List α}
    (h : xs.Pairwise fun x y => f x ≤ f y) (n : Nat) :
    xs.filter (fun x => f x = n) ++ xs.filter (fun x => f x = n + 1) =
      xs.filter fun x => f x = n ∨ f x = n + 1 := by
  induction xs with
  | nil => rfl
  | cons x xs ih =>
    obtain ⟨hfirst, hrest⟩ := List.pairwise_cons.1 h
    by_cases hnext : f x = n + 1
    · have hnone : xs.filter (fun y => f y = n) = [] := by
        rw [List.filter_eq_nil_iff]
        intro y hy
        have := hfirst y hy
        simp
        omega
      have ih := ih hrest
      rw [hnone, List.nil_append] at ih
      rw [List.filter_cons_of_neg (by simp [hnext]), hnone, List.nil_append,
        List.filter_cons_of_pos (by simpa using hnext), List.filter_cons_of_pos (by simp [hnext]),
        ih]
    · have hskip : (x :: xs).filter (fun y => f y = n + 1) = xs.filter fun y => f y = n + 1 :=
        List.filter_cons_of_neg (by simpa using hnext)
      rw [hskip]
      by_cases hsame : f x = n
      · rw [List.filter_cons_of_pos (by simpa using hsame),
          List.filter_cons_of_pos (by simp [hsame]), List.cons_append, ih hrest]
      · rw [List.filter_cons_of_neg (by simpa using hsame),
          List.filter_cons_of_neg (by simp [hsame, hnext]), ih hrest]

theorem Position.line_pos (source : String) (offset : Nat) : 0 < (ofOffset source offset).line := by
  rw [line_ofOffset]
  exact Nat.succ_pos _

/-- The earliest directive in the document speaks. -/
theorem Directive.find?_eq_head?_speaking {source : String} {sheet : Sheet}
    (h : Sheet.parse source = .ok sheet) (rule : String) {line : Nat} (hline : 0 < line) :
    find? (collect sheet) line rule = ((sheet.speaking rule line).map Prod.snd).head? := by
  obtain ⟨n, rfl⟩ : ∃ n, line = n + 1 := ⟨line - 1, by omega⟩
  have hgrows := Sheet.pairwise_naming (Sheet.lastLine_mono h) rule
  rw [find?_collect, Sheet.allowedOn_eq, Sheet.allowedOn_eq, ← List.map_append, Nat.add_sub_cancel,
    filter_append_filter_succ hgrows]
  simp only [Sheet.speaking, Nat.add_right_cancel_iff]

/-! ## Findings with and without a reason -/

/-- What a finding comes to under the directives that speak for its line. -/
theorem Finding.violation?_speaking {source : String} {sheet : Sheet}
    (h : Sheet.parse source = .ok sheet) {speaker : Speaker} (hneeds : speaker.needsReason = true)
    (path : String) (severity : Severity) (offset : Nat) (node : NodeKind) (key message : String)
    (mild : Bool) :
    (Finding.policy offset node key message mild).violation? (SheetFile.ofSheet path sheet) speaker
        severity =
      ((sheet.speaking speaker.rule (Position.ofOffset source offset).line).map Prod.snd).head?.elim
        (some ⟨speaker.code, speaker.rule, if mild then .warning else severity, .policy,
          Location.ofOffset path source offset, some node, key, message, none⟩)
        fun d =>
          if d.reason = none then
            some (Finding.missingReason speaker (Location.ofOffset path source offset) node)
          else none := by
  obtain ⟨rfl, _⟩ := Event.parse_eq_ok_iff.1 h
  have hfind := Directive.find?_eq_head?_speaking h speaker.rule
    (Position.line_pos sheet.source offset)
  simp only [Finding.violation?, SheetFile.ofSheet, Location.ofOffset, hfind, hneeds]
  cases sheet.speaking speaker.rule (Position.ofOffset sheet.source offset).line with
  | nil => rfl
  | cons x rest => simp

/-- With reasons needed, a finding is silenced exactly if some directive that covers its line gives
a reason and stands before all those that cover the line and give none. Where one gives a reason but
stands behind, the report is that a reason is missing. -/
theorem silenced_iff {source : String} {sheet : Sheet} (h : Sheet.parse source = .ok sheet)
    {speaker : Speaker} (hneeds : speaker.needsReason = true) (path : String) (severity : Severity)
    (offset : Nat) (node : NodeKind) (key message : String) (mild : Bool) :
    let line := (Position.ofOffset source offset).line
    let report := (Finding.policy offset node key message mild).violation?
      (SheetFile.ofSheet path sheet) speaker severity
    (report = none ↔ ∃ k d, sheet.Speaks speaker.rule line k d ∧ d.reason ≠ none ∧
      ∀ k' d', sheet.Speaks speaker.rule line k' d' → d'.reason = none →
        k.span.stop ≤ k'.span.start) ∧
    ((∃ k d, sheet.Speaks speaker.rule line k d ∧ d.reason ≠ none) → report ≠ none →
      report =
        some (Finding.missingReason speaker (Location.ofOffset path source offset) node)) := by
  intro line report
  have hreport : report = _ :=
    Finding.violation?_speaking h hneeds path severity offset node key message mild
  have happart : (sheet.speaking speaker.rule line).Pairwise
      fun x y => x.1.span.stop ≤ y.1.span.start :=
    (Sheet.pairwise_naming (Sheet.comments_apart h) speaker.rule).filter _
  simp only [← Sheet.mem_speaking]
  rw [hreport]
  cases hspeaking : sheet.speaking speaker.rule line with
  | nil => simp
  | cons first rest =>
    obtain ⟨k, d⟩ := first
    rw [hspeaking, List.pairwise_cons] at happart
    have hspan := Comment.span_nonempty h
      (Sheet.mem_speaking.1 (hspeaking ▸ List.mem_cons_self)).mem
    simp only [List.map_cons, List.head?_cons, Option.elim_some]
    by_cases hreason : d.reason = none
    · rw [if_pos hreason]
      refine ⟨⟨fun hnone => absurd hnone (Option.some_ne_none _), ?_⟩, fun _ _ => rfl⟩
      -- one with a reason stands behind the first, which gives none
      rintro ⟨k', d', hmem, hreason', hbefore⟩
      have hbefore := hbefore k d List.mem_cons_self hreason
      rcases List.mem_cons.1 hmem with heq | hmem
      · cases heq
        exact absurd hreason hreason'
      · have hbehind : k.span.stop ≤ k'.span.start := happart.1 (k', d') hmem
        have hspan' := Comment.span_nonempty h
          (Sheet.mem_speaking.1 (hspeaking ▸ List.mem_cons_of_mem _ hmem)).mem
        omega
    · rw [if_neg hreason]
      refine ⟨⟨fun _ => ⟨k, d, List.mem_cons_self, hreason, ?_⟩, fun _ => rfl⟩,
        fun _ hsome => absurd rfl hsome⟩
      intro k' d' hmem hreason'
      rcases List.mem_cons.1 hmem with heq | hmem
      · cases heq
        exact absurd hreason' hreason
      · exact happart.1 (k', d') hmem

/-- Three lines with a directive at the end of each. Only the second one gives a reason. -/
def sampleReasons : String :=
  "a:x\x7b\x7d/*sheetlint:allow(all)*/\nb:x\x7b\x7d/*sheetlint:allow(all)reason=\"d\"*/\n" ++
    "c:x\x7b\x7d/*sheetlint:allow(all)*/"

/-- What becomes of a finding of the rule on pseudo-classes at an offset. -/
def Sheet.reportAt (sheet : Sheet) (offset : Nat) : Option Violation :=
  (Finding.policy offset .rule "rejected" "Unexpected pseudo-class" false).violation?
    (SheetFile.ofSheet "a.css" sheet) PseudoClass.rule.speaker .error

/-- A directive with a reason covers the second line and the third, and is heard on the third. -/
theorem parse_sampleReasons : ∃ sheet, Sheet.parse sampleReasons = .ok sheet ∧
    (∃ k d, sheet.Speaks PseudoClass.rule.name (Position.ofOffset sampleReasons 31).line k d ∧
      d.reason ≠ none) ∧
    sheet.reportAt 31 ≠ none ∧ sheet.reportAt 72 = none := by
  have heval : (Sheet.parse sampleReasons).toOption.any (fun sheet =>
      (sheet.speaking PseudoClass.rule.name (Position.ofOffset sampleReasons 31).line).any
        (fun x => x.2.reason ≠ none) ∧
      sheet.reportAt 31 ≠ none ∧ sheet.reportAt 72 = none) = true := by
    decide +kernel
  cases h : Sheet.parse sampleReasons with
  | error e => simp [h, Except.toOption] at heval
  | ok sheet =>
    simp only [h, Except.toOption, Option.any_some, decide_eq_true_eq, List.any_eq_true] at heval
    obtain ⟨⟨⟨k, d⟩, hmem, hreason⟩, hreports⟩ := heval
    exact ⟨sheet, rfl, ⟨k, d, Sheet.mem_speaking.1 hmem, hreason⟩, hreports⟩

/-- The directive on the line of a finding gives a reason, and the one on the line before does not.
-/
theorem reason_unheard : ∃ sheet k d, Sheet.parse sampleReasons = .ok sheet ∧
    PseudoClass.rule.needsReason = true ∧
    sheet.Speaks PseudoClass.rule.name (Position.ofOffset sampleReasons 31).line k d ∧
    d.reason ≠ none ∧ sheet.reportAt 31 ≠ none := by
  obtain ⟨sheet, h, ⟨k, d, hspeaks, hreason⟩, hreport, _⟩ := parse_sampleReasons
  exact ⟨sheet, k, d, h, rfl, hspeaks, hreason, hreport⟩

theorem silenced_iff_sample : ∃ sheet, Sheet.parse sampleReasons = .ok sheet ∧
    PseudoClass.rule.speaker.needsReason = true ∧
    (∃ k d, sheet.Speaks PseudoClass.rule.name (Position.ofOffset sampleReasons 72).line k d ∧
      d.reason ≠ none ∧
      ∀ k' d', sheet.Speaks PseudoClass.rule.name (Position.ofOffset sampleReasons 72).line k' d' →
        d'.reason = none → k.span.stop ≤ k'.span.start) ∧
    sheet.reportAt 31 = some (Finding.missingReason PseudoClass.rule.speaker
      (Location.ofOffset "a.css" sampleReasons 31) .rule) := by
  obtain ⟨sheet, h, hreasoned, hreport, hsilent⟩ := parse_sampleReasons
  have hneeds : PseudoClass.rule.speaker.needsReason = true := rfl
  have hiff := fun offset =>
    silenced_iff h hneeds "a.css" .error offset .rule "rejected" "Unexpected pseudo-class" false
  exact ⟨sheet, h, hneeds, (hiff 72).1.1 hsilent, (hiff 31).2 hreasoned hreport⟩

end SheetPolicy

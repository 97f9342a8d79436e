import Mathlib
import SheetPolicy.Rule.Preset
import SheetPolicy.Proofs.Layout
import SheetPolicy.Proofs.Operators
import SheetPolicy.Proofs.Parts
import SheetPolicy.Proofs.Position
import SheetPolicy.Proofs.PseudoScan

/-!
Where violations point. A finding of a rule is about a node of the sheet, and its offset is the
place in the source of what the rule objects to: the weight, the colon of the pseudo-class, what
follows the operator, the start of the style rule. Main statement: `violations_exact`.
-/

namespace SheetPolicy

/-- The kind under which a violation reports a node. -/
def Node.kind : Node → NodeKind
  | .rule _ _ => .rule
  | .atRule _ _ | .atStatement _ => .atRule
  | .declaration _ => .declaration
  | .comment _ => .comment

/-- The finding is about one of the nodes, between characters of the source and within the node,
and points at what `target` says for the node, the key and the offset. -/
def Finding.PointsAt (source : String) (nodes : List Node) (target : Node → String → Nat → Prop) :
    Finding → Prop
  | .invalidOption _ _ => False
  | .policy offset kind key _ _ =>
    ∃ node : Node, node.Occurs nodes ∧ node.kind = kind ∧
      Located.IsCut (Located.ofString source) source.utf8ByteSize offset ∧
      node.span.start ≤ offset ∧ offset ≤ node.span.stop ∧ target node key offset

/-- The violation points at what `target` says: it is about one of the nodes, its offset is between
characters and within the node, and its line and column are those of the offset. A finding that is
allowed without a reason keeps its place under another key. -/
structure Violation.PointsAt (source : String) (nodes : List Node)
    (target : Node → String → Nat → Prop) (v : Violation) : Prop where
  boundary : Sheet.isBoundary source v.location.offset = true
  position : (⟨v.location.line, v.location.column⟩ : Position) =
    Position.counted source v.location.offset
  node : ∃ node : Node, node.Occurs nodes ∧ v.node = some node.kind ∧
    node.span.start ≤ v.location.offset ∧ v.location.offset ≤ node.span.stop ∧
    ∃ key, (v.key = key ∨ v.key = "missing-allow-reason") ∧ target node key v.location.offset

/-- A policy violation is a finding of the rule at the same place. -/
theorem Rule.policy_of_mem_violations {rule : Rule} {severity : Severity} {options : Options}
    {file : SheetFile} {sheet : Sheet} {v : Violation}
    (hv : v ∈ rule.violations severity options file sheet) (hkind : v.kind = .policy) :
    ∃ offset node key message mild,
      Finding.policy offset node key message mild ∈ rule.inspect options sheet ∧
      v.location = Location.ofOffset file.path file.source offset ∧ v.node = some node ∧
      (v.key = key ∨ v.key = "missing-allow-reason") := by
  obtain ⟨finding, hfinding, hv⟩ := List.mem_filterMap.1 hv
  have hviolation := (Finding.violation?_eq_some hv).2
  cases finding with
  | invalidOption key message =>
    rw [hviolation.1] at hkind
    cases hkind
  | policy offset node key message mild =>
    refine ⟨offset, node, key, message, mild, ?_, hviolation.2⟩
    unfold Rule.check at hfinding
    split at hfinding
    · exact hfinding
    · -- Problems of the options are no policy findings.
      obtain ⟨problem, _, heq⟩ := List.mem_map.1 hfinding
      simp [OptionProblem.finding] at heq

/-- If all findings of a rule point at their targets, so do its violations. -/
theorem Rule.violations_pointAt {source : String} {sheet : Sheet}
    (hparse : Sheet.parse source = .ok sheet) {rule : Rule} {options : Options}
    {target : Node → String → Nat → Prop}
    (h : ∀ finding ∈ rule.inspect options sheet, finding.PointsAt source sheet.nodes target)
    {path : String} {severity : Severity} {v : Violation}
    (hv : v ∈ rule.violations severity options (SheetFile.ofSheet path sheet) sheet)
    (hkind : v.kind = .policy) : v.PointsAt source sheet.nodes target := by
  obtain ⟨offset, kind, key, message, mild, hmem, hlocation, hnode, hkey⟩ :=
    policy_of_mem_violations hv hkind
  obtain ⟨node, hoccurs, rfl, hcut, hstart, hstop, htarget⟩ := h _ hmem
  obtain ⟨rfl, _⟩ := Event.parse_reads hparse
  have hoffset : v.location.offset = offset := by rw [hlocation]; rfl
  refine ⟨?_, ?_, node, hoccurs, hnode, ?_⟩
  · rw [hoffset]
    exact Located.isBoundary_iff.2 hcut
  · rw [hlocation]
    exact Position.ofOffset_eq_counted hcut
  · rw [hoffset]
    exact ⟨hstart, hstop, key, hkey, htarget⟩

/-- A place between characters of a node's text is one that a finding may have. -/
theorem Finding.pointsAt_sourceOffset {source : String} {sheet : Sheet}
    (h : Sheet.parse source = .ok sheet) {target : Node → String → Nat → Prop} {node : Node}
    (hnode : node.Occurs sheet.nodes) {e : Excerpt} (he : node.excerpt? = some e)
    {before after : List Located} (htext : Located.ofString e.text = before ++ after)
    {key message : String} {mild : Bool}
    (htarget : target node key (e.sourceOffset (Located.size before))) :
    (Finding.policy (e.sourceOffset (Located.size before)) node.kind key message mild).PointsAt
      source sheet.nodes target := by
  obtain ⟨hcut, hstart, hstop⟩ := (((parse_placed h).2 node hnode).excerpt e he).place htext
  exact ⟨node, hnode, rfl, hcut, hstart, hstop, htarget⟩

theorem occurs_declaration {source : String} {sheet : Sheet} (h : Sheet.parse source = .ok sheet)
    {decl : Declaration} {parent : Parent} (hdecl : (decl, parent) ∈ sheet.declarations) :
    (Node.declaration decl).Occurs sheet.nodes := by
  obtain ⟨node, hoccurs, hitem⟩ :=
    ((visitsOnce_declarations h).complete decl).1 (List.mem_map_of_mem hdecl)
  cases node <;> simp_all [Node.item]

theorem occurs_rule {source : String} {sheet : Sheet} (h : Sheet.parse source = .ok sheet)
    {head : StyleRule} (hhead : head ∈ sheet.rules) :
    ∃ body, (Node.rule head body).Occurs sheet.nodes := by
  obtain ⟨node, hoccurs, hitem⟩ := ((visitsOnce_rules h).complete head).1 hhead
  cases node with
  | rule other body =>
    obtain rfl : other = head := by simpa [Node.item] using hitem
    exact ⟨body, hoccurs⟩
  | _ => simp [Node.item] at hitem

/-! ## Parts of a value -/

namespace Part

/-- The first part of a value that fits: the text has it where its offset says, and the parts before
it, none of which fits, end before it. -/
theorem find?_split {value : String} {fits : Part → Bool} {part : Part}
    (h : (split value).find? fits = some part) :
    fits part = true ∧ ∃ earlier later, split value = earlier ++ part :: later ∧
      (∀ p ∈ earlier, fits p = false ∧ p.offset + p.text.utf8ByteSize ≤ part.offset) ∧
      ∃ before run after, Located.ofString value = before ++ (run ++ after) ∧
        part.text = Located.text run ∧ part.offset = Located.size before := by
  obtain ⟨hfits, earlier, later, hsplit, hearlier⟩ := List.find?_eq_some_iff_append.1 h
  obtain ⟨pieces, hpieces, hparted⟩ := split_parted value
  have hruns := Located.runs_ofString value
  have hapart := hparted.apart hruns
  rw [hpieces] at hsplit ⊢
  obtain ⟨front, back, rfl, rfl, hback⟩ := List.map_eq_append_iff.1 hsplit
  obtain ⟨run, back, rfl, rfl, rfl⟩ := List.map_eq_cons_iff.1 hback
  obtain ⟨hpiece, before, after, hvalue⟩ := hparted.mem (List.mem_append_right front List.mem_cons_self)
  rw [hvalue] at hruns
  have hoffset := offset_of_runs hruns.of_append.2 hpiece.ne_nil
  rw [Nat.zero_add] at hoffset
  refine ⟨hfits, _, _, hsplit, fun p hp => ⟨by simpa using hearlier p hp, ?_⟩, before, run, after,
    hvalue, rfl, hoffset⟩
  obtain ⟨r, hr, rfl⟩ := List.mem_map.1 hp
  have hlt := (List.pairwise_append.1 hapart).2.2 r hr run List.mem_cons_self
  rw [ofRun, Located.utf8ByteSize_text]
  exact hlt.le

end Part

/-! ## Font weights -/

namespace FontWeight

/-- The weight stands in the value where its offset says. It is the whole value of `font-weight`, or
the first part of the value of `font` that can be a weight, after the parts before it. -/
structure Extracts (keywords : Keywords) (decl : Declaration) (weight : Weight) : Prop where
  text : ∃ before after, decl.value.text = before ++ weight.text ++ after ∧
    before.utf8ByteSize = weight.offset
  occurrence :
    (Text.sameLetters decl.prop "font-weight" = true ∧ weight.text = decl.value.text) ∨
      (Text.sameLetters decl.prop "font" = true ∧
        ∃ hasNumber earlier later,
          hasNumber = (Part.split decl.value.text).any (fun p => Value.isNumber p.text) ∧
          Part.split decl.value.text = earlier ++ ⟨weight.text, weight.offset⟩ :: later ∧
          isWeightPart keywords hasNumber weight.text = true ∧
          ∀ p ∈ earlier, isWeightPart keywords hasNumber p.text = false ∧
            p.offset + p.text.utf8ByteSize ≤ weight.offset)

/-- The offset is the place of the weight that a declaration sets; unless the weight is empty, it is
within the declaration and the source has the first byte of the weight there. -/
def Target (keywords : Keywords) (source : String) (node : Node) (_ : String) (offset : Nat) :
    Prop :=
  ∃ decl weight, node = .declaration decl ∧ weightOf? keywords decl = some weight ∧
    Extracts keywords decl weight ∧ offset = decl.value.sourceOffset weight.offset ∧
    (weight.text ≠ "" → offset < decl.span.stop ∧
      ∃ b, (Text.bytes weight.text)[0]? = some b ∧ (Text.bytes source)[offset]? = some b)

/-- Where the weight of a declaration stands in its value. -/
theorem weightOf?_place {keywords : Keywords} {decl : Declaration} {weight : Weight}
    (h : weightOf? keywords decl = some weight) :
    Extracts keywords decl weight ∧
      ∃ before run after, Located.ofString decl.value.text = before ++ (run ++ after) ∧
        weight.text = Located.text run ∧ weight.offset = Located.size before := by
  have hplaced : ∀ {before run after : List Located},
      Located.ofString decl.value.text = before ++ (run ++ after) →
      weight.text = Located.text run → weight.offset = Located.size before →
      ∃ before after, decl.value.text = before ++ weight.text ++ after ∧
        before.utf8ByteSize = weight.offset := by
    intro before run after hvalue htext hoffset
    refine ⟨Located.text before, Located.text after, ?_, ?_⟩
    · rw [htext]
      exact Located.eq_text_append hvalue
    · rw [hoffset, Located.utf8ByteSize_text]
  unfold weightOf? at h
  split at h
  · rename_i hprop
    obtain rfl := by simpa using h
    have hvalue : Located.ofString decl.value.text =
        [] ++ (Located.ofString decl.value.text ++ []) := by simp
    have htext := (Located.text_ofString decl.value.text).symm
    exact ⟨⟨hplaced hvalue htext rfl, .inl ⟨hprop, rfl⟩⟩, _, _, _, hvalue, htext, rfl⟩
  · split at h
    · rename_i hprop
      obtain ⟨part, hpart, rfl⟩ := Option.map_eq_some_iff.1 h
      obtain ⟨hfits, earlier, later, hsplit, hearlier, before, run, after, hvalue, htext,
        hoffset⟩ := Part.find?_split hpart
      exact ⟨⟨hplaced hvalue htext hoffset, .inr ⟨hprop, _, earlier, later, rfl, hsplit, hfits,
        hearlier⟩⟩, before, run, after, hvalue, htext, hoffset⟩
    · simp at h

theorem inspect_pointAt {source : String} {sheet : Sheet} (h : Sheet.parse source = .ok sheet)
    (keywords : Keywords) (options : Options) :
    ∀ finding ∈ inspect keywords options sheet,
      finding.PointsAt source sheet.nodes (Target keywords source) := by
  intro finding hfinding
  unfold inspect at hfinding
  split at hfinding
  · rename_i expected ignored _ _
    obtain ⟨⟨decl, parent⟩, hdecl, hfound⟩ := List.mem_filterMap.1 hfinding
    simp only [finding?, Option.bind_eq_bind, Option.bind_eq_some_iff] at hfound
    obtain ⟨weight, hweight, hfound⟩ := hfound
    split at hfound
    · simp at hfound
    · obtain ⟨fault, _, hfinding⟩ := Option.bind_eq_some_iff.1 hfound
      obtain rfl := by simpa using hfinding
      obtain ⟨hextracts, before, run, after, hvalue, htext, hoffset⟩ := weightOf?_place hweight
      have hoccurs := occurs_declaration h hdecl
      have hfrom := ((parse_placed h).2 _ hoccurs).excerpt decl.value rfl
      rw [hoffset]
      refine Finding.pointsAt_sourceOffset h hoccurs rfl hvalue
        ⟨decl, weight, rfl, hweight, hextracts, by rw [hoffset], fun hne => ?_⟩
      cases run with
      | nil => exact absurd htext hne
      | cons c run =>
        -- The first character of the weight, and so its first byte, is in the source.
        obtain ⟨d, hd, hchar, hplace, hlt⟩ := hfrom.char_place hvalue
        have hbyte := Located.getElem?_bytes_ofString hd d.char.utf8Size_pos
        have hlength : 0 < (String.utf8EncodeChar d.char).length := by
          simpa using d.char.utf8Size_pos
        rw [hplace]
        refine ⟨hlt, (String.utf8EncodeChar d.char)[0], ?_, ?_⟩
        · rw [htext, Located.bytes_text, List.flatMap_cons, ← hchar,
            List.getElem?_append_left hlength, List.getElem?_eq_getElem hlength]
        · rw [← List.getElem?_eq_getElem hlength]
          exact hbyte
  · simp at hfinding

end FontWeight

/-! ## Pseudo-classes -/

namespace PseudoClass

/-- The offset is within the rule. For `rejected` it is the colon of a pseudo-class that is not
listed, for `parse-error` the first character of the selector. -/
def Target (options : Options) (source : String) (node : Node) (key : String) (offset : Nat) :
    Prop :=
  ∃ head body, node = .rule head body ∧ offset < head.span.stop ∧
    ((key = "rejected" ∧
        ∃ allowed selectors pseudo, options.primary.map WordList.ofValue = some (.ok allowed) ∧
          Selector.parse head.selector.text = .ok selectors ∧
          pseudo ∈ Selector.pseudosOfList selectors ∧
          (rejectedName? allowed pseudo.value).isSome = true ∧
          offset = head.selector.sourceOffset pseudo.index ∧
          (∃ before after, head.selector.text = before ++ pseudo.value ++ after ∧
            before.utf8ByteSize = pseudo.index) ∧
          ∃ c ∈ Located.ofString source, c.offset = offset ∧ c.char = ':') ∨
      (key = "parse-error" ∧ (∃ e, Selector.parse head.selector.text = .error e) ∧
        ∃ first rest, head.selector.chars = first :: rest ∧ offset = first.offset))

theorem findings_pointAt {source : String} {sheet : Sheet} (h : Sheet.parse source = .ok sheet)
    {options : Options} {allowed : List WordList.Entry}
    (hallowed : options.primary.map WordList.ofValue = some (.ok allowed)) {head : StyleRule}
    {body : List Node} (hoccurs : (Node.rule head body).Occurs sheet.nodes) :
    ∀ finding ∈ findings allowed head,
      finding.PointsAt source sheet.nodes (Target options source) := by
  intro finding hfinding
  have hfrom := ((parse_placed h).2 _ hoccurs).excerpt head.selector rfl
  simp only [findings] at hfinding
  split at hfinding
  · simp at hfinding
  · rename_i hcolon
    split at hfinding
    · rename_i e herror
      obtain rfl := by simpa using hfinding
      -- The selector has a colon, so it has a first character.
      cases hchars : head.selector.chars with
      | nil =>
        simp [Excerpt.text, hchars, Located.text, Text.contains, Text.splitAtFirst?] at hcolon
      | cons first rest =>
        obtain ⟨hplace, hlt⟩ := hfrom.first_place hchars
        exact Finding.pointsAt_sourceOffset h hoccurs rfl (List.nil_append _).symm
          ⟨head, body, rfl, hplace.trans_lt hlt, .inr ⟨rfl, ⟨e, herror⟩, first, rest, hchars, hplace⟩⟩
    · rename_i selectors hparse
      obtain ⟨pseudo, hpseudo, hfound⟩ := List.mem_filterMap.1 hfinding
      obtain ⟨name, hname, rfl⟩ := Option.map_eq_some_iff.1 hfound
      obtain ⟨before, c, piece, after, htext, hc, hvalue, hindex⟩ :=
        Selector.parse_piece hparse hpseudo
      rw [Located.offset_eq_size htext] at hindex
      obtain ⟨d, hd, hchar, hplace, hlt⟩ := hfrom.char_place htext
      rw [hindex]
      refine Finding.pointsAt_sourceOffset h hoccurs rfl htext
        ⟨head, body, rfl, hplace ▸ hlt, .inl ⟨rfl, allowed, selectors, pseudo, hallowed, hparse,
          hpseudo, by simp [hname], by rw [hindex], ?_, d, hd, hplace.symm, hchar.trans hc⟩⟩
      refine ⟨Located.text before, Located.text after, ?_, ?_⟩
      · rw [hvalue]
        exact Located.eq_text_append htext
      · rw [hindex, Located.utf8ByteSize_text]

theorem inspect_pointAt {source : String} {sheet : Sheet} (h : Sheet.parse source = .ok sheet)
    (options : Options) :
    ∀ finding ∈ inspect options sheet,
      finding.PointsAt source sheet.nodes (Target options source) := by
  intro finding hfinding
  unfold inspect at hfinding
  split at hfinding
  · rename_i allowed hallowed
    obtain ⟨head, hhead, hfinding⟩ := List.mem_flatMap.1 hfinding
    obtain ⟨body, hoccurs⟩ := occurs_rule h hhead
    exact findings_pointAt h hallowed hoccurs finding hfinding
  · simp at hfinding

end PseudoClass

/-! ## Range operators -/

namespace RangeOperator

/-- The offset is within the at-rule and is that of the first character after an operator of a media
query that stands in no comment: `last` ends the operator in the source, and only comments that the
parameters leave out stand between the two. -/
def Target (source : String) (node : Node) (_ : String) (offset : Nat) : Prop :=
  ∃ head, node.item = .atRule head ∧ head.name = "media" ∧ offset < head.span.stop ∧
    ∃ operator ∈ operators head.params.text, offset = head.params.sourceOffset (stopOf operator) ∧
      ∃ before written last first after, head.params.chars =
          before ++ (written ++ last :: first :: after) ∧
        Located.text (written ++ [last]) = Located.text operator ∧
        Located.size before = Located.startOf 0 operator ∧ offset = first.offset ∧
        ∃ front comments back, Located.ofString source =
            front ++ last :: (List.flatten comments ++ first :: back) ∧
          ∀ x ∈ comments, IsComment x

/-- At the end of a text nothing is wrong. -/
theorem fault?_size (text : String) (expected : SpaceAfter) :
    SpaceAfter.fault? text text.utf8ByteSize expected = none := by
  have hnone : SpaceAfter.charAt? text text.utf8ByteSize = none := by
    rw [SpaceAfter.charAt?, Option.map_eq_none_iff, List.find?_eq_none]
    intro c hc
    have := ((Located.runs_ofString text).offset_mem hc).2
    simpa using this
  simp [SpaceAfter.fault?, hnone]

/-- An operator of an excerpt and the character after it, taken back to the source. -/
theorem operator_place {source : String} {low high : Nat} {e : Excerpt}
    (hfrom : e.IsFrom source low high) {front operator back : List Located} {c : Located}
    (hne : operator ≠ []) (h : Located.ofString e.text = (front ++ operator) ++ c :: back) :
    e.sourceOffset (Located.size (front ++ operator)) < high ∧
      ∃ before written last first after, e.chars = before ++ (written ++ last :: first :: after) ∧
        Located.text (written ++ [last]) = Located.text operator ∧
        Located.size before = Located.startOf 0 operator ∧
        e.sourceOffset (Located.size (front ++ operator)) = first.offset ∧
        ∃ xs comments ys, Located.ofString source =
            xs ++ last :: (List.flatten comments ++ first :: ys) ∧ ∀ x ∈ comments, IsComment x := by
  obtain ⟨d, _, _, hd, hlt⟩ := hfrom.char_place h
  refine ⟨hd ▸ hlt, ?_⟩
  obtain ⟨kept, rest, hchars, hkept, hrest, hplace⟩ := Excerpt.split_text h
  obtain ⟨first, after, rfl, _, _⟩ := List.map_eq_cons_iff.1 hrest
  -- The operator as it stands in the source ends with `last`.
  rw [List.map_append] at hkept
  obtain ⟨before, taken, rfl, hbefore, htaken⟩ := List.map_eq_append_iff.1 hkept
  have htakenNe : taken ≠ [] := by
    rintro rfl
    exact hne (by simpa using htaken.symm)
  obtain ⟨written, last, rfl⟩ := (List.eq_nil_or_concat' taken).resolve_left htakenNe
  have hall : e.chars = before ++ (written ++ last :: first :: after) := by simp [hchars]
  obtain ⟨o, operator, rfl⟩ := List.exists_cons_of_ne_nil hne
  have hstart : o.offset = Located.size front := by
    rw [List.append_assoc, List.cons_append] at h
    exact Located.offset_eq_size h
  refine ⟨before, written, last, first, after, hall, ?_, ?_, hplace, ?_⟩
  · rw [Located.text, htaken, ← Located.text]
  · rw [Located.size_eq_of_map_char hbefore, Located.startOf_cons, hstart]
  · have hstretch := hfrom.stretch
    rw [hall, ← List.append_assoc] at hstretch
    exact hstretch.between

theorem findings_pointAt {source : String} {sheet : Sheet} (h : Sheet.parse source = .ok sheet)
    {expected : SpaceAfter} {head : AtRule} {node : Node} (hoccurs : node.Occurs sheet.nodes)
    (hitem : node.item = .atRule head) :
    ∀ finding ∈ findings expected head, finding.PointsAt source sheet.nodes (Target source) := by
  intro finding hfinding
  have hexcerpt : node.excerpt? = some head.params := by
    cases node <;> simp_all [Node.item, Node.excerpt?]
  have hkind : node.kind = .atRule := by
    cases node <;> simp_all [Node.item, Node.kind]
  have hspan : node.span = head.span := by rw [← Node.span_item, hitem]; rfl
  have hfrom := ((parse_placed h).2 _ hoccurs).excerpt head.params hexcerpt
  unfold findings at hfinding
  split at hfinding
  · rename_i hname
    obtain ⟨operator, hoperator, hfound⟩ := List.mem_filterMap.1 hfinding
    obtain ⟨fault, hfault, rfl⟩ := Option.map_eq_some_iff.1 hfound
    obtain ⟨hne, front, back, htext⟩ := mem_operators hoperator
    have hstop := stopOf_eq_size hne htext
    rw [← List.append_assoc] at htext
    cases back with
    | nil =>
      -- Nothing follows an operator at the end, so the rule is silent on it.
      have hsize := (Located.runs_ofString head.params.text).stop_eq
      rw [htext, List.append_nil, ← hstop, Nat.zero_add] at hsize
      rw [← hsize, fault?_size] at hfault
      simp at hfault
    | cons c back =>
      obtain ⟨hlt, htarget⟩ := operator_place hfrom hne htext
      rw [hstop, ← hkind]
      exact Finding.pointsAt_sourceOffset h hoccurs hexcerpt htext
        ⟨head, hitem, hname, hspan ▸ hlt, operator, hoperator, by rw [hstop], htarget⟩
  · simp at hfinding

theorem inspect_pointAt {source : String} {sheet : Sheet} (h : Sheet.parse source = .ok sheet)
    (options : Options) :
    ∀ finding ∈ inspect options sheet, finding.PointsAt source sheet.nodes (Target source) := by
  intro finding hfinding
  unfold inspect at hfinding
  split at hfinding
  · obtain ⟨head, hhead, hfinding⟩ := List.mem_flatMap.1 hfinding
    obtain ⟨node, hoccurs, hitem⟩ := ((visitsOnce_atRules h).complete head).1 hhead
    exact findings_pointAt h hoccurs hitem finding hfinding
  · simp at hfinding

end RangeOperator

/-! ## Rules on one line -/

namespace SingleLine

/-- The offset is the start of the rule. -/
def Target (node : Node) (_ : String) (offset : Nat) : Prop :=
  ∃ head body, node = .rule head body ∧ offset = head.span.start

theorem inspect_pointAt {source : String} {sheet : Sheet} (h : Sheet.parse source = .ok sheet)
    (options : Options) :
    ∀ finding ∈ inspect options sheet, finding.PointsAt source sheet.nodes Target := by
  intro finding hfinding
  obtain ⟨head, hhead, rfl⟩ := List.mem_map.1 hfinding
  obtain ⟨body, hoccurs⟩ := occurs_rule h (List.mem_of_mem_filter hhead)
  have hplaced := (parse_placed h).2 _ hoccurs
  exact ⟨.rule head body, hoccurs, rfl, hplaced.start_cut, le_rfl, hplaced.nonempty.le,
    head, body, rfl, rfl⟩

end SingleLine

/-! ## Main result -/

/-- Every policy violation points at its token: whatever the path, severity, options and keyword
tables, the offset is between characters and within the node reported, line and column are those of
the offset, and the token of the rule stands there. -/
theorem violations_exact {source : String} {sheet : Sheet} (h : Sheet.parse source = .ok sheet)
    (path : String) (severity : Severity) (options : Options) (keywords : Keywords) :
    (∀ v ∈ (FontWeight.rule keywords).violations severity options (SheetFile.ofSheet path sheet)
        sheet,
      v.kind = .policy → v.PointsAt source sheet.nodes (FontWeight.Target keywords source)) ∧
    (∀ v ∈ PseudoClass.rule.violations severity options (SheetFile.ofSheet path sheet) sheet,
      v.kind = .policy → v.PointsAt source sheet.nodes (PseudoClass.Target options source)) ∧
    (∀ v ∈ RangeOperator.rule.violations severity options (SheetFile.ofSheet path sheet) sheet,
      v.kind = .policy → v.PointsAt source sheet.nodes (RangeOperator.Target source)) ∧
    (∀ v ∈ SingleLine.rule.violations severity options (SheetFile.ofSheet path sheet) sheet,
      v.kind = .policy → v.PointsAt source sheet.nodes SingleLine.Target) :=
  ⟨fun _ => Rule.violations_pointAt h (FontWeight.inspect_pointAt h keywords options),
    fun _ => Rule.violations_pointAt h (PseudoClass.inspect_pointAt h options),
    fun _ => Rule.violations_pointAt h (RangeOperator.inspect_pointAt h options),
    fun _ => Rule.violations_pointAt h (SingleLine.inspect_pointAt h options)⟩

/-- Every rule objects to something: a comment after the operator and one within the selector, and a
weight whose text stands in the value before it. -/
def sampleMedia : String :=
  "@media (x >=/*é*/1)\x7b\n é/**/:hover\x7bfont: \"400\" 400\x7d\x7d"

/-- A rule with a primary option reports one policy violation, at `offset`. -/
def Rule.ReportsAt (rule : Rule) (primary : Option String) (sheet : Sheet) (offset : Nat) : Prop :=
  ((rule.violations .error ⟨primary.map .string, none⟩ (SheetFile.ofSheet "a.css" sheet) sheet).map
    fun v => (v.kind, v.location.offset)) = [(.policy, offset)]
deriving Decidable

theorem Rule.ReportsAt.exists_violation {rule : Rule} {primary : Option String} {sheet : Sheet}
    {offset : Nat} (h : rule.ReportsAt primary sheet offset) :
    ∃ v ∈ rule.violations .error ⟨primary.map .string, none⟩ (SheetFile.ofSheet "a.css" sheet)
        sheet,
      v.kind = .policy ∧ v.location.offset = offset := by
  obtain ⟨v, hv, heq⟩ := List.map_eq_singleton_iff.1 h
  obtain ⟨hkind, hoffset⟩ := Prod.mk.inj heq
  exact ⟨v, by simp [hv], hkind, hoffset⟩

theorem parse_sampleMedia : ∃ sheet, Sheet.parse sampleMedia = .ok sheet ∧
    (FontWeight.rule {}).ReportsAt "named-where-possible" sheet 48 ∧
    PseudoClass.rule.ReportsAt "focus" sheet 29 ∧
    RangeOperator.rule.ReportsAt "always" sheet 18 ∧
    SingleLine.rule.ReportsAt none sheet 23 := by
  have hreports : (Sheet.parse sampleMedia).toOption.any (fun sheet =>
      (FontWeight.rule {}).ReportsAt "named-where-possible" sheet 48 ∧
      PseudoClass.rule.ReportsAt "focus" sheet 29 ∧
      RangeOperator.rule.ReportsAt "always" sheet 18 ∧
      SingleLine.rule.ReportsAt none sheet 23) = true := by
    decide +kernel
  cases hparse : Sheet.parse sampleMedia with
  | error e => simp [hparse, Except.toOption] at hreports
  | ok sheet => exact ⟨sheet, rfl, by simpa [hparse, Except.toOption] using hreports⟩

theorem violations_exact_sample : ∃ sheet, Sheet.parse sampleMedia = .ok sheet ∧
    (∃ v ∈ (FontWeight.rule {}).violations .error ⟨some (.string "named-where-possible"), none⟩
        (SheetFile.ofSheet "a.css" sheet) sheet,
      v.kind = .policy ∧ v.location.offset = 48 ∧
        v.PointsAt sampleMedia sheet.nodes (FontWeight.Target {} sampleMedia)) ∧
    (∃ v ∈ PseudoClass.rule.violations .error ⟨some (.string "focus"), none⟩
        (SheetFile.ofSheet "a.css" sheet) sheet,
      v.kind = .policy ∧ v.location.offset = 29 ∧ v.PointsAt sampleMedia sheet.nodes
        (PseudoClass.Target ⟨some (.string "focus"), none⟩ sampleMedia)) ∧
    (∃ v ∈ RangeOperator.rule.violations .error ⟨some (.string "always"), none⟩
        (SheetFile.ofSheet "a.css" sheet) sheet,
      v.kind = .policy ∧ v.location.offset = 18 ∧
        v.PointsAt sampleMedia sheet.nodes (RangeOperator.Target sampleMedia)) ∧
    (∃ v ∈ SingleLine.rule.violations .error ⟨none, none⟩ (SheetFile.ofSheet "a.css" sheet) sheet,
      v.kind = .policy ∧ v.location.offset = 23 ∧
        v.PointsAt sampleMedia sheet.nodes SingleLine.Target) := by
  obtain ⟨sheet, h, hweight, hpseudo, hoperator, hline⟩ := parse_sampleMedia
  obtain ⟨v, hv, hvkind, hvoffset⟩ := hweight.exists_violation
  obtain ⟨w, hw, hwkind, hwoffset⟩ := hpseudo.exists_violation
  obtain ⟨x, hx, hxkind, hxoffset⟩ := hoperator.exists_violation
  obtain ⟨y, hy, hykind, hyoffset⟩ := hline.exists_violation
  exact ⟨sheet, h, ⟨v, hv, hvkind, hvoffset, (violations_exact h _ _ _ _).1 v hv hvkind⟩,
    ⟨w, hw, hwkind, hwoffset, (violations_exact h _ _ _ {}).2.1 w hw hwkind⟩,
    ⟨x, hx, hxkind, hxoffset, (violations_exact h _ _ _ {}).2.2.1 x hx hxkind⟩,
    ⟨y, hy, hykind, hyoffset, (violations_exact h _ _ _ {}).2.2.2 y hy hykind⟩⟩

end SheetPolicy

import Mathlib
import SheetPolicy.Proofs.Located
import SheetPolicy.Proofs.PseudoScan
import SheetPolicy.Proofs.SelectorFailure
import SheetPolicy.Proofs.SelectorScan

/-!
Printed selectors. A list of selectors is given as a tree in which no invalid list can be written
(`ComplexList`), it is printed with a blank or a blank on both sides of a mark for each combinator
and `, ` between selectors, and reading what was printed gives the components of the tree, each
with the number of bytes printed before it (`parse_printed`).

What follows a unit when it is printed ends its name (`Stops`), so a unit is read as it was printed
whatever stands behind it.
-/

namespace SheetPolicy.Selector

/-! ## Trees of selectors -/

/-- A name whose characters need no escape. -/
structure PlainName where
  text : String
  ne_empty : text ≠ ""
  all_isNameChar : text.toList.all isNameChar = true

/-- The text between the brackets of an attribute, without quotes, escapes and brackets. -/
structure PlainAttribute where
  text : String
  plain : text.toList.all (fun c => c ∉ ['"', '\'', '\\', '[', ']']) = true

inductive Colons where
  | one
  | two

def Colons.text : Colons → String
  | one => ":"
  | two => "::"

/-- A simple selector without arguments that may stand at any place of a compound. -/
inductive Leaf where
  | universal
  | nesting
  | className (name : PlainName)
  | idName (name : PlainName)
  | bracketed (inside : PlainAttribute)
  | pseudo (colons : Colons) (name : PlainName)

namespace Leaf

def kind : Leaf → Kind
  | .universal => .universal
  | .nesting => .nesting
  | .className _ => .className
  | .idName _ => .idName
  | .bracketed _ => .attribute
  | .pseudo _ _ => .pseudo

def text : Leaf → String
  | .universal => "*"
  | .nesting => "&"
  | .className name => "." ++ name.text
  | .idName name => "#" ++ name.text
  | .bracketed inside => "[" ++ inside.text ++ "]"
  | .pseudo colons name => colons.text ++ name.text

end Leaf

inductive Combinator where
  | descendant
  | child
  | next
  | subsequent

namespace Combinator

def value : Combinator → String
  | descendant => " "
  | child => ">"
  | next => "+"
  | subsequent => "~"

def text : Combinator → String
  | descendant => " "
  | child => " > "
  | next => " + "
  | subsequent => " ~ "

end Combinator

mutual

/-- A simple selector that is no tag. Only some names take a list of selectors. -/
inductive Qualifier where
  | leaf (unit : Leaf)
  | applied (colons : Colons) (name : PlainName)
      (takes : takesSelectors.contains (Text.withoutVendor (Text.lower name.text)) = true)
      (arguments : ComplexList)

inductive Qualifiers where
  | nil
  | cons (first : Qualifier) (more : Qualifiers)

/-- Simple selectors in a row, of which the first may be a tag. -/
inductive Compound where
  | tagged (tag : PlainName) (more : Qualifiers)
  | plain (first : Qualifier) (more : Qualifiers)

inductive Complex where
  | single (compound : Compound)
  | joined (compound : Compound) (combinator : Combinator) (rest : Complex)

inductive ComplexList where
  | single (selector : Complex)
  | cons (selector : Complex) (more : ComplexList)

end

/-! ## Printing -/

mutual

def Qualifier.print : Qualifier → String
  | .leaf unit => unit.text
  | .applied colons name _ arguments =>
    colons.text ++ name.text ++ "(" ++ arguments.print ++ ")"

def Qualifiers.print : Qualifiers → String
  | .nil => ""
  | .cons first more => first.print ++ more.print

def Compound.print : Compound → String
  | .tagged tag more => tag.text ++ more.print
  | .plain first more => first.print ++ more.print

def Complex.print : Complex → String
  | .single compound => compound.print
  | .joined compound combinator rest => compound.print ++ combinator.text ++ rest.print

def ComplexList.print : ComplexList → String
  | .single selector => selector.print
  | .cons selector more => selector.print ++ ", " ++ more.print

end

mutual

/-- The component of a simple selector that is printed after `before`. -/
def Qualifier.placed (before : String) : Qualifier → Component
  | .leaf unit => .simple ⟨unit.kind, unit.text, before.utf8ByteSize⟩
  | .applied colons name _ arguments =>
    .applied ⟨.pseudo, colons.text ++ name.text, before.utf8ByteSize⟩
      (arguments.placed (before ++ (colons.text ++ name.text ++ "(")))

def Qualifiers.placed (before : String) : Qualifiers → List Component
  | .nil => []
  | .cons first more => first.placed before :: more.placed (before ++ first.print)

def Compound.placed (before : String) : Compound → List Component
  | .tagged tag more =>
    .simple ⟨.tag, tag.text, before.utf8ByteSize⟩ :: more.placed (before ++ tag.text)
  | .plain first more => first.placed before :: more.placed (before ++ first.print)

def Complex.placed (before : String) : Complex → List Component
  | .single compound => compound.placed before
  | .joined compound combinator rest =>
    compound.placed before ++
      .simple ⟨.combinator, combinator.value, (before ++ compound.print).utf8ByteSize⟩ ::
        rest.placed (before ++ (compound.print ++ combinator.text))

/-- The components of a list of selectors that is printed after `before`, each with the number of
bytes that stand before it. A combinator starts with the blank before its mark. -/
def ComplexList.placed (before : String) : ComplexList → List (List Component)
  | .single selector => [selector.placed before]
  | .cons selector more =>
    selector.placed before :: more.placed (before ++ (selector.print ++ ", "))

end

/-! ## Texts behind other texts -/

/-- The characters of a text that stands behind `before`. -/
def written (before s : String) : List Located :=
  Located.place before.utf8ByteSize s.toList

theorem written_append (before s t : String) :
    written before (s ++ t) = written before s ++ written (before ++ s) t := by
  rw [written, String.toList_append, Located.place_append, Located.size_place_toList, written,
    written, String.utf8ByteSize_append]

@[simp] theorem text_written (before s : String) : Located.text (written before s) = s := by
  simp [written, Located.text]

theorem mem_of_mem_written {before s : String} {c : Located} (h : c ∈ written before s) :
    c.char ∈ s.toList := by
  rw [← text_written before s, Located.text, String.toList_ofList]
  exact List.mem_map_of_mem h

/-- A text of one character. -/
theorem written_mark (before s : String) (c : Char) (h : s.toList = [c]) :
    written before s = [⟨before.utf8ByteSize, c⟩] := by
  simp [written, h, Located.place]

theorem ofString_eq_written (s : String) : Located.ofString s = written "" s := rfl

/-! ## Units -/

/-- The characters that start a unit other than a tag. -/
def signs : List Char :=
  ['*', '&', '.', '#', '[', ':']

/-- What may follow a unit: another unit of its compound, a blank, or the end of the selector. -/
def Stops (rest : List Located) : Prop :=
  ∀ c ∈ rest.head?, c.char ∈ signs ∨ c.char = ' ' ∨ c.char = ',' ∨ c.char = ')'

/-- A name ends here. -/
def EndsName (rest : List Located) : Prop :=
  ∀ c ∈ rest.head?, isNameChar c.char = false ∧ c.char ≠ '\\'

theorem not_isNameChar_of_mem_signs {c : Char} (h : c ∈ signs) :
    isNameChar c = false ∧ c ≠ '\\' := by
  simp only [signs, List.mem_cons, List.not_mem_nil, or_false] at h
  rcases h with rfl | rfl | rfl | rfl | rfl | rfl <;> decide

theorem Stops.endsName {rest : List Located} (h : Stops rest) : EndsName rest := by
  intro c hc
  rcases h c hc with hsign | heq | heq | heq
  · exact not_isNameChar_of_mem_signs hsign
  all_goals rw [heq]; decide

theorem ne_of_isNameChar {c d : Char} (hc : isNameChar c = true) (hd : isNameChar d = false) :
    c ≠ d := by
  rintro rfl
  simp [hc] at hd

theorem name_append_of_endsName {body rest : List Located}
    (hbody : ∀ c ∈ body, isNameChar c.char = true) (hrest : EndsName rest) :
    name (body ++ rest) = (body, rest) := by
  induction body with
  | nil =>
    cases rest with
    | nil => rfl
    | cons c rest =>
      obtain ⟨hname, hescape⟩ := hrest c rfl
      rw [List.nil_append, name.eq_def]
      simp [hname, hescape]
  | cons c body ih =>
    have hc := hbody c List.mem_cons_self
    have hescape : c.char ≠ '\\' := ne_of_isNameChar hc (by decide)
    rw [List.cons_append, name.eq_def]
    simp [hescape, hc, ih fun d hd => hbody d (List.mem_cons_of_mem _ hd)]

namespace PlainName

variable (n : PlainName) (before : String)

theorem written_ne_nil : written before n.text ≠ [] := by
  intro hnil
  exact n.ne_empty (by rw [← text_written before n.text, hnil]; rfl)

theorem isNameChar_written : ∀ c ∈ written before n.text, isNameChar c.char = true :=
  fun c hc => List.all_eq_true.1 n.all_isNameChar c.char (mem_of_mem_written hc)

theorem name_written {rest : List Located} (hrest : EndsName rest) :
    name (written before n.text ++ rest) = (written before n.text, rest) :=
  name_append_of_endsName (n.isNameChar_written before) hrest

end PlainName

/-- The brackets of an attribute without quotes, escapes and brackets are a group. -/
theorem group_attribute (start stop : Nat) {inside rest : List Located}
    (hinside : ∀ c ∈ inside, c.char ∉ ['"', '\'', '\\', '[', ']']) :
    group '[' ']' 0 none (⟨start, '['⟩ :: (inside ++ ⟨stop, ']'⟩ :: rest)) =
      some (⟨start, '['⟩ :: (inside ++ [⟨stop, ']'⟩]), rest) := by
  have hgroup : group '[' ']' 1 none (inside ++ ⟨stop, ']'⟩ :: rest) =
      some (inside ++ [⟨stop, ']'⟩], rest) := by
    induction inside with
    | nil => simp [group.eq_def]
    | cons c inside ih =>
      have hc := hinside c List.mem_cons_self
      simp only [List.mem_cons, List.not_mem_nil, or_false, not_or] at hc
      obtain ⟨hdouble, hsingle, hescape, hleft, hright⟩ := hc
      rw [List.cons_append, group.eq_def]
      simp [hescape, hright, hleft, hdouble, hsingle, depthAfter, quoteAfter,
        ih fun d hd => hinside d (List.mem_cons_of_mem _ hd)]
  rw [group.eq_def]
  simp [depthAfter, quoteAfter, hgroup]

/-- The name after colons, where nothing opens behind it. -/
theorem named_unit {index : Nat} {colons body rest : List Located} (hne : body ≠ [])
    (hbody : ∀ c ∈ body, isNameChar c.char = true) (hrest : Stops rest) :
    Event.named index colons (body ++ rest) =
      .ok (.unit ⟨.pseudo, Located.text (colons ++ body), index⟩, rest) := by
  obtain ⟨b, body, rfl⟩ := List.exists_cons_of_ne_nil hne
  rw [Event.named, name_append_of_endsName hbody hrest.endsName]
  cases rest with
  | nil => rfl
  | cons c rest =>
    have hparen : c.char ≠ '(' := by
      intro heq
      have hc := hrest c rfl
      rw [heq] at hc
      simp [signs] at hc
    simp only [if_neg hparen]

/-- The name of a pseudo-class that takes selectors, before its parenthesis. -/
theorem named_opens {index : Nat} {colons body rest : List Located} {paren : Located}
    (hne : body ≠ []) (hbody : ∀ c ∈ body, isNameChar c.char = true) (hparen : paren.char = '(')
    (htakes : takesList body = true) :
    Event.named index colons (body ++ paren :: rest) =
      .ok (.opens ⟨.pseudo, Located.text (colons ++ body), index⟩ paren.offset, rest) := by
  have hends : EndsName (paren :: rest) := by
    rintro c ⟨⟩
    rw [hparen]
    decide +kernel
  obtain ⟨b, body, rfl⟩ := List.exists_cons_of_ne_nil hne
  rw [takesList] at htakes
  rw [Event.named, name_append_of_endsName hbody hends]
  simp only [if_pos hparen, if_pos htakes]

/-- One colon or two are read before a name. -/
theorem PlainName.ofStart_colons (n : PlainName) (colons : Colons) (before : String)
    (rest : List Located) : ∃ c tail,
      written before (colons.text ++ n.text) ++ rest = c :: tail ∧
        Event.ofStart c tail = Event.named before.utf8ByteSize (written before colons.text)
          (written (before ++ colons.text) n.text ++ rest) := by
  have hchars := n.isNameChar_written (before ++ colons.text)
  obtain ⟨b, body, hbody⟩ := List.exists_cons_of_ne_nil (n.written_ne_nil (before ++ colons.text))
  rw [written_append, hbody]
  rw [hbody] at hchars
  cases colons with
  | one =>
    have hb : b.char ≠ ':' := ne_of_isNameChar (hchars b List.mem_cons_self) (by decide)
    rw [Colons.text, written_mark before ":" ':' rfl]
    exact ⟨_, _, rfl, by simp [Event.ofStart, Event.ofPseudo, hb]⟩
  | two =>
    have hcolons : written before "::" =
        [⟨before.utf8ByteSize, ':'⟩, ⟨before.utf8ByteSize + ':'.utf8Size, ':'⟩] := by
      simp [written, Located.place]
    rw [Colons.text, hcolons]
    exact ⟨_, _, rfl, by simp [Event.ofStart, Event.ofPseudo]⟩

variable {size : Nat}

/-- A unit is passed where it can be read. -/
theorem passes_of_ofStart {c : Located} {tail rest : List Located} {unit : Simple}
    (h : Event.ofStart c tail = .ok (.unit unit, rest)) : Passes size (c :: tail) unit rest := by
  obtain ⟨hbetween, hclose⟩ := Event.ofStart_ok h
  simp only [Event.IsBetween, not_or] at hbetween
  exact fun parens fresh => scan_start (by tauto) (by tauto) h

theorem enters_of_ofStart {paren : Nat} {c : Located} {tail inner : List Located}
    {pseudo : Simple} (h : Event.ofStart c tail = .ok (.opens pseudo paren, inner)) :
    Enters size (c :: tail) pseudo paren inner := by
  obtain ⟨hbetween, hclose⟩ := Event.ofStart_ok h
  simp only [Event.IsBetween, not_or] at hbetween
  exact fun parens fresh => scan_start (by tauto) (by tauto) h

/-- A class or an identifier. -/
theorem PlainName.passes_marked (n : PlainName) (before mark : String) {c : Char}
    {rest : List Located} (hmark : mark.toList = [c]) (hc : c = '.' ∨ c = '#')
    (hrest : EndsName rest) :
    Passes size (written before (mark ++ n.text) ++ rest)
      ⟨if c = '.' then .className else .idName, mark ++ n.text, before.utf8ByteSize⟩ rest := by
  have hwritten : written before (mark ++ n.text) =
      ⟨before.utf8ByteSize, c⟩ :: written (before ++ mark) n.text := by
    rw [written_append, written_mark before mark c hmark, List.singleton_append]
  have hname := n.name_written (before ++ mark) hrest
  obtain ⟨b, body, hbody⟩ := List.exists_cons_of_ne_nil (n.written_ne_nil (before ++ mark))
  have hvalue := text_written before (mark ++ n.text)
  rw [hwritten] at hvalue ⊢
  rw [hbody] at hname hvalue ⊢
  rw [List.cons_append]
  refine passes_of_ofStart ?_
  rw [Event.ofStart, if_pos hc, hname]
  simp only [hvalue]

theorem PlainName.passes_pseudo (n : PlainName) (colons : Colons) (before : String)
    {rest : List Located} (hrest : Stops rest) :
    Passes size (written before (colons.text ++ n.text) ++ rest)
      ⟨.pseudo, colons.text ++ n.text, before.utf8ByteSize⟩ rest := by
  obtain ⟨c, tail, hcs, hstart⟩ := n.ofStart_colons colons before rest
  rw [hcs]
  refine passes_of_ofStart (hstart.trans ?_)
  rw [named_unit (n.written_ne_nil _) (n.isNameChar_written _) hrest, ← written_append,
    text_written]

theorem PlainName.enters_pseudo (n : PlainName) (colons : Colons) (before : String)
    {paren : Located} {inner : List Located} (hparen : paren.char = '(')
    (htakes : takesSelectors.contains (Text.withoutVendor (Text.lower n.text)) = true) :
    Enters size (written before (colons.text ++ n.text) ++ paren :: inner)
      ⟨.pseudo, colons.text ++ n.text, before.utf8ByteSize⟩ paren.offset inner := by
  have hlist : takesList (written (before ++ colons.text) n.text) = true := by
    rw [takesList, text_written]
    exact htakes
  obtain ⟨c, tail, hcs, hstart⟩ := n.ofStart_colons colons before (paren :: inner)
  rw [hcs]
  refine enters_of_ofStart (hstart.trans ?_)
  rw [named_opens (n.written_ne_nil _) (n.isNameChar_written _) hparen hlist, ← written_append,
    text_written]

theorem PlainAttribute.passes (a : PlainAttribute) (before : String)
    (rest : List Located) :
    Passes size (written before ("[" ++ a.text ++ "]") ++ rest)
      ⟨.attribute, "[" ++ a.text ++ "]", before.utf8ByteSize⟩ rest := by
  have hinside : ∀ c ∈ written (before ++ "[") a.text,
      c.char ∉ ['"', '\'', '\\', '[', ']'] :=
    fun c hc => of_decide_eq_true (List.all_eq_true.1 a.plain c.char (mem_of_mem_written hc))
  have hwritten : written before ("[" ++ a.text ++ "]") =
      ⟨before.utf8ByteSize, '['⟩ :: (written (before ++ "[") a.text ++
        [⟨(before ++ ("[" ++ a.text)).utf8ByteSize, ']'⟩]) := by
    rw [written_append, written_append, written_mark before "[" '[' rfl,
      written_mark _ "]" ']' rfl]
    rfl
  have hvalue := text_written before ("[" ++ a.text ++ "]")
  rw [hwritten] at hvalue ⊢
  rw [List.cons_append, List.append_assoc, List.singleton_append]
  refine passes_of_ofStart ?_
  rw [← hvalue]
  simp [Event.ofStart, group_attribute _ _ hinside]

theorem Leaf.passes (unit : Leaf) (before : String) {rest : List Located}
    (hrest : Stops rest) :
    Passes size (written before unit.text ++ rest)
      ⟨unit.kind, unit.text, before.utf8ByteSize⟩ rest := by
  cases unit with
  | universal =>
    rw [Leaf.text, written_mark before "*" '*' rfl]
    exact passes_of_ofStart (by simp [Event.ofStart, Leaf.kind])
  | nesting =>
    rw [Leaf.text, written_mark before "&" '&' rfl]
    exact passes_of_ofStart (by simp [Event.ofStart, Leaf.kind])
  | className name => exact name.passes_marked before "." rfl (.inl rfl) hrest.endsName
  | idName name => exact name.passes_marked before "#" rfl (.inr rfl) hrest.endsName
  | bracketed inside => exact inside.passes before rest
  | pseudo colons name => exact name.passes_pseudo colons before hrest

theorem PlainName.passes_tag (n : PlainName) (before : String) {rest : List Located}
    (hrest : Stops rest) :
    Passes size (written before n.text ++ rest) ⟨.tag, n.text, before.utf8ByteSize⟩ rest := by
  have hvalue := text_written before n.text
  have hruns := Located.runs_place_toList before.utf8ByteSize n.text
  have hchars := n.isNameChar_written before
  rw [← written] at hruns
  obtain ⟨c, body, hbody⟩ := List.exists_cons_of_ne_nil (n.written_ne_nil before)
  rw [hbody] at hvalue hruns hchars ⊢
  obtain ⟨hoffset, _⟩ := hruns
  have hc := hchars c List.mem_cons_self
  have hname : name (body ++ rest) = (body, rest) :=
    name_append_of_endsName (fun d hd => hchars d (List.mem_cons_of_mem _ hd)) hrest.endsName
  have hsign : ∀ d ∈ signs, c.char ≠ d := fun d hd =>
    ne_of_isNameChar hc (not_isNameChar_of_mem_signs hd).1
  rw [List.cons_append]
  refine passes_of_ofStart ?_
  simp only [signs, List.forall_mem_cons] at hsign
  simp [Event.ofStart, hsign, hc, hname, hvalue, hoffset]

/-! ## Between units -/

/-- A unit starts here. -/
def Starts (cs : List Located) : Prop :=
  ∃ c tail, cs = c :: tail ∧ (isNameChar c.char = true ∨ c.char ∈ signs)

/-- Neither a combinator nor the end of a selector starts a unit. -/
theorem Starts.exists_cons {cs : List Located} (h : Starts cs) : ∃ c tail, cs = c :: tail ∧
    Text.isSpace c.char = false ∧ isCombinator c.char = false ∧ c.char ≠ ',' ∧ c.char ≠ ')' := by
  obtain ⟨c, tail, rfl, hc⟩ := h
  refine ⟨c, tail, rfl, ?_⟩
  rcases hc with hname | hsign
  · have hne : ∀ d, isNameChar d = false → c.char ≠ d := fun d hd => ne_of_isNameChar hname hd
    simp (disch := decide) [Text.isSpace, isCombinator, hne]
  · simp only [signs, List.mem_cons, List.not_mem_nil, or_false] at hsign
    rcases hsign with heq | heq | heq | heq | heq | heq <;> rw [heq] <;> decide

theorem Starts.skipSpace_eq {cs : List Located} (h : Starts cs) : skipSpace cs = cs := by
  obtain ⟨c, tail, rfl, hspace, _⟩ := h.exists_cons
  rw [skipSpace_cons, hspace]
  rfl

theorem Starts.skipSpace_blank {cs : List Located} (h : Starts cs) (o : Nat) :
    skipSpace (⟨o, ' '⟩ :: cs) = cs := by
  rw [skipSpace_cons]
  exact h.skipSpace_eq

/-- A blank before a unit. -/
theorem gap_blank (o : Nat) {rest : List Located} (hrest : Starts rest) :
    gap ⟨o, ' '⟩ rest = (some ⟨.combinator, " ", o⟩, rest) := by
  have hskip := hrest.skipSpace_blank o
  obtain ⟨c, tail, rfl, _, hcombinator, hcomma, hclose⟩ := hrest.exists_cons
  simp [gap, hskip, hcombinator, hcomma, hclose]

/-- A mark between two blanks. -/
theorem gap_mark (o p q : Nat) {k : Char} {rest : List Located} (hk : isCombinator k = true)
    (hrest : Starts rest) :
    gap ⟨o, ' '⟩ (⟨p, k⟩ :: ⟨q, ' '⟩ :: rest) = (some ⟨.combinator, k.toString, o⟩, rest) := by
  have hskip : skipSpace (⟨o, ' '⟩ :: ⟨p, k⟩ :: ⟨q, ' '⟩ :: rest) = ⟨p, k⟩ :: ⟨q, ' '⟩ :: rest := by
    rw [skipSpace_cons, skipSpace_cons, isSpace_of_isCombinator hk]
    rfl
  simp [gap, hskip, hk, hrest.skipSpace_blank q]

theorem Combinator.passes (k : Combinator) (before : String) {rest : List Located}
    (hrest : Starts rest) :
    Passes size (written before k.text ++ rest) ⟨.combinator, k.value, before.utf8ByteSize⟩
      rest := by
  have hmark : ∀ (s : String) (m : Char), s.toList = [' ', m, ' '] → isCombinator m = true →
      Passes size (written before s ++ rest) ⟨.combinator, m.toString, before.utf8ByteSize⟩
        rest := by
    intro s m hs hm parens fresh
    rw [written, hs]
    simp only [Located.place, List.cons_append, List.nil_append]
    rw [scan_gap (.inl rfl), gap_mark _ _ _ hm hrest]
  cases k with
  | descendant =>
    intro parens fresh
    rw [Combinator.text, written_mark before " " ' ' rfl, List.singleton_append,
      scan_gap (.inl rfl), gap_blank _ hrest]
    rfl
  | child => exact hmark " > " '>' rfl rfl
  | next => exact hmark " + " '+' rfl rfl
  | subsequent => exact hmark " ~ " '~' rfl rfl

/-! ## What a printed tree starts with -/

theorem Colons.head_text (colons : Colons) : ∃ tail, colons.text.toList = ':' :: tail := by
  cases colons with
  | one => exact ⟨[], rfl⟩
  | two => exact ⟨[':'], rfl⟩

theorem Qualifier.head_print (q : Qualifier) : ∃ c ∈ signs, ∃ tail, q.print.toList = c :: tail := by
  cases q with
  | leaf unit =>
    cases unit with
    | universal => exact ⟨'*', by simp [signs], [], rfl⟩
    | nesting => exact ⟨'&', by simp [signs], [], rfl⟩
    | className name =>
      exact ⟨'.', by simp [signs], name.text.toList, by simp [Qualifier.print, Leaf.text]⟩
    | idName name =>
      exact ⟨'#', by simp [signs], name.text.toList, by simp [Qualifier.print, Leaf.text]⟩
    | bracketed inside =>
      exact ⟨'[', by simp [signs], inside.text.toList ++ [']'],
        by simp [Qualifier.print, Leaf.text]⟩
    | pseudo colons name =>
      obtain ⟨tail, htail⟩ := colons.head_text
      exact ⟨':', by simp [signs], tail ++ name.text.toList,
        by simp [Qualifier.print, Leaf.text, htail]⟩
  | applied colons name takes arguments =>
    obtain ⟨tail, htail⟩ := colons.head_text
    exact ⟨':', by simp [signs], _, by simp [Qualifier.print, htail]; rfl⟩

theorem Qualifier.head_written (q : Qualifier) (before : String) (rest : List Located) :
    ∃ c tail, written before q.print ++ rest = c :: tail ∧ c.char ∈ signs := by
  obtain ⟨c, hc, tail, htail⟩ := q.head_print
  rw [written, htail]
  exact ⟨_, _, rfl, hc⟩

theorem Qualifiers.stops (more : Qualifiers) (before : String) {rest : List Located}
    (hrest : Stops rest) : Stops (written before more.print ++ rest) := by
  cases more with
  | nil => exact hrest
  | cons first more =>
    rw [Qualifiers.print, written_append, List.append_assoc]
    obtain ⟨c, tail, hcs, hc⟩ :=
      first.head_written before (written (before ++ first.print) more.print ++ rest)
    rw [hcs]
    rintro d ⟨⟩
    exact .inl hc

theorem Combinator.stops (k : Combinator) (before : String) (rest : List Located) :
    Stops (written before k.text ++ rest) := by
  have hblank : ∃ tail, k.text.toList = ' ' :: tail := by
    cases k <;> exact ⟨_, rfl⟩
  obtain ⟨tail, htail⟩ := hblank
  rw [written, htail]
  rintro c ⟨⟩
  exact .inr (.inl rfl)

theorem EndsSelector.stops {rest : List Located} (h : EndsSelector rest) : Stops rest := by
  intro c hc
  rcases h c hc with heq | heq
  · exact .inr (.inr (.inl heq))
  · exact .inr (.inr (.inr heq))

theorem Compound.starts (compound : Compound) (before : String) (rest : List Located) :
    Starts (written before compound.print ++ rest) := by
  cases compound with
  | tagged tag more =>
    rw [Compound.print, written_append, List.append_assoc]
    obtain ⟨c, body, hbody⟩ := List.exists_cons_of_ne_nil (tag.written_ne_nil before)
    have hc := tag.isNameChar_written before c (by rw [hbody]; exact List.mem_cons_self)
    rw [hbody]
    exact ⟨c, _, rfl, .inl hc⟩
  | plain first more =>
    rw [Compound.print, written_append, List.append_assoc]
    obtain ⟨c, tail, hcs, hc⟩ :=
      first.head_written before (written (before ++ first.print) more.print ++ rest)
    exact ⟨c, tail, hcs, .inr hc⟩

theorem Complex.starts (selector : Complex) (before : String) (rest : List Located) :
    Starts (written before selector.print ++ rest) := by
  cases selector with
  | single compound =>
    rw [Complex.print]
    exact compound.starts before rest
  | joined compound combinator more =>
    rw [Complex.print, String.append_assoc, written_append, List.append_assoc]
    exact compound.starts before _

theorem ComplexList.starts (list : ComplexList) (before : String) (rest : List Located) :
    Starts (written before list.print ++ rest) := by
  cases list with
  | single selector =>
    rw [ComplexList.print]
    exact selector.starts before rest
  | cons selector more =>
    rw [ComplexList.print, String.append_assoc, written_append, List.append_assoc]
    exact selector.starts before _

/-! ## Reading what was printed -/

theorem Complex.placed_ne_nil (selector : Complex) (before : String) :
    selector.placed before ≠ [] := by
  have hcompound : ∀ compound : Compound, compound.placed before ≠ [] := by
    intro compound
    cases compound <;> simp [Compound.placed]
  cases selector with
  | single compound =>
    rw [Complex.placed]
    exact hcompound compound
  | joined compound combinator rest => simp [Complex.placed]

/-- The end of a selector has no component. -/
theorem EndsSelector.spans {rest : List Located} (h : EndsSelector rest) :
    Spans size rest [] rest := by
  have hskip : skipSpace rest = rest := by
    cases rest with
    | nil => rfl
    | cons c rest =>
      rw [skipSpace_cons]
      rcases h c rfl with heq | heq <;> rw [heq] <;> rfl
  have hspans : Spans size rest [] (skipSpace rest) :=
    .blanks (by rwa [hskip]) fun parens fresh => by rw [hskip]
  rwa [hskip] at hspans

theorem Spans.events {cs after : List Located} {components : List Component}
    (h : Spans size cs components after) (hne : components ≠ []) :
    ∃ events, Prepends events components ∧ ∀ parens, Event.scan size parens true cs =
      (Event.scan size parens false after).map (events ++ ·) := by
  obtain ⟨events, hscan, hfold⟩ := h.scan
  refine ⟨events, hfold, fun parens => ?_⟩
  rw [hscan, List.isEmpty_eq_false_iff.2 hne, Bool.and_false]

theorem leaves_of_scan {paren : Nat} {cs rest : List Located} {close : Located}
    {events : List Event} (hstarts : Starts cs) (hclose : close.char = ')')
    (hscan : ∀ parens, Event.scan size parens true cs =
      (Event.scan size parens false (close :: rest)).map (events ++ ·)) :
    Leaves size cs paren events rest := by
  intro parens
  rw [hstarts.skipSpace_eq, hscan, scan_close hclose]
  cases Event.scan size parens false rest with
  | error e => rfl
  | ok later => simp [Except.map]

theorem written_application (before head inner : String) (rest : List Located) :
    written before (head ++ "(" ++ inner ++ ")") ++ rest =
      written before head ++ ⟨(before ++ head).utf8ByteSize, '('⟩ ::
        (written (before ++ (head ++ "(")) inner ++
          ⟨(before ++ (head ++ "(" ++ inner)).utf8ByteSize, ')'⟩ :: rest) := by
  rw [written_append, written_append, written_append, written_mark _ "(" '(' rfl,
    written_mark _ ")" ')' rfl]
  simp only [List.append_assoc, List.cons_append, List.nil_append]

theorem written_comma (before s t : String) (rest : List Located) :
    written before (s ++ ", " ++ t) ++ rest =
      written before s ++ ⟨(before ++ s).utf8ByteSize, ','⟩ ::
        ⟨(before ++ s).utf8ByteSize + ','.utf8Size, ' '⟩ ::
          (written (before ++ (s ++ ", ")) t ++ rest) := by
  have hcomma : written (before ++ s) ", " =
      [⟨(before ++ s).utf8ByteSize, ','⟩, ⟨(before ++ s).utf8ByteSize + ','.utf8Size, ' '⟩] := by
    simp [written, Located.place]
  rw [written_append, written_append, hcomma]
  simp only [List.append_assoc, List.cons_append, List.nil_append]

mutual

theorem Qualifier.spans (q : Qualifier) (before : String)
    {rest after : List Located} {components : List Component} (hrest : Stops rest)
    (h : Spans size rest components after) :
    Spans size (written before q.print ++ rest) (q.placed before :: components) after := by
  cases q with
  | leaf unit =>
    rw [Qualifier.print, Qualifier.placed]
    exact .unit (unit.passes before hrest) (List.suffix_append _ _) h
  | applied colons name takes arguments =>
    -- the arguments are read up to the parenthesis that closes them, then what follows it
    rw [Qualifier.print, written_application, Qualifier.placed]
    have hends : EndsSelector (⟨(before ++ (colons.text ++ name.text ++ "(" ++
        arguments.print)).utf8ByteSize, ')'⟩ :: rest) := by simp [EndsSelector]
    obtain ⟨events, first, more, hplaced, hlist, hscan⟩ := arguments.reads _ hends
    rw [hplaced]
    exact .applied (name.enters_pseudo colons before rfl takes)
      (leaves_of_scan (arguments.starts _ _) rfl hscan) hlist
      ((List.suffix_cons ..).trans <| (List.suffix_append ..).trans <|
        (List.suffix_cons ..).trans <| List.suffix_append ..) h

theorem Qualifiers.spans (more : Qualifiers) (before : String)
    {rest after : List Located} {components : List Component} (hrest : Stops rest)
    (h : Spans size rest components after) :
    Spans size (written before more.print ++ rest) (more.placed before ++ components) after := by
  cases more with
  | nil => exact h
  | cons first more =>
    -- behind the first unit stands another one, or what stands behind all of them
    rw [Qualifiers.print, written_append, List.append_assoc]
    exact first.spans before (more.stops _ hrest) (more.spans _ hrest h)

theorem Compound.spans (compound : Compound) (before : String)
    {rest after : List Located} {components : List Component} (hrest : Stops rest)
    (h : Spans size rest components after) :
    Spans size (written before compound.print ++ rest) (compound.placed before ++ components)
      after := by
  cases compound with
  | tagged tag more =>
    rw [Compound.print, written_append, List.append_assoc]
    exact .unit (tag.passes_tag before (more.stops _ hrest)) (List.suffix_append _ _)
      (more.spans _ hrest h)
  | plain first more =>
    rw [Compound.print, written_append, List.append_assoc]
    exact first.spans before (more.stops _ hrest) (more.spans _ hrest h)

theorem Complex.spans (selector : Complex) (before : String) {rest : List Located}
    (hrest : EndsSelector rest) :
    Spans size (written before selector.print ++ rest) (selector.placed before) rest := by
  cases selector with
  | single compound =>
    have hspans : Spans size _ (compound.placed before ++ []) rest :=
      compound.spans before hrest.stops hrest.spans
    rwa [List.append_nil] at hspans
  | joined compound combinator more =>
    rw [Complex.print, written_append, written_append, List.append_assoc, List.append_assoc]
    exact compound.spans before (combinator.stops _ _)
      (.unit (combinator.passes _ (more.starts _ _)) (List.suffix_append _ _) (more.spans _ hrest))

theorem ComplexList.reads (list : ComplexList) (before : String)
    {rest : List Located} (hrest : EndsSelector rest) : ∃ events first more,
      list.placed before = first :: more ∧ IsList events first more ∧
        ∀ parens, Event.scan size parens true (written before list.print ++ rest) =
          (Event.scan size parens false rest).map (events ++ ·) := by
  cases list with
  | single selector =>
    obtain ⟨events, hfold, hscan⟩ := (selector.spans before hrest).events
      (selector.placed_ne_nil before)
    exact ⟨events, _, [], rfl, isList_single hfold, hscan⟩
  | cons selector more =>
    rw [ComplexList.print, written_comma, ComplexList.placed]
    have hends : EndsSelector (⟨(before ++ selector.print).utf8ByteSize, ','⟩ ::
        ⟨(before ++ selector.print).utf8ByteSize + ','.utf8Size, ' '⟩ ::
          (written (before ++ (selector.print ++ ", ")) more.print ++ rest)) := by
      simp [EndsSelector]
    obtain ⟨events, hfold, hscan⟩ := (selector.spans before hends).events
      (selector.placed_ne_nil before)
    obtain ⟨later, first, others, hplaced, hlist, hlater⟩ := more.reads _ hrest
    refine ⟨events ++ .comma :: later, _, _, rfl, hplaced ▸ isList_comma hfold hlist,
      fun parens => ?_⟩
    rw [hscan, scan_comma rfl, (more.starts _ _).skipSpace_blank, hlater]
    cases Event.scan size parens false rest with
    | error e => rfl
    | ok events' => simp [Except.map]

end

theorem parse_print_eq (list : ComplexList) : parse list.print = .ok (list.placed "") := by
  have hends : EndsSelector [] := by simp [EndsSelector]
  obtain ⟨events, first, more, hplaced, hlist, hscan⟩ := list.reads "" hends
  have hstarts := list.starts "" []
  rw [List.append_nil] at hstarts hscan
  rw [parse, ofString_eq_written, hstarts.skipSpace_eq, hscan, hplaced, Event.scan.eq_def]
  simp [Except.map, selectors, hlist []]

/-! ## Where components were printed -/

/-- The value of a unit, if it is no combinator, stands in the text where its index says. -/
def Simple.StandsIn (unit : Simple) (text : String) : Prop :=
  unit.kind ≠ .combinator → ∃ before after,
    text = before ++ unit.value ++ after ∧ unit.index = before.utf8ByteSize

/-- The component is `c` or stands, at any depth, in an argument of it. -/
def Component.Within (d c : Component) : Prop :=
  d = c ∨ ∃ pseudo arguments, c = .applied pseudo arguments ∧ d.Occurs arguments

theorem Component.Occurs.within {d : Component} {list : List (List Component)}
    (h : d.Occurs list) : ∃ selector ∈ list, ∃ c ∈ selector, d.Within c := by
  cases h with
  | here hselector hd => exact ⟨_, hselector, d, hd, .inl rfl⟩
  | inside hselector happlied hd => exact ⟨_, hselector, _, happlied, .inr ⟨_, _, rfl, hd⟩⟩

/-- All that is within the components stands where its index says. -/
def AllStand (text : String) (components : List Component) : Prop :=
  ∀ c ∈ components, ∀ d : Component, d.Within c → d.head.StandsIn text

theorem allStand_simple {text : String} {unit : Simple} (h : unit.StandsIn text) :
    AllStand text [.simple unit] := by
  rintro c hc d hd
  obtain rfl := List.mem_singleton.1 hc
  rcases hd with rfl | ⟨_, _, hsimple, _⟩
  · exact h
  · cases hsimple

theorem allStand_append {text : String} {xs ys : List Component} (hxs : AllStand text xs)
    (hys : AllStand text ys) : AllStand text (xs ++ ys) :=
  List.forall_mem_append.2 ⟨hxs, hys⟩

mutual

theorem Qualifier.stands (q : Qualifier) (before after : String) :
    AllStand (before ++ q.print ++ after) [q.placed before] := by
  cases q with
  | leaf unit =>
    rw [Qualifier.print, Qualifier.placed]
    exact allStand_simple fun _ => ⟨before, after, rfl, rfl⟩
  | applied colons name takes arguments =>
    rw [Qualifier.print, Qualifier.placed]
    have hinside := arguments.stands (before ++ (colons.text ++ name.text ++ "(")) (")" ++ after)
    intro c hc d hd
    obtain rfl := List.mem_singleton.1 hc
    rcases hd with rfl | ⟨_, _, happlied, hd⟩
    · exact fun _ => ⟨before, "(" ++ arguments.print ++ ")" ++ after,
        by simp [Component.head, String.append_assoc], rfl⟩
    · obtain ⟨rfl, rfl⟩ := by simpa using happlied
      obtain ⟨selector, hselector, c, hc, hwithin⟩ := hd.within
      simpa only [String.append_assoc] using hinside selector hselector c hc d hwithin

theorem Qualifiers.stands (more : Qualifiers) (before after : String) :
    AllStand (before ++ more.print ++ after) (more.placed before) := by
  cases more with
  | nil => simp [AllStand, Qualifiers.placed]
  | cons first more =>
    have hfirst := first.stands before (more.print ++ after)
    have hmore := more.stands (before ++ first.print) after
    rw [Qualifiers.print, Qualifiers.placed]
    simp only [String.append_assoc] at hfirst hmore ⊢
    exact allStand_append hfirst hmore

theorem Compound.stands (compound : Compound) (before after : String) :
    AllStand (before ++ compound.print ++ after) (compound.placed before) := by
  cases compound with
  | tagged tag more =>
    have htag : Simple.StandsIn ⟨.tag, tag.text, before.utf8ByteSize⟩
        (before ++ tag.text ++ (more.print ++ after)) := fun _ => ⟨before, _, rfl, rfl⟩
    have hmore := more.stands (before ++ tag.text) after
    rw [Compound.print, Compound.placed]
    simp only [String.append_assoc] at htag hmore ⊢
    exact allStand_append (allStand_simple htag) hmore
  | plain first more =>
    have hfirst := first.stands before (more.print ++ after)
    have hmore := more.stands (before ++ first.print) after
    rw [Compound.print, Compound.placed]
    simp only [String.append_assoc] at hfirst hmore ⊢
    exact allStand_append hfirst hmore

theorem Complex.stands (selector : Complex) (before after : String) :
    AllStand (before ++ selector.print ++ after) (selector.placed before) := by
  cases selector with
  | single compound =>
    rw [Complex.print, Complex.placed]
    exact compound.stands before after
  | joined compound combinator more =>
    have hcompound := compound.stands before (combinator.text ++ more.print ++ after)
    have hmore := more.stands (before ++ (compound.print ++ combinator.text)) after
    rw [Complex.print, Complex.placed]
    simp only [String.append_assoc] at hcompound hmore ⊢
    exact allStand_append hcompound
      (allStand_append (allStand_simple fun hkind => absurd rfl hkind) hmore)

theorem ComplexList.stands (list : ComplexList) (before after : String) :
    ∀ selector ∈ list.placed before, AllStand (before ++ list.print ++ after) selector := by
  cases list with
  | single selector =>
    rw [ComplexList.print, ComplexList.placed, List.forall_mem_singleton]
    exact selector.stands before after
  | cons selector more =>
    have hselector := selector.stands before (", " ++ more.print ++ after)
    have hmore := more.stands (before ++ (selector.print ++ ", ")) after
    rw [ComplexList.print, ComplexList.placed, List.forall_mem_cons]
    simp only [String.append_assoc] at hselector hmore ⊢
    exact ⟨hselector, hmore⟩

end

/-- Reading a printed list of selectors gives back its kinds, values and arguments at all depths,
and each component but a combinator has as its index the place where its value was printed. -/
theorem parse_printed (list : ComplexList) :
    parse list.print = .ok (list.placed "") ∧
    ∀ c : Component, c.Occurs (list.placed "") → c.head.kind ≠ .combinator →
      ∃ before after, list.print = before ++ c.head.value ++ after ∧
        c.head.index = before.utf8ByteSize := by
  refine ⟨parse_print_eq list, fun c hc => ?_⟩
  obtain ⟨selector, hselector, d, hd, hwithin⟩ := hc.within
  have hstands := list.stands "" "" selector hselector d hd c hwithin
  rwa [String.empty_append, String.append_empty] at hstands

/-- A name of two bytes, arguments under a vendor mark in capitals, and combinators inside and
outside of them. -/
def sampleList : ComplexList :=
  .cons
    (.joined
      (.tagged ⟨"é|b", by decide, by decide +kernel⟩
        (.cons
          (.applied .one ⟨"-moz-ANY", by decide, by decide +kernel⟩ (by decide +kernel)
            (.cons
              (.joined
                (.plain (.leaf .universal)
                  (.cons (.leaf (.className ⟨"x", by decide, by decide +kernel⟩)) .nil))
                .child (.single (.plain (.leaf .nesting) .nil)))
              (.single (.single
                (.plain (.leaf (.bracketed ⟨"z=%", by decide +kernel⟩)) .nil)))))
          .nil))
      .descendant
      (.single (.plain (.leaf (.idName ⟨"y", by decide, by decide +kernel⟩))
        (.cons (.leaf (.pseudo .two ⟨"before", by decide, by decide +kernel⟩)) .nil))))
    (.single (.single (.tagged ⟨"c", by decide, by decide +kernel⟩ .nil)))

theorem parse_printed_sample :
    sampleList.print = "é|b:-moz-ANY(*.x > &, [z=%]) #y::before, c" ∧
    parse "é|b:-moz-ANY(*.x > &, [z=%]) #y::before, c" = .ok (sampleList.placed "") ∧
    (pseudosOfList (sampleList.placed "")).map (fun p => (p.value, p.index)) =
      [(":-moz-ANY", 4), ("::before", 32)] ∧
    ∃ before after, "é|b:-moz-ANY(*.x > &, [z=%]) #y::before, c" = before ++ "[z=%]" ++ after ∧
      23 = before.utf8ByteSize := by
  have hprint : sampleList.print = "é|b:-moz-ANY(*.x > &, [z=%]) #y::before, c" := by
    decide +kernel
  have hoccurs : (Component.simple ⟨.attribute, "[z=%]", 23⟩).Occurs (sampleList.placed "") :=
    .inside (.head _) (.tail _ (.head _)) (.here (.tail _ (.head _)) (.head _))
  rw [← hprint]
  exact ⟨rfl, (parse_printed sampleList).1, by decide +kernel,
    (parse_printed sampleList).2 _ hoccurs (by decide)⟩

end SheetPolicy.Selector

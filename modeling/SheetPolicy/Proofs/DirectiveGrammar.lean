import Mathlib
import SheetPolicy.Report.Directive
import SheetPolicy.Proofs.PlainText

/-!
How directives are written and read. A directive can be spelled in many ways (`Writes`): blanks may
stand around the whole, around the names and in front of the reason, and the list may have items
that name nothing. Each spelling is read as what it writes. What is read as a directive is told
exactly by `Reads`: behind the list anything may follow, and only a reason in quotes at the front of
it counts. Main statement: `parse?_undoes_writing`.
-/

namespace SheetPolicy.Directive

/-- The text is made of blanks. -/
def Blanks (cs : List Char) : Prop :=
  ∀ c ∈ cs, Text.isBlank c = true

/-! ## Writing -/

/-- A name that a directive can list. -/
structure IsName (name : String) : Prop where
  nonempty : name ≠ ""
  trimmed : Text.TrimsTo name.toList name.toList
  no_comma : ',' ∉ name.toList
  no_close : ')' ∉ name.toList

/-- An item of a list names one rule or, if it is blank, none. -/
inductive WritesItem : List String → List Char → Prop
  | stray {gap : List Char} : Blanks gap → WritesItem [] gap
  | name {name : String} {before after : List Char} :
      Blanks before → IsName name → Blanks after →
      WritesItem [name] (before ++ (name.toList ++ after))

inductive WritesList : List String → List Char → Prop
  | last {names : List String} {item : List Char} : WritesItem names item → WritesList names item
  | more {names others : List String} {item list : List Char} :
      WritesItem names item → WritesList others list →
      WritesList (names ++ others) (item ++ ',' :: list)

/-- A reason stands in quotes, and anything may follow it. -/
inductive WritesReason : Option String → List Char → Prop
  | none : WritesReason none []
  | some {reason : String} {gap more : List Char} :
      Blanks gap → '"' ∉ reason.toList →
      WritesReason (some reason)
        ("reason=".toList ++ (gap ++ '"' :: (reason.toList ++ '"' :: more)))

/-- The body of a comment spells the directive. -/
structure Writes (d : Directive) (body : String) : Prop where
  names : d.rules ≠ []
  spelled : ∃ lead gap list space reason trail,
    body.toList = lead ++ (("sheetlint:".toList ++ (gap ++ ("allow(".toList ++ list))) ++
      ')' :: (space ++ (reason ++ trail))) ∧
    Blanks lead ∧ Blanks gap ∧ Blanks space ∧ Blanks trail ∧
    WritesList d.rules list ∧ WritesReason d.reason reason

/-! ## Reading -/

/-- The list names the rules: they are what stands between its commas, without the blanks around
it, where anything is left. -/
def ListsNames (list : List Char) (names : List String) : Prop :=
  ∃ items, List.Forall₂ Text.TrimsTo (list.splitOn ',') items ∧
    names = (items.filter fun item => !item.isEmpty).map String.ofList

/-- What follows the list gives a reason: it starts with one in quotes, apart from blanks. -/
def GivesReason (rest : List Char) (reason : String) : Prop :=
  ∃ core gap more, Text.TrimsTo rest core ∧ Blanks gap ∧ '"' ∉ reason.toList ∧
    core = "reason=".toList ++ (gap ++ '"' :: (reason.toList ++ '"' :: more))

/-- The body of a comment is read as the directive. -/
def Reads (body : String) (d : Directive) : Prop :=
  ∃ core gap list rest, Text.TrimsTo body.toList core ∧
    core = ("sheetlint:".toList ++ (gap ++ ("allow(".toList ++ list))) ++ ')' :: rest ∧
    Blanks gap ∧ ')' ∉ list ∧ ListsNames list d.rules ∧ d.rules ≠ [] ∧
    ∀ reason, d.reason = some reason ↔ GivesReason rest reason

theorem reasonIn_eq_some_iff {rest : List Char} {reason : String} :
    reasonIn rest = some reason ↔ GivesReason rest reason := by
  have hquote : ∀ cs quoted : List Char, cs.dropWhile Text.isBlank = '"' :: quoted ↔
      ∃ gap, cs = gap ++ '"' :: quoted ∧ Blanks gap := fun cs quoted =>
    Text.dropWhile_isBlank_eq_iff (by simp; decide)
  simp only [reasonIn, Option.bind_eq_bind, Option.bind_eq_some_iff, Text.afterPrefix?_eq_some_iff,
    List.singleton_append, Prod.exists, Text.splitAtFirst?_eq_some_iff, hquote, GivesReason,
    Text.trimsTo_iff]
  constructor
  · rintro ⟨_, htrim, _, ⟨gap, rfl, hgap⟩, inner, more, ⟨rfl, hfree⟩, heq⟩
    obtain rfl : String.ofList inner = reason := by simpa using heq
    exact ⟨_, gap, more, rfl, hgap, by simpa using hfree, by simpa using htrim⟩
  · rintro ⟨_, gap, more, rfl, hgap, hfree, htrim⟩
    exact ⟨_, htrim, _, ⟨gap, rfl, hgap⟩, reason.toList, more, ⟨rfl, hfree⟩, by simp⟩

theorem listsNames_iff {list : List Char} {names : List String} :
    ListsNames list names ↔
      names = (((Text.splitOnChar (· == ',') list).map Text.trimChars).filter
        fun item => !item.isEmpty).map String.ofList := by
  simp only [ListsNames, Text.forall₂_trimsTo_iff, exists_eq_left', Text.splitOnChar_eq, List.splitOn]

/-- A list without names makes no directive. -/
theorem ofNames_eq_some_iff {names : List (List Char)} {rest : List Char} {d : Directive} :
    (if names.isEmpty then none else some ⟨names.map String.ofList, reasonIn rest⟩) = some d ↔
      d.rules = names.map String.ofList ∧ d.rules ≠ [] ∧
        ∀ reason, d.reason = some reason ↔ GivesReason rest reason := by
  obtain ⟨rules, reason⟩ := d
  have hreason : (∀ r, reason = some r ↔ GivesReason rest r) ↔ reasonIn rest = reason := by
    simp only [← reasonIn_eq_some_iff]
    exact ⟨fun h => Option.ext fun r => (h r).symm, fun h r => by rw [h]⟩
  simp only [hreason]
  cases names with
  | nil => simp +contextual
  | cons name names =>
    simp only [List.isEmpty_cons, Bool.false_eq_true, if_false, Option.some.injEq, mk.injEq]
    constructor
    · rintro ⟨rfl, rfl⟩
      exact ⟨rfl, by simp, rfl⟩
    · rintro ⟨rfl, _, rfl⟩
      exact ⟨rfl, rfl⟩

theorem parse?_eq_some_iff {body : String} {d : Directive} :
    parse? body = some d ↔ Reads body d := by
  have hopen : ∀ cs inner : List Char, cs.dropWhile Text.isBlank = "allow(".toList ++ inner ↔
      ∃ gap, cs = gap ++ ("allow(".toList ++ inner) ∧ Blanks gap := fun cs inner =>
    Text.dropWhile_isBlank_eq_iff (by simp; decide)
  simp only [parse?, Option.bind_eq_bind, Option.bind_eq_some_iff, Text.afterPrefix?_eq_some_iff,
    Prod.exists, Text.splitAtFirst?_eq_some_iff, hopen, ofNames_eq_some_iff, Reads, listsNames_iff,
    Text.trimsTo_iff]
  constructor
  · rintro ⟨_, htrim, _, ⟨gap, rfl, hgap⟩, list, rest, ⟨rfl, hfree⟩, hnames⟩
    exact ⟨_, gap, list, rest, rfl, by simpa using htrim, hgap, hfree, hnames⟩
  · rintro ⟨_, gap, list, rest, rfl, htrim, hgap, hfree, hnames⟩
    exact ⟨_, by simpa using htrim, _, ⟨gap, rfl, hgap⟩, list, rest, ⟨rfl, hfree⟩, hnames⟩

/-! ## Spellings are read -/

theorem not_mem_of_blanks {cs : List Char} (h : Blanks cs) {c : Char}
    (hc : Text.isBlank c = false) : c ∉ cs := by
  intro hmem
  simp [h c hmem] at hc

/-- What is read of an item. -/
theorem WritesItem.trim {names : List String} {item : List Char} (h : WritesItem names item) :
    ',' ∉ item ∧ ')' ∉ item ∧ ∃ core, Text.TrimsTo item core ∧
      names = ([core].filter fun item => !item.isEmpty).map String.ofList := by
  cases h with
  | stray hgap =>
    refine ⟨not_mem_of_blanks hgap rfl, not_mem_of_blanks hgap rfl, [], ⟨?_, by simp, by simp⟩, rfl⟩
    exact ⟨item, [], by simp, hgap, by simp⟩
  | @name name before after hbefore hname hafter =>
    have hfree : ∀ c, Text.isBlank c = false → c ∉ name.toList →
        c ∉ before ++ (name.toList ++ after) := by
      intro c hc hmem
      simp [not_mem_of_blanks hbefore hc, not_mem_of_blanks hafter hc, hmem]
    exact ⟨hfree ',' rfl hname.no_comma, hfree ')' rfl hname.no_close, name.toList,
      ⟨⟨before, after, rfl, hbefore, hafter⟩, hname.trimmed.first, hname.trimmed.last⟩,
      by simp [hname.nonempty]⟩

theorem WritesList.listsNames {names : List String} {list : List Char} (h : WritesList names list) :
    ')' ∉ list ∧ ListsNames list names := by
  induction h with
  | last hitem =>
    obtain ⟨hcomma, hclose, core, hcore, hnames⟩ := hitem.trim
    refine ⟨hclose, [core], ?_, hnames⟩
    have hone : ∀ c ∈ _, (c == ',') = false := fun c hc => by
      simpa using ne_of_mem_of_not_mem hc hcomma
    rw [List.splitOn, List.splitOnP_eq_singleton hone]
    exact .cons hcore .nil
  | more hitem _ ih =>
    obtain ⟨hcomma, hclose, core, hcore, hnames⟩ := hitem.trim
    obtain ⟨hfree, items, hitems, hothers⟩ := ih
    refine ⟨by simp [hclose, hfree], core :: items, ?_, ?_⟩
    · rw [List.splitOn_append_cons_self_of_not_mem hcomma]
      exact .cons hcore hitems
    · rw [← List.singleton_append, List.filter_append, List.map_append, ← hnames, ← hothers]

theorem reasonIn_congr {rest rest' : List Char} (h : Text.trimChars rest = Text.trimChars rest') :
    reasonIn rest = reasonIn rest' := by
  simp only [reasonIn, h]

theorem WritesReason.reasonIn_eq {reason : Option String} {tail : List Char}
    (h : WritesReason reason tail) : reasonIn tail = reason := by
  cases h with
  | none => rfl
  | @some reason gap more hgap hfree =>
    have htrims := @Text.trimsTo_append_mark [] ("reason=".toList ++ (gap ++ '"' :: reason.toList))
      more '"' (by simp) (by simp; decide) rfl
    exact reasonIn_eq_some_iff.2 ⟨_, gap, Text.dropRightWhile Text.isBlank more,
      by simpa using htrims, hgap, hfree, by simp⟩

theorem Writes.reads {d : Directive} {body : String} (h : Writes d body) : Reads body d := by
  obtain ⟨hnames, lead, gap, list, space, reason, trail, hbody, hlead, hgap, hspace, htrail, hlist,
    hreason⟩ := h
  obtain ⟨hclose, hlists⟩ := hlist.listsNames
  have htrims := @Text.trimsTo_append_mark lead
    ("sheetlint:".toList ++ (gap ++ ("allow(".toList ++ list))) (space ++ (reason ++ trail)) ')'
    hlead (by simp; decide) rfl
  refine ⟨_, gap, list, _, hbody ▸ htrims, rfl, hgap, hclose, hlists, hnames, fun r => ?_⟩
  have hrest : Text.trimChars (Text.dropRightWhile Text.isBlank (space ++ (reason ++ trail))) =
      Text.trimChars reason := by
    rw [Text.trimChars_dropRightWhile, Text.trimChars_append_left hspace,
      Text.trimChars_append_blank htrail]
  rw [← reasonIn_eq_some_iff, reasonIn_congr hrest, hreason.reasonIn_eq]

/-! ## Main result -/

/-- Reading undoes writing, however the directive is spelled, and what is read as a directive has the
form that `Reads` tells, with its names and its reason. -/
theorem parse?_undoes_writing (body : String) (d : Directive) :
    (Writes d body → parse? body = some d) ∧ (parse? body = some d ↔ Reads body d) :=
  ⟨fun h => parse?_eq_some_iff.2 h.reads, parse?_eq_some_iff⟩

/-- Blanks that are not ASCII, items that name nothing, brackets and commas in the reason, and more
behind it. -/
def sampleBody : String :=
  "\u00a0sheetlint:\n allow( ,a b\t,all,, ) reason= \"x), (y\" \" z\n"

def sampleDirective : Directive :=
  ⟨["a b", "all"], some "x), (y"⟩

theorem writes_sampleBody : Writes sampleDirective sampleBody where
  names := List.cons_ne_nil _ _
  spelled := by
    have hblanks : ∀ cs : List Char, cs.all Text.isBlank = true → Blanks cs :=
      fun cs => List.all_eq_true.1
    have hfirst : IsName "a b" :=
      ⟨by decide, Text.trimsTo_iff.2 (by decide), by decide, by decide⟩
    have hsecond : IsName "all" :=
      ⟨by decide, Text.trimsTo_iff.2 (by decide), by decide, by decide⟩
    refine ⟨['\u00a0'], ['\n', ' '], _, [' '], _, ['\n'], ?_, hblanks _ rfl, hblanks _ rfl,
      hblanks _ rfl, hblanks _ rfl,
      .more (.stray (hblanks [' '] rfl))
        (.more (.name (hblanks [] rfl) hfirst (hblanks ['\t'] rfl))
          (.more (.name (hblanks [] rfl) hsecond (hblanks [] rfl))
            (.more (.stray (hblanks [] rfl)) (.last (.stray (hblanks [' '] rfl)))))),
      @WritesReason.some "x), (y" [' '] [' ', '"', ' ', 'z'] (hblanks _ rfl) (by decide)⟩
    decide

theorem parse?_undoes_writing_sample :
    Writes sampleDirective sampleBody ∧ parse? sampleBody = some sampleDirective ∧
      Reads sampleBody sampleDirective := by
  obtain ⟨hreads, hform⟩ := parse?_undoes_writing sampleBody sampleDirective
  have hparse := hreads writes_sampleBody
  exact ⟨writes_sampleBody, hparse, hform.1 hparse⟩

end SheetPolicy.Directive

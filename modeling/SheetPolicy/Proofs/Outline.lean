import Mathlib
import SheetPolicy.Proofs.Layout
import SheetPolicy.Proofs.Takes

/-!
Outlines: trees without places. An outline whose texts are plain can be written down, with any white
space between its nodes (`Prints`), and what is written down parses back into the same outline
(`parse_print`).
-/

namespace SheetPolicy

/-- A node without its places. -/
inductive Outline where
  | rule (selector : String) (body : List Outline)
  | atRule (name params : String) (body : List Outline)
  /-- An at-rule that ends without a block. -/
  | atStatement (name params : String)
  | declaration (prop value : String) (important : Bool)
  | comment (text : String)

mutual

def Node.outline : Node → Outline
  | .rule head body => .rule head.selector.text (Node.outlines body)
  | .atRule head body => .atRule head.name head.params.text (Node.outlines body)
  | .atStatement head => .atStatement head.name head.params.text
  | .declaration decl => .declaration decl.prop decl.value.text decl.important
  | .comment c => .comment c.text

def Node.outlines : List Node → List Outline
  | [] => []
  | node :: nodes => node.outline :: Node.outlines nodes

end

namespace Outline

/-! ## What can be written down -/

/-- The text has no blank at its ends, and the end of a statement is not found in it: it is read to
its very end, from no open bracket to none, over no comment and no interpolation. -/
def isPlain (s : String) : Bool :=
  Text.trim s == s && (Prelude.units? 0 (Located.ofString s)).any fun (ls, final) =>
    final == 0 && ls.all fun l => l.kind != .comment

/-- The text ends with `!important`, in any letter case and with blanks around the word. -/
def endsInFlag (s : String) : Bool :=
  s.toList.tails.any fun
    | '!' :: word => Text.sameLetters (Text.trim (String.ofList word)) "important"
    | _ => false

mutual

def isPrintable : Outline → Bool
  | .rule selector body =>
    isPlain selector && selector != "" && !Text.startsWith "@" selector.toList && allPrintable body
  | .atRule name params body => name.toList.all Event.isNameChar && isPlain params && allPrintable body
  | .atStatement name params => name.toList.all Event.isNameChar && isPlain params
  | .declaration prop value _ =>
    isPlain prop && prop != "" && !prop.toList.contains ':' && !Text.startsWith "@" prop.toList &&
      isPlain value && !endsInFlag value
  | .comment text => Text.trim text == text && !decide (['*', '/'] <:+: text.toList)

def allPrintable : List Outline → Bool
  | [] => true
  | tree :: trees => tree.isPrintable && allPrintable trees

end

/-- How a node is written, up to and with the brace that opens its block, if it has one. -/
def opening : Outline → String
  | .rule selector _ => selector ++ " \x7b"
  | .atRule name params _ => "@" ++ name ++ " " ++ params ++ " \x7b"
  | .atStatement name params => "@" ++ name ++ " " ++ params ++ ";"
  | .declaration prop value important =>
    prop ++ ": " ++ value ++ (if important then " !important;" else ";")
  | .comment text => "/* " ++ text ++ " */"

/-- What stands in the block of a node. -/
def body? : Outline → Option (List Outline)
  | .rule _ body | .atRule _ _ body => some body
  | _ => none

/-- White space between nodes. -/
def IsSpacing (gap : List Char) : Prop :=
  ∀ c ∈ gap, Text.isSpace c = true

/-- The text is one way to write down the trees: any white space may stand between them. -/
inductive Prints : List Outline → List Char → Prop
  | finish {gap : List Char} : IsSpacing gap → Prints [] gap
  | leaf {tree : Outline} {trees : List Outline} {gap rest : List Char} :
      IsSpacing gap → tree.body? = none → Prints trees rest →
      Prints (tree :: trees) (gap ++ (tree.opening.toList ++ rest))
  | block {tree : Outline} {body trees : List Outline} {gap inner rest : List Char} :
      IsSpacing gap → tree.body? = some body → Prints body inner → Prints trees rest →
      Prints (tree :: trees) (gap ++ (tree.opening.toList ++ (inner ++ '}' :: rest)))

mutual

def chars : Outline → List Char
  | .rule selector body => (Outline.rule selector body).opening.toList ++ (allChars body ++ ['}'])
  | .atRule name params body =>
    (Outline.atRule name params body).opening.toList ++ (allChars body ++ ['}'])
  | .atStatement name params => (Outline.atStatement name params).opening.toList
  | .declaration prop value important =>
    (Outline.declaration prop value important).opening.toList
  | .comment text => (Outline.comment text).opening.toList

/-- The trees written one to a line. -/
def allChars : List Outline → List Char
  | [] => ['\n']
  | tree :: trees => '\n' :: (tree.chars ++ allChars trees)

end

def print (trees : List Outline) : String :=
  String.ofList (allChars trees)

theorem isSpacing_newline : IsSpacing ['\n'] := by
  simp [IsSpacing, Text.isSpace]

mutual

theorem prints_cons_chars (tree : Outline) {trees : List Outline} {rest : List Char}
    (h : Prints trees rest) : Prints (tree :: trees) ('\n' :: (tree.chars ++ rest)) := by
  have hgap := isSpacing_newline
  cases tree with
  | rule selector body =>
    simpa [chars] using Prints.block hgap rfl (prints_allChars body) h
  | atRule name params body =>
    simpa [chars] using Prints.block hgap rfl (prints_allChars body) h
  | atStatement name params => exact .leaf hgap rfl h
  | declaration prop value important => exact .leaf hgap rfl h
  | comment text => exact .leaf hgap rfl h

/-- One tree to a line is a way to write them down. -/
theorem prints_allChars : (trees : List Outline) → Prints trees (allChars trees)
  | [] => .finish isSpacing_newline
  | tree :: trees => prints_cons_chars tree (prints_allChars trees)

end

end Outline

/-! ## Bare texts -/

namespace Prelude

/-- The characters are whole units, from no open bracket to none, and no comment is among them. -/
def Bare (cs : List Located) : Prop :=
  ∃ ls, Units 0 cs ls 0 ∧ ∀ l ∈ ls, l.kind ≠ .comment

variable {xs ys front back : List Located}

theorem Bare.append (hxs : Bare xs) (hys : Bare ys) (hapart : Apart xs ys) : Bare (xs ++ ys) := by
  obtain ⟨ls, hls, hplain⟩ := hxs
  obtain ⟨ms, hms, hplain'⟩ := hys
  refine ⟨ls ++ ms, hls.append hms hapart, fun l hl => ?_⟩
  rcases List.mem_append.1 hl with hl | hl
  · exact hplain l hl
  · exact hplain' l hl

/-- A character of no meaning to the reading of statements. -/
def isInert (c : Char) : Bool :=
  !([';', '{', '}', '(', ')', '[', ']', '\\', '"', '\'', '/', '#', '@'].contains c)

theorem bare_of_inert {cs : List Located} (h : ∀ c ∈ cs, isInert c.char = true) : Bare cs := by
  induction cs with
  | nil => exact ⟨[], .nil, by simp⟩
  | cons c cs ih =>
    obtain ⟨ls, hls, hplain⟩ := ih fun d hd => h d (List.mem_cons_of_mem _ hd)
    have hc := h c List.mem_cons_self
    simp only [isInert, List.contains_eq_mem, List.mem_cons, List.not_mem_nil, or_false,
      Bool.not_eq_true', decide_eq_false_iff_not, not_or] at hc
    refine ⟨⟨.plain, [c]⟩ :: ls, @Units.cons 0 0 .plain c [] cs ls ?_ ?_ ?_ ?_ ?_, ?_⟩
    · simp [isTerminator, hc]
    · simp [opensInterpolation, hc]
    · exact ⟨c.char, rfl, by simp [hc], by simp [hc], by simp [hc], by simp [hc]⟩
    · simp [hc]
    · simpa [depthAfter, hc] using hls
    · simpa using hplain

theorem apart_of_inert (h : ∀ c, front.getLast? = some c → isInert c.char = true) :
    Apart front back := by
  intro c hc
  have hinert := h c hc
  simp only [isInert, List.contains_eq_mem, List.mem_cons, List.not_mem_nil, or_false,
    Bool.not_eq_true', decide_eq_false_iff_not, not_or] at hinert
  simp [opensInterpolation, hinert]

theorem Bare.skip (h : Bare front) (hapart : Apart front back) :
    skip 0 (front ++ back) = skip 0 back := by
  obtain ⟨ls, hls, _⟩ := h
  exact hls.skip_append hapart

/-- Of a bare text all is kept that stands before the cut. -/
theorem Bare.cut {size : Nat} (h : Bare (xs ++ ys)) (hapart : Apart (xs ++ ys) back)
    (hrising : Located.Rising size (xs ++ ys ++ back)) :
    Excerpt.cut (xs ++ ys ++ back) (Located.startOf size (ys ++ back)) =
      .ok (Excerpt.trim xs (Located.startOf size (ys ++ back))) := by
  obtain ⟨ls, hls, hplain⟩ := h
  have hkept : ls.flatMap Lexeme.kept = xs ++ ys := by
    rw [← hls.chars_eq]
    refine List.flatMap_congr fun l hl => ?_
    rw [Lexeme.kept, if_neg (hplain l hl)]
  have hlater := (List.append_assoc xs ys back) ▸ hrising
  have hxs : (xs.filter fun d => d.offset < Located.startOf size (ys ++ back)) = xs := by
    rw [List.filter_eq_self]
    intro d hd
    simpa using hlater.lt_startOf hd
  have hys : (ys.filter fun d => d.offset < Located.startOf size (ys ++ back)) = [] := by
    rw [List.filter_eq_nil_iff]
    intro d hd
    simpa using hlater.right.startOf_le (List.mem_append_left _ hd)
  have hback : Excerpt.keep (Located.startOf size (ys ++ back)) back = .ok [] :=
    Excerpt.keep_of_le fun d hd => hlater.right.startOf_le (List.mem_append_right _ hd)
  rw [Excerpt.cut, Excerpt.keep_units hls hapart hrising, hkept, hback, List.filter_append, hxs, hys]
  simp [Except.map]

/-- A bare text before a character that ends a statement is what the statement has there. -/
theorem Bare.statement {size : Nat} {t : Located} (h : Bare front) (hapart : Apart front (t :: back))
    (ht : isTerminator t.char = true) (hrising : Located.Rising size (front ++ t :: back)) :
    Prelude.skip 0 (front ++ t :: back) = .ok (t :: back) ∧
      Excerpt.cut (front ++ t :: back) t.offset = .ok (Excerpt.trim front t.offset) := by
  constructor
  · rw [h.skip hapart, Prelude.skip, if_pos ⟨rfl, ht⟩]
  · rw [← List.append_nil front] at h hapart hrising ⊢
    simpa using h.cut hapart hrising

/-- A bare text starts with no comment and no character that ends a statement. -/
theorem Bare.start {c : Located} {rest : List Located} (h : Bare (c :: rest)) :
    isTerminator c.char = false ∧ ¬(c.char = '/' ∧ Located.headChar rest = some '*') := by
  obtain ⟨ls, hls, hplain⟩ := h
  cases hls with
  | @cons _ _ kind _ body rest ls hterm hinter hunit hlone _ =>
    refine ⟨by simpa using hterm, ?_⟩
    rintro ⟨hc, hstar⟩
    cases kind with
    | plain =>
      obtain ⟨x, hx, _, _, _, hmark⟩ := hunit
      obtain ⟨rfl, rfl⟩ := by simpa using hx
      exact hmark ⟨hc, hstar⟩
    | escape => rcases hunit with ⟨x, hx⟩ | ⟨hx, _⟩ <;> simp [hc] at hx
    | quoted =>
      obtain ⟨quote, inner, hquote, _, hx⟩ := hunit
      rcases hquote with rfl | rfl <;> simp [hc] at hx
    | comment => exact hplain _ List.mem_cons_self rfl

end Prelude

/-! ## Trimmed texts -/

namespace Text

theorem dropRightWhile_append_of_pos {α : Type} {p : α → Bool} {xs gap : List α}
    (h : ∀ x ∈ gap, p x = true) : dropRightWhile p (xs ++ gap) = dropRightWhile p xs := by
  rw [dropRightWhile, List.reverse_append,
    List.dropWhile_append_of_pos (fun x hx => h x (List.mem_reverse.1 hx)), dropRightWhile]

theorem trimChars_append_blank {cs gap : List Char} (h : ∀ c ∈ gap, isBlank c = true) :
    trimChars (cs ++ gap) = trimChars cs := by
  rw [trimChars, trimChars, List.dropWhile_append]
  split
  · next hempty =>
    rw [List.isEmpty_iff] at hempty
    rw [hempty, List.dropWhile_eq_nil_iff.2 h]
  · exact dropRightWhile_append_of_pos h

theorem trimChars_dropWhile (cs : List Char) : trimChars (cs.dropWhile isBlank) = trimChars cs := by
  rw [trimChars, List.dropWhile_idempotent, ← trimChars]

/-- Only the blanks in front go if what follows them has none at its ends. -/
theorem trimChars_append_tight {cs more : List Char} {c : Char} (hc : isBlank c = false)
    (hlast : ∀ x, (c :: more).getLast? = some x → isBlank x = false) :
    trimChars (cs ++ c :: more) = cs.dropWhile isBlank ++ c :: more := by
  have hdrop : (cs ++ c :: more).dropWhile isBlank = cs.dropWhile isBlank ++ c :: more := by
    rw [List.dropWhile_append]
    split
    · next hempty =>
      rw [List.isEmpty_iff.1 hempty, List.dropWhile_cons_of_neg (by simp [hc]), List.nil_append]
    · rfl
  rw [trimChars, hdrop]
  have hends : ∀ x, (cs.dropWhile isBlank ++ c :: more).getLast? = some x → isBlank x = false := by
    intro x hx
    rw [List.getLast?_append_of_ne_nil _ (by simp)] at hx
    exact hlast x hx
  simpa using @Event.dropRightWhile_append _ _ _ [] (by simp) hends

theorem trimChars_append_left {cs gap : List Char} (h : ∀ c ∈ gap, isBlank c = true) :
    trimChars (gap ++ cs) = trimChars cs := by
  rw [trimChars, List.dropWhile_append_of_pos h, ← trimChars]

end Text

/-! ## Flags -/

theorem Excerpt.splitImportant_of_endsInFlag {e : Excerpt} (h : Outline.endsInFlag e.text = false) :
    e.splitImportant = (e, false) := by
  rcases e.splitImportant_cases with hsplit | ⟨before, bang, word, hchars, hbang, hflag, _⟩
  · exact hsplit
  · have htail : '!' :: word.map Located.char ∈ e.text.toList.tails := by
      rw [List.mem_tails]
      refine ⟨before.map Located.char, ?_⟩
      simp [Excerpt.text, Located.text, hchars, hbang]
    rw [Outline.endsInFlag, List.any_eq_false] at h
    exact (h _ htail hflag).elim

theorem Excerpt.splitImportant_flag {e : Excerpt} {before word : List Located} {bang : Located}
    (h : e.chars = before ++ bang :: word) (hbang : bang.char = '!')
    (hword : ∀ c ∈ word, c.char ≠ '!')
    (hflag : Text.sameLetters (Text.trim (Located.text word)) "important" = true) :
    e.splitImportant = (Excerpt.trim before bang.offset, true) := by
  rw [Excerpt.splitImportant_last h hbang hword, if_pos hflag]

/-! ## Reading what was written -/

namespace Outline

variable {size : Nat} {cs back : List Located}

theorem bare_of_isPlain {s : String} (h : isPlain s = true) (hcs : cs.map Located.char = s.toList) :
    Prelude.Bare cs := by
  simp only [isPlain, Bool.and_eq_true, Option.any_eq_true, beq_iff_eq, List.all_eq_true,
    bne_iff_ne] at h
  obtain ⟨_, ⟨ls, final⟩, hunits, rfl, hplain⟩ := h
  have hchars : cs.map Located.char = (Located.ofString s).map Located.char := by
    simp [Located.ofString, hcs]
  obtain ⟨ms, hms, hkinds⟩ := (Prelude.units_of_units? hunits).congr hchars
  refine ⟨ms, hms, fun l hl hcomment => ?_⟩
  obtain ⟨k, hk, hkind⟩ := List.mem_map.1 (hkinds ▸ List.mem_map_of_mem hl)
  exact hplain k hk (hkind.trans hcomment)

theorem trim_of_isPlain {s : String} (h : isPlain s = true) : Text.trim s = s := by
  simp only [isPlain, Bool.and_eq_true, beq_iff_eq] at h
  exact h.1

/-- A text with blanks around it is trimmed to itself. -/
theorem trim_padded {s : String} (h : Text.trim s = s) {before after : List Char}
    (hbefore : ∀ c ∈ before, Text.isBlank c = true) (hafter : ∀ c ∈ after, Text.isBlank c = true) :
    Text.trim (String.ofList (before ++ (s.toList ++ after))) = s := by
  rw [Text.trim, String.toList_ofList, Text.trimChars_append_left hbefore,
    Text.trimChars_append_blank hafter, ← Text.trim, h]

/-- A text without blanks at its ends starts with none. -/
theorem not_isBlank_of_trim {s : String} (h : Text.trim s = s) {c : Char} {rest : List Char}
    (hs : s.toList = c :: rest) : Text.isBlank c = false := by
  by_contra hblank
  rw [Bool.not_eq_false] at hblank
  have hchars : Text.trimChars (c :: rest) = c :: rest := by
    have := congrArg String.toList h
    rwa [Text.trim, String.toList_ofList, hs] at this
  have hlength := congrArg List.length hchars
  rw [Text.trimChars, List.dropWhile_cons_of_pos hblank, Text.dropRightWhile, List.length_reverse,
    List.length_cons] at hlength
  have hright := (List.dropWhile_suffix (l := (rest.dropWhile Text.isBlank).reverse)
    Text.isBlank).length_le
  have hleft := (List.dropWhile_suffix (l := rest) Text.isBlank).length_le
  rw [List.length_reverse] at hright
  omega

/-- A statement starts with its plain text. -/
theorem starts_of_isPlain {s : String} (h : isPlain s = true) (hne : s ≠ "")
    (hat : Text.startsWith "@" s.toList = false) {text more : List Located}
    (htext : text.map Located.char = s.toList) (hmore : more ≠ [])
    (hbare : Prelude.Bare (text ++ more)) (back : List Located) :
    Event.StartsNode (text ++ (more ++ back)) ∧ Event.StartsStatement (text ++ (more ++ back)) := by
  cases text with
  | nil =>
    have hempty : s = "" := by
      rw [← String.toList_inj, ← htext]
      rfl
    exact absurd hempty hne
  | cons c text =>
    rw [List.cons_append] at hbare ⊢
    obtain ⟨hterm, hmark⟩ := hbare.start
    have hblank := not_isBlank_of_trim (trim_of_isPlain h) htext.symm
    refine ⟨⟨?_, ?_⟩, ?_, ?_⟩
    · rintro (hspace | hsemi)
      · simp [Text.isBlank_of_isSpace hspace] at hblank
      · simp [hsemi, Prelude.isTerminator] at hterm
    · intro hbrace
      simp [hbrace, Prelude.isTerminator] at hterm
    · intro hc
      rw [← htext] at hat
      simp [hc, Text.startsWith, Text.afterPrefix?] at hat
    · rwa [← List.append_assoc, Located.headChar_append_of_ne_nil (by simp [hmore])]

/-- Blanks and plain texts before an ending mark are read as the text between them. -/
theorem statement_of_isPlain {s : String} (h : isPlain s = true) {text before after : List Located}
    (htext : text.map Located.char = s.toList)
    (hbefore : ∀ c ∈ before, c.char = ' ') (hafter : ∀ c ∈ after, c.char = ' ') {t : Located}
    (ht : Prelude.isTerminator t.char = true) (hbrace : t.char = '{' → after ≠ [])
    (hrising : Located.Rising size (before ++ (text ++ after) ++ t :: back)) :
    Prelude.Bare (before ++ (text ++ after)) ∧
    Prelude.skip 0 (before ++ (text ++ after) ++ t :: back) = .ok (t :: back) ∧
      ∃ e : Excerpt, e.text = s ∧
        Excerpt.cut (before ++ (text ++ after) ++ t :: back) t.offset = .ok e := by
  have hinert : ∀ {xs : List Located}, (∀ c ∈ xs, c.char = ' ') →
      ∀ c ∈ xs, Prelude.isInert c.char = true := by
    intro xs hxs c hc
    rw [hxs c hc]
    decide
  have hblank : ∀ {xs : List Located}, (∀ c ∈ xs, c.char = ' ') →
      ∀ c ∈ xs.map Located.char, Text.isBlank c = true := by
    intro xs hxs c hc
    obtain ⟨d, hd, rfl⟩ := List.mem_map.1 hc
    rw [hxs d hd]
    decide
  have hbare : Prelude.Bare (before ++ (text ++ after)) := by
    refine (Prelude.bare_of_inert (hinert hbefore)).append ((bare_of_isPlain h htext).append
      (Prelude.bare_of_inert (hinert hafter)) ?_) ?_
    · cases after with
      | nil => exact Prelude.apart_of_headChar (by simp) (by simp)
      | cons c after =>
        have hc := hafter c List.mem_cons_self
        exact Prelude.apart_of_headChar (by simp [hc]) (by simp [hc])
    · exact Prelude.apart_of_inert fun c hc => hinert hbefore c (List.mem_of_getLast? hc)
  have hapart : Prelude.Apart (before ++ (text ++ after)) (t :: back) := by
    by_cases hnone : after = []
    · have hstar : t.char ≠ '*' := by
        rintro hstar
        simp [hstar, Prelude.isTerminator] at ht
      exact Prelude.apart_of_headChar (by simpa using hstar) (by simpa using fun ho => hbrace ho hnone)
    · refine Prelude.apart_of_inert fun c hc => hinert hafter c (List.mem_of_getLast? ?_)
      rwa [← List.append_assoc, List.getLast?_append_of_ne_nil _ hnone] at hc
  obtain ⟨hstop, hcut⟩ := hbare.statement hapart ht hrising
  refine ⟨hbare, hstop, _, ?_, hcut⟩
  rw [Excerpt.text_trim, Located.text, List.map_append, List.map_append, htext]
  exact trim_padded (trim_of_isPlain h) (hblank hbefore) (hblank hafter)

theorem startsNode_sign {c : Located} (hc : c.char = '@') (rest : List Located) :
    Event.StartsNode (c :: rest) := by
  simp [Event.StartsNode, Event.IsFiller, hc, Text.isSpace]

/-- Reading an at-rule up to the mark that ends its parameters. -/
theorem takes_atRule {name params : String} (hname : ∀ c ∈ name.toList, Event.isNameChar c = true)
    (hplain : isPlain params = true) {sign space t : Located} {word text after : List Located}
    (hsign : sign.char = '@') (hword : word.map Located.char = name.toList)
    (hspace : space.char = ' ') (htext : text.map Located.char = params.toList)
    (hafter : ∀ c ∈ after, c.char = ' ') (ht : Prelude.isTerminator t.char = true)
    (hbrace : t.char = '{' → after ≠ [])
    (hrising : Located.Rising size (sign :: (word ++ ([space] ++ (text ++ after) ++ t :: back)))) :
    ∃ e : Excerpt, e.text = params ∧ ∀ event next,
      Event.atRuleEnd size sign.offset name e (t :: back) = (event, next) →
      Event.Takes size (sign :: (word ++ ([space] ++ (text ++ after) ++ t :: back))) event next := by
  have hrest : Located.Rising size ([space] ++ (text ++ after) ++ t :: back) := by
    rw [← List.cons_append] at hrising
    exact hrising.right
  obtain ⟨_, hstop, e, he, hcut⟩ := statement_of_isPlain hplain htext (by simpa using hspace) hafter ht
    hbrace hrest
  refine ⟨e, he, fun event next hend => .atRule hsign ?_ ?_ hstop hcut ?_⟩
  · intro d hd
    exact hname d.char (hword ▸ List.mem_map_of_mem hd)
  · intro x hx
    obtain rfl : ' ' = x := by simpa [hspace] using hx
    decide
  · have htextName : Located.text word = name := by rw [Located.text, hword, String.ofList_toList]
    rwa [htextName]

/-- Reading a node that opens a block. -/
theorem takes_block {tree : Outline} {body : List Outline} (hbody : tree.body? = some body)
    (h : tree.isPrintable = true) (hcs : cs.map Located.char = tree.opening.toList)
    (hrising : Located.Rising size (cs ++ back)) :
    Event.StartsNode (cs ++ back) ∧ ∃ start brace head,
      Event.Takes size (cs ++ back) (.opens start brace head) back ∧
        ∀ span nodes, Node.outlines nodes = body → (head.node span nodes).outline = tree := by
  cases tree with
  | rule selector inner =>
    obtain rfl : inner = body := by simpa [body?] using hbody
    simp only [isPrintable, Bool.and_eq_true, bne_iff_ne, Bool.not_eq_true'] at h
    obtain ⟨⟨⟨hplain, hne⟩, hat⟩, _⟩ := h
    have hcs : cs.map Located.char = selector.toList ++ [' ', '{'] := by simpa [opening] using hcs
    obtain ⟨text, _, rfl, htext, hmore⟩ := List.map_eq_append_iff.1 hcs
    obtain ⟨space, _, rfl, hspace, hmore⟩ := List.map_eq_cons_iff.1 hmore
    obtain ⟨brace, rfl, hbrace⟩ := List.map_eq_singleton_iff.1 hmore
    have hsplit : text ++ [space, brace] ++ back = text ++ ([space] ++ brace :: back) := by simp
    rw [hsplit] at hrising ⊢
    obtain ⟨hbare, hstop, e, he, hcut⟩ := @statement_of_isPlain size back _ hplain text [] [space]
      htext (by simp) (by simpa using hspace) brace (by simp [hbrace, Prelude.isTerminator]) (by simp)
      (by simpa using hrising)
    obtain ⟨hnode, hstatement⟩ := starts_of_isPlain hplain hne hat htext (by simp) hbare (brace :: back)
    rw [List.nil_append, List.append_assoc] at hstop hcut
    rw [← List.append_assoc] at hnode hstatement hstop hcut ⊢
    exact ⟨hnode, _, _, .rule e, .rule hstatement hbrace hstop hcut,
      fun span nodes hnodes => by simp [Head.node, Node.outline, he, hnodes]⟩
  | atRule name params inner =>
    obtain rfl : inner = body := by simpa [body?] using hbody
    simp only [isPrintable, Bool.and_eq_true, List.all_eq_true] at h
    obtain ⟨⟨hname, hplain⟩, _⟩ := h
    have hcs : cs.map Located.char = '@' :: (name.toList ++ ' ' :: (params.toList ++ [' ', '{'])) := by
      simpa [opening] using hcs
    obtain ⟨sign, _, rfl, hsign, hcs⟩ := List.map_eq_cons_iff.1 hcs
    obtain ⟨word, _, rfl, hword, hcs⟩ := List.map_eq_append_iff.1 hcs
    obtain ⟨space, _, rfl, hspace, hcs⟩ := List.map_eq_cons_iff.1 hcs
    obtain ⟨text, _, rfl, htext, hmore⟩ := List.map_eq_append_iff.1 hcs
    obtain ⟨space', _, rfl, hspace', hmore⟩ := List.map_eq_cons_iff.1 hmore
    obtain ⟨brace, rfl, hbrace⟩ := List.map_eq_singleton_iff.1 hmore
    have hsplit : sign :: (word ++ space :: (text ++ [space', brace])) ++ back =
        sign :: (word ++ ([space] ++ (text ++ [space']) ++ brace :: back)) := by simp
    rw [hsplit] at hrising ⊢
    obtain ⟨e, he, htakes⟩ := takes_atRule hname hplain hsign hword hspace htext
      (by simpa using hspace') (by simp [hbrace, Prelude.isTerminator]) (by simp) hrising
    refine ⟨startsNode_sign hsign _, _, _, .atRule name e, htakes _ _ (if_pos hbrace),
      fun span nodes hnodes => by simp [Head.node, Node.outline, he, hnodes]⟩
  | atStatement | declaration | comment => simp [body?] at hbody

/-- Reading a comment. -/
theorem takes_comment {text : String} (h : (Outline.comment text).isPrintable = true)
    (hcs : cs.map Located.char = (Outline.comment text).opening.toList) :
    Event.StartsNode (cs ++ back) ∧ ∃ node,
      Event.Takes size (cs ++ back) (.leaf node) back ∧ node.outline = .comment text := by
  simp only [isPrintable, Bool.and_eq_true, beq_iff_eq, Bool.not_eq_true', decide_eq_false_iff_not] at h
  obtain ⟨htrim, hfree⟩ := h
  have hcs : cs.map Located.char = '/' :: '*' :: ((' ' :: (text.toList ++ [' '])) ++ ['*', '/']) := by
    simpa [opening] using hcs
  obtain ⟨c, _, rfl, hc, hcs⟩ := List.map_eq_cons_iff.1 hcs
  obtain ⟨star, body, rfl, hstar, hbody⟩ := List.map_eq_cons_iff.1 hcs
  have hinner : ¬['*', '/'] <:+: ' ' :: (text.toList ++ [' ']) := by
    rw [List.infix_cons_iff, List.infix_concat_iff]
    rintro (hfront | hlast | hinfix)
    · simp at hfront
    · obtain ⟨before, hlast⟩ := hlast
      simpa using congrArg List.getLast? hlast
    · exact hfree hinfix
  have hclose := Lexeme.closeComment_complete hinner hbody back
  have htext : (body.take (body.length - 2)).map Located.char = ' ' :: (text.toList ++ [' ']) := by
    have hlength : body.length - 2 = (' ' :: (text.toList ++ [' '])).length := by
      have := congrArg List.length hbody
      rw [List.length_map, List.length_append] at this
      exact Nat.sub_eq_of_eq_add this
    rw [List.map_take, hbody, hlength, List.take_left]
  refine ⟨by simp [Event.StartsNode, Event.IsFiller, hc, Text.isSpace], _,
    .comment hc hstar hclose, ?_⟩
  rw [Node.outline, Located.text, htext]
  have hblank : ∀ c ∈ [' '], Text.isBlank c = true := by
    simpa using (by decide : Text.isBlank ' ' = true)
  rw [show ' ' :: (text.toList ++ [' ']) = [' '] ++ (text.toList ++ [' ']) from rfl,
    trim_padded htrim hblank hblank]

/-- How the value of a declaration is read: what is written before the flag. -/
theorem splitImportant_of_written {value : String} (hplain : isPlain value = true)
    (hflag : endsInFlag value = false) (important : Bool) {e : Excerpt}
    (he : e.text.toList = Text.trimChars (value.toList ++
      if important then " !important".toList else [])) :
    e.splitImportant.1.text = value ∧ e.splitImportant.2 = important := by
  have htrim : Text.trimChars value.toList = value.toList := by
    have := congrArg String.toList (trim_of_isPlain hplain)
    rwa [Text.trim, String.toList_ofList] at this
  cases important with
  | false =>
    have htext : e.text = value := by
      rw [← String.toList_inj, he]
      simpa using htrim
    rw [Excerpt.splitImportant_of_endsInFlag (by rwa [htext])]
    exact ⟨htext, rfl⟩
  | true =>
    have hchars : e.chars.map Located.char =
        (value.toList ++ [' ']).dropWhile Text.isBlank ++ '!' :: "important".toList := by
      rw [← Text.trimChars_append_tight (by decide) (by simp [Text.isBlank])]
      simpa [Excerpt.text, Located.text] using he
    obtain ⟨before, _, hsplit, hbefore, hmore⟩ := List.map_eq_append_iff.1 hchars
    obtain ⟨bang, word, rfl, hbang, hword⟩ := List.map_eq_cons_iff.1 hmore
    have hfree : ∀ c ∈ word, c.char ≠ '!' := by
      intro c hc hbang
      have : c.char ∈ "important".toList := hword ▸ List.mem_map_of_mem hc
      simp [hbang] at this
    have hsame : Text.sameLetters (Text.trim (Located.text word)) "important" = true := by
      rw [Located.text, hword]
      decide
    rw [Excerpt.splitImportant_flag hsplit hbang hfree hsame]
    refine ⟨?_, rfl⟩
    rw [Excerpt.text_trim, Located.text, hbefore, Text.trim, String.toList_ofList,
      Text.trimChars_dropWhile, Text.trimChars_append_blank (by simp [Text.isBlank]), htrim,
      String.ofList_toList]

/-- A text without the blanks at its end. -/
theorem exists_tight (colon : Located) (hcolon : Text.isBlank colon.char = false)
    (rest : List Located) : ∃ after gap, rest = after ++ gap ∧
      (∀ c ∈ gap, Text.isBlank c.char = true) ∧
      ∀ c, (colon :: after).getLast? = some c → Text.isBlank c.char = false := by
  induction rest using List.reverseRecOn with
  | nil => exact ⟨[], [], rfl, by simp, by simpa using hcolon⟩
  | append_singleton rest c ih =>
    by_cases hc : Text.isBlank c.char = true
    · obtain ⟨after, gap, rfl, hgap, htight⟩ := ih
      refine ⟨after, gap ++ [c], by simp, ?_, htight⟩
      intro d hd
      rcases List.mem_append.1 hd with hd | hd
      · exact hgap d hd
      · rwa [List.mem_singleton.1 hd]
    · refine ⟨rest ++ [c], [], by simp, by simp, ?_⟩
      intro d hd
      rw [← List.cons_append, List.getLast?_concat, Option.some_inj] at hd
      simpa [← hd] using hc

/-- What is written after the colon of a declaration is bare. -/
theorem bare_of_written {value : String} (hplain : isPlain value = true) (important : Bool)
    {rest : List Located} (hrest : rest.map Located.char =
      ' ' :: (value.toList ++ if important then " !important".toList else [])) :
    Prelude.Bare rest := by
  obtain ⟨space, _, rfl, hspace, hmore⟩ := List.map_eq_cons_iff.1 hrest
  obtain ⟨text, flag, rfl, htext, hflag⟩ := List.map_eq_append_iff.1 hmore
  have hspace : Prelude.isInert space.char = true := by
    rw [hspace]
    decide
  have hinert : ∀ c ∈ flag, Prelude.isInert c.char = true := by
    intro c hc
    have hmem : c.char ∈ if important then " !important".toList else [] :=
      hflag ▸ List.mem_map_of_mem hc
    have hall : ∀ x ∈ " !important".toList, Prelude.isInert x = true := by simp [Prelude.isInert]
    cases important with
    | false => simp at hmem
    | true => exact hall _ hmem
  have hhead : Located.headChar flag = none ∨ Located.headChar flag = some ' ' := by
    rw [Located.headChar, ← List.head?_map, hflag]
    cases important <;> simp
  rw [← List.singleton_append]
  refine (Prelude.bare_of_inert (by simpa using hspace)).append
    ((bare_of_isPlain hplain htext).append (Prelude.bare_of_inert hinert) ?_)
    (Prelude.apart_of_inert (by simpa using hspace))
  rcases hhead with hnone | hblank
  · exact Prelude.apart_of_headChar (by simp [hnone]) (by simp [hnone])
  · exact Prelude.apart_of_headChar (by simp [hblank]) (by simp [hblank])

/-- A bare text is divided at its first colon, with nothing left out on either side but blanks. -/
theorem divides_of_bare {text rest : List Located} {colon semi : Located}
    (hfree : ∀ c ∈ text, c.char ≠ ':') (hcolon : colon.char = ':')
    (hbare : Prelude.Bare (text ++ colon :: rest)) (hbareRest : Prelude.Bare rest)
    (hsemi : semi.char = ';')
    (hrising : Located.Rising size (text ++ colon :: rest ++ semi :: back)) :
    ∃ after gap, rest = after ++ gap ∧ Event.Divides size (text ++ colon :: rest) (semi :: back) text
      colon after gap (Excerpt.trim text colon.offset)
      (Excerpt.trim after (Located.startOf size (gap ++ semi :: back))) := by
  have hapart : ∀ front : List Located, Prelude.Apart front (semi :: back) :=
    fun front => Prelude.apart_of_headChar (by simp [hsemi]) (by simp [hsemi])
  obtain ⟨after, gap, rfl, hgap, htight⟩ := exists_tight colon (by rw [hcolon]; decide) rest
  refine ⟨after, gap, rfl, rfl, hcolon, hfree, hgap, htight, hbare.cut (hapart _) hrising, ?_⟩
  rw [← List.append_assoc]
  exact hbareRest.cut (hapart _) (hrising.suffix ⟨text ++ [colon], by simp⟩)

/-- Reading a declaration. -/
theorem takes_declaration {prop value : String} {important : Bool}
    (h : (Outline.declaration prop value important).isPrintable = true)
    (hcs : cs.map Located.char = (Outline.declaration prop value important).opening.toList)
    (hrising : Located.Rising size (cs ++ back)) :
    Event.StartsNode (cs ++ back) ∧ ∃ node, Event.Takes size (cs ++ back) (.leaf node) back ∧
      node.outline = .declaration prop value important := by
  simp only [isPrintable, Bool.and_eq_true, bne_iff_ne, Bool.not_eq_true', List.contains_eq_mem,
    decide_eq_false_iff_not] at h
  obtain ⟨⟨⟨⟨⟨hplain, hne⟩, hfree⟩, hat⟩, hvalue⟩, hflag⟩ := h
  have hcs : cs.map Located.char = prop.toList ++ ':' ::
      ((' ' :: (value.toList ++ if important then " !important".toList else [])) ++ [';']) := by
    cases important <;> simpa [opening] using hcs
  obtain ⟨text, _, rfl, htext, hcs⟩ := List.map_eq_append_iff.1 hcs
  obtain ⟨colon, _, rfl, hcolon, hcs⟩ := List.map_eq_cons_iff.1 hcs
  obtain ⟨rest, _, rfl, hrest, hcs⟩ := List.map_eq_append_iff.1 hcs
  obtain ⟨semi, rfl, hsemi⟩ := List.map_eq_singleton_iff.1 hcs
  have hsplit : text ++ colon :: (rest ++ [semi]) ++ back =
      text ++ colon :: rest ++ semi :: back := by simp
  rw [hsplit] at hrising ⊢
  have hcolonInert : Prelude.isInert colon.char = true := by
    rw [hcolon]
    decide
  have hbareRest := bare_of_written hvalue important hrest
  have hcolonBare : Prelude.Bare [colon] := Prelude.bare_of_inert (by simpa using hcolonInert)
  have hcolonApart : Prelude.Apart [colon] rest :=
    Prelude.apart_of_inert (by simpa using hcolonInert)
  have hbare : Prelude.Bare (text ++ colon :: rest) :=
    (bare_of_isPlain hplain htext).append (hcolonBare.append hbareRest hcolonApart)
      (Prelude.apart_of_headChar (by simp [hcolon]) (by simp [hcolon]))
  have hfree : ∀ c ∈ text, c.char ≠ ':' := by
    intro c hc hchar
    have hmem : c.char ∈ prop.toList := htext ▸ List.mem_map_of_mem hc
    exact hfree (hchar ▸ hmem)
  obtain ⟨hnode, hstatement⟩ := starts_of_isPlain hplain hne hat htext (by simp) hbare (semi :: back)
  rw [← List.append_assoc] at hnode hstatement
  obtain ⟨hstop, _⟩ := hbare.statement
    (Prelude.apart_of_headChar (by simp [hsemi]) (by simp [hsemi]))
    (by simp [hsemi, Prelude.isTerminator]) hrising
  obtain ⟨after, gap, rfl, hdivides⟩ := divides_of_bare hfree hcolon hbare hbareRest hsemi hrising
  have htakes := Event.Takes.declaration hstatement (by simp [hsemi]) hstop hdivides
  rw [Event.afterSemicolon, if_pos hsemi] at htakes
  refine ⟨hnode, _, htakes, ?_⟩
  have hvalueText : (Excerpt.trim after (Located.startOf size (gap ++ semi :: back))).text.toList =
      Text.trimChars (value.toList ++ if important then " !important".toList else []) := by
    have hgapChars : ∀ c ∈ gap.map Located.char, Text.isBlank c = true := by
      simpa using hdivides.gap_blank
    rw [Excerpt.text_trim, Located.text, Text.trim, String.toList_ofList, String.toList_ofList,
      ← Text.trimChars_append_blank hgapChars, ← List.map_append, hrest, ← List.singleton_append,
      Text.trimChars_append_left (by simp [Text.isBlank])]
  obtain ⟨hvalueEq, himportant⟩ := splitImportant_of_written hvalue hflag important hvalueText
  rw [Node.outline, hvalueEq, himportant, Excerpt.text_trim, Located.text, htext,
    String.ofList_toList, trim_of_isPlain hplain]

/-- Reading a node without a block. -/
theorem takes_leaf {tree : Outline} (hbody : tree.body? = none) (h : tree.isPrintable = true)
    (hcs : cs.map Located.char = tree.opening.toList) (hrising : Located.Rising size (cs ++ back)) :
    Event.StartsNode (cs ++ back) ∧ ∃ node,
      Event.Takes size (cs ++ back) (.leaf node) back ∧ node.outline = tree := by
  cases tree with
  | rule | atRule => simp [body?] at hbody
  | atStatement name params =>
    simp only [isPrintable, Bool.and_eq_true, List.all_eq_true] at h
    have hcs : cs.map Located.char = '@' :: (name.toList ++ ' ' :: (params.toList ++ [';'])) := by
      simpa [opening] using hcs
    obtain ⟨sign, _, rfl, hsign, hcs⟩ := List.map_eq_cons_iff.1 hcs
    obtain ⟨word, _, rfl, hword, hcs⟩ := List.map_eq_append_iff.1 hcs
    obtain ⟨space, _, rfl, hspace, hcs⟩ := List.map_eq_cons_iff.1 hcs
    obtain ⟨text, _, rfl, htext, hcs⟩ := List.map_eq_append_iff.1 hcs
    obtain ⟨semi, rfl, hsemi⟩ := List.map_eq_singleton_iff.1 hcs
    have hsplit : sign :: (word ++ space :: (text ++ [semi])) ++ back =
        sign :: (word ++ ([space] ++ (text ++ []) ++ semi :: back)) := by simp
    rw [hsplit] at hrising ⊢
    obtain ⟨e, he, htakes⟩ := takes_atRule h.1 h.2 hsign hword hspace htext (by simp)
      (by simp [hsemi, Prelude.isTerminator]) (by simp [hsemi]) hrising
    refine ⟨startsNode_sign hsign _, _, htakes _ _ (by rw [Event.atRuleEnd, if_neg (by simp [hsemi]),
      if_pos hsemi]), by rw [Node.outline, he]⟩
  | declaration prop value important => exact takes_declaration h hcs hrising
  | comment text => exact takes_comment h hcs

theorem builds_spacing {gap rest after : List Located} {nodes : List Node}
    (hgap : IsSpacing (gap.map Located.char)) (h : Event.Builds size rest nodes after) :
    Event.Builds size (gap ++ rest) nodes after := by
  induction gap with
  | nil => exact h
  | cons c gap ih =>
    exact .filler (.inl (hgap c.char (by simp))) (ih fun d hd => hgap d (List.mem_cons_of_mem _ hd))

/-- Whatever is a way to write down the trees is read as them, up to the end of the block. -/
theorem builds_of_prints {trees : List Outline} {text : List Char} (h : Prints trees text)
    (hprintable : allPrintable trees = true) {cs after : List Located}
    (hcs : cs.map Located.char = text)
    (hafter : after = [] ∨ Located.headChar after = some '}')
    (hrising : Located.Rising size (cs ++ after)) :
    ∃ nodes, Event.Builds size (cs ++ after) nodes after ∧ Node.outlines nodes = trees := by
  induction h generalizing cs after with
  | finish hgap =>
    refine ⟨[], builds_spacing (hcs ▸ hgap) ?_, rfl⟩
    rcases hafter with rfl | hclose
    · exact .finish
    · cases after with
      | nil => simp at hclose
      | cons c rest => exact .close (by simpa using hclose)
  | @leaf tree trees gap rest hgap hbody _ ih =>
    simp only [allPrintable, Bool.and_eq_true] at hprintable
    obtain ⟨space, _, rfl, hspace, hcs⟩ := List.map_eq_append_iff.1 hcs
    obtain ⟨own, more, rfl, hown, hmore⟩ := List.map_eq_append_iff.1 hcs
    simp only [List.append_assoc] at hrising ⊢
    obtain ⟨nodes, hbuilds, houtlines⟩ := ih hprintable.2 hmore hafter hrising.right.right
    obtain ⟨hstart, node, htakes, hnode⟩ := takes_leaf hbody hprintable.1 hown hrising.right
    exact ⟨node :: nodes, builds_spacing (hspace ▸ hgap) (.leaf hstart htakes hbuilds),
      by rw [Node.outlines, hnode, houtlines]⟩
  | @block tree body trees gap inner rest hgap hbody _ _ ihbody ih =>
    simp only [allPrintable, Bool.and_eq_true] at hprintable
    have hbodyPrintable : allPrintable body = true := by
      cases tree with
      | rule | atRule =>
        obtain rfl := by simpa [body?] using hbody
        simp only [isPrintable, Bool.and_eq_true] at hprintable
        exact hprintable.1.2
      | atStatement | declaration | comment => simp [body?] at hbody
    obtain ⟨space, _, rfl, hspace, hcs⟩ := List.map_eq_append_iff.1 hcs
    obtain ⟨own, _, rfl, hown, hcs⟩ := List.map_eq_append_iff.1 hcs
    obtain ⟨inside, _, rfl, hinside, hcs⟩ := List.map_eq_append_iff.1 hcs
    obtain ⟨close, more, rfl, hclose, hmore⟩ := List.map_eq_cons_iff.1 hcs
    simp only [List.append_assoc, List.cons_append] at hrising ⊢
    obtain ⟨nodes, hbuilds, houtlines⟩ := ih hprintable.2 hmore hafter
      (hrising.right.right.right.suffix (List.suffix_cons _ _))
    obtain ⟨children, hchildren, hchildOutlines⟩ := @ihbody hbodyPrintable inside
      (close :: (more ++ after)) hinside (.inr (by simp [hclose])) hrising.right.right
    obtain ⟨hstart, start, brace, head, htakes, hhead⟩ :=
      takes_block hbody hprintable.1 hown hrising.right
    exact ⟨_, builds_spacing (hspace ▸ hgap) (.block hstart htakes hchildren hclose hbuilds),
      by rw [Node.outlines, hhead _ _ hchildOutlines, houtlines]⟩

end Outline

/-- Parsing undoes printing: a printable outline can be written down, and whatever white space stands
between its nodes, the source parses into a tree with just this outline. -/
theorem parse_print {trees : List Outline} (h : Outline.allPrintable trees = true) :
    Outline.Prints trees (Outline.print trees).toList ∧
      ∀ text : String, Outline.Prints trees text.toList →
        ∃ sheet, Sheet.parse text = .ok sheet ∧ Node.outlines sheet.nodes = trees := by
  refine ⟨?_, fun text htext => ?_⟩
  · rw [Outline.print, String.toList_ofList]
    exact Outline.prints_allChars trees
  · have hrising := Located.Rising.of_runs (Located.runs_ofString text)
    rw [← List.append_nil (Located.ofString text)] at hrising
    obtain ⟨nodes, hbuilds, houtlines⟩ := Outline.builds_of_prints htext h
      (Located.map_char_place 0 text.toList) (.inl rfl) hrising
    rw [List.append_nil] at hbuilds
    exact ⟨⟨text, nodes⟩, Event.parse_eq_ok_iff.2 ⟨rfl, hbuilds⟩, houtlines⟩

/-- All kinds of node, with marks in strings, brackets and escapes that end nothing there. -/
def sampleOutline : List Outline :=
  [.comment "é *", .atStatement "import" "url(a;b)",
    .atRule "media" "" [.rule "a[b=\"\x7d\"]:hover\\;" [.declaration "--c/" "\"/*;\" (:;\x7b) !" true,
      .declaration "d" "" false, .declaration "é" "" true], .atRule "" "()" []]]

theorem parse_print_sample : Outline.allPrintable sampleOutline = true ∧
    ∃ sheet, Sheet.parse (Outline.print sampleOutline) = .ok sheet ∧
      Node.outlines sheet.nodes = sampleOutline := by
  have hprintable : Outline.allPrintable sampleOutline = true := by decide +kernel
  obtain ⟨hprints, hparse⟩ := parse_print hprintable
  exact ⟨hprintable, hparse _ hprints⟩

end SheetPolicy

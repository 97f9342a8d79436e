import Mathlib
import SheetPolicy.Proofs.SelectorFailure
import SheetPolicy.Proofs.SelectorScan
import SheetPolicy.Proofs.Cursor.Access

/-!
The units of a selector by byte offsets. Each look at a character cuts the text at the offset, a
name is as long as the difference of its offsets, and the brackets of a group are counted down with
subtractions. What is read is what the characters say (`part_cons`, `combinator_cons`).
-/

namespace SheetPolicy.Cursor

open Selector (Simple)

/-- The character at an offset. -/
def peek (text : String) (i : Nat) : Checked Selector.Error (Option Char) := do
  let rest ← cutFrom text i
  .ok rest.toList.head?

/-- The offset behind the character at an offset. -/
def bump (text : String) (i : Nat) : Checked Selector.Error Nat := do
  match ← peek text i with
  | some c => .ok (i + c.utf8Size)
  | none => .ok i

theorem le_of_onward {text : String} {i j k : Nat} (hj : i < j ∧ j ≤ text.utf8ByteSize)
    (hk : j ≤ k) : i ≤ k :=
  hj.1.le.trans hk

def skipBlanks (text : String) (i : Nat) : Checked Selector.Error { k // i ≤ k } := do
  match ← peek text i with
  | none => .ok ⟨i, Nat.le_refl i⟩
  | some c =>
    if Text.isSpace c then
      let ⟨j, hj⟩ ← onward text i (← bump text i)
      let ⟨k, hk⟩ ← skipBlanks text j
      .ok ⟨k, le_of_onward hj hk⟩
    else .ok ⟨i, Nat.le_refl i⟩
termination_by text.utf8ByteSize - i

/-- The end of the name at an offset. A backslash takes the next character along. -/
def nameEnd (text : String) (i : Nat) : Checked Selector.Error Nat := do
  match ← peek text i with
  | none => .ok i
  | some c =>
    if c = '\\' then
      let ⟨j, _⟩ ← onward text i (← bump text (← bump text i))
      nameEnd text j
    else if Selector.isNameChar c then
      let ⟨j, _⟩ ← onward text i (← bump text i)
      nameEnd text j
    else .ok i
termination_by text.utf8ByteSize - i

/-- The end of the name at an offset, and how many bytes it has. -/
def readName (text : String) (i : Nat) : Checked Selector.Error (Nat × Nat) := do
  let stop ← nameEnd text i
  let size ← subtract stop i
  .ok (stop, size)

/-- The end of the bracketed group that was opened at `opened`, from `i` on. -/
def skipGroup (text : String) (opened : Nat) (left right : Char) (depth : Nat)
    (quote : Option Char) (i : Nat) : Checked Selector.Error Nat := do
  match ← peek text i with
  | none => refuse (.unclosed opened)
  | some c =>
    let next ← bump text i
    if c = '\\' then
      let ⟨j, _⟩ ← onward text i (← bump text next)
      skipGroup text opened left right depth quote j
    else
      let ⟨j, _⟩ ← onward text i next
      match quote with
      | some q => skipGroup text opened left right depth (if c = q then none else some q) j
      | none =>
        if c = '"' ∨ c = '\'' then skipGroup text opened left right depth (some c) j
        else if c = left then skipGroup text opened left right (depth + 1) none j
        else if c = right then
          let depth ← subtract depth 1
          if depth = 0 then .ok next else skipGroup text opened left right depth none j
        else skipGroup text opened left right depth none j
termination_by text.utf8ByteSize - i

/-- What stands at one place of a selector: the unit, the offset of the parenthesis where it takes
selectors, and the offset behind what was read. -/
abbrev Part := Simple × Option Nat × Nat

/-- The pseudo-class or pseudo-element at `start`, whose name is at `i`. -/
def named (text : String) (start i : Nat) : Checked Selector.Error Part := do
  let (stop, size) ← readName text i
  if size = 0 then refuse (.expectedName start)
  else
    let value ← cut text start stop
    let name ← cut text i stop
    if (← peek text stop) = some '(' then
      if Selector.takesSelectors.contains (Text.withoutVendor (Text.lower name)) then
        .ok (⟨.pseudo, value, start⟩, some stop, ← bump text stop)
      else .ok (⟨.pseudo, value, start⟩, none, ← skipGroup text stop '(' ')' 0 none stop)
    else .ok (⟨.pseudo, value, start⟩, none, stop)

def pseudo (text : String) (start : Nat) : Checked Selector.Error Part := do
  let i ← bump text start
  if (← peek text i) = some ':' then named text start (← bump text i) else named text start i

/-- The unit that starts with `c` at `start`. -/
def part (text : String) (start : Nat) (c : Char) : Checked Selector.Error Part := do
  if c = '.' ∨ c = '#' then
    let (stop, size) ← readName text (← bump text start)
    if size = 0 then refuse (.expectedName start)
    else
      let value ← cut text start stop
      .ok (⟨if c = '.' then .className else .idName, value, start⟩, none, stop)
  else if c = '*' then .ok (⟨.universal, "*", start⟩, none, ← bump text start)
  else if c = '&' then .ok (⟨.nesting, "&", start⟩, none, ← bump text start)
  else if c = '[' then
    let stop ← skipGroup text start '[' ']' 0 none start
    let value ← cut text start stop
    .ok (⟨.attribute, value, start⟩, none, stop)
  else if c = ':' then pseudo text start
  else if Selector.isNameChar c then
    let (stop, _) ← readName text start
    let value ← cut text start stop
    .ok (⟨.tag, value, start⟩, none, stop)
  else refuse (.unexpectedCharacter c start)

/-- The combinator that starts at an offset, unless the selector ends there, and the offset behind
it. -/
def combinator (text : String) (start : Nat) : Checked Selector.Error (Option Simple × Nat) := do
  let ⟨i, _⟩ ← skipBlanks text start
  match ← peek text i with
  | none => .ok (none, i)
  | some c =>
    if Selector.isCombinator c then
      let ⟨j, _⟩ ← skipBlanks text (← bump text i)
      .ok (some ⟨.combinator, c.toString, start⟩, j)
    else if c = ',' ∨ c = ')' then .ok (none, i)
    else .ok (some ⟨.combinator, " ", start⟩, i)

/-! ## Characters, names and groups -/

variable {text : String} {cs rest : List Located} {c : Located}

theorem peek_spot (h : cs <:+ Located.ofString text) :
    peek text (spot text cs) = .ok (cs.head?.map Located.char) := by
  rw [peek, cutFrom_spot h, ok_bind, Located.text, String.toList_ofList, List.head?_map]

theorem peek_cons (h : c :: rest <:+ Located.ofString text) :
    peek text c.offset = .ok (some c.char) :=
  peek_spot h

theorem bump_spot (h : cs <:+ Located.ofString text) :
    bump text (spot text cs) = .ok (spot text cs.tail) := by
  rw [bump, peek_spot h, ok_bind]
  cases cs with
  | nil => rfl
  | cons c rest => simp [spot_rest h, Located.stop]

theorem bump_cons (h : c :: rest <:+ Located.ofString text) :
    bump text c.offset = .ok (spot text rest) :=
  bump_spot h

theorem skipBlanks_spot (h : cs <:+ Located.ofString text) :
    skipBlanks text (spot text cs) =
      .ok ⟨spot text (Selector.skipSpace cs), spot_mono h (List.dropWhile_suffix _)⟩ := by
  induction cs with
  | nil =>
    rw [skipBlanks, peek_spot h]
    rfl
  | cons c rest ih =>
    have hrest := (List.suffix_cons c rest).trans h
    have hnext := lt_spot h List.suffix_rfl
    rw [skipBlanks, peek_spot h, bump_spot h]
    simp only [List.head?_cons, Option.map_some, ok_bind, Selector.skipSpace, List.dropWhile_cons,
      List.tail_cons, spot_cons, onward_of_lt hnext, ih hrest]
    split <;> rfl

theorem skipBlanks_cons (h : c :: rest <:+ Located.ofString text) :
    skipBlanks text c.offset = .ok ⟨spot text (Selector.skipSpace (c :: rest)),
      spot_mono h (List.dropWhile_suffix _)⟩ :=
  skipBlanks_spot h

/-- A backslash and the character behind it are passed together. -/
theorem lt_spot_tail (h : c :: rest <:+ Located.ofString text) :
    c.offset < spot text rest.tail ∧ spot text rest.tail ≤ text.utf8ByteSize :=
  lt_spot h (List.tail_suffix rest)

theorem nameEnd_escape (h : c :: rest <:+ Located.ofString text) (hc : c.char = '\\') :
    nameEnd text c.offset = nameEnd text (spot text rest.tail) := by
  rw [nameEnd.eq_def text c.offset, peek_cons h, bump_cons h]
  simp only [ok_bind, if_pos hc, bump_spot ((List.suffix_cons c rest).trans h),
    onward_of_lt (lt_spot_tail h)]

theorem nameEnd_spot (h : cs <:+ Located.ofString text) :
    nameEnd text (spot text cs) = .ok (spot text (Selector.name cs).2) := by
  fun_induction Selector.name cs with
  | case1 =>
    rw [nameEnd, peek_spot h]
    rfl
  | case2 c hc =>
    have hnil := (List.suffix_cons c []).trans h
    rw [spot_cons, nameEnd_escape h hc, nameEnd, List.tail_nil, peek_spot hnil]
    rfl
  | case3 c hc d rest body after hname ih =>
    have hrest := (List.suffix_cons d rest).trans ((List.suffix_cons c _).trans h)
    rw [hname] at ih
    rw [spot_cons, nameEnd_escape h hc, List.tail_cons, ih hrest]
  | case4 c rest hescape hc body after hname ih =>
    rw [hname] at ih
    rw [spot_cons, nameEnd, peek_cons h, bump_cons h]
    simp only [ok_bind, if_neg hescape, if_pos hc, onward_of_lt (lt_spot h List.suffix_rfl)]
    exact ih ((List.suffix_cons c rest).trans h)
  | case5 c rest hescape hc =>
    rw [spot_cons, nameEnd, peek_cons h]
    simp only [ok_bind, if_neg hescape, if_neg hc]

theorem readName_spot (h : cs <:+ Located.ofString text) :
    readName text (spot text cs) =
      .ok (spot text (Selector.name cs).2, Located.size (Selector.name cs).1) := by
  have hadd := @spot_append text (Selector.name cs).1 (Selector.name cs).2
    (by rwa [Selector.name_append])
  rw [Selector.name_append] at hadd
  rw [readName, nameEnd_spot h, ok_bind, subtract_of_le (by omega), hadd, Nat.add_sub_cancel_left]
  rfl

section Group

variable {left right : Char} {opened depth : Nat} {quote : Option Char}

theorem skipGroup_escape (h : c :: rest <:+ Located.ofString text) (hc : c.char = '\\') :
    skipGroup text opened left right depth quote c.offset =
      skipGroup text opened left right depth quote (spot text rest.tail) := by
  rw [skipGroup.eq_def _ _ _ _ _ _ c.offset, peek_cons h, bump_cons h]
  simp only [ok_bind, if_pos hc, bump_spot ((List.suffix_cons c rest).trans h),
    onward_of_lt (lt_spot_tail h)]

theorem skipGroup_cons (hpair : Selector.IsPair left right)
    (h : c :: rest <:+ Located.ofString text) (hc : c.char ≠ '\\')
    (hdepth : c.char = right → 0 < depth) :
    skipGroup text opened left right depth quote c.offset =
      if quote = none ∧ c.char = right ∧ depth = 1 then .ok (spot text rest)
      else skipGroup text opened left right (Selector.depthAfter left right depth quote c.char)
        (Selector.quoteAfter c.char quote) (spot text rest) := by
  rw [skipGroup.eq_def _ _ _ _ _ _ c.offset, peek_cons h, bump_cons h]
  simp only [ok_bind, if_neg hc, onward_of_lt (lt_spot h List.suffix_rfl)]
  cases quote with
  | some q => simp [Selector.depthAfter, Selector.quoteAfter]
  | none =>
    by_cases hquote : c.char = '"' ∨ c.char = '\''
    · have hleft : c.char ≠ left := fun heq => hpair.left_quote (heq ▸ hquote)
      have hright : c.char ≠ right := fun heq => hpair.right_quote (heq ▸ hquote)
      simp [Selector.depthAfter, Selector.quoteAfter, hquote, hleft, hright]
    by_cases hleft : c.char = left
    · simp [Selector.depthAfter, Selector.quoteAfter, hleft, hpair.left_quote, hpair.sides]
    by_cases hright : c.char = right
    · have hcount := hdepth hright
      have hone : depth - 1 = 0 ↔ depth = 1 := by omega
      rw [subtract_of_le hcount]
      simp [Selector.depthAfter, Selector.quoteAfter, hright, hpair.right_quote, hpair.sides.symm,
        hone]
    simp [Selector.depthAfter, Selector.quoteAfter, hquote, hleft, hright]

theorem depthAfter_pos {k : Char} (hdepth : 0 < depth)
    (hend : ¬(quote = none ∧ k = right ∧ depth = 1)) :
    0 < Selector.depthAfter left right depth quote k := by
  cases quote with
  | some q => simpa [Selector.depthAfter] using hdepth
  | none =>
    simp only [Selector.depthAfter, Option.isSome_none, Bool.false_eq_true, if_false]
    split
    · exact Nat.succ_pos depth
    · split
      · next hright =>
        have hne : depth ≠ 1 := fun heq => hend ⟨rfl, hright, heq⟩
        omega
      · exact hdepth

/-- The offset behind a group. -/
def groupEnd (text : String) (opened : Nat) :
    Option (List Located × List Located) → Checked Selector.Error Nat
  | some (_, after) => .ok (spot text after)
  | none => refuse (.unclosed opened)

theorem groupEnd_map (g : Option (List Located × List Located))
    (f : List Located → List Located) :
    groupEnd text opened (g.map fun (body, after) => (f body, after)) = groupEnd text opened g := by
  rcases g with _ | ⟨body, after⟩ <;> rfl

/-- Behind its first bracket a group ends where the characters say: a bracket that closes finds one
that was counted. -/
theorem skipGroup_spot (hpair : Selector.IsPair left right) (hdepth : 0 < depth)
    (h : cs <:+ Located.ofString text) :
    skipGroup text opened left right depth quote (spot text cs) =
      groupEnd text opened (Selector.group left right depth quote cs) := by
  fun_induction Selector.group left right depth quote cs with
  | case1 =>
    rw [skipGroup, peek_spot h]
    rfl
  | case2 depth quote c hc =>
    have hnil := (List.suffix_cons c []).trans h
    rw [spot_cons, skipGroup_escape h hc, List.tail_nil, skipGroup, peek_spot hnil]
    rfl
  | case3 depth quote c hc d rest ih =>
    have hrest := (List.suffix_cons d rest).trans ((List.suffix_cons c _).trans h)
    rw [spot_cons, skipGroup_escape h hc, List.tail_cons, groupEnd_map _ (c :: d :: ·),
      ih hdepth hrest]
  | case4 depth quote c rest hc hend =>
    rw [spot_cons, skipGroup_cons hpair h hc fun _ => hdepth, if_pos hend]
    rfl
  | case5 depth quote c rest hc hend ih =>
    have hrest := (List.suffix_cons c rest).trans h
    rw [spot_cons, skipGroup_cons hpair h hc fun _ => hdepth, if_neg hend, groupEnd_map _ (c :: ·),
      ih (depthAfter_pos hdepth hend) hrest]

theorem skipGroup_open (hpair : Selector.IsPair left right) (hleft : left ≠ '\\')
    (h : c :: rest <:+ Located.ofString text) (hc : c.char = left) :
    skipGroup text opened left right 0 none c.offset =
      groupEnd text opened (Selector.group left right 0 none (c :: rest)) := by
  have hside : c.char ≠ right := fun heq => hpair.sides (hc.symm.trans heq)
  have hdepth : Selector.depthAfter left right 0 none c.char = 1 := by
    simp [Selector.depthAfter, hc]
  have hescape : c.char ≠ '\\' := hc ▸ hleft
  rw [skipGroup_cons hpair h hescape fun heq => absurd heq hside, if_neg (by simp), hdepth,
    skipGroup_spot hpair one_pos ((List.suffix_cons c rest).trans h), Selector.group.eq_def _ _ 0]
  simp only [if_neg hescape, hdepth, Nat.zero_ne_one, and_false, if_false]
  rw [groupEnd_map _ (c :: ·)]

end Group

/-! ## Units -/

/-- The part is the event, and the text goes on behind it at the same place. -/
def Part.IsEvent (text : String) : Part → Selector.Event × List Located → Prop
  | (unit, none, next), (event, after) => event = .unit unit ∧ next = spot text after
  | (unit, some paren, next), (event, inner) => event = .opens unit paren ∧ next = spot text inner

theorem named_spot {colons : List Located} (h : colons ++ cs <:+ Located.ofString text) :
    Agrees (Part.IsEvent text) (named text (spot text (colons ++ cs)) (spot text cs))
      (Selector.Event.named (spot text (colons ++ cs)) colons cs) := by
  have hcs := (List.suffix_append colons cs).trans h
  have happend := Selector.name_append cs
  rw [named, readName_spot hcs, Selector.Event.named]
  generalize Selector.name cs = name at happend ⊢
  obtain ⟨body, after⟩ := name
  subst happend
  cases body with
  | nil => exact .error _
  | cons b body =>
    have hafter := (List.suffix_append (b :: body) after).trans hcs
    have hsize := Located.size_pos (List.cons_ne_nil b body)
    have hvalue := @cut_append Selector.Error text (colons ++ b :: body) after (by simpa using h)
    rw [List.append_assoc] at hvalue
    simp only [ok_bind, if_neg hsize.ne', hvalue, cut_append hcs, peek_spot hafter]
    cases after with
    | nil => exact .ok ⟨rfl, rfl⟩
    | cons paren inner =>
      simp only [List.head?_cons, Option.map_some, Option.some_inj]
      split
      · next hparen =>
        split
        · rw [bump_spot hafter]
          exact .ok ⟨rfl, rfl⟩
        · rw [spot_cons, skipGroup_open Selector.isPair_round (by decide) hafter hparen]
          cases Selector.group '(' ')' 0 none (paren :: inner) with
          | none => exact .error _
          | some g => exact .ok ⟨rfl, rfl⟩
      · exact .ok ⟨rfl, rfl⟩

theorem pseudo_cons (h : c :: rest <:+ Located.ofString text) :
    Agrees (Part.IsEvent text) (pseudo text c.offset) (Selector.Event.ofPseudo c rest) := by
  have hrest := (List.suffix_cons c rest).trans h
  rw [pseudo, bump_cons h, ok_bind, peek_spot hrest, ok_bind]
  cases rest with
  | nil => exact @named_spot text [] [c] h
  | cons d rest =>
    simp only [List.head?_cons, Option.map_some, Option.some_inj, Selector.Event.ofPseudo]
    split
    · rw [bump_spot hrest]
      exact @named_spot text rest [c, d] h
    · exact @named_spot text (d :: rest) [c] h

theorem cut_name (h : c :: rest <:+ Located.ofString text) :
    cut text c.offset (spot text (Selector.name rest).2) =
      (.ok (Located.text (c :: (Selector.name rest).1)) : Checked Selector.Error String) := by
  have hname := Selector.name_append rest
  have hcut := @cut_append Selector.Error text (c :: (Selector.name rest).1) (Selector.name rest).2
    (by rwa [List.cons_append, hname])
  rwa [List.cons_append, hname] at hcut

theorem part_cons (h : c :: rest <:+ Located.ofString text) :
    Agrees (Part.IsEvent text) (part text c.offset c.char) (Selector.Event.ofStart c rest) := by
  have hrest := (List.suffix_cons c rest).trans h
  have hcut := cut_name h
  rw [part, Selector.Event.ofStart]
  split
  · rw [bump_cons h, ok_bind, readName_spot hrest]
    generalize Selector.name rest = name at hcut ⊢
    obtain ⟨_ | ⟨b, body⟩, after⟩ := name
    · exact .error _
    · have hsize := Located.size_pos (List.cons_ne_nil b body)
      simp only [ok_bind, if_neg hsize.ne', hcut]
      exact .ok ⟨rfl, rfl⟩
  split
  · rw [bump_cons h]
    exact .ok ⟨rfl, rfl⟩
  split
  · rw [bump_cons h]
    exact .ok ⟨rfl, rfl⟩
  split
  · next hc =>
    rw [skipGroup_open Selector.isPair_square (by decide) h hc]
    cases hgroup : Selector.group '[' ']' 0 none (c :: rest) with
    | none => exact .error _
    | some g =>
      obtain ⟨body, after⟩ := g
      obtain ⟨_, _, _, hbody⟩ := Selector.group_eq_cons hgroup
      have hvalue := @cut_append Selector.Error text body after (hbody ▸ h)
      rw [← hbody, spot_cons] at hvalue
      simp only [groupEnd, ok_bind, hvalue]
      exact .ok ⟨rfl, rfl⟩
  split
  · exact pseudo_cons h
  split
  · next hc =>
    have hescape : c.char ≠ '\\' := fun heq => by rw [heq] at hc; exact absurd hc (by decide)
    have hname : Selector.name (c :: rest) =
        (c :: (Selector.name rest).1, (Selector.name rest).2) := by
      rw [Selector.name.eq_def]
      simp only [if_neg hescape, if_pos hc]
    have hread := readName_spot h
    rw [hname, spot_cons] at hread
    simp only [hread, ok_bind, hcut]
    exact .ok ⟨rfl, rfl⟩
  · exact .error _

/-! ## Combinators -/

theorem combinator_cons (h : c :: rest <:+ Located.ofString text) :
    combinator text c.offset =
      .ok ((Selector.gap c rest).1, spot text (Selector.gap c rest).2) := by
  have hskip : Selector.skipSpace (c :: rest) <:+ Located.ofString text :=
    (List.dropWhile_suffix _).trans h
  rw [combinator, skipBlanks_cons h, ok_bind, Selector.gap]
  dsimp only
  generalize Selector.skipSpace (c :: rest) = cs at hskip ⊢
  cases cs with
  | nil =>
    rw [peek_spot hskip]
    rfl
  | cons d after =>
    simp only [peek_spot hskip, List.head?_cons, Option.map_some, ok_bind]
    split
    · rw [bump_spot hskip]
      simp only [List.tail_cons, ok_bind, skipBlanks_spot ((List.suffix_cons d after).trans hskip)]
    · split <;> rfl

end SheetPolicy.Cursor

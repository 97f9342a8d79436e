import Mathlib
import SheetPolicy.Proofs.Cursor.Sheet
import SheetPolicy.Proofs.Cursor.Unit

/-!
A list of selectors by byte offsets. The offset is handed from a list to the components of a
selector, from a pseudo-class to the list of its arguments, and back behind the parenthesis that
closes them; each component and each further selector has to start further on. The reading ends as
that over characters does (`readSelectors_eq`), and with the same of stylesheets no text makes a
reader go wrong.
-/

namespace SheetPolicy.Cursor

open Selector (Component Simple EndsSelector Prepends IsList Spans Passes Enters Leaves
  skipSpace_cons gap gap_none gap_some scan_gap scan_start scan_start_error scan_comma scan_close
  isList_single isList_comma)

mutual

/-- The components from an offset on up to the end of their selector, and the offset of that. -/
def components (text : String) (i : Nat) : Checked Selector.Error (List Component × Nat) := do
  match ← peek text i with
  | none => .ok ([], i)
  | some c =>
    if c = ',' ∨ c = ')' then .ok ([], i)
    else if Text.isSpace c ∨ Selector.isCombinator c then
      match ← combinator text i with
      | (none, j) => .ok ([], j)
      | (some unit, j) =>
        let ⟨j, _⟩ ← onward text i j
        let (more, stop) ← components text j
        .ok (.simple unit :: more, stop)
    else
      match ← part text i c with
      | (unit, none, j) =>
        let ⟨j, _⟩ ← onward text i j
        let (more, stop) ← components text j
        .ok (.simple unit :: more, stop)
      | (unit, some paren, j) =>
        let ⟨j, _⟩ ← onward text i j
        let (arguments, k) ← selectors text (some paren) j
        let ⟨k, _⟩ ← onward text i k
        let (more, stop) ← components text k
        .ok (.applied unit arguments :: more, stop)
termination_by 2 * (text.utf8ByteSize - i)

/-- The selectors from an offset on up to the end of the text, or up to the parenthesis that closes
the one at `opened`, and the offset from which the text goes on behind them. -/
def selectors (text : String) (opened : Option Nat) (i : Nat) :
    Checked Selector.Error (List (List Component) × Nat) := do
  let ⟨start, _⟩ ← skipBlanks text i
  let (selector, stop) ← components text start
  if selector.isEmpty then refuse (.emptySelector start)
  else
    match ← peek text stop with
    | none =>
      match opened with
      | none => .ok ([selector], stop)
      | some paren => refuse (.unclosed paren)
    | some c =>
      if c = ',' then
        let ⟨j, _⟩ ← onward text i (← bump text stop)
        let (more, stop) ← selectors text opened j
        .ok (selector :: more, stop)
      else if c = ')' ∧ opened.isSome then .ok ([selector], ← bump text stop)
      else refuse (.unexpectedCharacter c stop)
termination_by 2 * (text.utf8ByteSize - i) + 1

end

/-- Reads a list of selectors. -/
def readSelectors (text : String) : Checked Selector.Error (List (List Component)) := do
  let (list, _) ← selectors text none 0
  .ok list

variable {text : String} {cs rest : List Located} {c : Located}

/-! ## Readings -/

/-- How the components from `cs` on are read: up to the end of the selector, or with the error that
a scan meets from there on. -/
inductive ReadsComponents (text : String) (cs : List Located) :
    Checked Selector.Error (List Component × Nat) → Prop
  | covers {components : List Component} {after : List Located} :
      Spans text.utf8ByteSize cs components after →
      ReadsComponents text cs (.ok (components, spot text after))
  | refused {e : Selector.Error} :
      (∀ parens fresh, Selector.Event.scan text.utf8ByteSize parens fresh cs = .error e) →
      ReadsComponents text cs (refuse e)

/-- How the selectors behind the blanks at `cs` are read: to the end of the text, up to the
parenthesis that closes the one at `paren`, or with the error that a scan meets from there on,
whatever further parentheses are open. -/
inductive ReadsSelectors (text : String) (cs : List Located) :
    Option Nat → Checked Selector.Error (List (List Component) × Nat) → Prop
  | whole {events : List Selector.Event} {first : List Component} {more : List (List Component)} :
      Selector.Event.scan text.utf8ByteSize [] true (Selector.skipSpace cs) = .ok events →
      IsList events first more →
      ReadsSelectors text cs none (.ok (first :: more, text.utf8ByteSize))
  | inside {paren : Nat} {events : List Selector.Event} {first : List Component}
      {more : List (List Component)} {outer : List Located} :
      Leaves text.utf8ByteSize cs paren events outer → IsList events first more → outer <:+ cs →
      ReadsSelectors text cs (some paren) (.ok (first :: more, spot text outer))
  | refused {opened : Option Nat} {e : Selector.Error} :
      (∀ parens, (opened = none → parens = []) →
        Selector.Event.scan text.utf8ByteSize (opened.toList ++ parens) true
          (Selector.skipSpace cs) = .error e) →
      ReadsSelectors text cs opened (refuse e)

/-! ## Components -/

section Components

variable {head : Simple} {paren : Nat} {next after outer : List Located}
  {components : List Component}

namespace ReadsComponents

variable {r : Checked Selector.Error (List Component × Nat)}

theorem unit (hpass : Passes text.utf8ByteSize cs head next) (hnext : next <:+ cs)
    (h : ReadsComponents text next r) :
    ReadsComponents text cs (r >>= fun p => .ok (.simple head :: p.1, p.2)) := by
  cases h with
  | covers hcovers => exact .covers (.unit hpass hnext hcovers)
  | refused hscan =>
    refine .refused fun parens fresh => ?_
    rw [hpass, hscan]
    rfl

/-- The arguments of a pseudo-class are read, and then what follows it. -/
theorem applied {inner : List Located} {events : List Selector.Event} {first : List Component}
    {more : List (List Component)} (henter : Enters text.utf8ByteSize cs head paren inner)
    (hleave : Leaves text.utf8ByteSize inner paren events outer) (hlist : IsList events first more)
    (houter : outer <:+ cs) (h : ReadsComponents text outer r) :
    ReadsComponents text cs (r >>= fun p => .ok (.applied head (first :: more) :: p.1, p.2)) := by
  cases h with
  | covers hcovers => exact .covers (.applied henter hleave hlist houter hcovers)
  | refused hscan =>
    refine .refused fun parens fresh => ?_
    rw [henter, hleave, hscan]
    rfl

/-- An error in the arguments is one of what they stand in. -/
theorem applied_refused {inner : List Located} {e : Selector.Error}
    (henter : Enters text.utf8ByteSize cs head paren inner)
    (h : ∀ parens, Selector.Event.scan text.utf8ByteSize (paren :: parens) true
      (Selector.skipSpace inner) = .error e) :
    ReadsComponents text cs (refuse e) := by
  refine .refused fun parens fresh => ?_
  rw [henter, h]
  rfl

end ReadsComponents

end Components

/-- What holds of the readers at all places behind a character. -/
def ReadsBehind (text : String) (rest : List Located) : Prop :=
  ∀ after, after <:+ rest → ReadsComponents text after (components text (spot text after)) ∧
    ∀ opened, ReadsSelectors text after opened (selectors text opened (spot text after))

theorem components_end (hend : c.char = ',' ∨ c.char = ')')
    (h : c :: rest <:+ Located.ofString text) :
    ReadsComponents text (c :: rest) (components text c.offset) := by
  have hspace : ¬Text.isSpace c.char = true := by
    rcases hend with heq | heq <;> rw [heq] <;> decide
  have hskip : Selector.skipSpace (c :: rest) = c :: rest := by rw [skipSpace_cons, if_neg hspace]
  have hcovers : Spans text.utf8ByteSize (c :: rest) [] (Selector.skipSpace (c :: rest)) :=
    .blanks (by rw [hskip]; simpa [EndsSelector] using hend) fun _ _ => by rw [hskip]
  rw [components.eq_def, peek_cons h]
  simp only [ok_bind, if_pos hend]
  rw [hskip] at hcovers
  exact .covers hcovers

section Behind

variable (h : c :: rest <:+ Located.ofString text) (ih : ReadsBehind text rest)
  (hend : ¬(c.char = ',' ∨ c.char = ')'))

include h ih hend

/-- A combinator and what follows it, or blanks up to the end of the selector. -/
theorem components_gap
    (hc : Text.isSpace c.char = true ∨ Selector.isCombinator c.char = true) :
    ReadsComponents text (c :: rest) (components text c.offset) := by
  rw [components.eq_def, peek_cons h]
  simp only [ok_bind, if_neg hend, if_pos hc, combinator_cons h]
  cases hgap : gap c rest with
  | mk unit next =>
  cases unit with
  | none =>
    obtain ⟨rfl, hends⟩ := gap_none hgap
    exact .covers (.blanks hends fun parens fresh => by rw [scan_gap hc, hgap])
  | some unit =>
    have hnext := gap_some hc hgap
    have hpass : Passes text.utf8ByteSize (c :: rest) unit next :=
      fun parens fresh => by rw [scan_gap hc, hgap]
    simp only [onward_of_lt (lt_spot h hnext), ok_bind]
    exact (ih next hnext).1.unit hpass (hnext.trans (List.suffix_cons c rest))

/-- A unit with its arguments and what follows it. -/
theorem components_part
    (hc : ¬(Text.isSpace c.char = true ∨ Selector.isCombinator c.char = true)) :
    ReadsComponents text (c :: rest) (components text c.offset) := by
  have hbehind := List.suffix_cons c rest
  have hpart := part_cons h
  rw [components.eq_def, peek_cons h]
  simp only [ok_bind, if_neg hend, if_neg hc]
  generalize part text c.offset c.char = p at hpart
  generalize hstart : Selector.Event.ofStart c rest = e at hpart
  cases hpart with
  | error e => exact .refused fun parens fresh => scan_start_error hend hc hstart
  | @ok p e hevent =>
    obtain ⟨head, paren, next⟩ := p
    obtain ⟨event, after⟩ := e
    have hafter : after <:+ rest :=
      List.suffix_of_suffix_length_le (Selector.Event.ofStart_suffix hstart) hbehind
        (Selector.length_ofStart hstart)
    cases paren with
    | none =>
      obtain ⟨rfl, rfl⟩ := hevent
      have hpass : Passes text.utf8ByteSize (c :: rest) head after :=
        fun parens fresh => scan_start hend hc hstart
      simp only [ok_bind, onward_of_lt (lt_spot h hafter)]
      exact (ih after hafter).1.unit hpass (hafter.trans hbehind)
    | some paren =>
      obtain ⟨rfl, rfl⟩ := hevent
      have henter : Enters text.utf8ByteSize (c :: rest) head paren after :=
        fun parens fresh => scan_start hend hc hstart
      simp only [ok_bind, onward_of_lt (lt_spot h hafter)]
      have hargs := (ih after hafter).2 (some paren)
      generalize selectors text (some paren) (spot text after) = args at hargs
      -- the arguments end at a parenthesis: at the end of the text they are refused
      cases hargs with
      | refused hscan => exact .applied_refused henter fun parens => hscan parens (by simp)
      | @inside _ events first more outer hleave hlist hsuffix =>
        have houter := hsuffix.trans hafter
        simp only [ok_bind, onward_of_lt (lt_spot h houter)]
        exact (ih outer houter).1.applied henter hleave hlist (houter.trans hbehind)

end Behind

theorem components_cons (h : c :: rest <:+ Located.ofString text) (ih : ReadsBehind text rest) :
    ReadsComponents text (c :: rest) (components text c.offset) := by
  by_cases hend : c.char = ',' ∨ c.char = ')'
  · exact components_end hend h
  by_cases hc : Text.isSpace c.char = true ∨ Selector.isCombinator c.char = true
  · exact components_gap h ih hend hc
  · exact components_part h ih hend hc

/-! ## Lists of selectors -/

/-- Where a selector ends that has no component. -/
theorem scan_fresh {parens : List Nat} (hends : EndsSelector cs) :
    Selector.Event.scan text.utf8ByteSize parens true cs =
      .error (.emptySelector (spot text cs)) := by
  rw [Selector.Event.scan.eq_def]
  cases cs with
  | nil => rfl
  | cons c rest => rcases hends c rfl with hc | hc <;> simp [hc]

section Lists

variable {events : List Selector.Event} {selector : List Component} {after : List Located}
  {opened : Option Nat}
  (hfold : Prepends events selector)
  (hscan : ∀ parens, Selector.Event.scan text.utf8ByteSize parens true (Selector.skipSpace cs) =
    (Selector.Event.scan text.utf8ByteSize parens false after).map (events ++ ·))

include hfold

include hscan

/-- A selector, a comma and the selectors that follow it. -/
theorem ReadsSelectors.comma {r : Checked Selector.Error (List (List Component) × Nat)}
    (hafter : after = c :: rest) (hc : c.char = ',') (hrest : rest <:+ cs)
    (h : ReadsSelectors text rest opened r) :
    ReadsSelectors text cs opened (r >>= fun p => .ok (selector :: p.1, p.2)) := by
  have hcomma : ∀ parens,
      Selector.Event.scan text.utf8ByteSize parens true (Selector.skipSpace cs) =
        (Selector.Event.scan text.utf8ByteSize parens true (Selector.skipSpace rest)).map
          (events ++ .comma :: ·) := by
    intro parens
    rw [hscan, hafter, scan_comma hc]
    cases Selector.Event.scan text.utf8ByteSize parens true (Selector.skipSpace rest) <;> rfl
  cases h with
  | @whole later first more hlater hlist =>
    refine .whole ?_ (isList_comma hfold hlist)
    rw [hcomma, hlater]
    rfl
  | @inside paren later first more outer hleave hlist houter =>
    refine .inside (fun parens => ?_) (isList_comma hfold hlist) (houter.trans hrest)
    rw [hcomma, hleave]
    cases Selector.Event.scan text.utf8ByteSize parens false outer with
    | error e => rfl
    | ok beyond => simp [Except.map]
  | refused herror =>
    refine .refused fun parens hparens => ?_
    rw [hcomma, herror parens hparens]
    rfl

/-- A selector at the end of the text. -/
theorem ReadsSelectors.finish (hafter : after = []) :
    ReadsSelectors text cs opened
      (match opened with
      | none => .ok ([selector], text.utf8ByteSize)
      | some paren => refuse (.unclosed paren)) := by
  cases opened with
  | none =>
    refine .whole ?_ (isList_single hfold)
    rw [hscan, hafter, Selector.Event.scan.eq_def]
    simp [Except.map]
  | some paren =>
    refine .refused fun parens _ => ?_
    rw [hscan, hafter, Selector.Event.scan.eq_def]
    rfl

/-- A selector before a closing parenthesis. -/
theorem ReadsSelectors.close (hafter : after = c :: rest) (hc : c.char = ')')
    (hrest : rest <:+ cs) :
    ReadsSelectors text cs opened
      (if opened.isSome then .ok ([selector], spot text rest)
      else refuse (.unexpectedCharacter ')' c.offset)) := by
  cases opened with
  | none =>
    refine .refused fun parens hparens => ?_
    rw [hscan, hparens rfl, hafter, Selector.Event.scan.eq_def]
    simp [hc, Except.map]
  | some paren =>
    refine .inside (fun parens => ?_) (isList_single hfold) hrest
    rw [hscan, hafter, scan_close hc]
    cases Selector.Event.scan text.utf8ByteSize parens false rest <;> rfl

end Lists

theorem selectors_of_components {opened : Option Nat} (h : cs <:+ Located.ofString text)
    (hcomponents : ReadsComponents text (Selector.skipSpace cs)
      (components text (spot text (Selector.skipSpace cs))))
    (ih : ∀ after, after <:+ cs → after.length < cs.length →
      ReadsSelectors text after opened (selectors text opened (spot text after))) :
    ReadsSelectors text cs opened (selectors text opened (spot text cs)) := by
  have hskip : Selector.skipSpace cs <:+ cs := List.dropWhile_suffix _
  rw [selectors.eq_def, skipBlanks_spot h]
  simp only [ok_bind]
  generalize components text (spot text (Selector.skipSpace cs)) = r at hcomponents
  cases hcomponents with
  | refused hscan => exact .refused fun parens _ => hscan _ true
  | @covers selector after hcovers =>
    obtain ⟨⟨events, hscan, hfold⟩, hends, hsuffix, hstays⟩ := hcovers
    simp only [ok_bind]
    split
    · -- without components nothing was passed, so the error is to be where the selector starts
      next hempty =>
      have hafter : after = Selector.skipSpace cs := by
        rw [hstays (List.isEmpty_iff.1 hempty), Selector.skipSpace, Selector.skipSpace,
          List.dropWhile_idempotent]
      exact .refused fun parens _ => scan_fresh (hafter ▸ hends)
    next hempty =>
    have hpass := fun parens => hscan parens true
    simp only [Bool.true_and, Bool.eq_false_iff.2 hempty] at hpass
    have hcs := hsuffix.trans hskip
    have hafter := hcs.trans h
    rw [peek_spot hafter]
    cases after with
    | nil => exact .finish hfold hpass rfl
    | cons c rest =>
      have hrest := (List.suffix_cons c rest).trans hcs
      simp only [List.head?_cons, Option.map_some, ok_bind, bump_spot hafter, List.tail_cons]
      rcases hends c rfl with hc | hc
      · have hnext := lt_spot_of_suffix h hcs List.suffix_rfl
        simp only [if_pos hc, onward_of_lt hnext, ok_bind]
        exact .comma hfold hpass rfl hc hrest (ih rest hrest hcs.length_le)
      · have hclose : ReadsSelectors text cs opened _ := .close hfold hpass rfl hc hrest
        simpa [hc] using hclose

theorem reads_spot (h : cs <:+ Located.ofString text) :
    ReadsComponents text cs (components text (spot text cs)) ∧
      ∀ opened, ReadsSelectors text cs opened (selectors text opened (spot text cs)) := by
  induction hlen : cs.length using Nat.strong_induction_on generalizing cs with
  | _ n ih =>
  -- components read on behind their first character, but those of a list may start where it does
  have hcomponents : ∀ ds, ds <:+ cs →
      ReadsComponents text ds (components text (spot text ds)) := by
    intro ds hds
    cases ds with
    | nil =>
      rw [components.eq_def, peek_spot (hds.trans h)]
      exact .covers (.blanks (by simp [EndsSelector, Selector.skipSpace]) fun _ _ => rfl)
    | cons c rest =>
      refine components_cons (hds.trans h) fun after hafter => ?_
      have hrest := hafter.trans ((List.suffix_cons c rest).trans hds)
      have hlt : rest.length < n := hlen ▸ hds.length_le
      exact ih _ (hafter.length_le.trans_lt hlt) (hrest.trans h) rfl
  refine ⟨hcomponents cs List.suffix_rfl, fun opened => ?_⟩
  apply selectors_of_components h (hcomponents _ (List.dropWhile_suffix _))
  intro after hafter hlt
  exact (ih _ (hlen ▸ hlt) (hafter.trans h) rfl).2 opened

theorem readSelectors_eq (text : String) :
    readSelectors text = faultless (Selector.parse text) := by
  have h := (@reads_spot text _ List.suffix_rfl).2 none
  rw [spot_ofString] at h
  rw [readSelectors, Selector.parse]
  generalize selectors text none 0 = r at h
  cases h with
  | @whole events first more hscan hlist =>
    simp [hscan, Except.map, Selector.selectors, hlist []]
  | refused herror =>
    have hnone : Selector.Event.scan text.utf8ByteSize [] true
        (Selector.skipSpace (Located.ofString text)) = .error _ := herror [] fun _ => rfl
    rw [hnone]
    rfl

/-- Both readers keep within every text: no access of theirs fails, each step of their loops gets
further on, and they end with the result or the error of the readers over characters. -/
theorem readers_faultless (text : String) :
    readSheet text = faultless (Sheet.parse text) ∧
      readSelectors text = faultless (Selector.parse text) :=
  ⟨readSheet_eq text, readSelectors_eq text⟩

end SheetPolicy.Cursor

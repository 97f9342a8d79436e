import Mathlib
import SheetPolicy.Selector.Event

/-!
What a scan makes of a selector. Up to the end of its selector it takes a combinator (`gap`) or a
unit at a time, and the events put the components of the selector in front of those that follow
(`Spans`); the events of a list of selectors are those of its selectors with commas between them
(`IsList`).
-/

namespace SheetPolicy.Selector

variable {size : Nat} {cs rest : List Located} {c : Located}

/-! ## Combinators -/

theorem skipSpace_cons (c : Located) (rest : List Located) :
    skipSpace (c :: rest) = if Text.isSpace c.char then skipSpace rest else c :: rest := by
  rw [skipSpace, List.dropWhile_cons, skipSpace]

theorem isSpace_of_isCombinator {k : Char} (h : isCombinator k = true) :
    Text.isSpace k = false := by
  rw [isCombinator, Bool.or_eq_true, Bool.or_eq_true, beq_iff_eq, beq_iff_eq, beq_iff_eq] at h
  rcases h with (rfl | rfl) | rfl <;> decide

/-- The combinator that starts with `c`, unless the selector ends there, and what follows it. -/
def gap (c : Located) (rest : List Located) : Option Simple × List Located :=
  match skipSpace (c :: rest) with
  | [] => (none, [])
  | d :: after =>
    if isCombinator d.char then
      (some ⟨.combinator, d.char.toString, c.offset⟩, skipSpace after)
    else if d.char = ',' ∨ d.char = ')' then (none, d :: after)
    else (some ⟨.combinator, " ", c.offset⟩, d :: after)

theorem scan_gap {parens : List Nat} {fresh : Bool}
    (hc : Text.isSpace c.char = true ∨ isCombinator c.char = true) :
    Event.scan size parens fresh (c :: rest) =
      match gap c rest with
      | (none, next) => Event.scan size parens fresh next
      | (some unit, next) => (Event.scan size parens false next).map (.unit unit :: ·) := by
  have hcomma : c.char ≠ ',' := by
    rintro heq
    simp [heq, Text.isSpace, isCombinator] at hc
  have hclose : c.char ≠ ')' := by
    rintro heq
    simp [heq, Text.isSpace, isCombinator] at hc
  rw [Event.scan.eq_def, gap]
  simp only [if_neg hcomma, if_neg hclose]
  split
  · next hcomb =>
    simp only [skipSpace_cons, isSpace_of_isCombinator hcomb, Bool.false_eq_true, if_false,
      if_pos hcomb]
  · next hcomb =>
    have hspace := hc.resolve_right hcomb
    rw [if_pos hspace, skipSpace_cons, if_pos hspace]
    split
    · next heq => simp only [heq]
    · next heq =>
      simp only [heq]
      split
      · rfl
      · split <;> rfl

/-- A selector ends here. -/
def EndsSelector (after : List Located) : Prop :=
  ∀ c, after.head? = some c → c.char = ',' ∨ c.char = ')'

theorem gap_none {next : List Located} (h : gap c rest = (none, next)) :
    next = skipSpace (c :: rest) ∧ EndsSelector next := by
  rw [gap] at h
  split at h
  · next hskip =>
    cases h
    exact ⟨hskip.symm, by simp [EndsSelector]⟩
  · next d after hskip =>
    split at h
    · cases h
    split at h
    · next hend =>
      cases h
      exact ⟨hskip.symm, by simpa [EndsSelector] using hend⟩
    · cases h

theorem gap_some {next : List Located} {unit : Simple}
    (hc : Text.isSpace c.char = true ∨ isCombinator c.char = true)
    (h : gap c rest = (some unit, next)) : next <:+ rest := by
  have hblanks : ∀ cs : List Located, skipSpace cs <:+ cs := fun cs => List.dropWhile_suffix _
  rw [gap, skipSpace_cons] at h
  by_cases hspace : Text.isSpace c.char = true
  · rw [if_pos hspace] at h
    split at h
    · cases h
    · next d after hskip =>
      have hafter : d :: after <:+ rest := hskip ▸ hblanks rest
      split at h
      · cases h
        exact (hblanks after).trans ((List.suffix_cons d after).trans hafter)
      split at h <;> cases h
      exact hafter
  · rw [if_neg hspace] at h
    simp only [if_pos (hc.resolve_left hspace)] at h
    cases h
    exact hblanks rest

/-! ## Units -/

section Start

variable {parens : List Nat} {fresh : Bool} (hend : ¬(c.char = ',' ∨ c.char = ')'))
  (hgap : ¬(Text.isSpace c.char = true ∨ isCombinator c.char = true))

include hend hgap

theorem scan_start {event : Event} {after : List Located}
    (h : Event.ofStart c rest = .ok (event, after)) :
    Event.scan size parens fresh (c :: rest) =
      (Event.scan size (event.openAfter parens) event.startsSelector
        (if event.startsSelector then skipSpace after else after)).map (event :: ·) := by
  rw [not_or] at hend hgap
  rw [Event.scan.eq_def]
  simp only [if_neg hend.1, if_neg hend.2, if_neg hgap.1, if_neg hgap.2]
  split
  · next he => simp [he] at h
  · next he =>
    obtain ⟨rfl, rfl⟩ := by simpa [he] using h
    rfl

theorem scan_start_error {e : Error} (h : Event.ofStart c rest = .error e) :
    Event.scan size parens fresh (c :: rest) = .error e := by
  rw [not_or] at hend hgap
  rw [Event.scan.eq_def]
  simp only [if_neg hend.1, if_neg hend.2, if_neg hgap.1, if_neg hgap.2]
  split
  · next he => simpa [he] using h
  · next he => simp [he] at h

end Start

theorem scan_comma {parens : List Nat} (hc : c.char = ',') :
    Event.scan size parens false (c :: rest) =
      (Event.scan size parens true (skipSpace rest)).map (.comma :: ·) := by
  rw [Event.scan.eq_def]
  simp only [if_pos hc]
  rfl

theorem scan_close {paren : Nat} {parens : List Nat} (hc : c.char = ')') :
    Event.scan size (paren :: parens) false (c :: rest) =
      (Event.scan size parens false rest).map (.closes :: ·) := by
  rw [Event.scan.eq_def]
  simp [hc]

/-- The scan passes the unit. -/
def Passes (size : Nat) (cs : List Located) (head : Simple) (next : List Located) : Prop :=
  ∀ parens fresh, Event.scan size parens fresh cs =
    (Event.scan size parens false next).map (.unit head :: ·)

/-- The scan enters the arguments of the pseudo-class. -/
def Enters (size : Nat) (cs : List Located) (head : Simple) (paren : Nat)
    (inner : List Located) : Prop :=
  ∀ parens fresh, Event.scan size parens fresh cs =
    (Event.scan size (paren :: parens) true (skipSpace inner)).map (.opens head paren :: ·)

/-- The scan of the arguments in the parenthesis at `paren` gives the events and goes on behind the
parenthesis that closes them. -/
def Leaves (size : Nat) (cs : List Located) (paren : Nat) (events : List Event)
    (outer : List Located) : Prop :=
  ∀ parens, Event.scan size (paren :: parens) true (skipSpace cs) =
    (Event.scan size parens false outer).map (events ++ .closes :: ·)

/-! ## Components of a selector -/

/-- The events put the components in front of those that follow. -/
def Prepends (events : List Event) (components : List Component) : Prop :=
  ∀ p : Pending, events.foldr Pending.push p = { p with components := components ++ p.components }

/-- The events are those of a list of selectors. -/
def IsList (events : List Event) (first : List Component) (more : List (List Component)) : Prop :=
  ∀ outer, events.foldr Pending.push ⟨[], [], outer⟩ = ⟨first, more, outer⟩

/-- The components from one place up to the end of their selector: the scan goes on from there with
their events. Where there are none, only blanks are passed. -/
structure Spans (size : Nat) (cs : List Located) (components : List Component)
    (after : List Located) : Prop where
  scan : ∃ events : List Event,
    (∀ parens fresh, Event.scan size parens fresh cs =
      (Event.scan size parens (fresh && components.isEmpty) after).map (events ++ ·)) ∧
    Prepends events components
  ends : EndsSelector after
  suffix : after <:+ cs
  stays : components = [] → after = skipSpace cs

namespace Spans

variable {head : Simple} {paren : Nat} {next after outer : List Located}
  {components : List Component}

theorem blanks (hends : EndsSelector (skipSpace cs))
    (hscan : ∀ parens fresh, Event.scan size parens fresh cs =
      Event.scan size parens fresh (skipSpace cs)) :
    Spans size cs [] (skipSpace cs) := by
  refine ⟨⟨[], fun parens fresh => ?_, fun p => rfl⟩, hends, List.dropWhile_suffix _, fun _ => rfl⟩
  rw [hscan, List.isEmpty_nil, Bool.and_true]
  cases Event.scan size parens fresh (skipSpace cs) <;> rfl

theorem unit (hpass : Passes size cs head next) (hnext : next <:+ cs)
    (h : Spans size next components after) : Spans size cs (.simple head :: components) after := by
  obtain ⟨⟨events, hscan, hfold⟩, hends, hsuffix, -⟩ := h
  refine ⟨⟨.unit head :: events, fun parens fresh => ?_, fun p => ?_⟩, hends, hsuffix.trans hnext,
    by simp⟩
  · rw [hpass, hscan, Bool.false_and, List.isEmpty_cons, Bool.and_false]
    cases Event.scan size parens false after <;> rfl
  · rw [List.foldr_cons, hfold]
    rfl

theorem applied {inner : List Located} {events : List Event} {first : List Component}
    {more : List (List Component)} (henter : Enters size cs head paren inner)
    (hleave : Leaves size inner paren events outer) (hlist : IsList events first more)
    (houter : outer <:+ cs) (h : Spans size outer components after) :
    Spans size cs (.applied head (first :: more) :: components) after := by
  obtain ⟨⟨later, hscan, hfold⟩, hends, hsuffix, -⟩ := h
  refine ⟨⟨.opens head paren :: (events ++ .closes :: later), fun parens fresh => ?_, fun p => ?_⟩,
    hends, hsuffix.trans houter, by simp⟩
  · rw [henter, hleave, hscan, Bool.false_and, List.isEmpty_cons, Bool.and_false]
    cases Event.scan size parens false after with
    | error e => rfl
    | ok events' => simp [Except.map]
  · rw [List.foldr_cons, List.foldr_append, List.foldr_cons, hfold, Pending.push, hlist]
    rfl

end Spans

/-! ## Lists of selectors -/

section Lists

variable {events : List Event} {selector : List Component} (hfold : Prepends events selector)

include hfold

theorem isList_single : IsList events selector [] := by
  intro outer
  rw [hfold, List.append_nil]

theorem isList_comma {later : List Event} {first : List Component} {more : List (List Component)}
    (h : IsList later first more) :
    IsList (events ++ .comma :: later) selector (first :: more) := by
  intro outer
  rw [List.foldr_append, List.foldr_cons, h, Pending.push, hfold, List.append_nil]

end Lists

end SheetPolicy.Selector

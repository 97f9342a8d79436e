import Mathlib
import SheetPolicy.Sheet.Prelude
import SheetPolicy.Proofs.Excerpt

/-!
The units of a text, told by their characters. `Lexeme.next` cuts off a unit exactly if the characters
are one and the character after them does not make them another (`Lexeme.next_eq_ok_iff`). So what a
unit is hangs neither on where it stands nor on what follows the next character.

A text that is read unit by unit to its very end (`Prelude.units?`) is passed over in the same way
whatever follows it: `Prelude.skip_units` for the end of a statement and `Excerpt.keep_units` for what
is kept of it.
-/

namespace SheetPolicy

/-- The character with which some characters start. -/
def Located.headChar (cs : List Located) : Option Char :=
  cs.head?.map Located.char

@[simp] theorem Located.headChar_nil : Located.headChar [] = none := rfl

@[simp] theorem Located.headChar_cons (c : Located) (cs : List Located) :
    Located.headChar (c :: cs) = some c.char := rfl

theorem Located.headChar_append_of_ne_nil {xs : List Located} (h : xs ≠ []) (ys : List Located) :
    Located.headChar (xs ++ ys) = Located.headChar xs := by
  cases xs with
  | nil => exact absurd rfl h
  | cons x xs => rfl

theorem Located.headChar_append_congr {tail tail' : List Located}
    (h : Located.headChar tail' = Located.headChar tail) (xs : List Located) :
    Located.headChar (xs ++ tail') = Located.headChar (xs ++ tail) := by
  cases xs with
  | nil => exact h
  | cons x xs => rfl

theorem Located.headChar_eq_of_map_char {xs ys : List Located}
    (h : xs.map Located.char = ys.map Located.char) :
    Located.headChar xs = Located.headChar ys := by
  rw [Located.headChar, ← List.head?_map, h, List.head?_map, Located.headChar]

namespace Lexeme

/-! ## Strings and comments -/

/-- What stands between the quotes of a string. -/
inductive StringBody (quote : Char) : List Char → Prop
  | nil : StringBody quote []
  | escape {c : Char} {cs : List Char} :
      StringBody quote cs → StringBody quote ('\\' :: c :: cs)
  | plain {c : Char} {cs : List Char} :
      c ≠ quote → c ≠ '\\' → StringBody quote cs → StringBody quote (c :: cs)

theorem closeString_sound {quote : Char} {cs body after : List Located}
    (h : closeString quote cs = some (body, after)) :
    ∃ inner, body.map Located.char = inner ++ [quote] ∧ StringBody quote inner := by
  fun_induction closeString quote cs generalizing body after with
  | case1 => simp at h
  | case2 c rest hquote =>
    obtain ⟨rfl, rfl⟩ := by simpa using h
    exact ⟨[], by simp [hquote], .nil⟩
  | case3 => simp at h
  | case4 c _ hescape d rest ih =>
    obtain ⟨⟨b, a⟩, hb, heq⟩ := Option.map_eq_some_iff.1 h
    obtain ⟨rfl, rfl⟩ := by simpa using heq
    obtain ⟨inner, hinner, hbody⟩ := ih hb
    exact ⟨'\\' :: d.char :: inner, by simp [hinner, hescape], .escape hbody⟩
  | case5 c rest hquote hescape ih =>
    obtain ⟨⟨b, a⟩, hb, heq⟩ := Option.map_eq_some_iff.1 h
    obtain ⟨rfl, rfl⟩ := by simpa using heq
    obtain ⟨inner, hinner, hbody⟩ := ih hb
    exact ⟨c.char :: inner, by simp [hinner], .plain hquote hescape hbody⟩

theorem closeString_complete {quote : Char} (hquote : quote ≠ '\\') {inner : List Char}
    (h : StringBody quote inner) {body : List Located}
    (hbody : body.map Located.char = inner ++ [quote]) (after : List Located) :
    closeString quote (body ++ after) = some (body, after) := by
  induction h generalizing body with
  | nil =>
    obtain ⟨q, rfl, hq⟩ := List.map_eq_singleton_iff.1 hbody
    rw [List.cons_append, closeString.eq_def]
    simp [hq]
  | @escape c cs _ ih =>
    obtain ⟨b, rest, rfl, hb, hrest⟩ := List.map_eq_cons_iff.1 hbody
    obtain ⟨d, rest, rfl, hd, hrest⟩ := List.map_eq_cons_iff.1 hrest
    simp [closeString, hb, hquote.symm, ih hrest]
  | @plain c cs hc hescape _ ih =>
    obtain ⟨b, rest, rfl, rfl, hrest⟩ := List.map_eq_cons_iff.1 hbody
    rw [List.cons_append, closeString.eq_def]
    simp [hc, hescape, ih hrest]

theorem closeComment_complete {inner : List Char} (h : ¬['*', '/'] <:+: inner)
    {body : List Located} (hbody : body.map Located.char = inner ++ ['*', '/'])
    (after : List Located) : closeComment (body ++ after) = some (body, after) := by
  induction inner generalizing body with
  | nil =>
    obtain ⟨star, rest, rfl, hstar, hrest⟩ := List.map_eq_cons_iff.1 hbody
    obtain ⟨slash, rfl, hslash⟩ := List.map_eq_singleton_iff.1 hrest
    simp [closeComment, hstar, hslash]
  | cons c inner ih =>
    obtain ⟨b, rest, rfl, rfl, hrest⟩ := List.map_eq_cons_iff.1 hbody
    rw [List.infix_cons_iff, not_or] at h
    have hclose := ih h.2 hrest
    cases rest with
    | nil => simp at hrest
    | cons d rest =>
      -- A mark at the front of the body would be one of `b :: inner`.
      have hmark : ¬(b.char = '*' ∧ d.char = '/') := by
        rintro ⟨hb, hd⟩
        cases inner with
        | nil => simp [hd] at hrest
        | cons x inner =>
          obtain ⟨rfl, _⟩ := by simpa using hrest
          exact h.1 ⟨inner, by simp [hb, hd]⟩
      rw [List.cons_append, List.cons_append, closeComment, if_neg hmark]
      rw [List.cons_append] at hclose
      rw [hclose]
      rfl

/-- A comment is closed if a closing mark follows. -/
theorem isSome_closeComment {cs : List Located} :
    (closeComment cs).isSome = true ↔ ['*', '/'] <:+: cs.map Located.char := by
  constructor
  · intro h
    obtain ⟨⟨body, after⟩, hclose⟩ := Option.isSome_iff_exists.1 h
    obtain ⟨inner, hinner, _⟩ := closeComment_chars hclose
    rw [← closeComment_append hclose, List.map_append, hinner]
    exact ⟨inner, after.map Located.char, by simp⟩
  · intro h
    fun_induction closeComment cs with
    | case1 => simp at h
    | case2 c => simp [List.infix_cons_iff] at h
    | case3 => rfl
    | case4 c d rest hmark ih =>
      rw [Option.isSome_map]
      rcases List.infix_cons_iff.1 h with hfront | hlater
      · obtain ⟨hc, hd⟩ := List.cons_prefix_cons.1 hfront
        exact absurd ⟨hc.symm, (List.cons_prefix_cons.1 hd).1.symm⟩ hmark
      · exact ih hlater

/-! ## Units -/

/-- The characters are a unit of this kind if the given character follows. A solidus before an
asterisk is no unit of its own, and only at the end of a source does a backslash stand alone. -/
def IsUnit : Kind → List Char → Option Char → Prop
  | .plain, cs, next =>
    ∃ c, cs = [c] ∧ c ≠ '\\' ∧ c ≠ '"' ∧ c ≠ '\'' ∧ ¬(c = '/' ∧ next = some '*')
  | .escape, cs, next => (∃ c, cs = ['\\', c]) ∨ (cs = ['\\'] ∧ next = none)
  | .quoted, cs, _ =>
    ∃ quote inner, (quote = '"' ∨ quote = '\'') ∧ StringBody quote inner ∧
      cs = quote :: (inner ++ [quote])
  | .comment, cs, _ => ∃ inner, cs = '/' :: '*' :: (inner ++ ['*', '/']) ∧ ¬['*', '/'] <:+: inner

theorem next_sound {c : Located} {rest after : List Located} {l : Lexeme}
    (h : next c rest = .ok (l, after)) :
    IsUnit l.kind (l.chars.map Located.char) (Located.headChar after) := by
  unfold next at h
  split at h
  · rename_i hc
    split at h <;> (obtain ⟨rfl, rfl⟩ := by simpa using h)
    · exact .inr ⟨by simp [hc], rfl⟩
    · rename_i d _
      exact .inl ⟨d.char, by simp [hc]⟩
  · rename_i hc
    split at h
    · rename_i hquote
      split at h
      · rename_i body a hs
        obtain ⟨rfl, rfl⟩ := by simpa using h
        obtain ⟨inner, hinner, hbody⟩ := closeString_sound hs
        exact ⟨c.char, inner, hquote, hbody, by simp [hinner]⟩
      · simp at h
    · rename_i hquote
      rw [not_or] at hquote
      split at h
      · obtain ⟨rfl, rfl⟩ := by simpa using h
        exact ⟨c.char, rfl, hc, hquote.1, hquote.2, by simp⟩
      · split at h
        · rename_i hmark
          split at h
          · rename_i body a hs
            obtain ⟨rfl, rfl⟩ := by simpa using h
            obtain ⟨inner, hinner, hfree⟩ := closeComment_chars hs
            exact ⟨inner, by simp [hmark, hinner], hfree⟩
          · simp at h
        · rename_i hmark
          obtain ⟨rfl, rfl⟩ := by simpa using h
          exact ⟨c.char, rfl, hc, hquote.1, hquote.2, by simpa using hmark⟩

theorem next_complete {kind : Kind} {c : Located} {body after : List Located}
    (h : IsUnit kind ((c :: body).map Located.char) (Located.headChar after)) :
    next c (body ++ after) = .ok (⟨kind, c :: body⟩, after) := by
  cases kind with
  | plain =>
    obtain ⟨x, hx, hescape, hdouble, hsingle, hmark⟩ := h
    obtain ⟨rfl, rfl⟩ := by simpa using hx
    cases after with
    | nil => simp [next, hescape, hdouble, hsingle]
    | cons d after =>
      have hnone : ¬(c.char = '/' ∧ d.char = '*') := by simpa using hmark
      simp only [next, List.nil_append, if_neg hescape, hdouble, hsingle, or_self, if_false,
        if_neg hnone]
  | escape =>
    rcases h with ⟨x, hx⟩ | ⟨hx, hnone⟩
    · obtain ⟨hc, d, rfl, _⟩ := by simpa [List.map_eq_singleton_iff] using hx
      simp [next, hc]
    · obtain ⟨hc, rfl⟩ := by simpa using hx
      obtain rfl : after = [] := by simpa [Located.headChar] using hnone
      simp [next, hc]
  | quoted =>
    obtain ⟨quote, inner, hquote, hinner, hx⟩ := h
    obtain ⟨rfl, hbody⟩ := by simpa using hx
    have hescape : c.char ≠ '\\' := by
      rcases hquote with hq | hq <;> rw [hq] <;> decide
    have hclose := closeString_complete hescape hinner hbody after
    simp only [next, if_neg hescape, if_pos hquote, hclose]
  | comment =>
    obtain ⟨inner, hx, hfree⟩ := h
    obtain ⟨hc, hbody⟩ := by simpa using hx
    obtain ⟨star, rest, rfl, hstar, hrest⟩ := List.map_eq_cons_iff.1 hbody
    have hclose := closeComment_complete hfree hrest after
    simp [next, hc, hstar, hclose]

/-- The lexical grammar: a unit is cut off exactly if its characters are one before what follows. -/
theorem next_eq_ok_iff {c : Located} {rest after : List Located} {l : Lexeme} :
    next c rest = .ok (l, after) ↔
      (∃ body, l.chars = c :: body ∧ rest = body ++ after) ∧
        IsUnit l.kind (l.chars.map Located.char) (Located.headChar after) := by
  constructor
  · intro h
    obtain ⟨body, hchars, hrest⟩ := next_eq_cons h
    exact ⟨⟨body, hchars, hrest.symm⟩, next_sound h⟩
  · rintro ⟨⟨body, hchars, rfl⟩, hunit⟩
    obtain ⟨kind, chars⟩ := l
    obtain rfl : chars = c :: body := hchars
    exact next_complete hunit

/-- A unit stays one before another character, unless that makes a solidus open a comment or gives a
lone backslash something to take along. -/
theorem IsUnit.before {kind : Kind} {cs : List Char} {next next' : Option Char}
    (h : IsUnit kind cs next) (hstar : next' = some '*' → cs ≠ ['/'])
    (hlone : next' ≠ none → cs ≠ ['\\']) : IsUnit kind cs next' := by
  cases kind with
  | plain =>
    obtain ⟨c, rfl, hescape, hdouble, hsingle, _⟩ := h
    refine ⟨c, rfl, hescape, hdouble, hsingle, ?_⟩
    rintro ⟨rfl, hnext⟩
    exact hstar hnext rfl
  | escape =>
    rcases h with hpair | ⟨rfl, _⟩
    · exact .inl hpair
    · refine .inr ⟨rfl, ?_⟩
      by_contra hnext
      exact hlone hnext rfl
  | quoted => exact h
  | comment => exact h

end Lexeme

namespace Prelude

theorem opensInterpolation_congr {c : Char} {rest rest' : List Located}
    (h : Located.headChar rest' = Located.headChar rest) :
    opensInterpolation c rest' = opensInterpolation c rest := by
  unfold Located.headChar at h
  rw [opensInterpolation, opensInterpolation, h]

/-! ## How the end of a statement is found -/

/-- From a bracket depth on the statement goes up to where the second list starts: over
interpolations and units, to a character that ends it or to the end of the source. -/
inductive Skips : Nat → List Located → List Located → Prop
  | finish {depth : Nat} : Skips depth [] []
  | terminator {c : Located} {rest : List Located} :
      isTerminator c.char = true → Skips 0 (c :: rest) (c :: rest)
  | interpolation {depth : Nat} {c : Located} {rest stop : List Located} :
      ¬(depth = 0 ∧ isTerminator c.char = true) → opensInterpolation c.char rest = true →
      Skips depth (afterInterpolation rest) stop → Skips depth (c :: rest) stop
  | unit {depth : Nat} {kind : Lexeme.Kind} {c : Located} {body rest stop : List Located} :
      ¬(depth = 0 ∧ isTerminator c.char = true) → opensInterpolation c.char (body ++ rest) = false →
      Lexeme.IsUnit kind ((c :: body).map Located.char) (Located.headChar rest) →
      Skips (if kind = .plain then depthAfter depth c.char else depth) rest stop →
      Skips depth (c :: (body ++ rest)) stop

theorem skips_of_skip {depth : Nat} {cs stop : List Located} (h : skip depth cs = .ok stop) :
    Skips depth cs stop := by
  fun_induction skip depth cs with
  | case1 =>
    obtain rfl := by simpa using h
    exact .finish
  | case2 depth c rest hend =>
    obtain rfl := by simpa using h
    obtain ⟨rfl, hterm⟩ := hend
    exact .terminator hterm
  | case3 depth c rest hend hinter ih => exact .interpolation hend hinter (ih h)
  | case4 => simp at h
  | case5 depth c rest hend hinter l after hnext _ hkind ih =>
    obtain ⟨⟨body, hchars, rfl⟩, hunit⟩ := Lexeme.next_eq_ok_iff.1 hnext
    rw [hchars] at hunit
    exact .unit hend (by simpa using hinter) hunit (by simpa [hkind] using ih h)
  | case6 depth c rest hend hinter l after hnext _ hkind ih =>
    obtain ⟨⟨body, hchars, rfl⟩, hunit⟩ := Lexeme.next_eq_ok_iff.1 hnext
    rw [hchars] at hunit
    exact .unit hend (by simpa using hinter) hunit (by simpa [hkind] using ih h)

/-- A unit that does not end the statement is passed over. -/
theorem skip_unit {depth : Nat} {kind : Lexeme.Kind} {c : Located} {body rest : List Located}
    (hterm : ¬(depth = 0 ∧ isTerminator c.char = true))
    (hinter : opensInterpolation c.char (body ++ rest) = false)
    (hunit : Lexeme.IsUnit kind ((c :: body).map Located.char) (Located.headChar rest)) :
    skip depth (c :: (body ++ rest)) =
      skip (if kind = .plain then depthAfter depth c.char else depth) rest := by
  have hnext := Lexeme.next_complete hunit
  rw [skip, if_neg hterm, if_neg (by simp [hinter])]
  split
  · next e he => simp [hnext] at he
  · next l after he =>
    obtain ⟨rfl, rfl⟩ : (⟨kind, c :: body⟩ : Lexeme) = l ∧ rest = after := by simpa [hnext] using he
    by_cases hkind : kind = .plain
    · simp [hkind]
    · simp [hkind]

theorem skip_eq_ok_iff {depth : Nat} {cs stop : List Located} :
    skip depth cs = .ok stop ↔ Skips depth cs stop := by
  refine ⟨skips_of_skip, fun h => ?_⟩
  induction h with
  | finish => rw [skip]
  | terminator hterm => rw [skip, if_pos ⟨rfl, hterm⟩]
  | interpolation hend hinter _ ih => rw [skip, if_neg hend, if_pos hinter, ih]
  | unit hend hinter hunit _ ih => rw [skip_unit hend hinter hunit, ih]

/-! ## Texts of whole units -/

/-- Reads a text unit by unit to its very end, from bracket depth `depth`: the units, and the depth
after them. There is none if a statement ends or an interpolation opens on the way, or if a string, a
comment or an escape is cut short. -/
def units? (depth : Nat) : List Located → Option (List Lexeme × Nat)
  | [] => some ([], depth)
  | c :: rest =>
    if (depth = 0 ∧ isTerminator c.char) ∨ opensInterpolation c.char rest then none
    else
      match h : Lexeme.next c rest with
      | .error _ => none
      | .ok (l, after) =>
        have := Lexeme.length_next h
        if l.chars.map Located.char = ['\\'] then none
        else
          (units? (if l.kind = .plain then depthAfter depth c.char else depth) after).map
            fun (ls, final) => (l :: ls, final)
termination_by cs => cs.length
decreasing_by exact Nat.lt_succ_of_le this

/-- The text is read as these units, from one bracket depth to another. -/
inductive Units : Nat → List Located → List Lexeme → Nat → Prop
  | nil {depth : Nat} : Units depth [] [] depth
  | cons {depth final : Nat} {kind : Lexeme.Kind} {c : Located} {body rest : List Located}
      {ls : List Lexeme} :
      ¬(depth = 0 ∧ isTerminator c.char = true) → opensInterpolation c.char (body ++ rest) = false →
      Lexeme.IsUnit kind ((c :: body).map Located.char) (Located.headChar rest) →
      (c :: body).map Located.char ≠ ['\\'] →
      Units (if kind = .plain then depthAfter depth c.char else depth) rest ls final →
      Units depth (c :: (body ++ rest)) (⟨kind, c :: body⟩ :: ls) final

theorem units_of_units? {depth final : Nat} {cs : List Located} {ls : List Lexeme}
    (h : units? depth cs = some (ls, final)) : Units depth cs ls final := by
  fun_induction units? depth cs generalizing ls final with
  | case1 =>
    obtain ⟨rfl, rfl⟩ := by simpa using h
    exact .nil
  | case2 => simp at h
  | case3 => simp at h
  | case4 => simp at h
  | case5 depth c rest hpass l after hnext _ hlone ih =>
    obtain ⟨⟨more, final'⟩, hmore, heq⟩ := Option.map_eq_some_iff.1 h
    obtain ⟨rfl, rfl⟩ := by simpa using heq
    obtain ⟨⟨body, hchars, rfl⟩, hunit⟩ := Lexeme.next_eq_ok_iff.1 hnext
    obtain ⟨kind, chars⟩ := l
    obtain rfl : chars = c :: body := hchars
    rw [not_or, Bool.not_eq_true] at hpass
    exact .cons hpass.1 hpass.2 hunit hlone (ih hmore)

/-- What follows does not change how a text ends: neither a comment nor an interpolation opens with
its last character. -/
def Apart (front back : List Located) : Prop :=
  ∀ c, front.getLast? = some c →
    ¬(c.char = '/' ∧ Located.headChar back = some '*') ∧ opensInterpolation c.char back = false

instance (front back : List Located) : Decidable (Apart front back) :=
  inferInstanceAs (Decidable (∀ c ∈ front.getLast?,
    ¬(c.char = '/' ∧ Located.headChar back = some '*') ∧ opensInterpolation c.char back = false))

theorem Apart.suffix {front rest back : List Located} (h : Apart front back) (hs : rest <:+ front) :
    Apart rest back := by
  obtain ⟨lead, rfl⟩ := hs
  intro c hc
  exact h c (by rw [List.getLast?_append, hc]; rfl)

theorem Apart.tail {c : Located} {body rest back : List Located}
    (h : Apart (c :: (body ++ rest)) back) : Apart rest back :=
  h.suffix ⟨c :: body, rfl⟩

theorem apart_of_headChar {front back : List Located} (hstar : Located.headChar back ≠ some '*')
    (hbrace : Located.headChar back ≠ some '{') : Apart front back := by
  intro c _
  refine ⟨fun h => hstar h.2, ?_⟩
  unfold Located.headChar at hbrace
  simp [opensInterpolation, hbrace]

/-- A unit at the front of a text stays one when more follows the text. -/
theorem isUnit_append {kind : Lexeme.Kind} {c : Located} {body rest back : List Located}
    (hunit : Lexeme.IsUnit kind ((c :: body).map Located.char) (Located.headChar rest))
    (hlone : (c :: body).map Located.char ≠ ['\\']) (hapart : Apart (c :: (body ++ rest)) back) :
    Lexeme.IsUnit kind ((c :: body).map Located.char) (Located.headChar (rest ++ back)) := by
  cases rest with
  | cons x rest => exact hunit
  | nil =>
    refine hunit.before ?_ fun _ => hlone
    intro hstar hsolidus
    obtain ⟨hc, rfl⟩ : c.char = '/' ∧ body = [] := by simpa using hsolidus
    exact (hapart c (by simp)).1 ⟨hc, hstar⟩

theorem opensInterpolation_append {c : Located} {rest back : List Located}
    (h : opensInterpolation c.char rest = false) (hapart : Apart (c :: rest) back) :
    opensInterpolation c.char (rest ++ back) = false := by
  cases rest with
  | cons x rest => exact h
  | nil => exact (hapart c rfl).2

theorem units?_unit {depth : Nat} {kind : Lexeme.Kind} {c : Located} {body rest : List Located}
    (hterm : ¬(depth = 0 ∧ isTerminator c.char = true))
    (hinter : opensInterpolation c.char (body ++ rest) = false)
    (hunit : Lexeme.IsUnit kind ((c :: body).map Located.char) (Located.headChar rest))
    (hlone : (c :: body).map Located.char ≠ ['\\']) :
    units? depth (c :: (body ++ rest)) =
      (units? (if kind = .plain then depthAfter depth c.char else depth) rest).map
        fun (ls, final) => (⟨kind, c :: body⟩ :: ls, final) := by
  have hnext := Lexeme.next_complete hunit
  rw [units?, if_neg (by simp [hterm, hinter])]
  split
  · next e he => simp [hnext] at he
  · next l after he =>
    obtain ⟨rfl, rfl⟩ : (⟨kind, c :: body⟩ : Lexeme) = l ∧ rest = after := by simpa [hnext] using he
    rw [if_neg hlone]

/-- Behind whole units the reading goes on with what follows. -/
theorem Units.units?_append {depth middle : Nat} {front : List Located} {ls : List Lexeme}
    (h : Units depth front ls middle) {back : List Located} (hapart : Apart front back) :
    units? depth (front ++ back) =
      (units? middle back).map fun (ms, final) => (ls ++ ms, final) := by
  induction h with
  | nil =>
    rw [List.nil_append]
    cases units? _ back <;> rfl
  | @cons depth final kind c body rest ls hterm hinter hunit hlone _ ih =>
    have hmore := opensInterpolation_append hinter hapart
    rw [List.append_assoc] at hmore
    rw [List.cons_append, List.append_assoc,
      units?_unit hterm hmore (isUnit_append hunit hlone hapart) hlone, ih hapart.tail,
      Option.map_map]
    rfl

theorem units?_eq_some_iff {depth final : Nat} {cs : List Located} {ls : List Lexeme} :
    units? depth cs = some (ls, final) ↔ Units depth cs ls final := by
  refine ⟨units_of_units?, fun h => ?_⟩
  have hend : Apart cs [] := fun c _ => by simp [opensInterpolation]
  simpa [units?] using h.units?_append hend

theorem Units.append {depth middle final : Nat} {xs ys : List Located} {ls ms : List Lexeme}
    (h : Units depth xs ls middle) (h' : Units middle ys ms final) (hapart : Apart xs ys) :
    Units depth (xs ++ ys) (ls ++ ms) final := by
  rw [← units?_eq_some_iff, h.units?_append hapart, units?_eq_some_iff.2 h']
  rfl

/-- Behind whole units a text of whole units goes on with whole units. -/
theorem Units.behind {depth middle final : Nat} {xs ys : List Located} {ls ms : List Lexeme}
    (h : Units depth (xs ++ ys) ls final) (hxs : Units depth xs ms middle) (hapart : Apart xs ys) :
    ∃ ns, Units middle ys ns final := by
  rw [← units?_eq_some_iff, hxs.units?_append hapart, Option.map_eq_some_iff] at h
  obtain ⟨⟨ns, final'⟩, hns, heq⟩ := h
  obtain ⟨_, rfl⟩ := Prod.mk.inj heq
  exact ⟨ns, units?_eq_some_iff.1 hns⟩

/-- Which units a text is made of hangs on its characters alone. -/
theorem Units.congr {depth final : Nat} {cs ds : List Located} {ls : List Lexeme}
    (h : Units depth cs ls final) (hds : ds.map Located.char = cs.map Located.char) :
    ∃ ms, Units depth ds ms final ∧ ms.map Lexeme.kind = ls.map Lexeme.kind := by
  induction h generalizing ds with
  | nil =>
    obtain rfl : ds = [] := by simpa using hds
    exact ⟨[], .nil, rfl⟩
  | @cons depth final kind c body rest ls hterm hinter hunit hlone _ ih =>
    rw [List.map_cons, List.map_append] at hds
    obtain ⟨d, ds, rfl, hd, hds⟩ := List.map_eq_cons_iff.1 hds
    obtain ⟨body', rest', rfl, hbody, hrest⟩ := List.map_eq_append_iff.1 hds
    obtain ⟨ms, hms, hkinds⟩ := ih hrest
    have hfirst : (d :: body').map Located.char = (c :: body).map Located.char := by
      simp [hd, hbody]
    have hmore : opensInterpolation d.char (body' ++ rest') = false := by
      rw [← List.map_append] at hds
      rw [opensInterpolation_congr (Located.headChar_eq_of_map_char hds), hd]
      exact hinter
    refine ⟨⟨kind, d :: body'⟩ :: ms, .cons (hd ▸ hterm) hmore ?_ (hfirst ▸ hlone) (hd ▸ hms), ?_⟩
    · rw [hfirst, Located.headChar_eq_of_map_char hrest]
      exact hunit
    · simp [hkinds]

/-- A text of whole units is passed over. -/
theorem Units.skip_append {depth final : Nat} {front : List Located} {ls : List Lexeme}
    (h : Units depth front ls final) {back : List Located} (hapart : Apart front back) :
    skip depth (front ++ back) = skip final back := by
  induction h with
  | nil => rfl
  | @cons depth final kind c body rest ls hterm hinter hunit hlone _ ih =>
    have hmore := opensInterpolation_append hinter hapart
    rw [List.append_assoc] at hmore
    rw [List.cons_append, List.append_assoc,
      skip_unit hterm hmore (isUnit_append hunit hlone hapart), ih hapart.tail]

end Prelude

/-! ## What is kept of whole units -/

/-- What an excerpt keeps of a unit. -/
def Lexeme.kept (l : Lexeme) : List Located :=
  if l.kind = .comment then [] else l.chars

theorem Lexeme.kept_sublist (l : Lexeme) : l.kept.Sublist l.chars := by
  unfold Lexeme.kept
  split
  · exact List.nil_sublist _
  · exact List.Sublist.refl _

theorem Prelude.Units.chars_eq {depth final : Nat} {cs : List Located} {ls : List Lexeme}
    (h : Prelude.Units depth cs ls final) : ls.flatMap Lexeme.chars = cs := by
  induction h with
  | nil => rfl
  | cons _ _ _ _ _ ih => simp [ih]

theorem Lexeme.flatMap_kept_sublist (ls : List Lexeme) :
    (ls.flatMap Lexeme.kept).Sublist (ls.flatMap Lexeme.chars) := by
  induction ls with
  | nil => exact List.Sublist.refl _
  | cons l ls ih => exact l.kept_sublist.append ih

theorem Prelude.Units.kept_sublist {depth final : Nat} {cs : List Located} {ls : List Lexeme}
    (h : Prelude.Units depth cs ls final) : (ls.flatMap Lexeme.kept).Sublist cs :=
  h.chars_eq ▸ Lexeme.flatMap_kept_sublist ls

namespace Excerpt

/-- Nothing is kept from `stop` on. -/
theorem keep_of_le {stop : Nat} {cs : List Located} (h : ∀ c ∈ cs, stop ≤ c.offset) :
    keep stop cs = .ok [] := by
  cases cs with
  | nil => rw [keep]
  | cons c cs =>
    have := h c List.mem_cons_self
    rw [keep, if_neg (by omega)]

/-- `kept` is what an excerpt up to `stop` keeps of the characters, unit by unit. -/
inductive Retains (stop : Nat) : List Located → List Located → Prop
  | nil : Retains stop [] []
  | past {c : Located} {rest : List Located} : stop ≤ c.offset → Retains stop (c :: rest) []
  | unit {kind : Lexeme.Kind} {c : Located} {body rest kept : List Located} :
      c.offset < stop → Lexeme.IsUnit kind ((c :: body).map Located.char) (Located.headChar rest) →
      Retains stop rest kept →
      Retains stop (c :: (body ++ rest))
        (((⟨kind, c :: body⟩ : Lexeme).kept.filter fun d => d.offset < stop) ++ kept)

theorem retains_of_keep {stop : Nat} {cs kept : List Located} (h : keep stop cs = .ok kept) :
    Retains stop cs kept := by
  fun_induction keep stop cs generalizing kept with
  | case1 =>
    obtain rfl := by simpa using h
    exact .nil
  | case2 => simp at h
  | case3 => simp at h
  | case4 c rest hlt l after hnext _ more hmore hkind ih =>
    obtain rfl : more = kept := by simpa [hkind] using h
    obtain ⟨⟨body, hchars, rfl⟩, hunit⟩ := Lexeme.next_eq_ok_iff.1 hnext
    rw [hchars, hkind] at hunit
    simpa [Lexeme.kept] using Retains.unit hlt hunit (ih hmore)
  | case5 c rest hlt l after hnext _ more hmore hkind ih =>
    obtain rfl := by simpa [hkind] using h
    obtain ⟨⟨body, hchars, rfl⟩, hunit⟩ := Lexeme.next_eq_ok_iff.1 hnext
    rw [hchars] at hunit
    simpa [Lexeme.kept, hkind, hchars] using Retains.unit hlt hunit (ih hmore)
  | case6 c rest hpast =>
    obtain rfl := by simpa [hpast] using h
    exact .past (by omega)

theorem keep_unit {stop : Nat} {kind : Lexeme.Kind} {c : Located} {body rest : List Located}
    (hlt : c.offset < stop)
    (hunit : Lexeme.IsUnit kind ((c :: body).map Located.char) (Located.headChar rest)) :
    keep stop (c :: (body ++ rest)) = (keep stop rest).map
      (((⟨kind, c :: body⟩ : Lexeme).kept.filter fun d => d.offset < stop) ++ ·) := by
  have hnext := Lexeme.next_complete hunit
  rw [keep, if_pos hlt]
  split
  · next e he => simp [hnext] at he
  · next l after he =>
    obtain ⟨rfl, rfl⟩ : (⟨kind, c :: body⟩ : Lexeme) = l ∧ rest = after := by simpa [hnext] using he
    cases keep stop rest with
    | error e => rfl
    | ok kept =>
      by_cases hkind : kind = .comment
      · simp [hkind, Except.map, Lexeme.kept]
      · simp [hkind, Except.map, Lexeme.kept]

theorem keep_eq_ok_iff {stop : Nat} {cs kept : List Located} :
    keep stop cs = .ok kept ↔ Retains stop cs kept := by
  refine ⟨retains_of_keep, fun h => ?_⟩
  induction h with
  | nil => rw [keep]
  | past hpast => rw [keep, if_neg (by omega)]
  | unit hlt hunit _ ih =>
    rw [keep_unit hlt hunit, ih]
    rfl

/-- Of whole units all is kept that is in no comment and stands before `stop`. -/
theorem keep_units {depth final stop size : Nat} {front back : List Located} {ls : List Lexeme}
    (h : Prelude.Units depth front ls final) (hapart : Prelude.Apart front back)
    (hrising : Located.Rising size (front ++ back)) :
    keep stop (front ++ back) = (keep stop back).map
      (((ls.flatMap Lexeme.kept).filter fun d => d.offset < stop) ++ ·) := by
  induction h with
  | nil =>
    rw [List.nil_append]
    cases keep stop back <;> rfl
  | @cons depth final kind c body rest ls _ _ hunit hlone hunits ih =>
    rw [List.cons_append, List.append_assoc] at hrising ⊢
    have hrest : Located.Rising size (rest ++ back) := by
      rw [← List.cons_append] at hrising
      exact hrising.right
    by_cases hlt : c.offset < stop
    · have hmore := Prelude.isUnit_append hunit hlone hapart
      rw [keep_unit hlt hmore, ih hapart.tail hrest]
      cases keep stop back with
      | error e => rfl
      | ok kept => simp [Except.map]
    · -- The text is past `stop`, so nothing is kept of it or of what follows.
      have hpast : ∀ d ∈ c :: (body ++ (rest ++ back)), stop ≤ d.offset := by
        intro d hd
        have := hrising.startOf_le hd
        rw [Located.startOf_cons] at this
        omega
      have hback : keep stop back = .ok [] :=
        keep_of_le fun d hd => hpast d (by simp [hd])
      have hnone : ((⟨kind, c :: body⟩ :: ls).flatMap Lexeme.kept).filter
          (fun d => d.offset < stop) = [] := by
        rw [List.filter_eq_nil_iff]
        intro d hd
        have hmem : d ∈ c :: (body ++ rest) :=
          (Prelude.Units.kept_sublist (.cons ‹_› ‹_› hunit hlone hunits)).subset hd
        have := hpast d (by
          rcases List.mem_cons.1 hmem with rfl | hmem
          · exact List.mem_cons_self
          · rw [← List.append_assoc]
            exact List.mem_cons_of_mem _ (List.mem_append_left _ hmem))
        simpa using this
      rw [hback, keep_of_le hpast, hnone]
      rfl

end Excerpt

end SheetPolicy

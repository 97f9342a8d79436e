import Mathlib
import SheetPolicy.Proofs.Locality
import SheetPolicy.Proofs.Move

/-!
Filling a gap with a comment. Between two units of a statement's text a comment can be put in, and
everything behind it moved on: the statement keeps its form (`Event.Takes.fill`), and a text that
such a statement is part of keeps its nodes (`Event.Builds.fill`).
-/

namespace SheetPolicy

/-! ## Strings that run on -/

namespace Lexeme

/-- Within a string the text would end with a backslash that takes the next character along. -/
def dangles (cs : List Located) : Bool :=
  cs.foldl (fun pending c => !pending && c.char == '\\') false

theorem dangles_append {xs : List Located} (h : dangles xs = false) (ys : List Located) :
    dangles (xs ++ ys) = dangles ys := by
  rw [dangles] at h
  rw [dangles, List.foldl_append, h, dangles]

theorem dangles_cons {c : Located} (hc : c.char ≠ '\\') (cs : List Located) :
    dangles (c :: cs) = dangles cs := by
  have hc : (c.char == '\\') = false := beq_eq_false_iff_ne.2 hc
  rw [dangles, List.foldl_cons, hc, Bool.and_false, dangles]

theorem dangles_concat {c : Located} (hc : c.char ≠ '\\') (xs : List Located) :
    dangles (xs ++ [c]) = false := by
  simp [dangles, hc]

theorem dangles_of_free {xs : List Located} (h : ∀ c ∈ xs, c.char ≠ '\\') : dangles xs = false := by
  rcases List.eq_nil_or_concat' xs with rfl | ⟨front, c, rfl⟩
  · rfl
  · exact dangles_concat (h c (by simp)) front

/-- Text in front makes no difference to how a text ends, unless it takes the first backslash
along. -/
theorem Joins.dangles_append {xs ys : List Located} (h : Joins xs ys) (hne : ys ≠ []) :
    dangles (xs ++ ys) = dangles ys := by
  cases ys with
  | nil => exact absurd rfl hne
  | cons y ys =>
    by_cases hy : y.char = '\\'
    · have hxs : dangles xs = false := by
        rcases List.eq_nil_or_concat' xs with rfl | ⟨front, c, rfl⟩
        · rfl
        · exact dangles_concat (h (by simp [hy]) c (by simp)) front
      exact Lexeme.dangles_append hxs _
    · have hy' : (y.char == '\\') = false := beq_eq_false_iff_ne.2 hy
      rw [dangles_cons hy, dangles, List.foldl_append, List.foldl_cons, hy', Bool.and_false,
        dangles]

/-- What closes a string is in the text or in what follows it. -/
theorem isSome_closeString_append {quote : Char} {xs : List Located} (h : dangles xs = false)
    (ys : List Located) :
    (closeString quote (xs ++ ys)).isSome = true ↔
      (closeString quote xs).isSome = true ∨ (closeString quote ys).isSome = true := by
  fun_induction closeString quote xs with
  | case1 => simp
  | case2 c rest hc =>
    rw [List.cons_append, closeString.eq_def]
    simp [hc]
  | case3 c hc hescape => simp [dangles, hescape] at h
  | case4 c hc hescape d rest ih =>
    have hrest : dangles rest = false := by simpa [dangles, hescape] using h
    simp only [List.cons_append, closeString, if_neg hc, if_pos hescape, Option.isSome_map]
    exact ih hrest
  | case5 c rest hc hescape ih =>
    have hrest : dangles rest = false := (dangles_cons hescape rest).symm.trans h
    rw [List.cons_append, closeString.eq_def]
    simp only [if_neg hc, if_neg hescape, Option.isSome_map]
    exact ih hrest

/-- A text with a comment put in stands in for the text. -/
theorem standsIn_insert {front comment : List Located} (hne : front ≠ [])
    (hfront : dangles front = false) (hcomment : dangles comment = false)
    (hmark : ['*', '/'] <:+: comment.map Located.char) (back : List Located) :
    StandsIn (front ++ back) (front ++ (comment ++ back)) where
  head := by
    rw [Located.headChar_append_of_ne_nil hne, Located.headChar_append_of_ne_nil hne]
  string quote hquote xs hjoin := by
    have hjoin' : Joins xs front := by
      intro hhead
      exact hjoin (by rwa [Located.headChar_append_of_ne_nil hne])
    have hxs : dangles (xs ++ front) = false := (hjoin'.dangles_append hne).trans hfront
    rw [← List.append_assoc, ← List.append_assoc, isSome_closeString_append hxs,
      isSome_closeString_append hxs, isSome_closeString_append hcomment]
    exact Or.imp_right Or.inr
  comment xs _ := by
    rw [isSome_closeComment]
    obtain ⟨s, t, hst⟩ := hmark
    exact ⟨xs.map Located.char ++ front.map Located.char ++ s, t ++ back.map Located.char, by
      simp [← hst]⟩

theorem IsUnit.dangles {kind : Kind} {cs : List Located} {next : Option Char}
    (h : IsUnit kind (cs.map Located.char) next) (hlone : cs.map Located.char ≠ ['\\']) :
    dangles cs = false := by
  have hlast : ∀ (inner : List Char) (c : Char), c ≠ '\\' → cs.map Located.char = inner ++ [c] →
      Lexeme.dangles cs = false := by
    intro inner c hc hcs
    obtain ⟨front, last, rfl, _, hlast⟩ := List.map_eq_append_iff.1 hcs
    obtain ⟨d, rfl, rfl⟩ := List.map_eq_singleton_iff.1 hlast
    exact dangles_concat hc front
  cases kind with
  | plain =>
    obtain ⟨c, hcs, hescape, _⟩ := h
    exact hlast [] c hescape hcs
  | escape =>
    rcases h with ⟨c, hcs⟩ | ⟨hcs, _⟩
    · obtain ⟨b, rest, rfl, hb, hrest⟩ := List.map_eq_cons_iff.1 hcs
      obtain ⟨d, rfl, _⟩ := List.map_eq_singleton_iff.1 hrest
      simp [Lexeme.dangles, hb]
    · exact absurd hcs hlone
  | quoted =>
    obtain ⟨quote, inner, hquote, _, hcs⟩ := h
    have hescape : quote ≠ '\\' := by rcases hquote with rfl | rfl <;> decide
    exact hlast (quote :: inner) quote hescape hcs
  | comment =>
    obtain ⟨inner, hcs, _⟩ := h
    exact hlast ('/' :: '*' :: (inner ++ ['*'])) '/' (by decide) (by simp [hcs])

end Lexeme

theorem Prelude.Units.dangles {depth final : Nat} {cs : List Located} {ls : List Lexeme}
    (h : Prelude.Units depth cs ls final) : Lexeme.dangles cs = false := by
  induction h with
  | nil => rfl
  | cons _ _ hunit hlone _ ih =>
    rw [← List.cons_append, Lexeme.dangles_append (hunit.dangles hlone), ih]

/-! ## Putting a comment in -/

/-- Makes room for `n` bytes at offset `p`. -/
def shift (p n o : Nat) : Nat :=
  if p ≤ o then o + n else o

theorem shift_of_lt {p o : Nat} (n : Nat) (h : o < p) : shift p n o = o :=
  if_neg (by omega)

theorem shift_of_le {p o : Nat} (n : Nat) (h : p ≤ o) : shift p n o = o + n :=
  if_pos h

theorem shift_strictMono (p n : Nat) : StrictMono (shift p n) := by
  intro a b hab
  unfold shift
  split <;> split <;> omega

/-- The characters of a comment that stands at offset `p` and takes up `n` bytes. -/
structure Fills (p n : Nat) (comment : List Located) : Prop where
  isUnit : ∀ next, Lexeme.IsUnit .comment (comment.map Located.char) next
  runs : Located.Runs p comment (p + n)

namespace Fills

variable {p n : Nat} {comment : List Located}

theorem exists_cons (h : Fills p n comment) :
    ∃ c body, comment = c :: body ∧ c.char = '/' ∧ c.offset = p := by
  obtain ⟨inner, hchars, _⟩ := h.isUnit none
  obtain ⟨c, body, rfl, hc, _⟩ := List.map_eq_cons_iff.1 hchars
  exact ⟨c, body, rfl, hc, h.runs.1⟩

theorem exists_concat (h : Fills p n comment) :
    ∃ inner c, comment = inner ++ [c] ∧ c.char = '/' := by
  obtain ⟨inner, hchars, _⟩ := h.isUnit none
  have hchars : comment.map Located.char = ('/' :: '*' :: (inner ++ ['*'])) ++ ['/'] := by
    simp [hchars]
  obtain ⟨front, last, rfl, _, hlast⟩ := List.map_eq_append_iff.1 hchars
  obtain ⟨c, rfl, hc⟩ := List.map_eq_singleton_iff.1 hlast
  exact ⟨front, c, rfl, hc⟩

theorem headChar_append (h : Fills p n comment) (rest : List Located) :
    Located.headChar (comment ++ rest) = some '/' := by
  obtain ⟨c, body, rfl, hc, _⟩ := h.exists_cons
  simp [hc]

theorem apart (h : Fills p n comment) (front rest : List Located) :
    Prelude.Apart front (comment ++ rest) :=
  Prelude.apart_of_headChar (by simp [h.headChar_append]) (by simp [h.headChar_append])

theorem pos (h : Fills p n comment) : 0 < n := by
  obtain ⟨c, body, rfl, _, _⟩ := h.exists_cons
  have := h.runs.2.le
  have := c.offset_lt_stop
  have := h.runs.1
  omega

theorem dangles (h : Fills p n comment) : Lexeme.dangles comment = false := by
  refine (h.isUnit none).dangles ?_
  obtain ⟨c, body, rfl, hc, _⟩ := h.exists_cons
  simp [hc]

theorem closing (h : Fills p n comment) : ['*', '/'] <:+: comment.map Located.char := by
  obtain ⟨inner, hchars, _⟩ := h.isUnit none
  exact ⟨'/' :: '*' :: inner, [], by simp [hchars]⟩

theorem skip_append (h : Fills p n comment) (depth : Nat) (rest : List Located) :
    Prelude.skip depth (comment ++ rest) = Prelude.skip depth rest := by
  obtain ⟨c, body, rfl, hc, _⟩ := h.exists_cons
  have hterm : ¬(depth = 0 ∧ Prelude.isTerminator c.char = true) := by
    simp [hc, Prelude.isTerminator]
  have hinter : Prelude.opensInterpolation c.char (body ++ rest) = false := by
    simp [hc, Prelude.opensInterpolation]
  exact Prelude.skip_unit hterm hinter (h.isUnit _)

theorem keep_append (h : Fills p n comment) {stop : Nat} (hstop : p < stop) (rest : List Located) :
    Excerpt.keep stop (comment ++ rest) = Excerpt.keep stop rest := by
  obtain ⟨c, body, rfl, _, hoffset⟩ := h.exists_cons
  rw [List.cons_append, Excerpt.keep_unit (hoffset ▸ hstop) (h.isUnit _)]
  cases Excerpt.keep stop rest <;> rfl

end Fills

theorem Located.map_move_shift {p : Nat} {cs : List Located} (n : Nat)
    (h : ∀ c ∈ cs, c.offset < p) :
    cs.map (Located.move (shift p n)) = cs := by
  refine (List.map_congr_left (g := id) fun c hc => ?_).trans (List.map_id cs)
  rw [Located.move, shift_of_lt n (h c hc)]
  rfl

theorem Located.carries_shift {p : Nat} {cs : List Located} (n : Nat) (h : ∀ c ∈ cs, p ≤ c.offset) :
    Located.Carries (shift p n) cs := by
  intro c hc
  have hle := h c hc
  have hstop : p ≤ c.stop := hle.trans c.offset_lt_stop.le
  rw [shift_of_le n hstop, Located.stop, Located.offset_move, shift_of_le n hle, Located.char_move,
    Located.stop]
  omega

/-- A comment is put in between two parts of a text. -/
structure Gap (size p n : Nat) (front comment back : List Located) : Prop where
  fills : Fills p n comment
  lt : ∀ c ∈ front, c.offset < p
  startOf_back : Located.startOf size back = p
  rising : Located.Rising size (front ++ back)

/-- The text with the comment put in, and what stands behind it moved on. -/
def filled (p n : Nat) (front comment back : List Located) : List Located :=
  front ++ (comment ++ back.map (Located.move (shift p n)))

/-- What does not end in a blank does not with a comment put in either: the comment ends in a
solidus. -/
theorem Fills.tight_filled {p n : Nat} {front comment back : List Located} (h : Fills p n comment)
    (htight : ∀ c, (front ++ back).getLast? = some c → Text.isBlank c.char = false) {c : Located}
    (hc : (filled p n front comment back).getLast? = some c) : Text.isBlank c.char = false := by
  rw [filled] at hc
  rcases List.eq_nil_or_concat' back with rfl | ⟨back, last, rfl⟩
  · obtain ⟨inner, slash, rfl, hslash⟩ := h.exists_concat
    rw [List.map_nil, List.append_nil, ← List.append_assoc, List.getLast?_concat,
      Option.some_inj] at hc
    rw [← hc, hslash]
    rfl
  · rw [List.map_append, List.map_singleton, ← List.append_assoc, ← List.append_assoc,
      List.getLast?_concat, Option.some_inj] at hc
    rw [← hc]
    exact htight last (by rw [← List.append_assoc, List.getLast?_concat])

namespace Gap

variable {size p n : Nat} {front comment back : List Located}

theorem suffix {lead : List Located} (h : Gap size p n (lead ++ front) comment back) :
    Gap size p n front comment back where
  fills := h.fills
  lt c hc := h.lt c (List.mem_append_right _ hc)
  startOf_back := h.startOf_back
  rising := h.rising.suffix ⟨lead, by simp⟩

theorem le (h : Gap size p n front comment back) {c : Located} (hc : c ∈ back) : p ≤ c.offset :=
  h.startOf_back ▸ h.rising.right.startOf_le hc

theorem le_startOf (h : Gap size p n front comment back) {stop : List Located}
    (hs : stop <:+ back) :
    p ≤ Located.startOf size stop := by
  obtain ⟨xs, rfl⟩ := hs
  cases xs with
  | nil => exact h.startOf_back.ge
  | cons x xs =>
    have hx : x.offset = p := h.startOf_back
    have := h.rising.right.lt_startOf (c := x) List.mem_cons_self
    omega

/-- An end of the text that does not start before the gap is an end of what stands behind it. -/
theorem exists_between (h : Gap size p n front comment back) {lead tail : List Located}
    (heq : front ++ back = lead ++ tail) (htail : p ≤ Located.startOf size tail) :
    ∃ between, lead = front ++ between ∧ back = between ++ tail := by
  rcases List.append_eq_append_iff.1 heq with hbetween | ⟨rest, hfront, htail_eq⟩
  · exact hbetween
  · cases rest with
    | nil => exact ⟨[], by simpa using hfront.symm, by simpa using htail_eq.symm⟩
    | cons c rest =>
      rw [htail_eq] at htail
      have := h.lt c (by simp [hfront])
      simp at htail
      omega

/-- Behind the gap everything is moved by the same distance. -/
theorem carries (h : Gap size p n front comment back) : Located.Carries (shift p n) back :=
  Located.carries_shift n fun _ hc => h.le hc

theorem rising_filled (h : Gap size p n front comment back) :
    Located.Rising (shift p n size) (filled p n front comment back) := by
  have hmoved := h.rising.move (shift_strictMono p n)
  rw [List.map_append, Located.map_move_shift n h.lt] at hmoved
  obtain ⟨hfront, hback, hcross⟩ := List.pairwise_append.1 hmoved.ordered
  have hcomment := Located.Rising.of_runs h.fills.runs
  have hback' : ∀ c ∈ back.map (Located.move (shift p n)), p + n ≤ c.offset := by
    intro c hc
    obtain ⟨d, hd, rfl⟩ := List.mem_map.1 hc
    rw [Located.offset_move, shift_of_le n (h.le hd)]
    exact Nat.add_le_add_right (h.le hd) n
  have hsize : p + n ≤ shift p n size := by
    have : p ≤ size := h.le_startOf (List.nil_suffix (l := back))
    rw [shift_of_le n this]
    exact Nat.add_le_add_right this n
  refine ⟨List.pairwise_append.2 ⟨hfront, List.pairwise_append.2 ⟨hcomment.ordered, hback, ?_⟩, ?_⟩,
    fun c hc => ?_⟩
  · exact fun c hc d hd => (hcomment.lt c hc).trans_le (hback' d hd)
  · intro c hc d hd
    rcases List.mem_append.1 hd with hd | hd
    · exact (h.lt c hc).trans_le (h.fills.runs.offset_mem hd).1
    · exact hcross c hc d hd
  · rcases List.mem_append.1 hc with hc | hc
    · exact hmoved.lt c (List.mem_append_left _ hc)
    · rcases List.mem_append.1 hc with hc | hc
      · exact (hcomment.lt c hc).trans_le hsize
      · exact hmoved.lt c (List.mem_append_right _ hc)

end Gap

section Fill

variable {p n size depth final : Nat} {front comment back : List Located} {ls : List Lexeme}

/-- The end of a statement stays where it is behind a comment put in. -/
theorem Prelude.skip_fill (hgap : Gap size p n front comment back)
    (hunits : Prelude.Units depth front ls final) (hapart : Prelude.Apart front back)
    {stop : List Located} (h : Prelude.skip depth (front ++ back) = .ok stop) :
    stop <:+ back ∧ Prelude.skip depth (filled p n front comment back) =
      .ok (stop.map (Located.move (shift p n))) := by
  rw [hunits.skip_append hapart] at h
  refine ⟨Prelude.skip_suffix h, ?_⟩
  rw [filled, hunits.skip_append (hgap.fills.apart _ _), hgap.fills.skip_append]
  exact Prelude.skip_eq_ok_iff.2 ((Prelude.skip_eq_ok_iff.1 h).move _)

/-- What is cut out of a text is the same with a comment put in. -/
theorem Excerpt.cut_fill (hgap : Gap size p n front comment back)
    (hunits : Prelude.Units depth front ls final) (hapart : Prelude.Apart front back)
    {stop : Nat} (hstop : p ≤ stop) {e : Excerpt} (h : Excerpt.cut (front ++ back) stop = .ok e) :
    Excerpt.cut (filled p n front comment back) (shift p n stop) = .ok (e.move (shift p n)) := by
  have hpos := hgap.fills.pos
  have hmoved := shift_of_le n hstop
  have hkept : ∀ c ∈ ls.flatMap Lexeme.kept, c.offset < p :=
    fun c hc => hgap.lt c (hunits.kept_sublist.subset hc)
  have hall : ∀ stop', p ≤ stop' → (ls.flatMap Lexeme.kept).filter (fun d => d.offset < stop') =
      ls.flatMap Lexeme.kept := by
    intro stop' hle
    rw [List.filter_eq_self]
    intro c hc
    have := hkept c hc
    simp
    omega
  rw [Excerpt.cut, Excerpt.keep_units hunits hapart hgap.rising, hall stop hstop] at h
  rw [filled, Excerpt.cut, Excerpt.keep_units hunits (hgap.fills.apart _ _) hgap.rising_filled,
    hall _ (by omega), hgap.fills.keep_append (by omega)]
  cases hkeep : Excerpt.keep stop back with
  | error err => simp [hkeep, Except.map] at h
  | ok kept =>
    obtain rfl : Excerpt.trim (ls.flatMap Lexeme.kept ++ kept) stop = e := by
      simpa [hkeep, Except.map] using h
    rw [Excerpt.keep_eq_ok_iff.2 ((Excerpt.keep_eq_ok_iff.1 hkeep).move (shift_strictMono p n)),
      ← Excerpt.trim_move, List.map_append, Located.map_move_shift n hkept]
    rfl

/-! ## Statements -/

namespace Event

/-- The text behind the comment, divided where the statement ends. -/
theorem filled_suffix (p n : Nat) (front comment : List Located) {stop : List Located}
    (hs : stop <:+ back) :
    ∃ more, back = more ++ stop ∧ filled p n front comment back =
      (front ++ (comment ++ more.map (Located.move (shift p n)))) ++
        stop.map (Located.move (shift p n)) := by
  obtain ⟨more, rfl⟩ := hs
  exact ⟨more, rfl, by simp [filled]⟩

theorem startOf_filled (hne : front ≠ []) (hgap : Gap size p n front comment back) (size' : Nat) :
    Located.startOf size' (filled p n front comment back) =
      shift p n (Located.startOf size (front ++ back)) := by
  cases front with
  | nil => exact absurd rfl hne
  | cons c rest => exact (shift_of_lt n (hgap.lt c List.mem_cons_self)).symm

theorem startsStatement_filled (hgap : Gap size p n front comment back) (hne : front ≠ [])
    (h : StartsStatement (front ++ back)) : StartsStatement (filled p n front comment back) := by
  match front, hne with
  | [c], _ => exact ⟨h.1, by simp [hgap.fills.headChar_append]⟩
  | c :: d :: rest, _ => exact h

/-- A style rule with a comment put into its selector. -/
theorem Takes.fill_rule (hgap : Gap size p n front comment back) (hne : front ≠ [])
    (hunits : Prelude.Units 0 front ls final) (hapart : Prelude.Apart front back) {t : Located}
    {inner : List Located} {selector : Excerpt} (hstart : StartsStatement (front ++ back))
    (ht : t.char = '{') (hstop : Prelude.skip 0 (front ++ back) = .ok (t :: inner))
    (hselector : Excerpt.cut (front ++ back) t.offset = .ok selector) :
    t :: inner <:+ back ∧ Takes (shift p n size) (filled p n front comment back)
      (.opens (shift p n (Located.startOf size (front ++ back))) (shift p n t.offset)
        (.rule (selector.move (shift p n)))) (inner.map (Located.move (shift p n))) := by
  obtain ⟨hsuffix, hstop'⟩ := Prelude.skip_fill hgap hunits hapart hstop
  refine ⟨hsuffix, ?_⟩
  have hselector' := Excerpt.cut_fill hgap hunits hapart (hgap.le_startOf hsuffix) hselector
  have hstart' := startsStatement_filled hgap hne hstart
  rw [← startOf_filled hne hgap]
  obtain ⟨more, _, hfilled⟩ := filled_suffix p n front comment hsuffix
  rw [hfilled] at hstop' hselector' hstart' ⊢
  exact .rule hstart' ht hstop' hselector'

/-- An at-rule with a comment put in behind its name. -/
theorem Takes.fill_atRule (hgap : Gap size p n front comment back)
    (hunits : Prelude.Units 0 front ls final) (hapart : Prelude.Apart front back) {c : Located}
    {name stop next : List Located} {params : Excerpt} {e : Event}
    (hoffset : c.offset < p) (hc : c.char = '@') (hname : ∀ d ∈ name, isNameChar d.char = true)
    (hhead : ∀ x, Located.headChar (front ++ back) = some x → isNameChar x = false)
    (hstop : Prelude.skip 0 (front ++ back) = .ok stop)
    (hparams : Excerpt.cut (front ++ back) (Located.startOf size stop) = .ok params)
    (hend : atRuleEnd size c.offset (Located.text name) params stop = (e, next)) :
    next <:+ back ∧ Takes (shift p n size) (c :: (name ++ filled p n front comment back))
      (e.move (shift p n)) (next.map (Located.move (shift p n))) := by
  obtain ⟨hsuffix, hstop'⟩ := Prelude.skip_fill hgap hunits hapart hstop
  refine ⟨(atRuleEnd_cases hend).1.trans hsuffix, ?_⟩
  have hparams' := Excerpt.cut_fill hgap hunits hapart (hgap.le_startOf hsuffix) hparams
  rw [← Located.startOf_move (shift p n)] at hparams'
  have hend' := atRuleEnd_move (f := shift p n) hend fun t ht =>
    hgap.carries t (hsuffix.subset (ht ▸ List.mem_cons_self))
  rw [shift_of_lt n hoffset] at hend'
  have hhead' : ∀ x, Located.headChar (filled p n front comment back) = some x →
      isNameChar x = false := by
    cases front with
    | nil =>
      intro x hx
      rw [filled, List.nil_append, hgap.fills.headChar_append, Option.some_inj] at hx
      rw [← hx]
      rfl
    | cons d front => exact hhead
  obtain ⟨more, _, hfilled⟩ := filled_suffix p n front comment hsuffix
  rw [hfilled] at hstop' hparams' hhead' ⊢
  exact .atRule hc hname hhead' hstop' hparams' hend'

theorem apart_colon {colon : Located} (hcolon : colon.char = ':') (xs rest : List Located) :
    Prelude.Apart (xs ++ [colon]) rest := by
  intro c hc
  obtain rfl : colon = c := by simpa using hc
  simp [hcolon, Prelude.opensInterpolation]

/-- What is cut out before a colon is the same whatever follows the colon. -/
theorem cut_before_colon {x : List Located} {colon : Located} (hcolon : colon.char = ':')
    (hunits : Prelude.Units 0 (x ++ [colon]) ls final) {rest rest' : List Located}
    {size size' : Nat}
    (hrising : Located.Rising size (x ++ colon :: rest))
    (hrising' : Located.Rising size' (x ++ colon :: rest')) :
    Excerpt.cut (x ++ colon :: rest') colon.offset =
      Excerpt.cut (x ++ colon :: rest) colon.offset := by
  have hcut : ∀ {size : Nat} {rest : List Located}, Located.Rising size (x ++ colon :: rest) →
      Excerpt.cut (x ++ colon :: rest) colon.offset = .ok (Excerpt.trim
        ((ls.flatMap Lexeme.kept).filter fun d => d.offset < colon.offset) colon.offset) := by
    intro size rest hrising
    have hpast : ∀ c ∈ rest, colon.offset ≤ c.offset := fun c hc =>
      ((List.pairwise_cons.1 (List.pairwise_append.1 hrising.ordered).2.1).1 c hc).le
    rw [List.append_cons] at hrising ⊢
    rw [Excerpt.cut, Excerpt.keep_units hunits (apart_colon hcolon x rest) hrising,
      Excerpt.keep_of_le hpast]
    simp [Except.map]
  rw [hcut hrising, hcut hrising']

/-- A text has one first colon. -/
theorem first_colon {xs ys before after : List Located} {c d : Located} (hc : c.char = ':')
    (hd : d.char = ':') (hxs : ∀ b ∈ xs, b.char ≠ ':') (hbefore : ∀ b ∈ before, b.char ≠ ':')
    (h : xs ++ c :: ys = before ++ d :: after) : xs = before ∧ c = d ∧ ys = after := by
  have htake := congrArg (List.takeWhile fun b : Located => decide (b.char ≠ ':')) h
  rw [List.takeWhile_append_of_pos (by simpa using hxs),
    List.takeWhile_append_of_pos (by simpa using hbefore),
    List.takeWhile_cons_of_neg (by simp [hc]), List.takeWhile_cons_of_neg (by simp [hd]),
    List.append_nil, List.append_nil] at htake
  subst htake
  obtain ⟨hcd, hys⟩ := List.cons.inj (List.append_cancel_left h)
  exact ⟨rfl, hcd, hys⟩

/-- The comment is put in behind the colon of a declaration and before the blanks at its end. -/
theorem Divides.fill {x y taken stop before after gap : List Located} {colon colon' : Located}
    {prop value : Excerpt} {ms : List Lexeme} {middle : Nat}
    (hgap : Gap size p n (x ++ colon :: y) comment back)
    (hcolon : colon.char = ':') (hx : ∀ c ∈ x, c.char ≠ ':')
    (hname : Prelude.Units 0 (x ++ [colon]) ms middle) (hunits : Prelude.Units middle y ls final)
    (hapart : Prelude.Apart y back) (htaken : taken ++ stop = (x ++ colon :: y) ++ back)
    (h : Divides size taken stop before colon' after gap prop value)
    (hend : p ≤ Located.startOf size (gap ++ stop)) :
    gap ++ stop <:+ back ∧ ∃ taken' after', filled p n (x ++ colon :: y) comment back =
        taken' ++ stop.map (Located.move (shift p n)) ∧
      Divides (shift p n size) taken' (stop.map (Located.move (shift p n))) x colon after'
        (gap.map (Located.move (shift p n))) prop (value.move (shift p n)) := by
  have hsplit : x ++ colon :: (y ++ back) = before ++ colon' :: (after ++ (gap ++ stop)) := by
    simpa [h.taken_eq] using htaken.symm
  obtain ⟨rfl, rfl, hbehind⟩ := first_colon hcolon h.colon_char hx h.before_free hsplit
  have hgap' : Gap size p n y comment back := (List.append_cons x colon y ▸ hgap).suffix
  obtain ⟨more, hafter, hback⟩ := hgap'.exists_between hbehind hend
  have hfilled : ∀ front, filled p n front comment back =
      filled p n front comment more ++
        (gap.map (Located.move (shift p n)) ++ stop.map (Located.move (shift p n))) := by
    intro front
    simp [filled, hback]
  refine ⟨⟨more, hback.symm⟩, x ++ colon :: (filled p n y comment more ++
    gap.map (Located.move (shift p n))), filled p n y comment more,
    by simp [filled, hback], rfl, hcolon, hx, by simpa using h.gap_blank, ?_, ?_, ?_⟩
  · intro c hc
    exact @Fills.tight_filled p n (colon :: y) comment more hgap.fills
      (by simpa [hafter] using h.tight) c hc
  · have hrising := hgap.rising
    have hrising' := hgap.rising_filled
    have hprop := h.prop_cut
    rw [htaken] at hprop
    rw [List.append_assoc, List.cons_append] at hprop hrising
    rw [filled, List.append_assoc, List.cons_append] at hrising'
    rw [← cut_before_colon hcolon hname hrising hrising'] at hprop
    simpa [filled, hback] using hprop
  · have hcut := h.value_cut
    rw [← hbehind] at hcut
    have hcut' := Excerpt.cut_fill hgap' hunits hapart hend hcut
    rwa [hfilled, ← Located.startOf_move (shift p n), List.map_append] at hcut'

/-- A declaration with a comment put in behind its colon. -/
theorem Takes.fill_declaration {x y taken stop before after gap : List Located}
    {colon colon' : Located} {prop value : Excerpt} {ms : List Lexeme} {middle : Nat}
    (hgap : Gap size p n (x ++ colon :: y) comment back)
    (hcolon : colon.char = ':') (hx : ∀ c ∈ x, c.char ≠ ':')
    (hname : Prelude.Units 0 (x ++ [colon]) ms middle)
    (hunits : Prelude.Units 0 (x ++ colon :: y) ls final)
    (hapart : Prelude.Apart (x ++ colon :: y) back)
    (htaken : taken ++ stop = (x ++ colon :: y) ++ back) (hstart : StartsStatement (taken ++ stop))
    (hopen : Located.headChar stop ≠ some '{') (hstop : Prelude.skip 0 (taken ++ stop) = .ok stop)
    (h : Divides size taken stop before colon' after gap prop value)
    (hend : p ≤ Located.startOf size (gap ++ stop)) :
    afterSemicolon stop <:+ back ∧
      Takes (shift p n size) (filled p n (x ++ colon :: y) comment back)
        ((Event.leaf (.declaration ⟨⟨Located.startOf size (taken ++ stop),
          Located.startOf size (gap ++ stop)⟩, prop.text, value.splitImportant.1,
          value.splitImportant.2⟩)).move (shift p n))
        ((afterSemicolon stop).map (Located.move (shift p n))) := by
  have hne : x ++ colon :: y ≠ [] := by simp
  rw [htaken] at hstop hstart
  obtain ⟨hsuffix, hstop'⟩ := Prelude.skip_fill hgap hunits hapart hstop
  obtain ⟨ns, hvalue⟩ := (List.append_cons x colon y ▸ hunits).behind hname (apart_colon hcolon x y)
  obtain ⟨_, taken', after', hfilled, hdivides⟩ := h.fill hgap hcolon hx hname hvalue
    (hapart.suffix ⟨x ++ [colon], by simp⟩) htaken hend
  refine ⟨(afterSemicolon_suffix stop).trans hsuffix, ?_⟩
  have hstart' := startsStatement_filled hgap hne hstart
  have hoffset := startOf_filled hne hgap (shift p n size)
  rw [hfilled] at hstart' hstop' hoffset ⊢
  have htakes := Takes.declaration hstart' (by simpa using hopen) hstop' hdivides
  rw [hoffset, ← List.map_append, Located.startOf_move, Excerpt.splitImportant_move,
    afterSemicolon_move, ← htaken] at htakes
  exact htakes

end Event

end Fill

/-! ## Nodes -/

/-- The text can be parted here: `front` is read unit by unit to its very end, over no
interpolation, and neither a comment nor an interpolation opens across the parting. An escape takes up
two places, so right behind its backslash the text cannot be parted, even if nothing follows. -/
def Prelude.Parts (front back : List Located) : Prop :=
  (Prelude.units? 0 front).isSome = true ∧ Prelude.Apart front back

theorem Prelude.exists_units {front : List Located} (h : (Prelude.units? 0 front).isSome = true) :
    ∃ ls final, Prelude.Units 0 front ls final := by
  obtain ⟨⟨ls, final⟩, hunits⟩ := Option.isSome_iff_exists.1 h
  exact ⟨ls, final, Prelude.units?_eq_some_iff.1 hunits⟩

/-- A comment can be put into the node between `front`, the characters from the start of the node
on, and `back`: within the selector of a style rule, behind the name of an at-rule, or behind the
colon of a declaration and not behind its end. The colon itself is in no string and no comment. -/
def Node.Admits (size : Nat) (front back : List Located) : Node → Prop
  | .rule _ _ => front ≠ [] ∧ Prelude.Parts front back
  | .atRule head _ | .atStatement head => ∃ mark name params, front = mark :: (name ++ params) ∧
      Located.text name = head.name ∧ Prelude.Parts params back
  | .declaration decl => ∃ prop colon value, front = prop ++ colon :: value ∧ colon.char = ':' ∧
      (∀ c ∈ prop, c.char ≠ ':') ∧ (Prelude.units? 0 (prop ++ [colon])).isSome = true ∧
      Prelude.Parts front back ∧ Located.startOf size back ≤ decl.span.stop
  | .comment _ => False

theorem Node.Admits.ne_nil {size : Nat} {front back : List Located} {node : Node}
    (h : node.Admits size front back) : front ≠ [] := by
  cases node with
  | rule => exact h.1
  | atRule | atStatement =>
    obtain ⟨_, _, _, rfl, _⟩ := h
    simp
  | declaration =>
    obtain ⟨_, _, _, rfl, _⟩ := h
    simp
  | comment => exact h.elim

namespace Event

variable {size p n : Nat} {front comment back : List Located}

/-- The name of an at-rule is as long as the text says. -/
theorem name_append_inj {xs ys tail tail' : List Located}
    (htext : Located.text xs = Located.text ys) (h : xs ++ tail = ys ++ tail') :
    xs = ys ∧ tail = tail' := by
  have hlength : xs.length = ys.length := by
    simpa [Located.text] using congrArg (fun s => s.toList.length) htext
  exact List.append_inj h hlength

/-- The sign and the name of an at-rule hold no backslash. -/
theorem dangles_atRule {c : Located} {name lead : List Located} (hc : c.char = '@')
    (hname : ∀ d ∈ name, isNameChar d.char = true) :
    Lexeme.dangles (c :: (name ++ lead)) = Lexeme.dangles lead := by
  have hfree : ∀ d ∈ c :: name, d.char ≠ '\\' := by
    intro d hd hescape
    rcases List.mem_cons.1 hd with rfl | hd
    · simp [hc] at hescape
    · have hchar := hname d hd
      rw [hescape] at hchar
      exact absurd hchar (by decide)
  rw [← List.cons_append]
  exact Lexeme.dangles_append (Lexeme.dangles_of_free hfree) lead

/-- A statement that a comment is put into keeps its form. -/
theorem Takes.fill {node : Node} {e : Event} {next : List Located}
    (hgap : Gap size p n front comment back) (h : Takes size (front ++ back) e next)
    (he : e.Makes node) (hadmits : node.Admits size front back) :
    next <:+ back ∧ Lexeme.dangles front = false ∧
      Takes (shift p n size) (filled p n front comment back) (e.move (shift p n))
        (next.map (Located.move (shift p n))) := by
  generalize hcs : front ++ back = cs at h
  cases h with
  | comment =>
    obtain rfl := he
    exact hadmits.elim
  | @atRule c name taken stop _ params _ hc hname hhead hstop hparams hend =>
    obtain ⟨mark, name', lead, rfl, hname', hunits, hapart⟩ : ∃ mark name' lead,
        front = mark :: (name' ++ lead) ∧ Located.text name' = Located.text name ∧
        Prelude.Parts lead back := by
      rcases (atRuleEnd_cases hend).2 with ⟨_, rfl⟩ | ⟨_, rfl⟩
      · obtain rfl := he
        exact hadmits
      · obtain ⟨_, _, rfl⟩ := he
        exact hadmits
    rw [List.cons_append, List.append_assoc] at hcs
    obtain ⟨rfl, hbehind⟩ := List.cons.inj hcs
    obtain ⟨rfl, hparts⟩ := name_append_inj hname' hbehind
    obtain ⟨ls, final, hunits⟩ := Prelude.exists_units hunits
    rw [← hparts] at hhead hstop hparams
    have hlead : Gap size p n lead comment back :=
      @Gap.suffix size p n lead comment back (mark :: name') hgap
    obtain ⟨hsuffix, htakes⟩ := Takes.fill_atRule hlead hunits hapart
      (hgap.lt mark List.mem_cons_self) hc hname hhead hstop hparams hend
    exact ⟨hsuffix, (dangles_atRule hc hname).trans hunits.dangles, by simpa [filled] using htakes⟩
  | @rule taken inner t selector hstart ht hstop hselector =>
    obtain ⟨_, _, rfl⟩ := he
    obtain ⟨hne, hunits, hapart⟩ := hadmits
    obtain ⟨ls, final, hunits⟩ := Prelude.exists_units hunits
    rw [← hcs] at hstart hstop hselector ⊢
    obtain ⟨hsuffix, htakes⟩ := Takes.fill_rule hgap hne hunits hapart hstart ht hstop hselector
    exact ⟨(List.suffix_cons _ _).trans hsuffix, hunits.dangles, htakes⟩
  | @declaration taken stop before after gap colon' prop value hstart hopen hstop hdivides =>
    obtain rfl := he
    obtain ⟨x, colon, y, rfl, hcolon, hx, hname, ⟨hunits, hapart⟩, hend⟩ := hadmits
    obtain ⟨ms, middle, hname⟩ := Prelude.exists_units hname
    obtain ⟨ls, final, hunits⟩ := Prelude.exists_units hunits
    rw [hgap.startOf_back] at hend
    obtain ⟨hsuffix, htakes⟩ := Takes.fill_declaration hgap hcolon hx hname hunits hapart hcs.symm
      hstart hopen hstop hdivides hend
    exact ⟨hsuffix, hunits.dangles, htakes⟩

/-! ## Blocks -/

section Carry

variable {taken xs : List Located}

theorem map_move_behind (hgap : Gap size p n (taken ++ xs) comment back) :
    (taken ++ (xs ++ back)).map (Located.move (shift p n)) =
        taken ++ (xs ++ back.map (Located.move (shift p n))) ∧
      (xs ++ back).map (Located.move (shift p n)) =
        xs ++ back.map (Located.move (shift p n)) := by
  have hxs : xs.map (Located.move (shift p n)) = xs :=
    Located.map_move_shift n fun c hc => hgap.lt c (List.mem_append_right _ hc)
  have htaken : taken.map (Located.move (shift p n)) = taken :=
    Located.map_move_shift n fun c hc => hgap.lt c (List.mem_append_left _ hc)
  simp [hxs, htaken]

variable (hgap : Gap size p n (taken ++ xs) comment back) (hne : xs ≠ [])
  (hdangles : Lexeme.dangles xs = false)
include hgap hne hdangles

/-- The text with the comment put in stands in for the text with all behind the gap moved on. -/
theorem standsIn_filled :
    Lexeme.StandsIn (xs ++ back.map (Located.move (shift p n))) (filled p n xs comment back) ∧
      Located.startOf (shift p n size) (filled p n xs comment back) =
        Located.startOf (shift p n size) (xs ++ back.map (Located.move (shift p n))) ∧
      Located.Rising (shift p n size) (taken ++ (xs ++ back.map (Located.move (shift p n)))) ∧
      Located.Rising (shift p n size) (taken ++ filled p n xs comment back) := by
  refine ⟨Lexeme.standsIn_insert hne hdangles hgap.fills.dangles hgap.fills.closing _, ?_, ?_, ?_⟩
  · cases xs with
    | nil => exact absurd rfl hne
    | cons x xs => rfl
  · have hmoved := hgap.rising.move (shift_strictMono p n)
    rwa [List.append_assoc, (map_move_behind hgap).1] at hmoved
  · have hfilled := hgap.rising_filled
    rw [filled, List.append_assoc] at hfilled
    exact hfilled

variable (hcarries : Located.Carries (shift p n) taken)
include hcarries

/-- A statement before the one that the comment is put into. -/
theorem Takes.carry {e : Event} (h : Takes size (taken ++ (xs ++ back)) e (xs ++ back)) :
    Takes (shift p n size) (taken ++ filled p n xs comment back) (e.move (shift p n))
      (filled p n xs comment back) := by
  obtain ⟨hs, hstart, hrising, hrising'⟩ := standsIn_filled hgap hne hdangles
  have hmoved := h.move (shift_strictMono p n) hcarries
  rw [(map_move_behind hgap).1, (map_move_behind hgap).2] at hmoved
  exact hmoved.replace hs hstart hrising hrising'

/-- The nodes of a block before the statement that the comment is put into. -/
theorem Builds.carry {nodes : List Node}
    (h : Builds size (taken ++ (xs ++ back)) nodes (xs ++ back)) :
    Builds (shift p n size) (taken ++ filled p n xs comment back)
      ((Retouch.move (shift p n)).nodes nodes) (filled p n xs comment back) := by
  obtain ⟨hs, hstart, hrising, hrising'⟩ := standsIn_filled hgap hne hdangles
  have hmoved := h.move (shift_strictMono p n) hcarries
  rw [(map_move_behind hgap).1, (map_move_behind hgap).2] at hmoved
  exact hmoved.replace hs hstart hrising hrising'

end Carry

/-- The nodes behind the gap. -/
theorem Builds.move_behind {xs cs after : List Located} {nodes : List Node}
    (hgap : Gap size p n xs comment back) (h : Builds size cs nodes after) (hcs : cs <:+ back) :
    Builds (shift p n size) (cs.map (Located.move (shift p n)))
      ((Retouch.move (shift p n)).nodes nodes) (after.map (Located.move (shift p n))) := by
  obtain ⟨taken, rfl⟩ := h.suffix
  exact h.move (shift_strictMono p n) fun c hc =>
    hgap.carries c (hcs.subset (List.mem_append_left _ hc))

theorem filled_append (taken xs : List Located) :
    filled p n (taken ++ xs) comment back = taken ++ filled p n xs comment back :=
  List.append_assoc _ _ _

/-- A comment can be put into a node that starts at `cs`, behind `lead`: the nodes read from `lead`
up to `after` are then the same ones, with all that is behind the gap moved on. -/
def Fillable (size : Nat) (node : Node) (lead cs : List Located) (nodes : List Node)
    (after : List Located) : Prop :=
  ∀ {p n : Nat} {front comment back : List Located}, cs = front ++ back →
    Gap size p n (lead ++ front) comment back → Located.Carries (shift p n) lead →
    node.Admits size front back →
    after <:+ back ∧ Lexeme.dangles (lead ++ front) = false ∧
      Builds (shift p n size) (filled p n (lead ++ front) comment back)
        ((Retouch.move (shift p n)).nodes nodes) (after.map (Located.move (shift p n)))

theorem startsNode_filled (p n : Nat) (comment : List Located) (hne : front ≠ [])
    (h : StartsNode (front ++ back)) : StartsNode (filled p n front comment back) := by
  refine startsNode_congr ?_ h
  rw [filled, Located.headChar_append_of_ne_nil hne, Located.headChar_append_of_ne_nil hne]

theorem startsNode_carry {taken xs : List Located} (p n : Nat) (comment : List Located)
    (hne : xs ≠ []) (h : StartsNode (taken ++ (xs ++ back))) :
    StartsNode (taken ++ filled p n xs comment back) := by
  rw [← List.append_assoc] at h
  rw [← filled_append]
  exact startsNode_filled p n comment (List.append_ne_nil_of_right_ne_nil taken hne) h

namespace Fillable

variable {node : Node} {nodes : List Node} {lead cs after : List Located}

/-- The node is the first one and has no block. -/
theorem of_leaf {next : List Located} (hstarts : StartsNode cs)
    (htakes : Takes size cs (.leaf node) next)
    (hrest : Builds size next nodes after) : Fillable size node [] cs (node :: nodes) after := by
  rintro p n front comment back rfl hgap _ hadmits
  obtain ⟨hnext, hdangles, htakes'⟩ := htakes.fill hgap rfl hadmits
  exact ⟨hrest.suffix.trans hnext, hdangles,
    .leaf (startsNode_filled p n comment hadmits.ne_nil hstarts) htakes'
      (hrest.move_behind hgap hnext)⟩

/-- The node is the first one and has a block. -/
theorem of_block {close : Located} {inner outer : List Located} {start brace : Nat} {head : Head}
    {body : List Node} (hstarts : StartsNode cs)
    (htakes : Takes size cs (.opens start brace head) inner)
    (hbody : Builds size inner body (close :: outer)) (hclose : close.char = '}')
    (hrest : Builds size outer nodes after) :
    Fillable size (head.node ⟨start, close.stop⟩ body) [] cs
      (head.node ⟨start, close.stop⟩ body :: nodes) after := by
  rintro p n front comment back rfl hgap _ hadmits
  obtain ⟨hinner, hdangles, htakes'⟩ := htakes.fill hgap ⟨_, _, rfl⟩ hadmits
  have hbehind := hbody.suffix.trans hinner
  have houter := (List.suffix_cons close outer).trans hbehind
  refine ⟨hrest.suffix.trans houter, hdangles, ?_⟩
  rw [Retouch.nodes, Head.node_move, ← hgap.carries close (hbehind.subset List.mem_cons_self)]
  exact .block (startsNode_filled p n comment hadmits.ne_nil hstarts) htakes'
    (hbody.move_behind hgap hinner) hclose (hrest.move_behind hgap houter)

theorem cons_filler {c : Located} (hfill : IsFiller c)
    (h : Fillable size node lead cs nodes after) :
    Fillable size node (c :: lead) cs nodes after := by
  rintro p n front comment back rfl hgap hcarries hadmits
  obtain ⟨hafter, hdangles, hbuilds⟩ := h rfl (@Gap.suffix _ _ _ _ _ _ [c] hgap)
    (fun d hd => hcarries d (List.mem_cons_of_mem _ hd)) hadmits
  refine ⟨hafter, ?_, .filler hfill hbuilds⟩
  have hescape : c.char ≠ '\\' := by
    rcases hfill with hfill | hfill
    · rintro hc
      rw [hc] at hfill
      exact absurd hfill (by decide)
    · simp [hfill]
  rw [List.cons_append, Lexeme.dangles_cons hescape, hdangles]

/-- Text that stands before a text of which the end is known. -/
theorem dangles_behind {taken xs : List Located} (hjoin : Lexeme.Joins taken (xs ++ back))
    (hne : xs ≠ []) (h : Lexeme.dangles xs = false) : Lexeme.dangles (taken ++ xs) = false := by
  have hjoin' : Lexeme.Joins taken xs := by
    intro hhead
    exact hjoin (by rwa [Located.headChar_append_of_ne_nil hne])
  rw [hjoin'.dangles_append hne, h]

/-- The node stands behind one without a block. -/
theorem cons_leaf {taken : List Located} {other : Node}
    (hstarts : StartsNode (taken ++ (lead ++ cs)))
    (htakes : Takes size (taken ++ (lead ++ cs)) (.leaf other) (lead ++ cs))
    (h : Fillable size node lead cs nodes after) :
    Fillable size node (taken ++ lead) cs (other :: nodes) after := by
  rintro p n front comment back rfl hgap hcarries hadmits
  rw [List.append_assoc] at hgap ⊢
  obtain ⟨hafter, hdangles, hbuilds⟩ := h rfl hgap.suffix
    (fun d hd => hcarries d (List.mem_append_right _ hd)) hadmits
  have hne : lead ++ front ≠ [] := List.append_ne_nil_of_right_ne_nil _ hadmits.ne_nil
  rw [← List.append_assoc lead] at htakes hstarts
  have htakes' := htakes.carry hgap hne hdangles fun d hd => hcarries d (List.mem_append_left _ hd)
  refine ⟨hafter, dangles_behind htakes.joins hne hdangles, ?_⟩
  rw [filled_append]
  exact .leaf (startsNode_carry p n comment hne hstarts) htakes' hbuilds

/-- The node stands in the block of the first one. -/
theorem in_body {taken outer : List Located} {close : Located} {start brace : Nat} {head : Head}
    {body : List Node} (hstarts : StartsNode (taken ++ (lead ++ cs)))
    (htakes : Takes size (taken ++ (lead ++ cs)) (.opens start brace head) (lead ++ cs))
    (hclose : close.char = '}') (hrest : Builds size outer nodes after)
    (h : Fillable size node lead cs body (close :: outer)) :
    Fillable size node (taken ++ lead) cs (head.node ⟨start, close.stop⟩ body :: nodes) after := by
  rintro p n front comment back rfl hgap hcarries hadmits
  rw [List.append_assoc] at hgap ⊢
  obtain ⟨hbehind, hdangles, hbuilds⟩ := h rfl hgap.suffix
    (fun d hd => hcarries d (List.mem_append_right _ hd)) hadmits
  have houter := (List.suffix_cons close outer).trans hbehind
  have hne : lead ++ front ≠ [] := List.append_ne_nil_of_right_ne_nil _ hadmits.ne_nil
  rw [← List.append_assoc lead] at htakes hstarts
  have htakes' := htakes.carry hgap hne hdangles fun d hd => hcarries d (List.mem_append_left _ hd)
  refine ⟨hrest.suffix.trans houter, dangles_behind htakes.joins hne hdangles, ?_⟩
  rw [filled_append, Retouch.nodes, Head.node_move,
    ← hgap.carries close (hbehind.subset List.mem_cons_self)]
  exact .block (startsNode_carry p n comment hne hstarts) htakes' hbuilds hclose
    (hrest.move_behind hgap houter)

/-- The node stands behind one with a block. -/
theorem cons_block {taken inside : List Located} {close : Located} {start brace : Nat} {head : Head}
    {body : List Node} (hstarts : StartsNode (taken ++ (inside ++ close :: (lead ++ cs))))
    (htakes : Takes size (taken ++ (inside ++ close :: (lead ++ cs))) (.opens start brace head)
      (inside ++ close :: (lead ++ cs)))
    (hbody : Builds size (inside ++ close :: (lead ++ cs)) body (close :: (lead ++ cs)))
    (hclose : close.char = '}') (h : Fillable size node lead cs nodes after) :
    Fillable size node (taken ++ (inside ++ close :: lead)) cs
      (head.node ⟨start, close.stop⟩ body :: nodes) after := by
  rintro p n front comment back rfl hgap hcarries hadmits
  have hassoc : ∀ ys, taken ++ (inside ++ close :: lead) ++ ys =
      taken ++ (inside ++ close :: (lead ++ ys)) := by simp
  rw [hassoc] at hgap ⊢
  have hinside : Gap size p n (inside ++ close :: (lead ++ front)) comment back := hgap.suffix
  have hbrace : Gap size p n (close :: (lead ++ front)) comment back := hinside.suffix
  obtain ⟨hafter, hdangles, hbuilds⟩ := h rfl (@Gap.suffix _ _ _ _ _ _ [close] hbrace)
    (fun d hd => hcarries d (by simp [hd])) hadmits
  have hclosed : Lexeme.dangles (close :: (lead ++ front)) = false := by
    rw [Lexeme.dangles_cons (by simp [hclose]), hdangles]
  have hjoin : Lexeme.Joins inside (close :: (lead ++ front)) :=
    Lexeme.joins_of_head (by simp [hclose])
  have hblock : Lexeme.dangles (inside ++ close :: (lead ++ front)) = false := by
    rw [hjoin.dangles_append (by simp), hclosed]
  have hsplit : close :: (lead ++ (front ++ back)) = (close :: (lead ++ front)) ++ back := by simp
  rw [hsplit] at htakes hstarts hbody
  have hbody' := hbody.carry hinside (by simp) hclosed fun d hd => hcarries d (by simp [hd])
  rw [← List.append_assoc inside] at htakes hstarts
  have hstarts' := startsNode_carry p n comment (by simp) hstarts
  have htakes' := htakes.carry hgap (by simp) hblock fun d hd => hcarries d (by simp [hd])
  refine ⟨hafter, dangles_behind htakes.joins (by simp) hblock, ?_⟩
  have hstop : shift p n close.stop = close.stop := by
    rw [← hcarries close (by simp), Located.stop, Located.offset_move, Located.char_move,
      shift_of_lt n (hbrace.lt close List.mem_cons_self), Located.stop]
  rw [filled_append, Retouch.nodes, Head.node_move, hstop]
  rw [filled_append] at htakes' hstarts' ⊢
  exact .block hstarts' htakes' hbody' hclose hbuilds

end Fillable

/-- A comment can be put into every node of a text that is read to its end. -/
theorem Builds.fill {cs after : List Located} {nodes : List Node} {node : Node}
    (h : Builds size cs nodes after) (hoccurs : node.Occurs nodes) :
    ∃ lead ds, cs = lead ++ ds ∧ Located.startOf size ds = node.span.start ∧
      Fillable size node lead ds nodes after := by
  induction h with
  | finish | close => exact absurd hoccurs node.not_occurs_nil
  | @filler c rest after nodes hfill _ ih =>
    obtain ⟨lead, ds, rfl, hstart, hfillable⟩ := ih hoccurs
    exact ⟨c :: lead, ds, rfl, hstart, hfillable.cons_filler hfill⟩
  | @leaf cs next after other nodes hstarts htakes hrest ih =>
    rcases Node.occurs_cons.1 hoccurs with rfl | hbody | hlater
    · exact ⟨[], cs, rfl, htakes.start_eq rfl, Fillable.of_leaf hstarts htakes hrest⟩
    · rw [htakes.body?_leaf] at hbody
      exact absurd hbody node.not_occurs_nil
    · obtain ⟨lead, ds, rfl, hstart, hfillable⟩ := ih hlater
      obtain ⟨taken, rfl⟩ := htakes.suffix
      exact ⟨taken ++ lead, ds, by simp, hstart, hfillable.cons_leaf hstarts htakes⟩
  | @block close cs inner outer after start brace head body nodes hstarts htakes hinner hclose hrest
      ihbody ih =>
    obtain ⟨taken, rfl⟩ := htakes.suffix
    rcases Node.occurs_cons.1 hoccurs with rfl | hbody | hlater
    · exact ⟨[], _, rfl, htakes.start_eq ⟨_, _, rfl⟩,
        Fillable.of_block hstarts htakes hinner hclose hrest⟩
    · obtain ⟨lead, ds, rfl, hstart, hfillable⟩ := ihbody (by simpa using hbody)
      exact ⟨taken ++ lead, ds, by simp, hstart,
        hfillable.in_body hstarts htakes hclose hrest⟩
    · obtain ⟨lead, ds, rfl, hstart, hfillable⟩ := ih hlater
      obtain ⟨inside, rfl⟩ := hinner.suffix
      exact ⟨taken ++ (inside ++ close :: lead), ds, by simp, hstart,
        hfillable.cons_block hstarts htakes hinner hclose⟩

end Event

end SheetPolicy

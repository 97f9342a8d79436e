import Mathlib
import SheetPolicy.Proofs.Takes

/-!
What follows a statement. A statement is read in the same way if another text stands in for what
follows it, as long as that text starts with the same character and closes every string and comment
that the first one closes (`Event.Takes.replace`, `Event.Builds.replace`). The second condition is
there because the texts of a statement are cleaned one by one: a string or comment that starts in one
of them counts as read to its own end, wherever that is.
-/

namespace SheetPolicy

theorem Located.startOf_append_congr {size size' : Nat} {tail tail' : List Located}
    (h : Located.startOf size' tail' = Located.startOf size tail) (xs : List Located) :
    Located.startOf size' (xs ++ tail') = Located.startOf size (xs ++ tail) := by
  rw [Located.startOf_append, Located.startOf_append, h]

namespace Lexeme

/-- The text does not start with a backslash that another one takes along. -/
def Joins (xs tail : List Located) : Prop :=
  Located.headChar tail = some '\\' → ∀ c, xs.getLast? = some c → c.char ≠ '\\'

theorem joins_of_head {xs tail : List Located} (h : Located.headChar tail ≠ some '\\') :
    Joins xs tail :=
  fun hhead => absurd hhead h

theorem joins_of_free {xs tail : List Located} (h : ∀ c ∈ xs, c.char ≠ '\\') : Joins xs tail :=
  fun _ c hc => h c (List.mem_of_getLast? hc)

theorem Joins.suffix {xs ys tail : List Located} (h : Joins ys tail) (hs : xs <:+ ys) :
    Joins xs tail := by
  intro hhead c hc
  obtain ⟨front, rfl⟩ := hs
  exact h hhead c (by rw [List.getLast?_append, hc]; rfl)

/-- Text in front makes no difference to how the two join, unless there was none. -/
theorem Joins.append {xs ys tail : List Located} (h : Joins ys tail) (hxs : Joins xs (ys ++ tail)) :
    Joins (xs ++ ys) tail := by
  intro hhead c hc
  rcases List.eq_nil_or_concat' ys with rfl | ⟨front, d, rfl⟩
  · exact hxs hhead c (by simpa using hc)
  · rw [← List.append_assoc, List.getLast?_concat, Option.some_inj] at hc
    exact h hhead c (by rw [List.getLast?_concat, hc])

/-- The second text can stand in for the first one behind a statement. -/
structure StandsIn (tail tail' : List Located) : Prop where
  head : Located.headChar tail' = Located.headChar tail
  string : ∀ quote, quote = '"' ∨ quote = '\'' → ∀ xs, Joins xs tail →
    (closeString quote (xs ++ tail)).isSome = true → (closeString quote (xs ++ tail')).isSome = true
  comment : ∀ xs, (closeComment (xs ++ tail)).isSome = true →
    (closeComment (xs ++ tail')).isSome = true

theorem StandsIn.append {tail tail' : List Located} (h : StandsIn tail tail') (front : List Located)
    (hjoin : Joins front tail) : StandsIn (front ++ tail) (front ++ tail') where
  head := Located.headChar_append_congr h.head front
  string quote hquote xs hxs := by
    simpa using h.string quote hquote (xs ++ front) (hjoin.append hxs)
  comment xs := by simpa using h.comment (xs ++ front)

theorem closeString_local {quote : Char} (hquote : quote ≠ '\\') {cs body after : List Located}
    (h : closeString quote cs = some (body, after)) (other : List Located) :
    closeString quote (body ++ other) = some (body, other) := by
  obtain ⟨inner, hinner, hbody⟩ := closeString_sound h
  exact closeString_complete hquote hbody hinner other

theorem closeComment_local {cs body after : List Located}
    (h : closeComment cs = some (body, after)) (other : List Located) :
    closeComment (body ++ other) = some (body, other) := by
  obtain ⟨inner, hinner, hfree⟩ := closeComment_chars h
  exact closeComment_complete hfree hinner other

/-- What closes in the tail closes in the text that stands in for it. -/
theorem close_beyond {close : List Located → Option (List Located × List Located)}
    (happend : ∀ {cs body after}, close cs = some (body, after) → body ++ after = cs)
    (hlocal : ∀ {cs body after}, close cs = some (body, after) → ∀ other,
      close (body ++ other) = some (body, other))
    {xs more rest tail' : List Located} (hmore : more ≠ [])
    (h : close (xs ++ (more ++ rest)) = some (xs ++ more, rest))
    (hsome : (close (xs ++ tail')).isSome = true) :
    ∃ more' rest', tail' = more' ++ rest' ∧ close (xs ++ tail') = some (xs ++ more', rest') := by
  obtain ⟨⟨body, after⟩, hclose⟩ := Option.isSome_iff_exists.1 hsome
  rcases List.append_eq_append_iff.1 (happend hclose) with ⟨ys, rfl, rfl⟩ | ⟨ys, rfl, rfl⟩
  · -- What closes before the tail does so whatever the tail is.
    have hearly := hlocal hclose (ys ++ (more ++ rest))
    rw [← List.append_assoc, h] at hearly
    obtain ⟨hbody, _⟩ := by simpa using hearly
    exact absurd hbody.2 hmore
  · exact ⟨ys, after, rfl, hclose⟩

/-- A unit that reaches into the tail reaches into the text that stands in for it. -/
theorem IsUnit.beyond {kind : Kind} {c : Located} {xs more rest tail' : List Located}
    (hunit : IsUnit kind ((c :: (xs ++ more)).map Located.char) (Located.headChar rest))
    (hmore : more ≠ []) (hstar : Located.headChar (more ++ rest) ≠ some '*')
    (hjoin : Joins xs (more ++ rest)) (h : StandsIn (more ++ rest) tail') :
    ∃ more' rest', tail' = more' ++ rest' ∧
      IsUnit kind ((c :: (xs ++ more')).map Located.char) (Located.headChar rest') := by
  cases kind with
  | plain =>
    obtain ⟨x, hx, _⟩ := hunit
    exact absurd (by simpa using (List.cons.inj hx).2) (fun h : xs = [] ∧ more = [] => hmore h.2)
  | escape =>
    -- Only the escaped character can be in the tail.
    obtain ⟨d, hd⟩ : ∃ d, xs ++ more = [d] := by
      rcases hunit with ⟨x, hx⟩ | ⟨hx, _⟩
      · obtain ⟨d, hd, _⟩ := List.map_eq_singleton_iff.1 (List.cons.inj hx).2
        exact ⟨d, hd⟩
      · exact absurd (by simpa using (List.cons.inj hx).2) (fun h : xs = [] ∧ more = [] => hmore h.2)
    obtain ⟨rfl, rfl⟩ : xs = [] ∧ more = [d] := by
      cases xs with
      | nil => exact ⟨rfl, hd⟩
      | cons x xs => simp_all
    obtain ⟨d', rest', rfl⟩ : ∃ d' rest', tail' = d' :: rest' := by
      cases tail' with
      | nil => simpa using h.head
      | cons d' rest' => exact ⟨d', rest', rfl⟩
    have hc : c.char = '\\' := by
      rcases hunit with ⟨x, hx⟩ | ⟨hx, _⟩ <;> simp at hx
      exact hx.1
    exact ⟨[d'], rest', rfl, .inl ⟨d'.char, by simp [hc]⟩⟩
  | quoted =>
    obtain ⟨quote, inner, hquote, hinner, hx⟩ := hunit
    obtain ⟨rfl, hbody⟩ := List.cons.inj hx
    have hescape : c.char ≠ '\\' := by
      rcases hquote with hq | hq <;> rw [hq] <;> decide
    have hclose := closeString_complete hescape hinner hbody rest
    rw [List.append_assoc] at hclose
    obtain ⟨more', rest', rfl, hclose'⟩ := close_beyond closeString_append
      (closeString_local hescape) hmore hclose (h.string c.char hquote xs hjoin (by simp [hclose]))
    obtain ⟨inner', hinner', hbody'⟩ := closeString_sound hclose'
    exact ⟨more', rest', rfl, c.char, inner', hquote, hbody', by simp [hinner']⟩
  | comment =>
    obtain ⟨inner, hx, hfree⟩ := hunit
    obtain ⟨hc, hbody⟩ := List.cons.inj hx
    cases xs with
    | nil =>
      rw [List.nil_append] at hbody
      cases more with
      | nil => exact absurd rfl hmore
      | cons d more => exact absurd (by simpa using (List.cons.inj hbody).1) hstar
    | cons star xs =>
      rw [List.cons_append, List.map_cons] at hbody
      obtain ⟨hstarChar, hbody⟩ := List.cons.inj hbody
      have hclose := closeComment_complete hfree hbody rest
      rw [List.append_assoc] at hclose
      obtain ⟨more', rest', rfl, hclose'⟩ := close_beyond closeComment_append closeComment_local
        hmore hclose (h.comment xs (by simp [hclose]))
      obtain ⟨inner', hinner', hfree'⟩ := closeComment_chars hclose'
      exact ⟨more', rest', rfl, inner', by simp [hc, hstarChar, ← hinner'], hfree'⟩

end Lexeme

/-! ## The end of a statement and what is kept of it -/

namespace Prelude

theorem Skips.suffix {depth : Nat} {cs stop : List Located} (h : Skips depth cs stop) :
    stop <:+ cs :=
  skip_suffix (skip_eq_ok_iff.2 h)

/-- An interpolation that ends before `stop` ends at its first closing brace. -/
theorem afterInterpolation_append {xs stop : List Located} (hstop : stop ≠ [])
    (h : stop <:+ afterInterpolation (xs ++ stop)) :
    ∃ ys, ∀ other, afterInterpolation (xs ++ other) = ys ++ other := by
  by_cases hbrace : ∀ c ∈ xs, c.char ≠ '}'
  · -- Otherwise what follows the interpolation would be less than `stop`.
    have hlength := h.length_le
    rw [afterInterpolation, List.dropWhile_append_of_pos (by simpa using hbrace)] at hlength
    have hdrop := (List.dropWhile_suffix (l := stop) fun c => decide (c.char ≠ '}')).length_le
    have := List.length_pos_of_ne_nil hstop
    rw [List.length_tail] at hlength
    omega
  · push Not at hbrace
    obtain ⟨c, hc, hchar⟩ := hbrace
    obtain ⟨brace, hfind⟩ : ∃ brace, xs.find? (fun c => c.char = '}') = some brace := by
      rw [← Option.isSome_iff_exists, List.find?_isSome]
      exact ⟨c, hc, by simpa using hchar⟩
    obtain ⟨hbrace, front, ys, rfl, hfront⟩ := List.find?_eq_some_iff_append.1 hfind
    refine ⟨ys, fun other => ?_⟩
    rw [afterInterpolation, List.append_assoc,
      List.dropWhile_append_of_pos (by simpa using hfront), List.cons_append,
      List.dropWhile_cons_of_neg (by simpa using hbrace), List.tail_cons]

/-- The end of a statement is where it is whatever stands after its first character. -/
theorem Skips.replace {depth : Nat} {xs stop stop' : List Located}
    (h : Skips depth (xs ++ stop) stop)
    (hhead : Located.headChar stop' = Located.headChar stop) : Skips depth (xs ++ stop') stop' := by
  by_cases hne : stop = []
  · subst hne
    obtain rfl : stop' = [] := by simpa [Located.headChar] using hhead
    exact h
  · generalize hcs : xs ++ stop = cs at h
    induction h generalizing xs with
    | finish => exact absurd rfl hne
    | @terminator c rest hterm =>
      obtain rfl : xs = [] := by simpa using hcs
      cases stop' with
      | nil => simp at hhead
      | cons c' rest' =>
        rw [Located.headChar_cons, Located.headChar_cons, Option.some_inj] at hhead
        exact .terminator (hhead ▸ hterm)
    | @interpolation depth c rest stop hend hinter hrest ih =>
      cases xs with
      | nil =>
        have := (hrest.suffix.length_le).trans (length_afterInterpolation rest)
        simp [show stop = c :: rest from hcs] at this
      | cons x xs =>
        obtain ⟨rfl, rfl⟩ := by simpa using hcs
        obtain ⟨ys, hys⟩ := afterInterpolation_append hne hrest.suffix
        rw [List.cons_append]
        refine .interpolation hend ?_ ?_
        · rwa [opensInterpolation_congr (Located.headChar_append_congr hhead xs)]
        · rw [hys]
          exact ih hhead hne (hys stop).symm
    | @unit depth kind c body rest stop hend hinter hunit hrest ih =>
      obtain ⟨ys, rfl⟩ := hrest.suffix
      obtain rfl : xs = c :: (body ++ ys) := by
        have : xs ++ stop = (c :: (body ++ ys)) ++ stop := by simp [hcs]
        exact List.append_cancel_right this
      have hys := Located.headChar_append_congr hhead ys
      rw [List.cons_append, List.append_assoc]
      refine .unit hend ?_ (hys ▸ hunit) (ih hhead hne rfl)
      rwa [opensInterpolation_congr (Located.headChar_append_congr hys body)]

end Prelude

namespace Excerpt

theorem retains_of_past {stop : Nat} {cs : List Located} (h : ∀ c ∈ cs, stop ≤ c.offset) :
    Retains stop cs [] := by
  cases cs with
  | nil => exact .nil
  | cons c rest => exact .past (h c List.mem_cons_self)

theorem Retains.unique {stop : Nat} {cs kept kept' : List Located} (h : Retains stop cs kept)
    (h' : Retains stop cs kept') : kept = kept' := by
  have := (keep_eq_ok_iff.2 h).symm.trans (keep_eq_ok_iff.2 h')
  simpa using this

/-- Nothing is kept of the part of a unit that is past `stop`. -/
theorem filter_kept_append {stop : Nat} {kind : Lexeme.Kind} {xs more : List Located}
    (h : ∀ c ∈ more, stop ≤ c.offset) :
    ((⟨kind, xs ++ more⟩ : Lexeme).kept.filter fun d => d.offset < stop) =
      (⟨kind, xs⟩ : Lexeme).kept.filter fun d => d.offset < stop := by
  unfold Lexeme.kept
  split
  · rfl
  · have hnone : (more.filter fun d => d.offset < stop) = [] :=
      List.filter_eq_nil_iff.2 (by simpa using h)
    rw [List.filter_append, hnone, List.append_nil]

/-- What is kept up to `stop` is the same whatever stands from there on. -/
theorem Retains.replace {stop : Nat} {xs tail tail' kept : List Located}
    (h : Retains stop (xs ++ tail) kept) (hs : Lexeme.StandsIn tail tail')
    (hstar : Located.headChar tail ≠ some '*') (hjoin : Lexeme.Joins xs tail)
    (hpast : ∀ c ∈ tail, stop ≤ c.offset)
    (hpast' : ∀ c ∈ tail', stop ≤ c.offset) : Retains stop (xs ++ tail') kept := by
  generalize hcs : xs ++ tail = cs at h
  induction h generalizing xs with
  | nil =>
    obtain ⟨rfl, rfl⟩ := by simpa using hcs
    exact retains_of_past hpast'
  | @past c rest hc =>
    cases xs with
    | nil => exact retains_of_past hpast'
    | cons x xs =>
      obtain ⟨rfl, _⟩ := by simpa using hcs
      exact .past hc
  | @unit kind c body rest kept hlt hunit hrest ih =>
    cases xs with
    | nil =>
      have := hpast c (by simp [show tail = c :: (body ++ rest) from hcs])
      omega
    | cons x xs =>
      obtain ⟨rfl, hsplit⟩ := List.cons.inj hcs
      rcases List.append_eq_append_iff.1 hsplit with ⟨more, rfl, rfl⟩ | ⟨ys, rfl, rfl⟩
      · by_cases hmore : more = []
        · subst hmore
          simp only [List.append_nil, List.nil_append] at hunit hs ih ⊢
          exact .unit hlt (hs.head ▸ hunit) (@ih [] (by simp [Lexeme.Joins]) rfl)
        · -- The unit reaches past `stop`, so what is kept of it stands before the tail.
          obtain ⟨more', rest', rfl, hunit'⟩ := hunit.beyond hmore hstar
            (hjoin.suffix (List.suffix_cons _ _)) hs
          have hkept := (retains_of_past fun d hd => hpast d (List.mem_append_right _ hd)).unique hrest
          have hrest' := retains_of_past fun d hd => hpast' d (List.mem_append_right _ hd)
          rw [← hkept, ← List.cons_append,
            filter_kept_append fun d hd => hpast d (List.mem_append_left _ hd),
            ← filter_kept_append fun d hd => hpast' d (List.mem_append_left _ hd), List.cons_append,
            List.cons_append, ← List.append_assoc]
          exact .unit hlt hunit' hrest'
      · rw [List.cons_append, List.append_assoc]
        have hys := Located.headChar_append_congr hs.head ys
        exact .unit hlt (hys ▸ hunit) (ih (hjoin.suffix ⟨x :: body, rfl⟩) rfl)

theorem cut_replace {stop : Nat} {xs tail tail' : List Located} {e : Excerpt}
    (h : cut (xs ++ tail) stop = .ok e) (hs : Lexeme.StandsIn tail tail')
    (hstar : Located.headChar tail ≠ some '*') (hjoin : Lexeme.Joins xs tail)
    (hpast : ∀ c ∈ tail, stop ≤ c.offset)
    (hpast' : ∀ c ∈ tail', stop ≤ c.offset) : cut (xs ++ tail') stop = .ok e := by
  rw [cut] at h ⊢
  cases hkeep : keep stop (xs ++ tail) with
  | error err => simp [hkeep, Except.map] at h
  | ok kept =>
    rw [keep_eq_ok_iff.2 ((keep_eq_ok_iff.1 hkeep).replace hs hstar hjoin hpast hpast'), ← h, hkeep]

end Excerpt

/-! ## Statements and blocks -/

namespace Event

variable {size size' : Nat} {e : Event}

/-- An at-rule takes what ends it or leaves it, and goes by no more than that. -/
theorem atRuleEnd_replace {start : Nat} {name : String} {params : Excerpt}
    {stop next next' : List Located} (h : atRuleEnd size start name params stop = (e, next))
    (hhead : Located.headChar next' = Located.headChar next)
    (hstart : Located.startOf size' next' = Located.startOf size next) :
    ∃ mark, stop = mark ++ next ∧ (∀ c ∈ mark, c.char ≠ '\\') ∧
      atRuleEnd size' start name params (mark ++ next') = (e, next') := by
  cases stop with
  | nil =>
    obtain ⟨rfl, rfl⟩ := by simpa [atRuleEnd] using h
    obtain rfl : next' = [] := by simpa [Located.headChar] using hhead
    obtain rfl : size' = size := by simpa using hstart
    exact ⟨[], rfl, by simp, rfl⟩
  | cons t after =>
    rw [atRuleEnd] at h
    split at h
    · next ht =>
      obtain ⟨rfl, rfl⟩ := by simpa using h
      exact ⟨[t], rfl, by simp [ht], by simp [atRuleEnd, ht]⟩
    · next ht =>
      split at h
      · next hsemi =>
        obtain ⟨rfl, rfl⟩ := by simpa using h
        exact ⟨[t], rfl, by simp [hsemi], by simp [atRuleEnd, hsemi]⟩
      · next hsemi =>
        obtain ⟨rfl, rfl⟩ := by simpa using h
        cases next' with
        | nil => simp at hhead
        | cons t' after' =>
          have hchar : t'.char = t.char := by simpa using hhead
          have hoffset : t'.offset = t.offset := by simpa using hstart
          exact ⟨[], rfl, by simp, by simp [atRuleEnd, hchar, hoffset, ht, hsemi]⟩

theorem afterSemicolon_replace {stop next' : List Located}
    (hhead : Located.headChar next' = Located.headChar (afterSemicolon stop)) :
    ∃ mark, stop = mark ++ afterSemicolon stop ∧ (∀ c ∈ mark, c.char ≠ '\\') ∧
      afterSemicolon (mark ++ next') = next' := by
  cases stop with
  | nil =>
    obtain rfl : next' = [] := by simpa [Located.headChar, afterSemicolon] using hhead
    exact ⟨[], rfl, by simp, rfl⟩
  | cons t after =>
    rw [afterSemicolon] at hhead ⊢
    split at hhead
    · next ht => exact ⟨[t], by simp [ht], by simp [ht], by simp [afterSemicolon, ht]⟩
    · next ht =>
      cases next' with
      | nil => simp at hhead
      | cons t' after' =>
        have hchar : t'.char = t.char := by simpa using hhead
        exact ⟨[], by simp [ht], by simp, by simp [afterSemicolon, hchar, ht]⟩

theorem startsStatement_congr {xs tail tail' : List Located}
    (hhead : Located.headChar tail' = Located.headChar tail) (hne : xs ≠ [])
    (h : StartsStatement (xs ++ tail)) : StartsStatement (xs ++ tail') := by
  cases xs with
  | nil => exact absurd rfl hne
  | cons x xs =>
    rw [List.cons_append] at h ⊢
    refine ⟨h.1, ?_⟩
    rw [Located.headChar_append_congr hhead xs]
    exact h.2

section Replacement

variable {taken tail tail' : List Located}

theorem Divides.replace {before after gap : List Located} {colon : Located} {prop value : Excerpt}
    (h : Divides size taken tail before colon after gap prop value)
    (hs : Lexeme.StandsIn tail tail')
    (hstart : Located.startOf size' tail' = Located.startOf size tail)
    (hstar : Located.headChar tail ≠ some '*') (hjoin : Located.headChar tail ≠ some '\\')
    (hrising : Located.Rising size (taken ++ tail))
    (hrising' : Located.Rising size' (taken ++ tail')) :
    Divides size' taken tail' before colon after gap prop value where
  taken_eq := h.taken_eq
  colon_char := h.colon_char
  before_free := h.before_free
  gap_blank := h.gap_blank
  tight := h.tight
  prop_cut := by
    have hcolon : colon ∈ taken := by simp [h.taken_eq]
    refine Excerpt.cut_replace h.prop_cut hs hstar (Lexeme.joins_of_head hjoin) ?_ ?_
    · intro c hc
      exact (hrising.lt_startOf hcolon).le.trans (hrising.right.startOf_le hc)
    · intro c hc
      exact (hrising'.lt_startOf hcolon).le.trans (hrising'.right.startOf_le hc)
  value_cut := by
    have hgap := Located.startOf_append_congr hstart gap
    have hend : ∀ other, taken ++ other = (before ++ colon :: after) ++ (gap ++ other) := by
      simp [h.taken_eq]
    rw [hend] at hrising hrising'
    have hcut := h.value_cut
    rw [← List.append_assoc] at hcut
    rw [← List.append_assoc, hgap]
    refine Excerpt.cut_replace hcut hs hstar (Lexeme.joins_of_head hjoin) ?_ ?_
    · intro c hc
      exact hrising.right.startOf_le (List.mem_append_right _ hc)
    · intro c hc
      rw [← hgap]
      exact hrising'.right.startOf_le (List.mem_append_right _ hc)

/-- What stands before the end of a statement is cut out in the same way. -/
theorem cut_stop_replace {text stop stop' : List Located} {params : Excerpt}
    (hstop : Prelude.skip 0 (text ++ stop) = .ok stop)
    (hparams : Excerpt.cut (text ++ stop) (Located.startOf size stop) = .ok params)
    (hs : Lexeme.StandsIn stop stop')
    (hstart : Located.startOf size' stop' = Located.startOf size stop)
    (hrising : Located.Rising size stop) (hrising' : Located.Rising size' stop') :
    Prelude.skip 0 (text ++ stop') = .ok stop' ∧
      Excerpt.cut (text ++ stop') (Located.startOf size' stop') = .ok params := by
  refine ⟨Prelude.skip_eq_ok_iff.2 ((Prelude.skip_eq_ok_iff.1 hstop).replace hs.head), ?_⟩
  rw [hstart]
  refine Excerpt.cut_replace hparams hs (headChar_skip hstop rfl)
    (Lexeme.joins_of_head (headChar_skip hstop rfl)) (fun c hc => hrising.startOf_le hc) ?_
  intro c hc
  rw [← hstart]
  exact hrising'.startOf_le hc

/-- What follows a statement starts with no backslash that the statement would take along. -/
theorem Takes.joins (h : Takes size (taken ++ tail) e tail) : Lexeme.Joins taken tail := by
  generalize hcs : taken ++ tail = cs at h
  -- The end of the text is followed by a terminator, and only that is taken along with it.
  have hend : ∀ {text stop mark : List Located}, Prelude.skip 0 (text ++ stop) = .ok stop →
      stop = mark ++ tail → (∀ c ∈ mark, c.char ≠ '\\') → Lexeme.Joins (text ++ mark) tail := by
    rintro text stop mark hstop rfl hmark
    exact (Lexeme.joins_of_free hmark).append (Lexeme.joins_of_head (headChar_skip hstop rfl))
  cases h with
  | @comment c star body _ hc hstar hclose =>
    obtain rfl : taken = c :: star :: body :=
      List.append_cancel_right (hcs.trans (by simp) : _ = (c :: star :: body) ++ tail)
    obtain ⟨inner, hinner, _⟩ := Lexeme.closeComment_chars hclose
    intro _ d hd
    have hlast : ((c :: star :: body).map Located.char).getLast? = some d.char := by
      rw [List.getLast?_map, hd]
      rfl
    have hd : '/' = d.char := by simpa [hinner, List.getLast?_cons] using hlast
    rw [← hd]
    decide
  | @atRule c name text stop _ params _ hc hname hhead hstop hparams hatEnd =>
    obtain ⟨mark, rfl, hmark, _⟩ := atRuleEnd_replace hatEnd rfl rfl
    obtain rfl : taken = c :: (name ++ (text ++ mark)) :=
      List.append_cancel_right (hcs.trans (by simp) : _ = (c :: (name ++ (text ++ mark))) ++ tail)
    have hname : ∀ d ∈ c :: name, d.char ≠ '\\' := by
      intro d hd
      rcases List.mem_cons.1 hd with rfl | hd
      · simp [hc]
      · intro hescape
        have := hname d hd
        rw [hescape] at this
        exact absurd this (by decide)
    exact @Lexeme.Joins.append (c :: name) (text ++ mark) tail (hend hstop rfl hmark)
      (Lexeme.joins_of_free hname)
  | @rule text _ t selector hstarts ht hstop hselector =>
    obtain rfl : taken = text ++ [t] :=
      List.append_cancel_right (hcs.trans (by simp) : _ = (text ++ [t]) ++ tail)
    exact hend hstop rfl (by simp [ht])
  | @declaration text stop before after gap colon prop value hstarts hopen hstop hdivides =>
    obtain ⟨mark, hsplit, hmark, _⟩ := @afterSemicolon_replace stop _ rfl
    generalize afterSemicolon stop = tail at *
    obtain rfl : taken = text ++ mark := by
      refine List.append_cancel_right (hcs.trans ?_ : _ = (text ++ mark) ++ tail)
      rw [hsplit, List.append_assoc]
    exact hend hstop hsplit hmark

/-- An at-rule has the same parameters before a text that stands in for its end. -/
theorem Takes.atRule_replace {c : Located} {name text stop stop' next : List Located}
    {params : Excerpt} (hc : c.char = '@') (hname : ∀ d ∈ name, isNameChar d.char = true)
    (hhead : ∀ x, Located.headChar (text ++ stop) = some x → isNameChar x = false)
    (hstop : Prelude.skip 0 (text ++ stop) = .ok stop)
    (hparams : Excerpt.cut (text ++ stop) (Located.startOf size stop) = .ok params)
    (hs : Lexeme.StandsIn stop stop')
    (hstart : Located.startOf size' stop' = Located.startOf size stop)
    (hrising : Located.Rising size (c :: (name ++ (text ++ stop))))
    (hrising' : Located.Rising size' (c :: (name ++ (text ++ stop'))))
    (hend : atRuleEnd size' c.offset (Located.text name) params stop' = (e, next)) :
    Takes size' (c :: (name ++ (text ++ stop'))) e next := by
  have hfollows : ∀ other : List Located, other <:+ c :: (name ++ (text ++ other)) :=
    fun other => ⟨c :: (name ++ text), by simp⟩
  obtain ⟨hstop', hparams'⟩ := cut_stop_replace hstop hparams hs hstart
    (hrising.suffix (hfollows stop)) (hrising'.suffix (hfollows stop'))
  refine .atRule hc hname ?_ hstop' hparams' hend
  rwa [Located.headChar_append_congr hs.head]

/-- A declaration is divided in the same way before a text that stands in for its end. -/
theorem Takes.declaration_replace {text stop stop' before after gap : List Located}
    {colon : Located} {prop value : Excerpt} (hstarts : StartsStatement (text ++ stop))
    (hopen : Located.headChar stop ≠ some '{') (hstop : Prelude.skip 0 (text ++ stop) = .ok stop)
    (hdivides : Divides size text stop before colon after gap prop value)
    (hs : Lexeme.StandsIn stop stop')
    (hstart : Located.startOf size' stop' = Located.startOf size stop)
    (hrising : Located.Rising size (text ++ stop))
    (hrising' : Located.Rising size' (text ++ stop')) :
    Takes size' (text ++ stop')
      (.leaf (.declaration ⟨⟨Located.startOf size (text ++ stop),
        Located.startOf size (gap ++ stop)⟩, prop.text, value.splitImportant.1,
        value.splitImportant.2⟩)) (afterSemicolon stop') := by
  have hstarts' : StartsStatement (text ++ stop') :=
    startsStatement_congr hs.head (by simp [hdivides.taken_eq]) hstarts
  have hstop' := Prelude.skip_eq_ok_iff.2 ((Prelude.skip_eq_ok_iff.1 hstop).replace hs.head)
  have hdivides' := hdivides.replace hs hstart (headChar_skip hstop rfl) (headChar_skip hstop rfl)
    hrising hrising'
  have htakes := Takes.declaration hstarts' (by rwa [hs.head]) hstop' hdivides'
  rwa [Located.startOf_append_congr hstart, Located.startOf_append_congr hstart] at htakes

/-- A statement has the same form before a text that stands in for what follows it. -/
theorem Takes.replace (h : Takes size (taken ++ tail) e tail) (hs : Lexeme.StandsIn tail tail')
    (hstart : Located.startOf size' tail' = Located.startOf size tail)
    (hrising : Located.Rising size (taken ++ tail))
    (hrising' : Located.Rising size' (taken ++ tail')) : Takes size' (taken ++ tail') e tail' := by
  generalize hcs : taken ++ tail = cs at h
  cases h with
  | @comment c star body _ hc hstar hclose =>
    obtain rfl : taken = c :: star :: body :=
      List.append_cancel_right (hcs.trans (by simp) : _ = (c :: star :: body) ++ tail)
    have htakes := @Takes.comment size' c star body tail' hc hstar
      (Lexeme.closeComment_local hclose tail')
    rw [hstart] at htakes
    simpa using htakes
  | @atRule c name text stop _ params _ hc hname hhead hstop hparams hend =>
    obtain ⟨mark, rfl, hmarkFree, hend'⟩ := atRuleEnd_replace hend hs.head hstart
    have hs' := hs.append mark (Lexeme.joins_of_free hmarkFree)
    obtain rfl : taken = c :: (name ++ (text ++ mark)) :=
      List.append_cancel_right (hcs.trans (by simp) : _ = (c :: (name ++ (text ++ mark))) ++ tail)
    simp only [List.cons_append, List.append_assoc] at hrising hrising' ⊢
    exact .atRule_replace hc hname hhead hstop hparams hs'
      (Located.startOf_append_congr hstart mark) hrising hrising' hend'
  | @rule text _ t selector hstarts ht hstop hselector =>
    obtain rfl : taken = text ++ [t] :=
      List.append_cancel_right (hcs.trans (by simp) : _ = (text ++ [t]) ++ tail)
    have hstarts' : StartsStatement ((text ++ [t]) ++ tail') :=
      startsStatement_congr hs.head (by simp) (by simpa using hstarts)
    simp only [List.append_assoc, List.singleton_append] at hstarts' hrising hrising' ⊢
    have hs' : Lexeme.StandsIn ([t] ++ tail) ([t] ++ tail') :=
      hs.append [t] (Lexeme.joins_of_free (by simp [ht]))
    have hopens : Located.startOf size' ([t] ++ tail') = Located.startOf size ([t] ++ tail) := rfl
    obtain ⟨hstop', hselector'⟩ := cut_stop_replace hstop hselector hs' hopens hrising.right
      hrising'.right
    have htakes := @Takes.rule size' _ _ _ _ hstarts' ht hstop' hselector'
    have hfirst := Located.startOf_append_congr hstart (text ++ [t])
    simp only [List.append_assoc, List.singleton_append] at hfirst
    rw [hfirst] at htakes
    exact htakes
  | @declaration text stop before after gap colon prop value hstarts hopen hstop hdivides =>
    obtain ⟨mark, hsplit, hmarkFree, hafter⟩ := afterSemicolon_replace hs.head
    generalize afterSemicolon stop = tail at *
    subst hsplit
    obtain rfl : taken = text ++ mark :=
      List.append_cancel_right (hcs.trans (by simp) : _ = (text ++ mark) ++ tail)
    rw [List.append_assoc] at hrising hrising' ⊢
    have hs' := hs.append mark (Lexeme.joins_of_free hmarkFree)
    have htakes := Takes.declaration_replace hstarts hopen hstop hdivides hs'
      (Located.startOf_append_congr hstart mark) hrising hrising'
    rwa [hafter] at htakes

theorem startsNode_congr {cs cs' : List Located}
    (hhead : Located.headChar cs' = Located.headChar cs) (h : StartsNode cs) : StartsNode cs' := by
  cases cs with
  | nil => exact h.elim
  | cons c rest =>
    cases cs' with
    | nil => simp at hhead
    | cons c' rest' =>
      have hchar : c'.char = c.char := by simpa using hhead
      simpa [StartsNode, IsFiller, hchar] using h

theorem Builds.headChar_after {cs after : List Located} {nodes : List Node}
    (h : Builds size cs nodes after) : Located.headChar after ≠ some '\\' := by
  induction h with
  | finish => simp
  | close hclose => simp [hclose]
  | filler _ _ ih | leaf _ _ _ ih | block _ _ _ _ _ _ ih => exact ih

/-- A block is made of the same nodes before a text that stands in for what follows it. -/
theorem Builds.replace {nodes : List Node} (h : Builds size (taken ++ tail) nodes tail)
    (hs : Lexeme.StandsIn tail tail')
    (hstart : Located.startOf size' tail' = Located.startOf size tail)
    (hrising : Located.Rising size (taken ++ tail))
    (hrising' : Located.Rising size' (taken ++ tail')) :
    Builds size' (taken ++ tail') nodes tail' := by
  generalize hcs : taken ++ tail = cs at h
  induction h generalizing taken tail' with
  | finish =>
    obtain ⟨rfl, _⟩ := by simpa using hcs
    obtain rfl : tail' = [] := by simpa [Located.headChar] using hs.head
    exact .finish
  | @close c rest hclose =>
    obtain rfl : taken = [] := by simpa using hcs
    cases tail' with
    | nil => simpa using hs.head
    | cons c' rest' => exact .close ((by simpa using hs.head : c'.char = c.char).trans hclose)
  | @filler c rest after nodes hfill hrest ih =>
    obtain ⟨front, rfl⟩ := hrest.suffix
    obtain rfl : taken = c :: front :=
      List.append_cancel_right (hcs : _ = (c :: front) ++ after)
    rw [List.cons_append] at hrising' hrising ⊢
    exact .filler hfill (ih hs hstart (hrising.suffix (List.suffix_cons _ _))
      (hrising'.suffix (List.suffix_cons _ _)) rfl)
  | @leaf cs next after node nodes hstarts htakes hrest ih =>
    obtain ⟨front, rfl⟩ := htakes.suffix
    obtain ⟨middle, rfl⟩ := hrest.suffix
    obtain rfl : taken = front ++ middle :=
      List.append_cancel_right (hcs.trans (List.append_assoc _ _ _).symm)
    rw [List.append_assoc] at hrising hrising' ⊢
    have hs' := hs.append middle (Lexeme.joins_of_head hrest.headChar_after)
    have hstart' := Located.startOf_append_congr hstart middle
    exact .leaf (startsNode_congr (Located.headChar_append_congr hs'.head front) hstarts)
      (htakes.replace hs' hstart' hrising hrising') (ih hs hstart hrising.right hrising'.right rfl)
  | @block close cs inner outer after start brace head body nodes hstarts htakes hbody hbrace hrest
      ihbody ih =>
    obtain ⟨front, rfl⟩ := htakes.suffix
    obtain ⟨inside, rfl⟩ := hbody.suffix
    obtain ⟨middle, rfl⟩ := hrest.suffix
    obtain rfl : taken = front ++ (inside ++ close :: middle) :=
      List.append_cancel_right (hcs.trans (by simp) :
        _ = (front ++ (inside ++ close :: middle)) ++ after)
    simp only [List.append_assoc, List.cons_append] at hrising hrising' ⊢
    -- What follows the body starts with the closing brace, which stays.
    have hs' := hs.append (close :: middle) (Lexeme.joins_of_head hrest.headChar_after)
    have hstart' := Located.startOf_append_congr hstart (close :: middle)
    rw [List.cons_append, List.cons_append] at hs' hstart'
    have hinside := hs'.append inside (Lexeme.joins_of_head (by simp [hbrace]))
    refine .block (startsNode_congr (Located.headChar_append_congr hinside.head front) hstarts)
      (htakes.replace hinside (Located.startOf_append_congr hstart' inside) hrising
        hrising')
      (ihbody hs' hstart' hrising.right hrising'.right rfl) hbrace
      (ih hs hstart (hrising.right.right.suffix (List.suffix_cons _ _))
        (hrising'.right.right.suffix (List.suffix_cons _ _)) rfl)

end Replacement

end Event

end SheetPolicy

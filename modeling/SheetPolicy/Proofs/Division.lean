import Mathlib
import SheetPolicy.Proofs.Takes

/-!
Where a declaration is divided. Its first colon divides it, and that colon is looked for in the text
as it stands, comments included. If the colon is in no comment, property and value are those of the
text without its comments; if it is in a comment, the rest of the comment is a part of the value
(`readsBare_iff`).
-/

namespace SheetPolicy

/-! ## The statement of a declaration -/

namespace Event

variable {size : Nat} {cs next : List Located}

/-- The statement of a declaration, with where it is divided. -/
theorem Takes.divides {decl : Declaration} (h : Takes size cs (.leaf (.declaration decl)) next) :
    ∃ taken stop before colon after gap prop value, cs = taken ++ stop ∧
      Prelude.skip 0 (taken ++ stop) = .ok stop ∧ Located.headChar stop ≠ some '{' ∧
      Divides size taken stop before colon after gap prop value ∧
      decl = ⟨⟨Located.startOf size (taken ++ stop), Located.startOf size (gap ++ stop)⟩, prop.text,
        value.splitImportant.1, value.splitImportant.2⟩ := by
  cases h with
  | @declaration taken stop before after gap colon prop value _ hopen hstop hdivides =>
    exact ⟨taken, stop, before, colon, after, gap, prop, value, rfl, hstop, hopen, hdivides, rfl⟩
  | atRule _ _ _ _ _ hend =>
    obtain ⟨_, ⟨last, hleaf⟩ | ⟨brace, hopens⟩⟩ := atRuleEnd_cases hend
    · simp at hleaf
    · simp at hopens

end Event

/-! ## Pieces of a statement -/

namespace Prelude

/-- How a statement is passed over, from a bracket depth on up to where the last list starts: `Skips`
with the pieces that it passes. An interpolation is a plain piece of several characters. -/
inductive Passes : Nat → List Located → List Lexeme → List Located → Prop
  | finish {depth : Nat} : Passes depth [] [] []
  | terminator {c : Located} {rest : List Located} :
      isTerminator c.char = true → Passes 0 (c :: rest) [] (c :: rest)
  | interpolation {depth : Nat} {c : Located} {body rest stop : List Located} {ls : List Lexeme} :
      ¬(depth = 0 ∧ isTerminator c.char = true) → opensInterpolation c.char (body ++ rest) = true →
      afterInterpolation (body ++ rest) = rest → Passes depth rest ls stop →
      Passes depth (c :: (body ++ rest)) (⟨.plain, c :: body⟩ :: ls) stop
  | unit {depth : Nat} {kind : Lexeme.Kind} {c : Located} {body rest stop : List Located}
      {ls : List Lexeme} :
      ¬(depth = 0 ∧ isTerminator c.char = true) → opensInterpolation c.char (body ++ rest) = false →
      Lexeme.IsUnit kind ((c :: body).map Located.char) (Located.headChar rest) →
      Passes (if kind = .plain then depthAfter depth c.char else depth) rest ls stop →
      Passes depth (c :: (body ++ rest)) (⟨kind, c :: body⟩ :: ls) stop

/-- An interpolation ends with a brace, if anything follows it. -/
theorem afterInterpolation_cases {cs : List Located} :
    ∃ body, cs = body ++ afterInterpolation cs ∧
      (afterInterpolation cs = [] ∨ ∃ c, body.getLast? = some c ∧ c.char = '}') := by
  have happ := List.takeWhile_append_dropWhile (p := fun c : Located => decide (c.char ≠ '}')) (l := cs)
  have hhead := List.head?_dropWhile_not (fun c : Located => decide (c.char ≠ '}')) cs
  unfold afterInterpolation
  cases hdrop : cs.dropWhile (fun c => decide (c.char ≠ '}')) with
  | nil => exact ⟨cs, by simp, .inl rfl⟩
  | cons c rest =>
    rw [hdrop] at happ hhead
    refine ⟨cs.takeWhile (fun c => decide (c.char ≠ '}')) ++ [c], ?_, .inr ⟨c, by simp, ?_⟩⟩
    · rw [List.tail_cons, List.append_assoc]
      exact happ.symm
    · simpa using hhead

theorem exists_passes {depth : Nat} {cs stop : List Located} (h : Skips depth cs stop) :
    ∃ ls, Passes depth cs ls stop := by
  induction h with
  | finish => exact ⟨[], .finish⟩
  | terminator hterm => exact ⟨[], .terminator hterm⟩
  | @interpolation depth c rest stop hend hinter _ ih =>
    obtain ⟨ls, hls⟩ := ih
    obtain ⟨body, hbody, _⟩ := @afterInterpolation_cases rest
    refine ⟨⟨.plain, c :: body⟩ :: ls, ?_⟩
    rw [hbody] at hinter ⊢
    exact .interpolation hend hinter (by rw [← hbody]) hls
  | unit hend hinter hunit _ ih =>
    obtain ⟨ls, hls⟩ := ih
    exact ⟨_, .unit hend hinter hunit hls⟩

variable {depth : Nat} {cs stop : List Located} {ls : List Lexeme}

theorem Passes.skips (h : Passes depth cs ls stop) : Skips depth cs stop := by
  induction h with
  | finish => exact .finish
  | terminator hterm => exact .terminator hterm
  | interpolation hend hinter hafter _ ih => exact .interpolation hend hinter (hafter.symm ▸ ih)
  | unit hend hinter hunit _ ih => exact .unit hend hinter hunit ih

theorem Passes.eq_append (h : Passes depth cs ls stop) : cs = ls.flatMap Lexeme.chars ++ stop := by
  induction h with
  | finish | terminator => rfl
  | interpolation _ _ _ _ ih | unit _ _ _ _ ih => simp [← ih]

/-- The pieces behind some pieces are passed over from where those end. -/
theorem Passes.of_append {ms ns : List Lexeme} (h : Passes depth cs (ms ++ ns) stop) :
    ∃ middle ds, cs = ms.flatMap Lexeme.chars ++ ds ∧ Passes middle ds ns stop := by
  induction ms generalizing depth cs with
  | nil => exact ⟨depth, cs, rfl, h⟩
  | cons m ms ih =>
    rw [List.cons_append] at h
    cases h with
    | interpolation _ _ _ hrest | unit _ _ _ hrest =>
      obtain ⟨middle, ds, rfl, hds⟩ := ih hrest
      exact ⟨middle, ds, by simp, hds⟩

theorem Passes.isComment (h : Passes depth cs ls stop) {l : Lexeme} (hl : l ∈ ls)
    (hkind : l.kind = .comment) : ∃ body, l.chars.map Located.char = body ++ ['*', '/'] := by
  induction h with
  | finish | terminator => simp at hl
  | interpolation _ _ _ _ ih =>
    rcases List.mem_cons.1 hl with rfl | hl
    · simp at hkind
    · exact ih hl
  | unit _ _ hunit _ ih =>
    rcases List.mem_cons.1 hl with rfl | hl
    · obtain rfl := hkind
      obtain ⟨inner, hinner, _⟩ := hunit
      exact ⟨'/' :: '*' :: inner, hinner⟩
    · exact ih hl

/-- What is kept of some pieces is in none of their comments. -/
theorem not_mem_comment (hnodup : (ls.flatMap Lexeme.chars).Nodup) {c : Located}
    (hc : c ∈ ls.flatMap Lexeme.kept) {l : Lexeme} (hl : l ∈ ls) (hcomment : l.kind = .comment) :
    c ∉ l.chars := by
  intro hmem
  obtain ⟨front, back, rfl⟩ := List.append_of_mem hl
  rw [List.flatMap_append, List.flatMap_cons] at hnodup
  have hfront := (List.nodup_append'.1 hnodup).2.2
  have hback := (List.nodup_append'.1 (List.nodup_append'.1 hnodup).2.1).2.2
  rw [List.flatMap_append, List.flatMap_cons] at hc
  have hl : l.kept = [] := by simp [Lexeme.kept, hcomment]
  rw [hl, List.nil_append] at hc
  rcases List.mem_append.1 hc with hc | hc
  · exact hfront ((Lexeme.flatMap_kept_sublist front).subset hc) (List.mem_append_left _ hmem)
  · exact hback hmem ((Lexeme.flatMap_kept_sublist back).subset hc)

end Prelude

/-! ## What is kept of the pieces -/

/-- Nothing among the characters opens a string, an escape or a comment. -/
def IsLevel (cs : List Located) : Prop :=
  (∀ c ∈ cs, c.char ≠ '\\' ∧ c.char ≠ '"' ∧ c.char ≠ '\'') ∧ ¬['/', '*'] <:+: cs.map Located.char

theorem IsLevel.suffix {xs ys : List Located} (h : IsLevel ys) (hs : xs <:+ ys) : IsLevel xs :=
  ⟨fun c hc => h.1 c (hs.subset hc), fun hmark => h.2 (hmark.trans (hs.map _).isInfix)⟩

/-- No comment opens with the last character of the first list. -/
def Seamless (xs ys : List Located) : Prop :=
  ∀ c, xs.getLast? = some c → ¬(c.char = '/' ∧ Located.headChar ys = some '*')

namespace Excerpt

variable {size stop : Nat}

theorem keep_past {cs kept : List Located} (hrising : Located.Rising size cs)
    (hpast : stop ≤ Located.startOf size cs) (hkept : kept ⊆ cs) :
    keep stop cs = .ok (kept.filter fun d => d.offset < stop) := by
  have hle : ∀ d ∈ cs, stop ≤ d.offset := fun d hd => hpast.trans (hrising.startOf_le hd)
  rw [keep_of_le hle, List.filter_eq_nil_iff.2 (by simpa using fun d hd => hle d (hkept hd))]

/-- Where nothing opens, all is kept. -/
theorem keep_level {xs back : List Located} (hlevel : IsLevel xs) (hseam : Seamless xs back)
    (hrising : Located.Rising size (xs ++ back)) :
    keep stop (xs ++ back) =
      (keep stop back).map ((xs.filter fun d => d.offset < stop) ++ ·) := by
  induction xs with
  | nil =>
    rw [List.nil_append]
    cases keep stop back <;> rfl
  | cons c xs ih =>
    have htail : Located.Rising size (xs ++ back) := hrising.suffix (List.suffix_cons _ _)
    have hseam' : Seamless xs back := by
      intro d hd
      refine hseam d ?_
      rw [List.getLast?_cons, hd]
      rfl
    by_cases hlt : c.offset < stop
    · obtain ⟨hescape, hdouble, hsingle⟩ := hlevel.1 c List.mem_cons_self
      have hunit : Lexeme.IsUnit .plain ([c].map Located.char) (Located.headChar (xs ++ back)) := by
        refine ⟨c.char, rfl, hescape, hdouble, hsingle, ?_⟩
        cases xs with
        | nil => exact hseam c rfl
        | cons d xs =>
          rintro ⟨hc, hd⟩
          rw [List.cons_append, Located.headChar_cons, Option.some_inj] at hd
          exact hlevel.2 ⟨[], xs.map Located.char, by simp [hc, hd]⟩
      have hkeep := @keep_unit stop _ _ _ _ hlt hunit
      rw [List.nil_append] at hkeep
      rw [List.cons_append, hkeep, ih (hlevel.suffix (List.suffix_cons _ _)) hseam' htail]
      cases keep stop back with
      | error e => rfl
      | ok kept => simp [Except.map, Lexeme.kept, hlt]
    · have hle : ∀ d ∈ c :: xs ++ back, stop ≤ d.offset := by
        intro d hd
        have := hrising.startOf_le hd
        rw [List.cons_append, Located.startOf_cons] at this
        omega
      rw [keep_of_le hle, keep_of_le fun d hd => hle d (List.mem_append_right _ hd),
        List.filter_eq_nil_iff.2 (by simpa using fun d hd => hle d (List.mem_append_left _ hd))]
      rfl

/-- The first character is kept, if it cannot open a comment. -/
theorem mem_keep {c : Located} {rest kept : List Located} (h : keep stop (c :: rest) = .ok kept)
    (hlt : c.offset < stop) (hc : c.char ≠ '/') : c ∈ kept := by
  cases retains_of_keep h with
  | past hpast => omega
  | @unit kind _ body rest kept _ hunit _ =>
    have hkind : kind ≠ .comment := by
      rintro rfl
      obtain ⟨inner, hinner, _⟩ := hunit
      exact hc (List.cons.inj hinner).1
    simp [Lexeme.kept, hkind, hlt]

end Excerpt

namespace Prelude.Passes

variable {depth size : Nat} {cs stop : List Located} {ls : List Lexeme}

theorem seamless {c : Located} {body rest : List Located}
    (h : afterInterpolation (body ++ rest) = rest) : Seamless (c :: body) rest := by
  obtain ⟨body', hbody, hlast⟩ := @afterInterpolation_cases (body ++ rest)
  rw [h] at hbody hlast
  obtain rfl := List.append_cancel_right hbody
  intro d hd
  rcases hlast with rfl | ⟨brace, hbrace, hchar⟩
  · simp
  · rw [List.getLast?_cons, hbrace] at hd
    obtain rfl := by simpa using hd
    simp [hchar]

/-- Of the pieces all is kept that is in no comment, if nothing opens inside an interpolation. -/
theorem keep (h : Passes depth cs ls stop) (hlevel : ∀ l ∈ ls, l.kind = .plain → IsLevel l.chars)
    (hrising : Located.Rising size cs) {bound : Nat} (hbound : bound ≤ Located.startOf size stop) :
    Excerpt.keep bound cs = .ok ((ls.flatMap Lexeme.kept).filter fun d => d.offset < bound) := by
  induction h with
  | finish | terminator => exact Excerpt.keep_past hrising hbound (List.nil_subset _)
  | @interpolation depth c body rest stop ls hend hinter hafter _ ih =>
    have hrest := ih (fun l hl => hlevel l (List.mem_cons_of_mem _ hl))
      (hrising.suffix (List.suffix_append (c :: body) rest)) hbound
    have hopen := hlevel _ List.mem_cons_self rfl
    rw [← List.cons_append, Excerpt.keep_level hopen (seamless hafter) hrising, hrest,
      List.flatMap_cons, List.filter_append]
    rfl
  | @unit depth kind c body rest stop ls hend hinter hunit hpasses ih =>
    have hrest := ih (fun l hl => hlevel l (List.mem_cons_of_mem _ hl))
      (hrising.suffix (List.suffix_append (c :: body) rest)) hbound
    by_cases hlt : c.offset < bound
    · rw [Excerpt.keep_unit hlt hunit, hrest]
      simp [Except.map]
    · have happ := (Passes.unit hend hinter hunit hpasses).eq_append
      refine Excerpt.keep_past hrising (by simpa using hlt) ?_
      rw [happ]
      exact fun d hd => List.mem_append_left _ ((Lexeme.flatMap_kept_sublist _).subset hd)

/-- Behind a character of a plain piece or of an escape the rest of the piece is kept, and what is kept
of the pieces that follow. -/
theorem keep_behind {l : Lexeme} {c : Located} {u v : List Located} (h : Passes depth cs (l :: ls) stop)
    (hlevel : ∀ m ∈ l :: ls, m.kind = .plain → IsLevel m.chars) (hl : l.chars = u ++ c :: v)
    (hkind : l.kind = .plain ∨ l.kind = .escape) (hc : c.char ≠ '\\')
    (hrising : Located.Rising size cs) {bound : Nat} (hbound : bound ≤ Located.startOf size stop) :
    Excerpt.keep bound (v ++ (ls.flatMap Lexeme.chars ++ stop)) =
      .ok ((v ++ ls.flatMap Lexeme.kept).filter fun d => d.offset < bound) := by
  obtain ⟨middle, rest, hcs, hrest⟩ := @of_append _ _ _ [l] ls h
  rw [List.flatMap_singleton, hl, List.append_assoc, List.cons_append] at hcs
  have htail : Located.Rising size (v ++ rest) :=
    hrising.suffix (hcs ▸ ⟨u ++ [c], by simp⟩)
  suffices hv : IsLevel v ∧ Seamless v rest by
    rw [← hrest.eq_append, Excerpt.keep_level hv.1 hv.2 htail,
      hrest.keep (fun m hm => hlevel m (List.mem_cons_of_mem _ hm))
        (htail.suffix (List.suffix_append _ _)) hbound, List.filter_append]
    rfl
  have hempty : IsLevel [] ∧ Seamless [] rest := ⟨⟨by simp, by simp⟩, by simp [Seamless]⟩
  cases h with
  | @interpolation _ d body rest' _ _ _ _ hafter _ =>
    obtain rfl : rest' = rest := by
      have : (d :: body) ++ rest' = (u ++ c :: v) ++ rest := by simpa using hcs
      rw [← hl] at this
      exact List.append_cancel_left this
    have hsuffix : v <:+ d :: body := ⟨u ++ [c], by simpa using hl.symm⟩
    refine ⟨(hlevel _ List.mem_cons_self rfl).suffix hsuffix, fun e he => seamless (c := d) hafter e ?_⟩
    obtain ⟨front, hfront⟩ := hsuffix
    rw [← hfront, List.getLast?_append, he]
    rfl
  | @unit _ kind d body rest' _ _ _ _ hunit _ =>
    obtain rfl : v = [] := by
      rw [show d :: body = u ++ c :: v from hl] at hunit
      rcases hkind with rfl | rfl
      · obtain ⟨x, hx, _⟩ := hunit
        cases u with
        | nil => simpa using (List.cons.inj hx).2
        | cons => simp at hx
      · -- The backslash is the first character of an escape, so `c` is the second one.
        rcases hunit with ⟨x, hx⟩ | ⟨hx, _⟩
        · rcases u with _ | ⟨d, _ | ⟨e, u⟩⟩
          · exact absurd (List.cons.inj hx).1 hc
          · obtain ⟨_, _, hv⟩ := by simpa using hx
            exact hv
          · simp at hx
        · cases u with
          | nil => exact absurd (List.cons.inj hx).1 hc
          | cons => simp at hx
    exact hempty

end Prelude.Passes

/-! ## Declarations without their comments -/

namespace Excerpt

/-- Blanks at the end make no difference to what is trimmed. -/
theorem chars_trim_append (kept : List Located) {gap : List Located} (h : ∀ c ∈ gap, Text.isBlank c.char = true)
    (stop : Nat) : (trim (kept ++ gap) stop).chars = (trim kept stop).chars := by
  simp only [trim, Text.dropRightWhile]
  by_cases hall : ∀ c ∈ kept, Text.isBlank c.char = true
  · have hgap : gap.dropWhile (fun c => Text.isBlank c.char) = [] := List.dropWhile_eq_nil_iff.2 h
    have hkept : kept.dropWhile (fun c => Text.isBlank c.char) = [] := List.dropWhile_eq_nil_iff.2 hall
    rw [List.dropWhile_append_of_pos hall, hgap, hkept]
  · have hne : (kept.dropWhile fun c => Text.isBlank c.char).isEmpty = false := by
      simpa using hall
    rw [List.dropWhile_append, hne, if_neg (by simp), List.reverse_append,
      List.dropWhile_append_of_pos fun c hc => h c (List.mem_reverse.1 hc)]

/-- Splitting off `!important` goes by the characters. -/
theorem splitImportant_congr {e e' : Excerpt} (h : e.chars = e'.chars) :
    e.splitImportant.1.chars = e'.splitImportant.1.chars ∧
      e.splitImportant.2 = e'.splitImportant.2 := by
  obtain ⟨chars, stop⟩ := e
  obtain ⟨chars', stop'⟩ := e'
  obtain rfl : chars = chars' := h
  unfold splitImportant
  simp only
  split
  · exact ⟨rfl, rfl⟩
  · split <;> exact ⟨rfl, rfl⟩

theorem trim_subset (kept : List Located) (stop : Nat) : (trim kept stop).chars ⊆ kept := by
  obtain ⟨lead, tail, hkept, _⟩ := trim_append kept stop
  intro c hc
  rw [hkept]
  simp [hc]

theorem splitImportant_subset (e : Excerpt) : e.splitImportant.1.chars ⊆ e.chars := by
  rcases splitImportant_cases e with heq | ⟨before, bang, word, hchars, _, _, heq⟩
  · rw [heq]
    exact List.Subset.refl _
  · rw [heq, hchars]
    exact List.subset_append_of_subset_left _ (trim_subset before bang.offset)

/-- A character that can be no part of the flag stays in the value. -/
theorem mem_splitImportant {e : Excerpt} {c : Located} (hc : c ∈ e.chars)
    (hchar : c.char = '*' ∨ c.char = '"' ∨ c.char = '\'' ∨ c.char = '\\') :
    c ∈ e.splitImportant.1.chars := by
  have hblank : Text.isBlank c.char = false := by
    rcases hchar with h | h | h | h <;> rw [h] <;> rfl
  rcases splitImportant_cases e with heq | ⟨before, bang, word, hchars, hbang, hword, heq⟩
  · rwa [heq]
  · rw [hchars] at hc
    rw [heq]
    rcases List.mem_append.1 hc with hbefore | hc
    · exact mem_trim hbefore hblank
    rcases List.mem_cons.1 hc with rfl | hc
    · simp [hbang] at hchar
    · -- The letters of the flag are none of these characters.
      have hmem : c.char ∈ (Text.trim (Located.text word)).toList := by
        rw [← text_trim word 0, text, Located.text, String.toList_ofList]
        exact List.mem_map_of_mem (mem_trim hc hblank)
      rw [Text.sameLetters, beq_iff_eq, Text.lower, Text.lower, String.ofList_inj] at hword
      have hletter : c.char.toLower ∈ "important".toList.map Char.toLower := by
        rw [← hword]
        exact List.mem_map_of_mem hmem
      rcases hchar with h | h | h | h <;> rw [h] at hletter <;> simp at hletter

/-- A byte of an excerpt stands at each of its characters. -/
theorem not_covers {e : Excerpt} {c : Located} (hc : c ∈ e.chars)
    (h : ∀ i < e.size, ¬(c.offset ≤ e.sourceOffset i ∧ e.sourceOffset i < c.stop)) : False := by
  obtain ⟨before, after, hchars⟩ := List.append_of_mem hc
  have hlt : Located.size before < e.size := by
    have hsize : e.size = Located.size e.chars := rfl
    have := c.char.utf8Size_pos
    rw [hsize, hchars, Located.size_append, Located.size_cons]
    omega
  have hplace : e.sourceOffset (Located.size before) = c.offset := by
    rw [sourceOffset, hchars, Located.offsetAt_append, Located.startOf_cons]
  exact h _ hlt ⟨hplace.ge, hplace ▸ c.offset_lt_stop⟩

end Excerpt

/-- The declaration is what its statement, read as `pieces`, has outside comments: no byte of the
value is one of a comment, and the first colon outside comments divides property and value. -/
structure Declaration.ReadsBare (pieces : List Lexeme) (decl : Declaration) : Prop where
  value : ∀ l ∈ pieces, l.kind = .comment → ∀ c ∈ l.chars, ∀ i < decl.value.size,
    ¬(c.offset ≤ decl.value.sourceOffset i ∧ decl.value.sourceOffset i < c.stop)
  divided : ∃ before colon after, pieces.flatMap Lexeme.kept = before ++ colon :: after ∧
    colon.char = ':' ∧ (∀ c ∈ before, c.char ≠ ':') ∧ decl.prop = Text.trim (Located.text before) ∧
    decl.value.chars = (Excerpt.trim after decl.span.stop).splitImportant.1.chars ∧
    decl.important = (Excerpt.trim after decl.span.stop).splitImportant.2

/-- Of what is kept on both sides of a place, the part before the place stands before it. -/
theorem Located.Rising.filter_lt {size : Nat} {xs ys kept more : List Located}
    (h : Located.Rising size (xs ++ ys)) (hkept : kept ⊆ xs) (hmore : more ⊆ ys) :
    ((kept ++ more).filter fun d => d.offset < Located.startOf size ys) = kept := by
  have hback : ∀ d ∈ more, Located.startOf size ys ≤ d.offset :=
    fun d hd => h.right.startOf_le (hmore hd)
  rw [List.filter_append, List.filter_eq_self.2 (by simpa using fun d hd => h.lt_startOf (hkept hd)),
    List.filter_eq_nil_iff.2 (by simpa using hback), List.append_nil]

theorem Located.Rising.startOf_append_le {size : Nat} {xs ys : List Located}
    (h : Located.Rising size (xs ++ ys)) :
    Located.startOf size (xs ++ ys) ≤ Located.startOf size ys := by
  cases xs with
  | nil => exact le_rfl
  | cons x xs => exact (h.lt_startOf List.mem_cons_self).le

/-- The text of a declaration in its source: what stands before it, its pieces up to where it ends,
and the first of its colons. -/
structure Declaration.Statement (source : String) (decl : Declaration) where
  front : List Located
  before : List Located
  colon : Located
  after : List Located
  back : List Located
  pieces : List Lexeme
  source_eq : Located.ofString source = front ++ (before ++ colon :: after ++ back)
  start_eq : decl.span.start = Located.size front
  passes : Prelude.Passes 0 (before ++ colon :: after ++ back) pieces back
  colon_char : colon.char = ':'
  before_free : ∀ c ∈ before, c.char ≠ ':'

/-- Behind the first colon the text can be read as before it: the colon is in no string, nothing opens
inside an interpolation, and a comment around the colon has no second opening mark behind it. -/
structure Declaration.Statement.IsClear {source : String} {decl : Declaration}
    (st : decl.Statement source) : Prop where
  level : ∀ l ∈ st.pieces, l.kind = .plain → IsLevel l.chars
  unquoted : ∀ l ∈ st.pieces, l.kind = .quoted → st.colon ∉ l.chars
  unmarked : ∀ l ∈ st.pieces, l.kind = .comment → ∀ u v, l.chars = u ++ st.colon :: v →
    ¬['/', '*'] <:+: v.map Located.char

namespace Event.Divides

variable {size start : Nat} {taken stop before after gap : List Located} {colon : Located}
  {prop value : Excerpt} {ls : List Lexeme}

theorem rising_value (h : Divides size taken stop before colon after gap prop value)
    (hrising : Located.Rising size (taken ++ stop)) :
    Located.Rising size (after ++ (gap ++ stop)) := by
  refine hrising.suffix ⟨before ++ [colon], ?_⟩
  rw [h.taken_eq]
  simp

theorem exists_piece (h : Divides size taken stop before colon after gap prop value)
    (hpasses : Prelude.Passes 0 (taken ++ stop) ls stop) : ∃ l ∈ ls, colon ∈ l.chars := by
  rw [← List.mem_flatMap, ← List.append_cancel_right hpasses.eq_append, h.taken_eq]
  simp

/-- The text on both sides of the first colon, by pieces. -/
theorem piece (h : Divides size taken stop before colon after gap prop value)
    (hpasses : Prelude.Passes 0 (taken ++ stop) ls stop)
    (hrising : Located.Rising size (taken ++ stop)) {l : Lexeme} (hl : l ∈ ls)
    (hcolon : colon ∈ l.chars) :
    ∃ ms ns u v, ls = ms ++ l :: ns ∧ l.chars = u ++ colon :: v ∧
      before = ms.flatMap Lexeme.chars ++ u ∧ after ++ gap = v ++ ns.flatMap Lexeme.chars := by
  have htaken : taken = ls.flatMap Lexeme.chars := List.append_cancel_right hpasses.eq_append
  obtain ⟨ms, ns, rfl⟩ := List.append_of_mem hl
  obtain ⟨u, v, huv⟩ := List.append_of_mem hcolon
  have heq : before ++ colon :: (after ++ gap) =
      (ms.flatMap Lexeme.chars ++ u) ++ colon :: (v ++ ns.flatMap Lexeme.chars) := by
    rw [← h.taken_eq, htaken]
    simp [huv]
  have hbefore : colon ∉ before := fun hc => h.before_free colon hc h.colon_char
  have hafter : colon ∉ after ++ gap := by
    intro hc
    have hordered := hrising.left.ordered
    rw [h.taken_eq] at hordered
    have := (List.pairwise_cons.1 (List.pairwise_append.1 hordered).2.1).1 colon hc
    omega
  obtain ⟨hfront, _, hback⟩ := (List.append_cons_inj_of_notMem hbefore hafter).1 heq
  exact ⟨ms, ns, u, v, rfl, huv, hfront, hback⟩

/-- If the first colon is in no string and no comment, property and value are cut from what is kept. -/
theorem kept (h : Divides size taken stop before colon after gap prop value)
    (hpasses : Prelude.Passes 0 (taken ++ stop) ls stop)
    (hrising : Located.Rising size (taken ++ stop))
    (hlevel : ∀ l ∈ ls, l.kind = .plain → IsLevel l.chars)
    (hunquoted : ∀ l ∈ ls, l.kind = .quoted → colon ∉ l.chars)
    (hbare : ∀ l ∈ ls, l.kind = .comment → colon ∉ l.chars) :
    ∃ bare rest blanks, ls.flatMap Lexeme.kept = bare ++ colon :: (rest ++ blanks) ∧
      (∀ c ∈ bare, c.char ≠ ':') ∧ (∀ c ∈ blanks, Text.isBlank c.char = true) ∧
      prop = Excerpt.trim bare colon.offset ∧
      value = Excerpt.trim rest (Located.startOf size (gap ++ stop)) := by
  obtain ⟨l, hl, hcolon⟩ := h.exists_piece hpasses
  obtain ⟨ms, ns, u, v, rfl, huv, hbefore, hafter⟩ := h.piece hpasses hrising hl hcolon
  have hkind : l.kind = .plain ∨ l.kind = .escape := by
    cases hkind : l.kind with
    | plain => exact .inl rfl
    | escape => exact .inr rfl
    | quoted => exact absurd hcolon (hunquoted l hl hkind)
    | comment => exact absurd hcolon (hbare l hl hkind)
  have hkept : l.kept = u ++ colon :: v := by
    rw [← huv, Lexeme.kept, if_neg (by rcases hkind with hk | hk <;> simp [hk])]
  have hsub : (v ++ ns.flatMap Lexeme.kept).Sublist (after ++ gap) :=
    hafter ▸ (List.Sublist.refl v).append (Lexeme.flatMap_kept_sublist ns)
  have hfree : ms.flatMap Lexeme.kept ++ u ⊆ before := by
    rw [hbefore]
    exact ((Lexeme.flatMap_kept_sublist ms).append (List.Sublist.refl u)).subset
  obtain ⟨rest, blanks, hrest, hrestSub, hblanks⟩ := List.sublist_append_iff.1 hsub
  refine ⟨ms.flatMap Lexeme.kept ++ u, rest, blanks, ?_,
    fun c hc => h.before_free c (hfree hc), fun c hc => h.gap_blank c (hblanks.subset hc), ?_, ?_⟩
  · rw [← hrest]
    simp [hkept]
  · have hsplit : taken ++ stop = before ++ (colon :: (after ++ gap) ++ stop) := by
      rw [h.taken_eq, List.append_assoc]
    have hmore : colon :: (v ++ ns.flatMap Lexeme.kept) ⊆ colon :: (after ++ gap) ++ stop :=
      List.subset_append_of_subset_left _ (hsub.cons_cons colon).subset
    have hbound : colon.offset < Located.startOf size stop :=
      hrising.lt_startOf (by rw [h.taken_eq]; simp)
    have hkeep := hpasses.keep hlevel hrising hbound.le
    have hfilter := Located.Rising.filter_lt (hsplit ▸ hrising) hfree hmore
    rw [List.cons_append, Located.startOf_cons] at hfilter
    rw [List.flatMap_append, List.flatMap_cons, hkept, List.append_assoc, List.cons_append,
      ← List.append_assoc, hfilter] at hkeep
    have hcut := h.prop_cut
    rw [Excerpt.cut, hkeep] at hcut
    exact (Except.ok.inj hcut).symm
  · obtain ⟨middle, ds, hds, htail⟩ := hpasses.of_append
    have hvalue := h.rising_value hrising
    have hkeep := htail.keep_behind (fun m hm => hlevel m (List.mem_append_right _ hm)) huv hkind
      (by simp [h.colon_char]) (hrising.suffix ⟨_, hds.symm⟩)
      hvalue.right.startOf_append_le
    have hfilter := Located.Rising.filter_lt hvalue hrestSub.subset
      (List.subset_append_of_subset_left stop hblanks.subset)
    rw [hrest, hfilter, ← List.append_assoc, ← hafter, List.append_assoc] at hkeep
    have hcut := h.value_cut
    rw [Excerpt.cut, hkeep] at hcut
    exact (Except.ok.inj hcut).symm

/-- A declaration whose first colon is in no string and no comment is that of the text without its
comments. -/
theorem readsBare (h : Divides size taken stop before colon after gap prop value)
    (hpasses : Prelude.Passes 0 (taken ++ stop) ls stop)
    (hruns : Located.Runs start (taken ++ stop) size)
    (hlevel : ∀ l ∈ ls, l.kind = .plain → IsLevel l.chars)
    (hunquoted : ∀ l ∈ ls, l.kind = .quoted → colon ∉ l.chars)
    (hbare : ∀ l ∈ ls, l.kind = .comment → colon ∉ l.chars) :
    Declaration.ReadsBare ls ⟨⟨Located.startOf size (taken ++ stop), Located.startOf size (gap ++ stop)⟩,
      prop.text, value.splitImportant.1, value.splitImportant.2⟩ := by
  have hrising := Located.Rising.of_runs hruns
  obtain ⟨bare, rest, blanks, hkept, hfree, hblanks, rfl, rfl⟩ :=
    h.kept hpasses hrising hlevel hunquoted hbare
  have hchars := Excerpt.chars_trim_append rest hblanks (Located.startOf size (gap ++ stop))
  obtain ⟨hvalue, himportant⟩ := Excerpt.splitImportant_congr hchars.symm
  refine ⟨?_, bare, colon, rest ++ blanks, hkept, h.colon_char, hfree,
    Excerpt.text_trim _ _, hvalue, himportant⟩
  intro l hl hcomment c hc i hi hplace
  have htaken : taken = ls.flatMap Lexeme.chars := List.append_cancel_right hpasses.eq_append
  obtain ⟨d, hd, k, hk, hoffset, _⟩ := Located.exists_mem_of_lt_size hi
  have hdkept : d ∈ ls.flatMap Lexeme.kept := by
    have := Excerpt.trim_subset _ _ (Excerpt.splitImportant_subset _ hd)
    rw [hkept]
    simp [this]
  have hctaken : c ∈ taken := htaken ▸ List.mem_flatMap.2 ⟨l, hl, hc⟩
  have hdtaken : d ∈ taken := htaken ▸ (Lexeme.flatMap_kept_sublist ls).subset hdkept
  rw [Excerpt.sourceOffset, hoffset] at hplace
  have heq : c = d := by
    have hstop : d.stop = d.offset + d.char.utf8Size := rfl
    exact hruns.eq_of_overlap (List.mem_append_left _ hctaken) (List.mem_append_left _ hdtaken)
      (by omega) (by omega)
  have hnodup : (ls.flatMap Lexeme.chars).Nodup :=
    htaken ▸ hrising.left.ordered.imp fun hlt heq => absurd (congrArg Located.offset heq) hlt.ne
  exact Prelude.not_mem_comment hnodup hdkept hl hcomment (heq ▸ hc)

/-- A text that ends in a closing mark has the mark behind each of its colons. -/
theorem mem_of_ends_in_mark {u v : List Located} {body : List Char} (hcolon : colon.char = ':')
    (h : (u ++ colon :: v).map Located.char = body ++ ['*', '/']) : ∃ star ∈ v, star.char = '*' := by
  rcases List.eq_nil_or_concat' v with rfl | ⟨w, slash, rfl⟩
  · have : u.map Located.char ++ [':'] = (body ++ ['*']) ++ ['/'] := by simpa [hcolon] using h
    simpa using (List.append_singleton_inj.1 this).2
  rcases List.eq_nil_or_concat' w with rfl | ⟨w, star, rfl⟩
  · have : u.map Located.char ++ [':'] ++ [slash.char] = (body ++ ['*']) ++ ['/'] := by
      simpa [hcolon] using h
    simpa using (List.append_singleton_inj.1 (List.append_singleton_inj.1 this).1).2
  · have : (u ++ colon :: w).map Located.char ++ [star.char] ++ [slash.char] = body ++ ['*'] ++ ['/'] := by
      simpa using h
    exact ⟨star, by simp, (List.append_singleton_inj.1 (List.append_singleton_inj.1 this).1).2⟩

/-- If the first colon is in a comment without a second opening mark behind it, the value has a
character of the comment. -/
theorem mem_value (h : Divides size taken stop before colon after gap prop value)
    (hpasses : Prelude.Passes 0 (taken ++ stop) ls stop)
    (hrising : Located.Rising size (taken ++ stop)) {l : Lexeme} (hl : l ∈ ls)
    (hkind : l.kind = .comment) (hcolon : colon ∈ l.chars)
    (hmark : ∀ u v, l.chars = u ++ colon :: v → ¬['/', '*'] <:+: v.map Located.char) :
    ∃ c ∈ l.chars, c ∈ value.splitImportant.1.chars := by
  obtain ⟨body, hbody⟩ := hpasses.isComment hl hkind
  obtain ⟨ms, ns, u, v, rfl, huv, _, hafter⟩ := h.piece hpasses hrising hl hcolon
  rw [huv] at hbody
  obtain ⟨star, hstar, hstarChar⟩ := mem_of_ends_in_mark h.colon_char hbody
  -- The first character behind the colon that a reader could stop at: it is kept, whatever it is.
  let marks : Located → Bool := fun c => ['*', '"', '\'', '\\'].contains c.char
  obtain ⟨d, hfind⟩ := Option.isSome_iff_exists.1
    (List.find?_isSome.2 ⟨star, hstar, by simp [marks, hstarChar]⟩ : (v.find? marks).isSome)
  obtain ⟨hd, w, z, rfl, hw⟩ := List.find?_eq_some_iff_append.1 hfind
  have hfree := hmark u _ huv
  have hd : d.char = '*' ∨ d.char = '"' ∨ d.char = '\'' ∨ d.char = '\\' := by simpa [marks] using hd
  have hw : ∀ c ∈ w, c.char ≠ '*' ∧ c.char ≠ '"' ∧ c.char ≠ '\'' ∧ c.char ≠ '\\' := by
    simpa [marks] using hw
  have hblank : Text.isBlank d.char = false := by
    rcases hd with hd | hd | hd | hd <;> rw [hd] <;> rfl
  have hlevel : IsLevel w :=
    ⟨fun c hc => ⟨(hw c hc).2.2.2, (hw c hc).2.1, (hw c hc).2.2.1⟩,
      fun hmark => hfree (hmark.trans ((List.prefix_append w (d :: z)).map _).isInfix)⟩
  have hseam : Seamless w (d :: (z ++ (ns.flatMap Lexeme.chars ++ stop))) := by
    rintro c hc ⟨hsolidus, hnext⟩
    obtain ⟨w', rfl⟩ := List.getLast?_eq_some_iff.1 hc
    rw [Located.headChar_cons, Option.some_inj] at hnext
    exact hfree ⟨w'.map Located.char, z.map Located.char, by simp [hsolidus, hnext]⟩
  have hvalue := h.rising_value hrising
  have hafterMem : d ∈ after := by
    have hmem : d ∈ after ++ gap := by rw [hafter]; simp
    rcases List.mem_append.1 hmem with hmem | hmem
    · exact hmem
    · simp [h.gap_blank d hmem] at hblank
  have hlt := hvalue.lt_startOf hafterMem
  have heq : after ++ (gap ++ stop) = w ++ d :: (z ++ (ns.flatMap Lexeme.chars ++ stop)) := by
    rw [← List.append_assoc, hafter]
    simp
  have hcut := h.value_cut
  rw [heq] at hvalue
  rw [heq, Excerpt.cut, Excerpt.keep_level hlevel hseam hvalue] at hcut
  cases hkeep : Excerpt.keep (Located.startOf size (gap ++ stop))
      (d :: (z ++ (ns.flatMap Lexeme.chars ++ stop))) with
  | error e => simp [hkeep, Except.map] at hcut
  | ok kept =>
    obtain rfl : Excerpt.trim _ _ = value := by simpa [hkeep, Except.map] using hcut
    have hmem := Excerpt.mem_keep hkeep hlt (by rcases hd with hd | hd | hd | hd <;> simp [hd])
    refine ⟨d, by rw [huv]; simp, Excerpt.mem_splitImportant (Excerpt.mem_trim ?_ hblank) hd⟩
    exact List.mem_append_right _ hmem

end Event.Divides

/-- Two starts of a text that have as many bytes are the same. -/
theorem Located.append_inj_of_size {xs ys zs ws : List Located} (h : xs ++ zs = ys ++ ws)
    (hsize : Located.size xs = Located.size ys) : xs = ys ∧ zs = ws := by
  induction xs generalizing ys with
  | nil =>
    cases ys with
    | nil => exact ⟨rfl, h⟩
    | cons y ys => exact absurd hsize (Located.size_pos (List.cons_ne_nil y ys)).ne
  | cons x xs ih =>
    cases ys with
    | nil => exact absurd hsize.symm (Located.size_pos (List.cons_ne_nil x xs)).ne
    | cons y ys =>
      obtain ⟨rfl, htail⟩ := List.cons.inj h
      obtain ⟨rfl, hrest⟩ := ih htail (by simpa using hsize)
      exact ⟨rfl, hrest⟩

/-- A source has the statement of each of its declarations. -/
theorem Declaration.exists_statement {source : String} {sheet : Sheet}
    (h : Sheet.parse source = .ok sheet) {decl : Declaration}
    (hdecl : (Node.declaration decl).Occurs sheet.nodes) :
    ∃ taken stop before colon after gap prop value front,
      Located.ofString source = front ++ (taken ++ stop) ∧
      decl.span.start = Located.size front ∧
      Prelude.skip 0 (taken ++ stop) = .ok stop ∧
      Event.Divides source.utf8ByteSize taken stop before colon after gap prop value ∧
      decl = ⟨⟨Located.startOf source.utf8ByteSize (taken ++ stop),
        Located.startOf source.utf8ByteSize (gap ++ stop)⟩, prop.text,
        value.splitImportant.1, value.splitImportant.2⟩ := by
  obtain ⟨cs, next, ⟨front, hfront⟩, htakes⟩ :=
    (Event.parse_eq_ok_iff.1 h).2.takes_leaf hdecl rfl
  obtain ⟨taken, stop, before, colon, after, gap, prop, value, rfl, hskip, _, hdivides, rfl⟩ :=
    htakes.divides
  have hruns := (hfront ▸ Located.runs_ofString source).of_append.2
  refine ⟨taken, stop, before, colon, after, gap, prop, value, front, hfront.symm, ?_, hskip,
    hdivides, rfl⟩
  simpa using hruns.startOf_eq

/-- A declaration has one statement. -/
theorem Declaration.Statement.unique {source : String} {decl : Declaration}
    (st : decl.Statement source) {size : Nat} {front taken stop before after gap : List Located}
    {colon : Located} {prop value : Excerpt}
    (hfront : Located.ofString source = front ++ (taken ++ stop))
    (hstart : decl.span.start = Located.size front) (hskip : Prelude.skip 0 (taken ++ stop) = .ok stop)
    (hdivides : Event.Divides size taken stop before colon after gap prop value) :
    st.colon = colon ∧ Prelude.Passes 0 (taken ++ stop) st.pieces stop := by
  obtain ⟨_, htext⟩ := Located.append_inj_of_size (st.source_eq.symm.trans hfront)
    (st.start_eq.symm.trans hstart)
  have hpasses := st.passes
  have hskip' := Prelude.skip_eq_ok_iff.2 hpasses.skips
  rw [htext, hskip] at hskip'
  obtain rfl : stop = st.back := Except.ok.inj hskip'
  rw [htext] at hpasses
  refine ⟨?_, hpasses⟩
  obtain rfl := List.append_cancel_right htext
  have hfind : ∀ {xs ys : List Located} {c : Located}, c.char = ':' → (∀ d ∈ xs, d.char ≠ ':') →
      (xs ++ c :: ys).find? (fun d => d.char = ':') = some c := fun hc hxs =>
    List.find?_eq_some_iff_append.2 ⟨by simp [hc], _, _, rfl, by simpa using hxs⟩
  have hfirst := @hfind st.before st.after st.colon st.colon_char st.before_free
  rw [hdivides.taken_eq, hfind hdivides.colon_char hdivides.before_free] at hfirst
  exact (Option.some.inj hfirst).symm

/-- Text in a comment is no part of a declaration exactly if the first colon is in no comment. The text
behind the colon is read on its own, so this is said of statements in which the colon is in no string
and nothing opens a string, an escape or a comment halfway. -/
theorem readsBare_iff {source : String} {sheet : Sheet} (h : Sheet.parse source = .ok sheet)
    {decl : Declaration} (hdecl : (Node.declaration decl).Occurs sheet.nodes) :
    Nonempty (decl.Statement source) ∧ ∀ st : decl.Statement source, st.IsClear →
      (decl.ReadsBare st.pieces ↔ ∀ l ∈ st.pieces, l.kind = .comment → st.colon ∉ l.chars) := by
  obtain ⟨taken, stop, before, colon, after, gap, prop, value, front, hfront, hstart, hskip, hdivides,
    rfl⟩ := Declaration.exists_statement h hdecl
  constructor
  · obtain ⟨pieces, hpasses⟩ := Prelude.exists_passes (Prelude.skip_eq_ok_iff.1 hskip)
    rw [hdivides.taken_eq] at hfront hpasses
    exact ⟨⟨front, before, colon, after ++ gap, stop, pieces, hfront, hstart, hpasses,
      hdivides.colon_char, hdivides.before_free⟩⟩
  · intro st hclear
    obtain ⟨hcolon, hpasses⟩ := st.unique hfront hstart hskip hdivides
    have hruns := (hfront ▸ Located.runs_ofString source).of_append.2
    obtain ⟨hlevel, hunquoted, hunmarked⟩ := hclear
    rw [hcolon] at hunquoted hunmarked ⊢
    constructor
    · intro hbare l hl hkind hmem
      obtain ⟨c, hc, hvalue⟩ := hdivides.mem_value hpasses (.of_runs hruns) hl hkind hmem
        (hunmarked l hl hkind)
      exact Excerpt.not_covers hvalue fun i hi => hbare.value l hl hkind c hc i hi
    · intro hbare
      exact hdivides.readsBare hpasses hruns hlevel hunquoted hbare

/-- The declaration of `a/*:*/:b`, whose value is `*/:b`. -/
def commentedDeclaration : Declaration :=
  ⟨⟨0, 8⟩, "a", ⟨[⟨4, '*'⟩, ⟨5, '/'⟩, ⟨6, ':'⟩, ⟨7, 'b'⟩], 8⟩, false⟩

/-- Its first colon is in the comment. -/
def commentedStatement : commentedDeclaration.Statement "a/*:*/:b" where
  front := []
  before := [⟨0, 'a'⟩, ⟨1, '/'⟩, ⟨2, '*'⟩]
  colon := ⟨3, ':'⟩
  after := [⟨4, '*'⟩, ⟨5, '/'⟩, ⟨6, ':'⟩, ⟨7, 'b'⟩]
  back := []
  pieces := [⟨.plain, [⟨0, 'a'⟩]⟩, ⟨.comment, [⟨1, '/'⟩, ⟨2, '*'⟩, ⟨3, ':'⟩, ⟨4, '*'⟩, ⟨5, '/'⟩]⟩,
    ⟨.plain, [⟨6, ':'⟩]⟩, ⟨.plain, [⟨7, 'b'⟩]⟩]
  source_eq := by decide +kernel
  start_eq := rfl
  passes := by
    have hname := @Prelude.Passes.unit 0 .plain ⟨7, 'b'⟩ [] [] [] [] (by decide) rfl ⟨'b', by decide⟩
      .finish
    have hcolon := @Prelude.Passes.unit 0 .plain ⟨6, ':'⟩ [] _ _ _ (by decide) rfl ⟨':', by decide⟩
      hname
    have hcomment := @Prelude.Passes.unit 0 .comment ⟨1, '/'⟩ [⟨2, '*'⟩, ⟨3, ':'⟩, ⟨4, '*'⟩, ⟨5, '/'⟩]
      _ _ _ (by decide) rfl ⟨[':'], by decide⟩ hcolon
    exact @Prelude.Passes.unit 0 .plain ⟨0, 'a'⟩ [] _ _ _ (by decide) rfl ⟨'a', by decide⟩ hcomment
  colon_char := rfl
  before_free := by decide

theorem commentedStatement_isClear : commentedStatement.IsClear where
  level := by
    simp only [commentedStatement, IsLevel]
    decide
  unquoted := by simp [commentedStatement]
  unmarked := by
    intro l hl hkind u v huv
    obtain rfl : l = ⟨.comment, [⟨1, '/'⟩, ⟨2, '*'⟩, ⟨3, ':'⟩, ⟨4, '*'⟩, ⟨5, '/'⟩]⟩ := by
      simp only [commentedStatement, List.mem_cons, List.not_mem_nil, or_false] at hl
      rcases hl with rfl | rfl | rfl | rfl <;> simp_all
    have huv : [⟨1, '/'⟩, ⟨2, '*'⟩] ++ (⟨3, ':'⟩ : Located) :: [⟨4, '*'⟩, ⟨5, '/'⟩] =
      u ++ ⟨3, ':'⟩ :: v := huv
    obtain ⟨_, _, rfl⟩ := (List.append_cons_inj_of_notMem (by decide) (by decide)).1 huv
    decide

/-- The declaration of `a/*b*/:c`, whose value is `c`. -/
def bareDeclaration : Declaration :=
  ⟨⟨0, 8⟩, "a", ⟨[⟨7, 'c'⟩], 8⟩, false⟩

/-- Its first colon is behind the comment. -/
def bareStatement : bareDeclaration.Statement "a/*b*/:c" where
  front := []
  before := [⟨0, 'a'⟩, ⟨1, '/'⟩, ⟨2, '*'⟩, ⟨3, 'b'⟩, ⟨4, '*'⟩, ⟨5, '/'⟩]
  colon := ⟨6, ':'⟩
  after := [⟨7, 'c'⟩]
  back := []
  pieces := [⟨.plain, [⟨0, 'a'⟩]⟩, ⟨.comment, [⟨1, '/'⟩, ⟨2, '*'⟩, ⟨3, 'b'⟩, ⟨4, '*'⟩, ⟨5, '/'⟩]⟩,
    ⟨.plain, [⟨6, ':'⟩]⟩, ⟨.plain, [⟨7, 'c'⟩]⟩]
  source_eq := by decide +kernel
  start_eq := rfl
  passes := by
    have hname := @Prelude.Passes.unit 0 .plain ⟨7, 'c'⟩ [] [] [] [] (by decide) rfl ⟨'c', by decide⟩
      .finish
    have hcolon := @Prelude.Passes.unit 0 .plain ⟨6, ':'⟩ [] _ _ _ (by decide) rfl ⟨':', by decide⟩
      hname
    have hcomment := @Prelude.Passes.unit 0 .comment ⟨1, '/'⟩ [⟨2, '*'⟩, ⟨3, 'b'⟩, ⟨4, '*'⟩, ⟨5, '/'⟩]
      _ _ _ (by decide) rfl ⟨['b'], by decide⟩ hcolon
    exact @Prelude.Passes.unit 0 .plain ⟨0, 'a'⟩ [] _ _ _ (by decide) rfl ⟨'a', by decide⟩ hcomment
  colon_char := rfl
  before_free := by decide

theorem bareStatement_isBare :
    ∀ l ∈ bareStatement.pieces, l.kind = .comment → bareStatement.colon ∉ l.chars := by
  simp [bareStatement]

theorem bareStatement_isClear : bareStatement.IsClear where
  level := by
    simp only [bareStatement, IsLevel]
    decide
  unquoted := by simp [bareStatement]
  unmarked := by
    intro l hl hkind u v huv
    exact absurd (huv ▸ by simp) (bareStatement_isBare l hl hkind)

/-- The only declaration of a sheet is one of its nodes. -/
theorem Declaration.exists_occurs {source : String} {decl : Declaration}
    (h : ((Sheet.parse source).toOption.map fun sheet => sheet.declarations.map Prod.fst) =
      some [decl]) :
    ∃ sheet, Sheet.parse source = .ok sheet ∧ (Node.declaration decl).Occurs sheet.nodes := by
  cases hparse : Sheet.parse source with
  | error e => simp [hparse, Except.toOption] at h
  | ok sheet =>
    have hdecls : sheet.declarations.map Prod.fst = [decl] := by
      simpa [hparse, Except.toOption] using h
    have hmem : decl ∈ sheet.declarations.map Prod.fst := by simp [hdecls]
    obtain ⟨node, hoccurs, hitem⟩ := ((visitsOnce_declarations hparse).complete _).1 hmem
    obtain rfl : node = .declaration decl := by
      cases node <;> simp_all [Node.item]
    exact ⟨sheet, rfl, hoccurs⟩

/-- A comment with a colon is read as part of the value, and a comment without one is not. -/
theorem readsBare_iff_sample :
    (∃ sheet, Sheet.parse "a/*:*/:b" = .ok sheet ∧
      (Node.declaration commentedDeclaration).Occurs sheet.nodes ∧ commentedStatement.IsClear ∧
      ¬commentedDeclaration.ReadsBare commentedStatement.pieces) ∧
    ∃ sheet, Sheet.parse "a/*b*/:c" = .ok sheet ∧
      (Node.declaration bareDeclaration).Occurs sheet.nodes ∧ bareStatement.IsClear ∧
      bareDeclaration.ReadsBare bareStatement.pieces := by
  constructor
  · obtain ⟨sheet, h, hoccurs⟩ :=
      @Declaration.exists_occurs "a/*:*/:b" commentedDeclaration (by decide +kernel)
    have hiff := (readsBare_iff h hoccurs).2 commentedStatement commentedStatement_isClear
    refine ⟨sheet, h, hoccurs, commentedStatement_isClear, fun hbare => ?_⟩
    have hcolon := hiff.1 hbare
    simp [commentedStatement] at hcolon
  · obtain ⟨sheet, h, hoccurs⟩ :=
      @Declaration.exists_occurs "a/*b*/:c" bareDeclaration (by decide +kernel)
    have hiff := (readsBare_iff h hoccurs).2 bareStatement bareStatement_isClear
    exact ⟨sheet, h, hoccurs, bareStatement_isClear, hiff.2 bareStatement_isBare⟩

/-- The value of a declaration starts in the comment before its colon. -/
theorem value_starts_in_comment :
    ((Sheet.parse "font-weight/* a:b */: bold").toOption.map fun sheet =>
      sheet.declarations.map fun (decl, _) => (decl.prop, decl.value.text, decl.value.offset)) =
    some [("font-weight", "b */: bold", 16)] := by
  decide +kernel

end SheetPolicy

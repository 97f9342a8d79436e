import Mathlib
import SheetPolicy.Proofs.Located

/-!
What an excerpt keeps of its source. Removing comments drops whole comments and nothing else
(`Strips`); trimming and splitting off `!important` shorten what is kept at its ends. So every
excerpt is a stretch of the source without its comments (`Excerpt.IsFrom`), and its offsets are
exact (`Excerpt.IsFrom.exact`).
-/

namespace SheetPolicy

/-! ## Comments -/

/-- The characters are a comment: an opening mark, a body without a closing mark, a closing
mark. -/
def IsComment (cs : List Located) : Prop :=
  ∃ body, cs.map Located.char = '/' :: '*' :: (body ++ ['*', '/']) ∧ ¬['*', '/'] <:+: body

namespace Lexeme

/-- A comment ends at its first closing mark. -/
theorem closeComment_chars {cs body after : List Located}
    (h : closeComment cs = some (body, after)) :
    ∃ inner, body.map Located.char = inner ++ ['*', '/'] ∧ ¬['*', '/'] <:+: inner := by
  fun_induction closeComment cs generalizing body after with
  | case1 => simp at h
  | case2 => simp at h
  | case3 c d rest hmark =>
    obtain ⟨rfl, rfl⟩ := by simpa using h
    exact ⟨[], by simp [hmark], by simp⟩
  | case4 c d rest hmark ih =>
    obtain ⟨⟨b, a⟩, hb, heq⟩ := Option.map_eq_some_iff.1 h
    obtain ⟨rfl, rfl⟩ := by simpa using heq
    obtain ⟨inner, hinner, hfree⟩ := ih hb
    refine ⟨c.char :: inner, by simp [hinner], ?_⟩
    rw [List.infix_cons_iff]
    rintro (hmarkFirst | hinfix)
    · -- A mark at the front would have closed the comment here.
      have hd : (b ++ a).map Located.char = (d :: rest).map Located.char :=
        congrArg _ (closeComment_append hb)
      rw [List.cons_prefix_cons] at hmarkFirst
      obtain ⟨hc, hslash⟩ := hmarkFirst
      cases inner with
      | nil => simp at hslash
      | cons x inner =>
        obtain rfl := by simpa using hslash
        simp only [List.map_append, hinner, List.cons_append, List.map_cons, List.cons.injEq] at hd
        exact hmark ⟨hc.symm, hd.1.symm⟩
    · exact hfree hinfix

theorem next_isComment {c : Located} {rest after : List Located} {l : Lexeme}
    (h : next c rest = .ok (l, after)) (hl : l.kind = .comment) : IsComment l.chars := by
  unfold next at h
  split at h
  · split at h <;> (obtain ⟨rfl, rfl⟩ := by simpa using h) <;> simp at hl
  · split at h
    · split at h
      · obtain ⟨rfl, rfl⟩ := by simpa using h
        simp at hl
      · simp at h
    · split at h
      · obtain ⟨rfl, rfl⟩ := by simpa using h
        simp at hl
      · split at h
        · rename_i hmark
          split at h
          · rename_i body a hbody
            obtain ⟨rfl, rfl⟩ := by simpa using h
            obtain ⟨inner, hinner, hfree⟩ := closeComment_chars hbody
            exact ⟨inner, by simp [hmark, hinner], hfree⟩
          · simp at h
        · obtain ⟨rfl, rfl⟩ := by simpa using h
          simp at hl

end Lexeme

/-! ## Removing comments -/

/-- The second list is the first one without some whole comments. -/
inductive Strips : List Located → List Located → Prop
  | nil : Strips [] []
  | keep {cs kept : List Located} (c : Located) : Strips cs kept → Strips (c :: cs) (c :: kept)
  | drop {comment cs kept : List Located} :
      IsComment comment → Strips cs kept → Strips (comment ++ cs) kept

namespace Strips

theorem refl (cs : List Located) : Strips cs cs := by
  induction cs with
  | nil => exact .nil
  | cons c cs ih => exact .keep c ih

theorem append {cs ds kept more : List Located} (h : Strips cs kept) (h' : Strips ds more) :
    Strips (cs ++ ds) (kept ++ more) := by
  induction h with
  | nil => exact h'
  | keep c _ ih => exact .keep c ih
  | drop hcomment _ ih =>
    rw [List.append_assoc]
    exact .drop hcomment ih

theorem sublist {cs kept : List Located} (h : Strips cs kept) : kept.Sublist cs := by
  induction h with
  | nil => exact .slnil
  | keep c _ ih => exact ih.cons_cons c
  | drop _ _ ih => exact ih.trans (List.sublist_append_right _ _)

/-- Where the kept characters divide, the source divides. -/
theorem of_append {cs kept more : List Located} (h : Strips cs (kept ++ more)) :
    ∃ xs ys, cs = xs ++ ys ∧ Strips xs kept ∧ Strips ys more := by
  generalize hall : kept ++ more = all at h
  induction h generalizing kept with
  | nil =>
    obtain ⟨rfl, rfl⟩ := by simpa using hall
    exact ⟨[], [], rfl, .nil, .nil⟩
  | @keep cs rest c hrest ih =>
    cases kept with
    | nil =>
      obtain rfl : more = c :: rest := hall
      exact ⟨[], c :: cs, rfl, .nil, .keep c hrest⟩
    | cons d kept =>
      obtain ⟨rfl, htail⟩ := by simpa using hall
      obtain ⟨xs, ys, rfl, hxs, hys⟩ := ih htail
      exact ⟨d :: xs, ys, rfl, .keep d hxs, hys⟩
  | @drop comment cs rest hcomment _ ih =>
    obtain ⟨xs, ys, rfl, hxs, hys⟩ := ih hall
    exact ⟨comment ++ xs, ys, by simp, .drop hcomment hxs, hys⟩

/-- The first kept character has only comments before it. -/
theorem of_cons {cs kept : List Located} {c : Located} (h : Strips cs (c :: kept)) :
    ∃ gap rest, cs = gap ++ c :: rest ∧ Strips gap [] ∧ Strips rest kept := by
  generalize hall : c :: kept = all at h
  induction h with
  | nil => simp at hall
  | @keep cs rest d hrest _ =>
    obtain ⟨rfl, rfl⟩ := by simpa using hall
    exact ⟨[], cs, rfl, .nil, hrest⟩
  | @drop comment cs rest hcomment _ ih =>
    obtain ⟨gap, tail, rfl, hgap, htail⟩ := ih hall
    exact ⟨comment ++ gap, tail, by simp, .drop hcomment hgap, htail⟩

/-- Where nothing is kept there are comments only. -/
theorem of_nil {cs : List Located} (h : Strips cs []) :
    ∃ comments : List (List Located), cs = comments.flatten ∧ ∀ x ∈ comments, IsComment x := by
  generalize hall : ([] : List Located) = all at h
  induction h with
  | nil => exact ⟨[], rfl, by simp⟩
  | keep => simp at hall
  | @drop comment cs rest hcomment _ ih =>
    obtain ⟨comments, rfl, hcomments⟩ := ih hall
    exact ⟨comment :: comments, rfl, by simpa using ⟨hcomment, hcomments⟩⟩

end Strips

namespace Excerpt

/-- A list that adjoins divides at every offset into what starts before it and the rest. -/
theorem filter_lt_append {start stop o : Nat} {cs : List Located} (h : Located.Runs start cs stop) :
    ∃ back, cs = cs.filter (fun c => c.offset < o) ++ back ∧ ∀ c ∈ back, o ≤ c.offset := by
  induction cs generalizing start with
  | nil => exact ⟨[], rfl, by simp⟩
  | cons c cs ih =>
    obtain ⟨rfl, htail⟩ := h
    by_cases hc : c.offset < o
    · obtain ⟨back, heq, hback⟩ := ih htail
      refine ⟨back, ?_, hback⟩
      rw [List.filter_cons_of_pos (by simpa using hc), List.cons_append, ← heq]
    · -- The list is in order, so nothing after `c` starts before `o` either.
      have hlater : ∀ d ∈ c :: cs, o ≤ d.offset := by
        intro d hd
        rcases List.mem_cons.1 hd with rfl | hd
        · omega
        · have := (htail.offset_mem hd).1
          have := c.offset_lt_stop
          omega
      refine ⟨c :: cs, ?_, hlater⟩
      rw [List.filter_eq_nil_iff.2 (by simpa using hlater), List.nil_append]

/-- `kept` is what stands before `stop`, without comments. -/
structure Keeps (stop : Nat) (cs kept : List Located) : Prop where
  front : ∃ front back, cs = front ++ back ∧ Strips front kept ∧ ∀ c ∈ back, stop ≤ c.offset
  lt : ∀ c ∈ kept, c.offset < stop

/-- A unit that is no comment is kept as far as it stands before `stop`. -/
theorem Keeps.unit {start size stop : Nat} {xs after more : List Located}
    (hruns : Located.Runs start (xs ++ after) size) (h : Keeps stop after more) :
    Keeps stop (xs ++ after) (xs.filter (fun d => d.offset < stop) ++ more) := by
  obtain ⟨hxs, hafter⟩ := hruns.of_append
  obtain ⟨⟨front, back, rfl, hstrips, hback⟩, hkept⟩ := h
  refine ⟨?_, ?_⟩
  · obtain ⟨past, hsplit, hpast⟩ := @filter_lt_append _ _ stop _ hxs
    cases past with
    | nil =>
      rw [List.append_nil] at hsplit
      rw [← hsplit]
      exact ⟨xs ++ front, back, by simp, (Strips.refl _).append hstrips, hback⟩
    | cons d past =>
      -- The unit reaches past `stop`, so nothing after it is kept.
      have hd := hpast d List.mem_cons_self
      have hdxs : d ∈ xs := by rw [hsplit]; simp
      have hlater : ∀ e ∈ front ++ back, stop ≤ e.offset := by
        intro e he
        have := (hxs.offset_mem hdxs).2
        have := (hafter.offset_mem he).1
        have := d.offset_lt_stop
        omega
      have hnone : more = [] := by
        rw [List.eq_nil_iff_forall_not_mem]
        intro e he
        have := hkept e he
        have := hlater e (List.mem_append_left _ (hstrips.sublist.subset he))
        omega
      subst hnone
      refine ⟨xs.filter (fun d => d.offset < stop), d :: past ++ (front ++ back), ?_, ?_, ?_⟩
      · rw [← List.append_assoc (xs.filter _), ← hsplit]
      · rw [List.append_nil]
        exact .refl _
      · intro e he
        rcases List.mem_append.1 he with he | he
        · exact hpast e he
        · exact hlater e he
  · intro d hd
    rcases List.mem_append.1 hd with hd | hd
    · simpa using (List.mem_filter.1 hd).2
    · exact hkept d hd

theorem keep_keeps {start size stop : Nat} {cs kept : List Located}
    (hruns : Located.Runs start cs size) (h : keep stop cs = .ok kept) : Keeps stop cs kept := by
  fun_induction keep stop cs generalizing start kept with
  | case1 =>
    obtain rfl := by simpa using h
    exact ⟨⟨[], [], rfl, .nil, by simp⟩, by simp⟩
  | case2 => simp at h
  | case3 => simp at h
  | case4 c rest hlt l after hnext _ more hmore hcomment ih =>
    obtain rfl := by simpa using h
    rw [← Lexeme.next_append hnext] at hruns ⊢
    obtain ⟨⟨front, back, rfl, hstrips, hback⟩, hkept⟩ := ih hruns.of_append.2 hmore
    refine ⟨⟨l.chars ++ front, back, by simp, ?_, hback⟩, hkept⟩
    exact .drop (Lexeme.next_isComment hnext hcomment) hstrips
  | case5 c rest hlt l after hnext _ more hmore hcomment ih =>
    obtain rfl := by simpa using h
    rw [← Lexeme.next_append hnext] at hruns ⊢
    exact .unit hruns (ih hruns.of_append.2 hmore)
  | case6 c rest hge =>
    obtain rfl := by simpa using h
    refine ⟨⟨[], c :: rest, rfl, .nil, ?_⟩, by simp⟩
    intro d hd
    have := (hruns.offset_mem hd).1
    obtain ⟨rfl, _⟩ := hruns
    omega

/-! ## Trimming -/

theorem append_takeWhile_reverse {α : Type} (p : α → Bool) (xs : List α) :
    Text.dropRightWhile p xs ++ (xs.reverse.takeWhile p).reverse = xs := by
  rw [Text.dropRightWhile, ← List.reverse_append, List.takeWhile_append_dropWhile,
    List.reverse_reverse]

/-- What trimming at the right leaves out. -/
theorem drop_length_dropRightWhile {α : Type} (p : α → Bool) (xs : List α) :
    xs.drop (Text.dropRightWhile p xs).length = (xs.reverse.takeWhile p).reverse := by
  have h := congrArg (List.drop (Text.dropRightWhile p xs).length) (append_takeWhile_reverse p xs)
  rw [← h, List.drop_left]

theorem dropRightWhile_append_drop {α : Type} (p : α → Bool) (xs : List α) :
    Text.dropRightWhile p xs ++ xs.drop (Text.dropRightWhile p xs).length = xs := by
  rw [drop_length_dropRightWhile, append_takeWhile_reverse]

theorem of_mem_drop_dropRightWhile {α : Type} {p : α → Bool} {xs : List α} {x : α}
    (hx : x ∈ xs.drop (Text.dropRightWhile p xs).length) : p x = true := by
  rw [drop_length_dropRightWhile, List.mem_reverse] at hx
  exact List.mem_takeWhile_imp hx

/-- Trimming leaves out blank characters at both ends, and the excerpt stops where the blanks
after it start. -/
theorem trim_append (kept : List Located) (stop : Nat) :
    ∃ lead tail, kept = lead ++ ((trim kept stop).chars ++ tail) ∧
      (trim kept stop).stop = Located.startOf stop tail ∧
      ∀ c ∈ lead ++ tail, Text.isBlank c.char = true := by
  let blank : Located → Bool := fun c => Text.isBlank c.char
  let body := kept.dropWhile blank
  refine ⟨kept.takeWhile blank, body.drop (Text.dropRightWhile blank body).length, ?_, rfl, ?_⟩
  · have hbody := dropRightWhile_append_drop blank body
    have hkept := List.takeWhile_append_dropWhile (p := blank) (l := kept)
    exact hkept.symm.trans (congrArg (kept.takeWhile blank ++ ·) hbody.symm)
  · intro c hc
    rcases List.mem_append.1 hc with hc | hc
    · exact (List.mem_takeWhile_imp hc : blank c = true)
    · exact (of_mem_drop_dropRightWhile hc : blank c = true)

/-- Trimming leaves out blanks only. -/
theorem mem_trim {kept : List Located} {stop : Nat} {c : Located} (hc : c ∈ kept)
    (hblank : Text.isBlank c.char = false) : c ∈ (trim kept stop).chars := by
  obtain ⟨lead, tail, hkept, _, hblanks⟩ := trim_append kept stop
  rw [hkept] at hc
  rcases List.mem_append.1 hc with hlead | hc
  · simp [hblanks c (List.mem_append_left _ hlead)] at hblank
  · rcases List.mem_append.1 hc with hchars | htail
    · exact hchars
    · simp [hblanks c (List.mem_append_right _ htail)] at hblank

theorem text_trim (kept : List Located) (stop : Nat) :
    (trim kept stop).text = Text.trim (Located.text kept) := by
  have hright : ∀ cs : List Located,
      (Text.dropRightWhile (fun c => Text.isBlank c.char) cs).map Located.char =
        Text.dropRightWhile Text.isBlank (cs.map Located.char) := by
    intro cs
    rw [Text.dropRightWhile, Text.dropRightWhile, ← List.map_reverse, List.dropWhile_map,
      List.map_reverse]
    rfl
  rw [text, Located.text, trim, hright, Text.trim, Located.text, String.toList_ofList,
    Text.trimChars, List.dropWhile_map]
  rfl

/-- The characters are a stretch of the source without its comments. -/
def Stretch (source : String) (kept : List Located) : Prop :=
  ∃ before region after, Located.ofString source = before ++ region ++ after ∧ Strips region kept

theorem Stretch.sublist {source : String} {kept : List Located} (h : Stretch source kept) :
    kept.Sublist (Located.ofString source) := by
  obtain ⟨before, region, after, hsource, hstrips⟩ := h
  rw [hsource, List.append_assoc]
  exact hstrips.sublist.trans
    ((List.sublist_append_left _ _).trans (List.sublist_append_right _ _))

theorem Stretch.pairwise {source : String} {kept : List Located} (h : Stretch source kept) :
    kept.Pairwise fun c d => c.stop ≤ d.offset :=
  (Located.runs_ofString source).pairwise.sublist h.sublist

theorem Stretch.middle {source : String} {xs ys zs : List Located}
    (h : Stretch source (xs ++ (ys ++ zs))) : Stretch source ys := by
  obtain ⟨before, region, after, hsource, hstrips⟩ := h
  obtain ⟨us, rest, rfl, _, hrest⟩ := hstrips.of_append
  obtain ⟨vs, ws, rfl, hys, _⟩ := hrest.of_append
  exact ⟨before ++ us, vs, ws ++ after, by simp [hsource], hys⟩

/-- Between characters that follow each other in a stretch the source has comments only. -/
theorem Stretch.between {source : String} {xs ys : List Located} {c d : Located}
    (h : Stretch source (xs ++ c :: d :: ys)) :
    ∃ before comments after, Located.ofString source =
        before ++ c :: (List.flatten comments ++ d :: after) ∧ ∀ x ∈ comments, IsComment x := by
  obtain ⟨before, region, after, hsource, hstrips⟩ := h
  obtain ⟨us, rest, rfl, _, hrest⟩ := hstrips.of_append
  obtain ⟨lead, rest, rfl, _, hrest⟩ := hrest.of_cons
  obtain ⟨gap, rest, rfl, hgap, _⟩ := hrest.of_cons
  obtain ⟨comments, rfl, hcomments⟩ := hgap.of_nil
  exact ⟨before ++ (us ++ lead), comments, rest ++ after, by simp [hsource], hcomments⟩

/-- The excerpt is a stretch of the source between `low` and `high` without its comments, and stops
between two characters of the source. -/
structure IsFrom (source : String) (low high : Nat) (e : Excerpt) : Prop where
  stretch : Stretch source e.chars
  low_le : ∀ c ∈ e.chars, low ≤ c.offset
  low_le_stop : low ≤ e.stop
  le_stop : ∀ c ∈ e.chars, c.stop ≤ e.stop
  stop_le : e.stop ≤ high
  cut : Located.IsCut (Located.ofString source) source.utf8ByteSize e.stop

/-- Trimming keeps an excerpt within its bounds. The kept characters all end by `stop`, which lies
between two characters. -/
theorem trim_isFrom {source : String} {low stop : Nat} {kept : List Located}
    (hstretch : Stretch source kept) (hlow : ∀ c ∈ kept, low ≤ c.offset) (hlowStop : low ≤ stop)
    (hstop : ∀ c ∈ kept, c.stop ≤ stop)
    (hcut : Located.IsCut (Located.ofString source) source.utf8ByteSize stop) :
    IsFrom source low stop (trim kept stop) := by
  obtain ⟨lead, tail, hkept, hend, _⟩ := trim_append kept stop
  have hchars : ∀ c ∈ (trim kept stop).chars, c ∈ kept := by
    intro c hc
    rw [hkept]
    simp [hc]
  have hmiddle : Stretch source (trim kept stop).chars := Stretch.middle (hkept ▸ hstretch)
  suffices h : low ≤ (trim kept stop).stop ∧
      (∀ c ∈ (trim kept stop).chars, c.stop ≤ (trim kept stop).stop) ∧
      (trim kept stop).stop ≤ stop ∧
      Located.IsCut (Located.ofString source) source.utf8ByteSize (trim kept stop).stop from
    ⟨hmiddle, fun c hc => hlow c (hchars c hc), h.1, h.2.1, h.2.2.1, h.2.2.2⟩
  rw [hend]
  cases tail with
  | nil => exact ⟨hlowStop, fun c hc => hstop c (hchars c hc), le_rfl, hcut⟩
  | cons d tail =>
    -- The excerpt stops at the first blank that is left out.
    have hd : d ∈ kept := by rw [hkept]; simp
    have hordered := hstretch.pairwise
    rw [hkept, List.pairwise_append, List.pairwise_append] at hordered
    have := hstop d hd
    have := d.offset_lt_stop
    refine ⟨hlow d hd, fun c hc => hordered.2.1.2.2 c hc d List.mem_cons_self, ?_,
      .inr ⟨d, hstretch.sublist.subset hd, rfl⟩⟩
    simp only [Located.startOf]
    omega

theorem IsFrom.mono {source : String} {low high low' high' : Nat} {e : Excerpt}
    (h : IsFrom source low high e) (hlow : low' ≤ low) (hhigh : high ≤ high') :
    IsFrom source low' high' e where
  stretch := h.stretch
  low_le c hc := hlow.trans (h.low_le c hc)
  low_le_stop := hlow.trans h.low_le_stop
  le_stop := h.le_stop
  stop_le := h.stop_le.trans hhigh
  cut := h.cut

/-- Cutting the source before `stop` gives an excerpt between where it starts and `stop`. -/
theorem cut_isFrom {source : String} {stop : Nat} {cs : List Located} {e : Excerpt}
    (hsuffix : cs <:+ Located.ofString source)
    (hcut : Located.IsCut (Located.ofString source) source.utf8ByteSize stop)
    (hlow : Located.startOf source.utf8ByteSize cs ≤ stop) (h : cut cs stop = .ok e) :
    IsFrom source (Located.startOf source.utf8ByteSize cs) stop e := by
  obtain ⟨before, hbefore⟩ := hsuffix
  have hsource := Located.runs_ofString source
  obtain ⟨_, hruns⟩ := (hbefore ▸ hsource).of_append
  have hstart := hruns.startOf_eq
  unfold cut at h
  cases hkeep : keep stop cs with
  | error err => simp [hkeep, Except.map] at h
  | ok kept =>
    obtain rfl : trim kept stop = e := by simpa [hkeep, Except.map] using h
    obtain ⟨⟨front, back, rfl, hstrips, _⟩, hlt⟩ := keep_keeps hruns hkeep
    have hmem : ∀ c ∈ kept, c ∈ front ++ back :=
      fun c hc => List.mem_append_left _ (hstrips.sublist.subset hc)
    refine trim_isFrom ⟨before, front, back, by simp [← hbefore], hstrips⟩ ?_ hlow ?_ hcut
    · intro c hc
      rw [hstart]
      exact (hruns.offset_mem (hmem c hc)).1
    · intro c hc
      have hin : c ∈ Located.ofString source :=
        hbefore ▸ List.mem_append_right _ (hmem c hc)
      exact hcut.stop_le hsource hin (hlt c hc)

/-- Either nothing is split off, or the excerpt ends with a mark and the word, and is trimmed before
the mark. -/
theorem splitImportant_cases (e : Excerpt) :
    e.splitImportant = (e, false) ∨
      ∃ before bang word, e.chars = before ++ bang :: word ∧ bang.char = '!' ∧
        Text.sameLetters (Text.trim (Located.text word)) "important" = true ∧
        e.splitImportant = (trim before bang.offset, true) := by
  have happ := List.takeWhile_append_dropWhile (p := fun c : Located => decide (c.char ≠ '!'))
    (l := e.chars.reverse)
  rw [splitImportant, List.span_eq_takeWhile_dropWhile]
  have hhead := List.head?_dropWhile_not (fun c : Located => decide (c.char ≠ '!')) e.chars.reverse
  generalize e.chars.reverse.takeWhile (fun c => decide (c.char ≠ '!')) = word at happ ⊢
  generalize e.chars.reverse.dropWhile (fun c => decide (c.char ≠ '!')) = rest at happ hhead ⊢
  cases rest with
  | nil => exact .inl rfl
  | cons bang before =>
    simp only
    split
    · refine .inr ⟨before.reverse, bang, word.reverse, ?_, by simpa using hhead, ‹_›, rfl⟩
      rw [← List.reverse_reverse e.chars, ← happ]
      simp
    · exact .inl rfl

/-- The last mark decides: what follows it is the word, or nothing is split off. -/
theorem splitImportant_last {e : Excerpt} {before word : List Located} {bang : Located}
    (h : e.chars = before ++ bang :: word) (hbang : bang.char = '!')
    (hword : ∀ c ∈ word, c.char ≠ '!') :
    e.splitImportant =
      if Text.sameLetters (Text.trim (Located.text word)) "important" then
        (trim before bang.offset, true)
      else (e, false) := by
  have hreverse : e.chars.reverse = word.reverse ++ bang :: before.reverse := by simp [h]
  have hinside : ∀ c ∈ word.reverse, decide (c.char ≠ '!') = true := by
    intro c hc
    simpa using hword c (List.mem_reverse.1 hc)
  rw [splitImportant, List.span_eq_takeWhile_dropWhile, hreverse,
    List.takeWhile_append_of_pos hinside, List.dropWhile_append_of_pos hinside,
    List.takeWhile_cons_of_neg (by simp [hbang]), List.dropWhile_cons_of_neg (by simp [hbang])]
  simp

/-- Splitting off `!important` keeps an excerpt within its bounds. -/
theorem splitImportant_isFrom {source : String} {low high : Nat} {e : Excerpt}
    (h : IsFrom source low high e) : IsFrom source low high e.splitImportant.1 := by
  rcases splitImportant_cases e with heq | ⟨before, bang, word, hchars, _, _, heq⟩
  · rwa [heq]
  · rw [heq]
    have hbang : bang ∈ e.chars := by rw [hchars]; simp
    have hbefore : ∀ c ∈ before, c ∈ e.chars := by
      intro c hc
      rw [hchars]
      exact List.mem_append_left _ hc
    have hstretch : Stretch source ([] ++ (before ++ bang :: word)) := hchars ▸ h.stretch
    have hordered := List.pairwise_append.1 (hchars ▸ h.stretch.pairwise)
    have hhigh : bang.offset ≤ high :=
      (Nat.le_of_lt bang.offset_lt_stop).trans ((h.le_stop bang hbang).trans h.stop_le)
    have hcut := h.stretch.sublist.subset hbang
    refine (trim_isFrom hstretch.middle ?_ (h.low_le bang hbang) ?_ (.inr ⟨bang, hcut, rfl⟩)).mono
      le_rfl hhigh
    · exact fun c hc => h.low_le c (hbefore c hc)
    · exact fun c hc => hordered.2.2 c hc bang List.mem_cons_self

/-! ## Exactness -/

theorem utf8ByteSize_text (e : Excerpt) : e.text.utf8ByteSize = e.size :=
  Located.utf8ByteSize_text e.chars

/-- The excerpt takes every byte of its text back to that byte of the source. -/
structure Exact (source : String) (span : Span) (e : Excerpt) : Prop where
  byte : ∀ i < e.text.utf8ByteSize,
    ∃ b, (Text.bytes source)[e.sourceOffset i]? = some b ∧ (Text.bytes e.text)[i]? = some b
  increasing : ∀ i j, i < j → j ≤ e.text.utf8ByteSize → e.sourceOffset i < e.sourceOffset j
  inside : ∀ i ≤ e.text.utf8ByteSize,
    span.start ≤ e.sourceOffset i ∧ e.sourceOffset i ≤ span.stop
  start : e.offset = e.sourceOffset 0

theorem IsFrom.exact {source : String} {span : Span} {e : Excerpt}
    (h : IsFrom source span.start span.stop e) : Exact source span e := by
  have hordered := h.stretch.pairwise
  refine ⟨?_, ?_, ?_, rfl⟩
  · intro i hi
    rw [utf8ByteSize_text] at hi
    obtain ⟨c, hc, k, hk, hplace, hbyte⟩ := @Located.exists_mem_of_lt_size e.stop i e.chars hi
    have hsource := Located.getElem?_bytes_ofString (h.stretch.sublist.subset hc) hk
    have hlen : k < (String.utf8EncodeChar c.char).length := by simpa using hk
    refine ⟨(String.utf8EncodeChar c.char)[k], ?_, ?_⟩
    · rw [sourceOffset, hplace, hsource, List.getElem?_eq_getElem hlen]
    · rw [text, hbyte, List.getElem?_eq_getElem hlen]
  · intro i j hij hj
    rw [utf8ByteSize_text] at hj
    exact Located.offsetAt_lt_offsetAt hordered h.le_stop hij hj
  · intro i hi
    rw [utf8ByteSize_text] at hi
    exact ⟨Located.le_offsetAt h.low_le h.low_le_stop i,
      (Located.offsetAt_le hordered h.le_stop hi).trans h.stop_le⟩

/-! ## Places in the text -/

/-- Where the text divides, the kept characters divide, and the place in the source is where the
rest of them starts. -/
theorem split_text {e : Excerpt} {before after : List Located}
    (h : Located.ofString e.text = before ++ after) :
    ∃ front back, e.chars = front ++ back ∧ front.map Located.char = before.map Located.char ∧
      back.map Located.char = after.map Located.char ∧
      e.sourceOffset (Located.size before) = Located.startOf e.stop back := by
  have hchars : e.chars.map Located.char = before.map Located.char ++ after.map Located.char := by
    rw [← List.map_append, ← h, Located.ofString, Located.map_char_place, text, Located.text,
      String.toList_ofList]
  obtain ⟨front, back, heq, hfront, hback⟩ := List.map_eq_append_iff.1 hchars
  refine ⟨front, back, heq, hfront, hback, ?_⟩
  rw [← Located.size_eq_of_map_char hfront, sourceOffset, heq, Located.offsetAt_append]

/-- A place between characters of the text is one between characters of the source. -/
theorem IsFrom.place {source : String} {low high : Nat} {e : Excerpt}
    (hfrom : IsFrom source low high e) {before after : List Located}
    (h : Located.ofString e.text = before ++ after) :
    Located.IsCut (Located.ofString source) source.utf8ByteSize
        (e.sourceOffset (Located.size before)) ∧
      low ≤ e.sourceOffset (Located.size before) ∧
      e.sourceOffset (Located.size before) ≤ high := by
  obtain ⟨front, back, hchars, _, _, hplace⟩ := split_text h
  rw [hplace]
  cases back with
  | nil => exact ⟨hfrom.cut, hfrom.low_le_stop, hfrom.stop_le⟩
  | cons d back =>
    have hd : d ∈ e.chars := by simp [hchars]
    have hstop := (Located.offset_lt_stop d).le.trans ((hfrom.le_stop d hd).trans hfrom.stop_le)
    exact ⟨.inr ⟨d, hfrom.stretch.sublist.subset hd, rfl⟩, hfrom.low_le d hd, hstop⟩

/-- The text starts at its first character. -/
theorem IsFrom.first_place {source : String} {low high : Nat} {e : Excerpt}
    (hfrom : IsFrom source low high e) {first : Located} {rest : List Located}
    (h : e.chars = first :: rest) : e.offset = first.offset ∧ first.offset < high := by
  have hmem : first ∈ e.chars := by simp [h]
  refine ⟨?_, (Located.offset_lt_stop first).trans_le
    ((hfrom.le_stop first hmem).trans hfrom.stop_le)⟩
  rw [Excerpt.offset, sourceOffset, h]
  exact Located.offsetAt_append _ [] (first :: rest)

/-- A character of the text is a character of the source at its place. -/
theorem IsFrom.char_place {source : String} {low high : Nat} {e : Excerpt}
    (hfrom : IsFrom source low high e) {before after : List Located} {c : Located}
    (h : Located.ofString e.text = before ++ c :: after) :
    ∃ d ∈ Located.ofString source, d.char = c.char ∧
      e.sourceOffset (Located.size before) = d.offset ∧ d.offset < high := by
  obtain ⟨front, back, hchars, _, hback, hplace⟩ := split_text h
  obtain ⟨d, back, rfl, hd, _⟩ := List.map_eq_cons_iff.1 hback
  have hmem : d ∈ e.chars := by simp [hchars]
  have hstop := (hfrom.le_stop d hmem).trans hfrom.stop_le
  have hlt := (Located.offset_lt_stop d).trans_le hstop
  exact ⟨d, hfrom.stretch.sublist.subset hmem, hd, hplace, hlt⟩

end Excerpt

end SheetPolicy

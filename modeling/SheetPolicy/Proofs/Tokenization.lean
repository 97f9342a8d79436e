import Mathlib
import SheetPolicy.Proofs.PlainText
import SheetPolicy.Proofs.Cursor.Clip

/-!
The loop that looks for the end of a statement and the loop that copies what stands before it agree.
Where no interpolation opens, both skip the same strings and comments, and all of these end at or
before the end of the statement. So it makes no difference whether the copying loop keeps within the
range or not, and the copy is the range without just these comments and without blank characters at
its ends. Main statement: `excerpt_follows_scan`.
-/

namespace SheetPolicy

/-! ## Ranges of a source -/

/-- The characters from an offset on. -/
def Located.since (source : String) (start : Nat) : List Located :=
  (Located.ofString source).filter fun c => start ≤ c.offset

/-- The characters between two offsets. -/
def Located.between (source : String) (start stop : Nat) : List Located :=
  (Located.ofString source).filter fun c => start ≤ c.offset && c.offset < stop

namespace Cursor

variable {source : String} {start : Nat} {taken tail : List Located}

theorem since_spot {cs : List Located} (h : cs <:+ Located.ofString source) :
    Located.since source (spot source cs) = cs := by
  have hfilter := @filter_spot source cs [] (by simpa using h)
  rw [List.append_nil] at hfilter
  conv_rhs => rw [← hfilter]
  refine List.filter_congr fun c hc => ?_
  have hlt := (Located.Rising.of_runs (Located.runs_ofString source)).lt c hc
  simp [hlt]

/-- From an offset between characters on stands an end of the text. -/
theorem exists_spot_eq (h : Sheet.isBoundary source start = true) :
    ∃ cs, cs <:+ Located.ofString source ∧ spot source cs = start := by
  rcases Located.isBoundary_iff.1 h with rfl | ⟨c, hc, rfl⟩
  · exact ⟨[], List.nil_suffix, rfl⟩
  · obtain ⟨before, after, hcs⟩ := List.append_of_mem hc
    exact ⟨c :: after, ⟨before, hcs.symm⟩, rfl⟩

theorem between_spot (h : taken ++ tail <:+ Located.ofString source) :
    Located.between source (spot source (taken ++ tail)) (spot source tail) = taken :=
  filter_spot h

/-! ## The loop over whole units -/

/-- From the offset of `cs` on the loop skips the strings and comments of the units, up to `tail`, and
copies what waits and what is kept of the units, with or without clamps. -/
def Copies (source : String) (clip : Clip) (kept pending cs : List Located) (ls : List Lexeme)
    (tail : List Located) : Prop :=
  ∃ result, result.Shows (kept ++ (pending ++ ls.flatMap Lexeme.kept)) (spot source tail) ∧
    ∀ clamped, sweepSkips clamped source (spot source tail) clip (spot source (pending ++ cs))
      (spot source cs) = .ok (ls.filterMap Lexeme.skip?, result)

section Copies

variable {clip : Clip} {kept pending cs rest after : List Located} {c : Located} {l : Lexeme}
  {ls : List Lexeme}

theorem copies_nil (h : pending ++ tail <:+ Located.ofString source)
    (hshows : clip.Shows kept (spot source (pending ++ tail))) :
    Copies source clip kept pending tail [] tail := by
  refine ⟨clip.append (Located.text pending), ?_, fun clamped => ?_⟩
  · simpa using hshows.append (runs_of_append h)
  · have hle := spot_mono h (List.suffix_append pending tail)
    rw [sweepSkips_of_le le_rfl, Nat.max_eq_left hle, ite_self, cut_append h]
    rfl

/-- A unit that is no comment waits to be copied. -/
theorem Copies.unit (hnext : Lexeme.next c rest = .ok (l, after)) (hkind : l.kind ≠ .comment)
    (h : pending ++ c :: rest <:+ Located.ofString source) (hlt : c.offset < spot source tail)
    (hstop : spot source tail ≤ source.utf8ByteSize)
    (hafter : Copies source clip kept (pending ++ l.chars) after ls tail) :
    Copies source clip kept pending (c :: rest) (l :: ls) tail := by
  have hcs : c :: rest <:+ Located.ofString source := (List.suffix_append pending _).trans h
  obtain ⟨result, hresult, hsweep⟩ := hafter
  rw [List.append_assoc, Lexeme.next_append hnext] at hsweep
  refine ⟨result, ?_, fun clamped => ?_⟩
  · simpa [Lexeme.kept, hkind] using hresult
  · rw [spot_cons, sweepSkips_cons hcs hstop hlt ((kind_eq_comment_iff hnext).not.1 hkind), hnext,
      faultless_ok, ok_bind, hsweep clamped, Except.map, note_filterMap]

/-- At a comment all that waits is copied. The comment ends within the range, so that no clamp keeps
it there. -/
theorem Copies.comment (hnext : Lexeme.next c rest = .ok (l, after)) (hkind : l.kind = .comment)
    (h : pending ++ c :: rest <:+ Located.ofString source)
    (hshows : clip.Shows kept (spot source (pending ++ c :: rest)))
    (hlt : c.offset < spot source tail) (hle : spot source after ≤ spot source tail)
    (hstop : spot source tail ≤ source.utf8ByteSize)
    (hafter : ∀ clip', clip'.Shows (kept ++ pending) (spot source after) →
      Copies source clip' (kept ++ pending) [] after ls tail) :
    Copies source clip kept pending (c :: rest) (l :: ls) tail := by
  have hcs : c :: rest <:+ Located.ofString source := (List.suffix_append pending _).trans h
  have hlater := lt_spot hcs (next_suffix hnext)
  have hskip := (hshows.append (runs_of_append h)).skip (spot source after - c.offset)
  rw [spot_cons, Nat.add_sub_cancel' hlater.1.le] at hskip
  obtain ⟨result, hresult, hsweep⟩ := hafter _ hskip
  rw [List.nil_append] at hsweep
  refine ⟨result, ?_, fun clamped => ?_⟩
  · simpa [Lexeme.kept, hkind] using hresult
  · rw [spot_cons, sweepSkips_comment hcs hlt hstop ((kind_eq_comment_iff hnext).1 hkind)
      (cut_append h), hnext, faultless_ok, ok_bind]
    simp only [Nat.min_eq_left hle, ite_self]
    rw [hsweep clamped, Except.map, note_filterMap]

/-- Up to where some units end, the loop skips their strings and comments. -/
theorem copies_of_reads (hreads : Lexeme.Reads cs ls tail)
    (h : pending ++ cs <:+ Located.ofString source)
    (hshows : clip.Shows kept (spot source (pending ++ cs))) :
    Copies source clip kept pending cs ls tail := by
  induction hreads generalizing clip kept pending with
  | nil => exact copies_nil h hshows
  | @cons c rest after tail l ls hnext hreads ih =>
    have hcs : c :: rest <:+ Located.ofString source := (List.suffix_append pending _).trans h
    have hafter : after <:+ Located.ofString source :=
      ((next_suffix hnext).trans (List.suffix_cons c rest)).trans hcs
    have htail : tail <:+ after := ⟨_, hreads.append_eq⟩
    have hle := spot_mono hafter htail
    have hlt := (lt_spot hcs (next_suffix hnext)).1.trans_le hle
    have hstop := spot_le (htail.trans hafter)
    by_cases hkind : l.kind = .comment
    · exact .comment hnext hkind h hshows hlt hle hstop fun clip' hclip => ih hafter hclip
    · refine .unit hnext hkind h hlt hstop ?_
      rw [← Lexeme.next_append hnext, ← List.append_assoc] at h hshows
      exact ih h hshows

end Copies

theorem clean_eq_map_cleanSkips (source : String) (start stop : Nat) :
    clean source start stop = (cleanSkips true source start stop).map Prod.snd := by
  refine bind_eq_map_bind (fun _ => ?_) _
  rw [sweep_eq_map_sweepSkips]
  cases sweepSkips true source stop ⟨"", start, []⟩ start start with
  | error e => rfl
  | ok p =>
    have htrim : (p.2.trim >>= fun copy => .ok (p.1, copy) : Checked ParseError _).map Prod.snd =
        p.2.trim := by
      cases (p.2.trim : Checked ParseError Clip) <;> rfl
    exact htrim.symm

/-- A range of whole units is copied without its comments, with or without clamps. -/
theorem cleanSkips_of_reads {ls : List Lexeme} {cs : List Located}
    (hreads : Lexeme.Reads cs ls tail) (h : cs <:+ Located.ofString source) :
    ∃ copy, copy.IsCopy (Excerpt.trim (ls.flatMap Lexeme.kept) (spot source tail)) ∧
      ∀ clamped, cleanSkips clamped source (spot source cs) (spot source tail) =
        .ok (ls.filterMap Lexeme.skip?, copy) := by
  have hle := spot_mono h ⟨_, hreads.append_eq⟩
  obtain ⟨result, hresult, hsweep⟩ :=
    copies_of_reads hreads (by simpa using h) (Clip.Shows.empty (spot source ([] ++ cs)))
  obtain ⟨copy, hcopy, hiscopy⟩ := @Clip.Shows.trim_isCopy ParseError _ _ _ hresult
  refine ⟨copy, hiscopy, fun clamped => ?_⟩
  have hsweep := hsweep clamped
  rw [List.nil_append] at hsweep
  rw [cleanSkips, subtract_of_le hle, ok_bind, hsweep, ok_bind]
  simp only [hcopy, ok_bind]

/-! ## The two loops -/

/-- A statement without interpolations is scanned and copied in the same units. All of them end at or
before its end, and the copy is its text without the comments among them and without blank characters
at its ends. By offsets, too, the two loops skip the same strings and comments, and the clamps of the
one that copies make no difference. -/
theorem excerpt_follows_scan (hstart : Sheet.isBoundary source start = true)
    (hscan : Prelude.skip 0 (Located.since source start) = .ok tail)
    (hplain : ¬Prelude.Interpolates (Located.between source start (spot source tail))) :
    ∃ units e copy,
      Prelude.skipUnits 0 (Located.since source start) = .ok (units, tail) ∧
      Excerpt.keepUnits (spot source tail) (Located.since source start) = .ok units ∧
      (∀ l ∈ units, start ≤ l.span.start ∧ l.span.start < l.span.stop ∧
        l.span.stop ≤ spot source tail) ∧
      Excerpt.cut (Located.since source start) (spot source tail) = .ok e ∧
      Text.TrimsTo (((Located.between source start (spot source tail)).filter fun c =>
        !units.any (Lexeme.hides · c)).map Located.char) e.text.toList ∧
      scanPrelude source 0 start = .ok (spot source tail, tail.head?.map Located.char) ∧
      scanSkips source 0 start = .ok (units.filterMap Lexeme.skip?, spot source tail,
        tail.head?.map Located.char) ∧
      (∀ clamped, cleanSkips clamped source start (spot source tail) =
        .ok (units.filterMap Lexeme.skip?, copy)) ∧
      clean source start (spot source tail) = .ok copy ∧ copy.excerpt = e := by
  obtain ⟨cs, hcs, rfl⟩ := exists_spot_eq hstart
  rw [since_spot hcs] at hscan ⊢
  obtain ⟨taken, rfl⟩ := Prelude.skip_suffix hscan
  rw [between_spot hcs] at hplain ⊢
  obtain ⟨units, hunits⟩ := Prelude.exists_skipUnits hscan
  have hreads : Lexeme.Reads (taken ++ tail) units tail :=
    Prelude.reads_of_skipUnits hunits fun other hother => List.append_cancel_right hother ▸ hplain
  have hruns := runs_spot hcs
  have hrising := Located.Rising.of_runs hruns
  have hchars : units.flatMap Lexeme.chars = taken := List.append_cancel_right hreads.append_eq
  obtain ⟨copy, hcopy, hclean⟩ := cleanSkips_of_reads hreads hcs
  refine ⟨units, _, copy, hunits, hreads.keepUnits_eq hrising, fun l hl => hreads.within hruns hl,
    ?_, ?_, ?_, ?_, hclean, ?_, hcopy.excerpt_eq⟩
  · exact congrArg _ (hreads.keep_eq hrising)
  · rw [← hchars, hreads.filter_hides hruns, Text.trimsTo_iff, Excerpt.text_trim, Text.trim,
      Located.text, String.toList_ofList, String.toList_ofList]
  · rw [scanPrelude_spot hcs, hscan]
    rfl
  · rw [scanSkips_spot hcs, hunits]
    rfl
  · rw [clean_eq_map_cleanSkips, hclean]
    rfl

/-- A comment with the character that ends the statement, a string with the marks of a comment, an
escaped quote before a character of two bytes, and a blank before the end. -/
def sampleStatement : String :=
  "a /*;*/\"/*\x7b\" \\'é ;/*b*/"

theorem excerpt_follows_scan_sample :
    Sheet.isBoundary sampleStatement 1 = true ∧
      Prelude.skip 0 (Located.since sampleStatement 1) = .ok (Located.since sampleStatement 18) ∧
      ¬Prelude.Interpolates (Located.between sampleStatement 1 18) ∧
      ∃ copy, clean sampleStatement 1 18 = .ok copy ∧ copy.text = "\"/*\x7b\" \\'é" ∧
        scanSkips sampleStatement 0 1 =
          .ok ([⟨.comment, 2, 7⟩, ⟨.quoted, 7, 12⟩], 18, some ';') ∧
        ∀ clamped, cleanSkips clamped sampleStatement 1 18 =
          .ok ([⟨.comment, 2, 7⟩, ⟨.quoted, 7, 12⟩], copy) := by
  have hstart : Sheet.isBoundary sampleStatement 1 = true := by decide +kernel
  have hscan : Prelude.skip 0 (Located.since sampleStatement 1) =
      .ok (Located.since sampleStatement 18) := by decide +kernel
  have hspot : spot sampleStatement (Located.since sampleStatement 18) = 18 := by decide +kernel
  have hplain : ¬Prelude.Interpolates (Located.between sampleStatement 1 18) := by decide +kernel
  obtain ⟨units, e, copy, hunits, -, -, he, -, -, hskips, hcopies, hclean, rfl⟩ :=
    excerpt_follows_scan hstart hscan (by rwa [hspot])
  rw [hspot] at he hskips hcopies hclean
  have hnoted : units.filterMap Lexeme.skip? = [⟨.comment, 2, 7⟩, ⟨.quoted, 7, 12⟩] := by
    have hall : (Prelude.skipUnits 0 (Located.since sampleStatement 1)).toOption.map
        (fun p => p.1.filterMap Lexeme.skip?) = some [⟨.comment, 2, 7⟩, ⟨.quoted, 7, 12⟩] := by
      decide +kernel
    simpa [hunits, Except.toOption] using hall
  have htext : copy.excerpt.text = "\"/*\x7b\" \\'é" := by
    have hcut : (Excerpt.cut (Located.since sampleStatement 1) 18).toOption.map Excerpt.text =
        some "\"/*\x7b\" \\'é" := by
      decide +kernel
    simpa [he, Except.toOption] using hcut
  rw [hnoted] at hskips hcopies
  exact ⟨hstart, hscan, hplain, copy, hclean, Clip.text_excerpt copy ▸ htext, hskips, hcopies⟩

end Cursor

end SheetPolicy

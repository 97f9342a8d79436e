import Mathlib
import SheetPolicy.Proofs.Division
import SheetPolicy.Proofs.Joining
import SheetPolicy.Proofs.Cursor.Lexeme

/-!
Cutting a range out of a source by byte offsets. The copy is collected piece by piece, and where a
comment is left out the number of its bytes is noted (`Clip`). The range may end inside a string, a
comment or behind a backslash, so that the loop over it runs past its end (`sweep`). The copy is
nevertheless the excerpt of the characters (`clean_spot`). As no gap stands inside a character, the
two also agree on the places of single bytes (`Clip.Aligned.sourceOffset_eq`).
-/

namespace SheetPolicy.Cursor

/-- A text copied from a source from `start` on. Each gap is an index in the text and the number of
bytes of the source that are left out there. -/
structure Clip where
  text : String
  start : Nat
  gaps : List (Nat × Nat)

namespace Clip

/-- The place in the source of byte `i` of the text. -/
def sourceOffset (clip : Clip) (i : Nat) : Nat :=
  clip.start + i + ((clip.gaps.takeWhile fun gap => gap.1 ≤ i).map Prod.snd).sum

/-- The characters of the text, each with its place in the source. -/
def excerpt (clip : Clip) : Excerpt :=
  ⟨(Located.ofString clip.text).map (Located.move clip.sourceOffset),
    clip.sourceOffset clip.text.utf8ByteSize⟩

def append (clip : Clip) (piece : String) : Clip :=
  { clip with text := clip.text ++ piece }

/-- Leaves out the next `n` bytes of the source. -/
def skip (clip : Clip) (n : Nat) : Clip :=
  { clip with gaps := clip.gaps ++ [(clip.text.utf8ByteSize, n)] }

end Clip

/-- Goes on from `i` up to `stop` with a copy of what stands before `copied` and in no comment. -/
def sweep (source : String) (stop : Nat) (clip : Clip) (copied i : Nat) :
    Checked ParseError Clip :=
  if i < stop then do
    let b ← byte source i
    if b = '\\' then sweep source stop clip copied (i + 2)
    else if b = '"' ∨ b = '\'' then
      let ⟨j, _⟩ ← onward source i (← skipString source i)
      sweep source stop clip copied j
    else if b = '/' ∧ byte? source (i + 1) = some '*' then
      let piece ← cut source copied i
      let after := min (← skipComment source i) stop
      let gap ← subtract after i
      let ⟨j, _⟩ ← onward source i after
      sweep source stop ((clip.append piece).skip gap) j j
    else sweep source stop clip copied (i + 1)
  else do
    let piece ← cut source copied (max stop copied)
    .ok (clip.append piece)
termination_by stop - i

/-- Goes on like `sweep`, and notes down the strings and comments that are skipped. Without clamps
nothing keeps a comment or the last piece within the range. -/
def sweepSkips (clamped : Bool) (source : String) (stop : Nat) (clip : Clip) (copied i : Nat) :
    Checked ParseError (List Lexeme.Skip × Clip) :=
  if i < stop then do
    let b ← byte source i
    if b = '\\' then sweepSkips clamped source stop clip copied (i + 2)
    else if b = '"' ∨ b = '\'' then
      let ⟨j, _⟩ ← onward source i (← skipString source i)
      let (skips, result) ← sweepSkips clamped source stop clip copied j
      .ok (⟨.quoted, i, j⟩ :: skips, result)
    else if b = '/' ∧ byte? source (i + 1) = some '*' then
      let piece ← cut source copied i
      let behind ← skipComment source i
      let after := if clamped then min behind stop else behind
      let gap ← subtract after i
      let ⟨j, _⟩ ← onward source i after
      let (skips, result) ← sweepSkips clamped source stop ((clip.append piece).skip gap) j j
      .ok (⟨.comment, i, behind⟩ :: skips, result)
    else sweepSkips clamped source stop clip copied (i + 1)
  else do
    let piece ← cut source copied (if clamped then max stop copied else stop)
    .ok ([], clip.append piece)
termination_by stop - i

def trimEnd (text : String) : String :=
  String.ofList (Text.dropRightWhile Text.isBlank text.toList)

/-- Shortens a text to `n` bytes, if it has more. -/
def truncate {ε : Type} (text : String) (n : Nat) : Checked ε String :=
  if n ≤ text.utf8ByteSize then cut text 0 n else .ok text

/-- The number of bytes left out up to index `lead`, and the gaps behind it, as they are when the
text starts there. -/
def shift {ε : Type} (lead : Nat) : List (Nat × Nat) → Checked ε (Nat × List (Nat × Nat))
  | [] => .ok (0, [])
  | (index, n) :: gaps => do
    let (sum, later) ← shift lead gaps
    if index ≤ lead then .ok (n + sum, later)
    else
      let index ← subtract index lead
      .ok (sum, (index, n) :: later)

/-- Leaves out the blank characters at both ends. -/
def Clip.trim {ε : Type} (clip : Clip) : Checked ε Clip := do
  let lead ← subtract clip.text.utf8ByteSize (Text.trimLeft clip.text).utf8ByteSize
  let text ← truncate clip.text (trimEnd clip.text).utf8ByteSize
  let text ← cutFrom text (min lead text.utf8ByteSize)
  let (sum, gaps) ← shift lead clip.gaps
  .ok ⟨text, clip.start + lead + sum, gaps⟩

/-- Where `mark` last occurs. -/
def rfind? (mark : Char) (text : String) : Option Nat :=
  ((Located.ofString text).reverse.find? fun c => c.char = mark).map Located.offset

/-- Splits off a final `!important`. -/
def Clip.splitImportant {ε : Type} (clip : Clip) : Checked ε (Clip × Bool) :=
  match rfind? '!' clip.text with
  | none => .ok (clip, false)
  | some bang => do
    let word ← cutFrom clip.text (bang + 1)
    if Text.sameLetters (Text.trim word) "important" then
      let front ← cut clip.text 0 bang
      let text ← truncate clip.text (trimEnd front).utf8ByteSize
      .ok ({ clip with text := text }, true)
    else .ok (clip, false)

/-- Copies a range without its comments and without blank characters at its ends. -/
def clean (source : String) (start stop : Nat) : Checked ParseError Clip := do
  let _ ← subtract stop start
  let clip ← sweep source stop ⟨"", start, []⟩ start start
  clip.trim

/-- Copies like `clean`, and notes down the strings and comments that are skipped. -/
def cleanSkips (clamped : Bool) (source : String) (start stop : Nat) :
    Checked ParseError (List Lexeme.Skip × Clip) := do
  let _ ← subtract stop start
  let (skips, clip) ← sweepSkips clamped source stop ⟨"", start, []⟩ start start
  let copy ← clip.trim
  .ok (skips, copy)

/-! ## Places of collected characters -/

/-- Adjoining characters are those of their text, moved on to where they start. -/
theorem map_move_text {start stop : Nat} {cs : List Located} (h : Located.Runs start cs stop) :
    (Located.ofString (Located.text cs)).map (Located.move (· + start)) = cs := by
  rw [Located.ofString, Located.text, String.toList_ofList, ← Located.place_add, Nat.zero_add,
    h.place_eq]

theorem map_move_append (f : Nat → Nat) (s t : String) :
    (Located.ofString (s ++ t)).map (Located.move f) =
      (Located.ofString s).map (Located.move f) ++
        (Located.ofString t).map (Located.move fun i => f (i + s.utf8ByteSize)) := by
  rw [Located.ofString_append, List.map_append, List.map_map]
  rfl

theorem map_move_congr {f g : Nat → Nat} {s : String} (h : ∀ i < s.utf8ByteSize, f i = g i) :
    (Located.ofString s).map (Located.move f) = (Located.ofString s).map (Located.move g) := by
  refine List.map_congr_left fun c hc => ?_
  have hstop := ((Located.runs_ofString s).offset_mem hc).2
  rw [Located.move, Located.move, h c.offset (c.offset_lt_stop.trans_le hstop)]

/-- If `f` goes on byte by byte inside each of some adjoining characters, moving the characters by
`f` moves every byte of them by `f`. -/
theorem offsetAt_move {f : Nat → Nat} {start stop i : Nat} {cs : List Located}
    (h : Located.Runs start cs stop)
    (hf : ∀ c ∈ cs, ∀ k < c.char.utf8Size, f (c.offset + k) = f c.offset + k)
    (hi : i ≤ Located.size cs) :
    Located.offsetAt (f stop) (cs.map (Located.move f)) i = f (start + i) := by
  induction cs generalizing start i with
  | nil =>
    obtain rfl : i = 0 := Nat.le_zero.1 hi
    obtain rfl : start = stop := h
    rfl
  | cons c cs ih =>
    obtain ⟨rfl, htail⟩ := h
    rw [List.map_cons, Located.offsetAt]
    split
    · next hlt => exact (hf c List.mem_cons_self i hlt).symm
    · next hge =>
      have hge : c.char.utf8Size ≤ i := Nat.le_of_not_lt hge
      rw [Located.size_cons] at hi
      refine (ih htail (fun d hd => hf d (List.mem_cons_of_mem c hd)) ?_).trans ?_
      · exact Nat.sub_le_iff_le_add'.2 hi
      · rw [Located.stop]
        exact congrArg f (by simp only [Located.move]; omega)

theorem takeWhile_eq_takeWhile {α : Type} {p q : α → Bool} {xs : List α}
    (h : ∀ x ∈ xs, p x = q x) : xs.takeWhile p = xs.takeWhile q := by
  induction xs with
  | nil => rfl
  | cons x xs ih =>
    rw [List.takeWhile_cons, List.takeWhile_cons, h x List.mem_cons_self,
      ih fun y hy => h y (List.mem_cons_of_mem x hy)]

namespace Clip

theorem text_excerpt (clip : Clip) : clip.excerpt.text = clip.text := by
  rw [Excerpt.text, excerpt, Located.text_move, Located.text_ofString]

/-- No gap stands inside a character of the text. -/
def Aligned (clip : Clip) : Prop :=
  ∀ gap ∈ clip.gaps, ∀ c ∈ Located.ofString clip.text, gap.1 ≤ c.offset ∨ c.stop ≤ gap.1

/-- The gaps and the characters of the excerpt give the same place for every byte of the text, also
for those inside a character. -/
theorem Aligned.sourceOffset_eq {clip : Clip} (h : clip.Aligned) {i : Nat}
    (hi : i ≤ clip.text.utf8ByteSize) : clip.sourceOffset i = clip.excerpt.sourceOffset i := by
  have hinside : ∀ c ∈ Located.ofString clip.text, ∀ k < c.char.utf8Size,
      clip.sourceOffset (c.offset + k) = clip.sourceOffset c.offset + k := by
    intro c hc k hk
    have hgaps : (clip.gaps.takeWhile fun gap => gap.1 ≤ c.offset + k) =
        clip.gaps.takeWhile fun gap => gap.1 ≤ c.offset := by
      refine takeWhile_eq_takeWhile fun gap hgap => ?_
      have hstop : c.stop = c.offset + c.char.utf8Size := rfl
      rcases h gap hgap c hc with hbefore | hbehind <;> simp <;> omega
    rw [sourceOffset, sourceOffset, hgaps]
    omega
  have hsize : Located.size (Located.ofString clip.text) = clip.text.utf8ByteSize := by
    rw [← Located.utf8ByteSize_text, Located.text_ofString]
  have hmove := offsetAt_move (Located.runs_ofString clip.text) hinside (hsize ▸ hi)
  rw [Nat.zero_add] at hmove
  exact hmove.symm

/-- A gap at the end does not move what is before it. -/
theorem sourceOffset_skip (clip : Clip) (n : Nat) {i : Nat} (hi : i < clip.text.utf8ByteSize) :
    (clip.skip n).sourceOffset i = clip.sourceOffset i := by
  have hlast : (clip.gaps ++ [(clip.text.utf8ByteSize, n)]).takeWhile (fun gap => gap.1 ≤ i) =
      clip.gaps.takeWhile fun gap => gap.1 ≤ i := by
    rw [List.takeWhile_append, List.takeWhile_cons_of_neg (by simpa using hi), List.append_nil]
    split
    · next hlen => exact ((List.takeWhile_prefix _).eq_of_length hlen).symm
    · rfl
  rw [sourceOffset, sourceOffset, skip, hlast]

/-- The clip is a copy of the characters `kept`, and the source goes on after them at `place`. -/
structure Shows (clip : Clip) (kept : List Located) (place : Nat) : Prop where
  excerpt_eq : clip.excerpt = ⟨kept, place⟩
  ascending : clip.gaps.Pairwise fun gap later => gap.1 ≤ later.1
  bounded : ∀ gap ∈ clip.gaps, gap.1 ≤ clip.text.utf8ByteSize
  aligned : clip.Aligned

namespace Shows

variable {clip : Clip} {kept : List Located} {place : Nat}

theorem text_eq (h : clip.Shows kept place) : clip.text = Located.text kept := by
  rw [← clip.text_excerpt, h.excerpt_eq]
  rfl

theorem empty (start : Nat) : Shows ⟨"", start, []⟩ [] start where
  excerpt_eq := rfl
  ascending := .nil
  bounded := by simp
  aligned := by simp [Aligned]

theorem takeWhile_eq (h : clip.Shows kept place) {i : Nat} (hi : clip.text.utf8ByteSize ≤ i) :
    (clip.gaps.takeWhile fun gap => gap.1 ≤ i) = clip.gaps :=
  List.takeWhile_eq_self_iff.2 fun gap hgap => by simpa using (h.bounded gap hgap).trans hi

/-- Behind the last gap the copy is in step with the source. -/
theorem sourceOffset_eq (h : clip.Shows kept place) (i : Nat) :
    clip.sourceOffset (i + clip.text.utf8ByteSize) = i + place := by
  have hplace : clip.sourceOffset clip.text.utf8ByteSize = place :=
    congrArg Excerpt.stop h.excerpt_eq
  rw [sourceOffset, h.takeWhile_eq le_rfl] at hplace
  rw [sourceOffset, h.takeWhile_eq (Nat.le_add_left _ _), ← hplace]
  omega

theorem append (h : clip.Shows kept place) {piece : List Located} {next : Nat}
    (hpiece : Located.Runs place piece next) :
    (clip.append (Located.text piece)).Shows (kept ++ piece) next where
  excerpt_eq := by
    have hkept : (Located.ofString clip.text).map (Located.move clip.sourceOffset) = kept :=
      congrArg Excerpt.chars h.excerpt_eq
    have hoffset := h.sourceOffset_eq
    have hnext := hpiece.stop_eq
    rw [← Located.utf8ByteSize_text] at hnext
    have hsame : (clip.append (Located.text piece)).sourceOffset = clip.sourceOffset := rfl
    have htext : (clip.append (Located.text piece)).text = clip.text ++ Located.text piece := rfl
    rw [excerpt, hsame, htext, map_move_append, hkept, String.utf8ByteSize_append, Nat.add_comm,
      hoffset, hnext, Nat.add_comm]
    simp only [hoffset]
    rw [map_move_text hpiece]
  ascending := h.ascending
  bounded gap hgap := by
    have := h.bounded gap hgap
    simp only [Clip.append, String.utf8ByteSize_append]
    omega
  aligned gap hgap c hc := by
    simp only [Clip.append, Located.ofString_append] at hc
    rcases List.mem_append.1 hc with hc | hc
    · exact h.aligned gap hgap c hc
    · obtain ⟨d, _, rfl⟩ := List.mem_map.1 hc
      exact .inl ((h.bounded gap hgap).trans (Nat.le_add_left _ _))

theorem skip (h : clip.Shows kept place) (n : Nat) : (clip.skip n).Shows kept (place + n) := by
  have hascending : (clip.skip n).gaps.Pairwise fun gap later => gap.1 ≤ later.1 := by
    refine List.pairwise_append.2 ⟨h.ascending, List.pairwise_singleton _ _, ?_⟩
    intro gap hgap later hlater
    rw [List.mem_singleton.1 hlater]
    exact h.bounded gap hgap
  have hbounded : ∀ gap ∈ (clip.skip n).gaps, gap.1 ≤ clip.text.utf8ByteSize := by
    intro gap hgap
    rcases List.mem_append.1 hgap with hgap | hgap
    · exact h.bounded gap hgap
    · rw [List.mem_singleton.1 hgap]
  have hplace : (clip.skip n).sourceOffset clip.text.utf8ByteSize = place + n := by
    have hold : clip.sourceOffset clip.text.utf8ByteSize = place :=
      congrArg Excerpt.stop h.excerpt_eq
    rw [sourceOffset, h.takeWhile_eq le_rfl] at hold
    rw [sourceOffset, List.takeWhile_eq_self_iff.2 fun gap hgap => by simpa using hbounded gap hgap,
      ← hold]
    simp [Clip.skip, Nat.add_assoc]
  have hkept : (Located.ofString clip.text).map (Located.move (clip.skip n).sourceOffset) = kept :=
    (map_move_congr fun i hi => clip.sourceOffset_skip n hi).trans
      (congrArg Excerpt.chars h.excerpt_eq)
  have haligned : (clip.skip n).Aligned := by
    intro gap hgap c hc
    rcases List.mem_append.1 hgap with hgap | hgap
    · exact h.aligned gap hgap c hc
    · rw [List.mem_singleton.1 hgap]
      exact .inr ((Located.runs_ofString clip.text).offset_mem hc).2
  exact ⟨congrArg₂ Excerpt.mk hkept hplace, hascending, hbounded, haligned⟩

end Shows

end Clip

/-! ## The loop over a range -/

section

variable {source : String} {stop copied : Nat} {clip : Clip} {clamped : Bool}

theorem sweepSkips_of_le {i : Nat} (h : stop ≤ i) :
    sweepSkips clamped source stop clip copied i =
      cut source copied (if clamped then max stop copied else stop) >>= fun piece =>
        .ok ([], clip.append piece) := by
  rw [sweepSkips, if_neg (by omega)]

theorem sweepSkips_of_lt {i : Nat} {b : Char} (h : i < stop) (hb : byte? source i = some b) :
    sweepSkips clamped source stop clip copied i =
      if b = '\\' then sweepSkips clamped source stop clip copied (i + 2)
      else if b = '"' ∨ b = '\'' then do
        let j ← onward source i (← skipString source i)
        let (skips, result) ← sweepSkips clamped source stop clip copied j
        .ok (⟨.quoted, i, j⟩ :: skips, result)
      else if b = '/' ∧ byte? source (i + 1) = some '*' then do
        let piece ← cut source copied i
        let behind ← skipComment source i
        let after := if clamped then min behind stop else behind
        let gap ← subtract after i
        let j ← onward source i after
        let (skips, result) ← sweepSkips clamped source stop ((clip.append piece).skip gap) j j
        .ok (⟨.comment, i, behind⟩ :: skips, result)
      else sweepSkips clamped source stop clip copied (i + 1) := by
  rw [sweepSkips, if_pos h, byte, hb]
  rfl

/-- Noting the strings and comments down changes nothing else. -/
theorem sweep_eq_map_sweepSkips (i : Nat) :
    sweep source stop clip copied i =
      (sweepSkips true source stop clip copied i).map Prod.snd := by
  fun_induction sweep source stop clip copied i with
  | case1 clip copied i hlt ihEscape ihString ihComment ihPlain =>
    cases hb : byte? source i with
    | none =>
      rw [sweepSkips, if_pos hlt, byte, hb]
      rfl
    | some b =>
      rw [sweepSkips_of_lt hlt hb, byte, hb, ok_bind]
      split
      · exact ihEscape
      split
      · refine bind_eq_map_bind (fun behind => ?_) _
        refine bind_eq_map_bind (fun j => ?_) _
        exact (ihString j.1 j.2).trans (map_snd_cons _ _).symm
      split
      · refine bind_eq_map_bind (fun piece => ?_) _
        refine bind_eq_map_bind (fun behind => ?_) _
        refine bind_eq_map_bind (fun gap => ?_) _
        refine bind_eq_map_bind (fun j => ?_) _
        exact (ihComment piece gap j.1 j.2).trans (map_snd_cons _ _).symm
      · exact ihPlain
  | case2 clip copied i hpast =>
    rw [sweepSkips_of_le (Nat.le_of_not_lt hpast), if_pos rfl]
    refine bind_eq_map_bind (fun piece => ?_) _
    rfl

theorem glides_sweepSkips : Glides source (sweepSkips clamped source stop clip copied) := by
  intro i b hb hlt
  have hne : ∀ k : Char, k.toNat ≤ 127 → b ≠ k := fun k => ne_of_ascii hlt
  rcases Nat.lt_or_ge i stop with hi | hi
  · rw [sweepSkips_of_lt hi hb]
    simp [hne]
  · rw [sweepSkips_of_le hi, sweepSkips_of_le (Nat.le_succ_of_le hi)]

theorem sweepSkips_cons {c : Located} {rest : List Located}
    (h : c :: rest <:+ Located.ofString source) (hstop : stop ≤ source.utf8ByteSize)
    (hlt : c.offset < stop)
    (hcomment : ¬(c.char = '/' ∧ rest.head?.map Located.char = some '*')) :
    sweepSkips clamped source stop clip copied c.offset =
      faultless (Lexeme.next c rest) >>= fun p =>
        (sweepSkips clamped source stop clip copied (spot source p.2)).map (note p.1) := by
  have hglides : Glides source (sweepSkips clamped source stop clip copied) := glides_sweepSkips
  rcases Nat.lt_or_ge 127 c.char.toNat with hc | hc
  · have hne : ∀ k : Char, k.toNat ≤ 127 → c.char ≠ k := fun k => ne_of_ascii hc
    rw [hglides.start_eq h hc, next_of_plain (by simp [hne]) (by simp [hne]) (by simp [hne]),
      faultless_ok, ok_bind, map_note_of_none rfl]
  rw [sweepSkips_of_lt hlt (byte?_of_ascii h hc)]
  split
  · next hslash =>
    have hend : sweepSkips clamped source stop clip copied (source.utf8ByteSize + 1) =
        sweepSkips clamped source stop clip copied source.utf8ByteSize := by
      rw [sweepSkips_of_le hstop, sweepSkips_of_le (Nat.le_succ_of_le hstop)]
    rw [hglides.escape_eq hend h hc, next_of_escape rest hslash, faultless_ok, ok_bind,
      map_note_of_none rfl]
  split
  · next hquote =>
    rw [skipString_cons h hquote]
    cases hnext : Lexeme.next c rest with
    | error e => rfl
    | ok p =>
      have hlater := lt_spot h (next_suffix hnext)
      simp only [Except.map, faultless_ok, ok_bind, onward_of_lt hlater]
      exact map_note_of_some (skip?_of_quoted h hquote hnext) _
  · next hslash hquote =>
    rw [if_neg (by rwa [byte?_second_eq_iff h hc (by decide)]),
      next_of_plain hslash hquote hcomment, ← stop_eq_of_ascii hc, ← spot_rest h, faultless_ok,
      ok_bind, map_note_of_none rfl]

theorem sweepSkips_comment {c : Located} {rest : List Located}
    (h : c :: rest <:+ Located.ofString source) (hlt : c.offset < stop)
    (hstop : stop ≤ source.utf8ByteSize)
    (hcomment : c.char = '/' ∧ rest.head?.map Located.char = some '*')
    {piece : String}
    (hpiece : cut source copied c.offset = (.ok piece : Checked ParseError String)) :
    sweepSkips clamped source stop clip copied c.offset =
      faultless (Lexeme.next c rest) >>= fun p =>
        let after := if clamped then min (spot source p.2) stop else spot source p.2
        (sweepSkips clamped source stop ((clip.append piece).skip (after - c.offset)) after after).map
          (note p.1) := by
  have hascii : c.char.toNat ≤ 127 := by simp [hcomment.1]
  have hbyte := (byte?_second_eq_iff h hascii (by decide)).2 hcomment.2
  rw [sweepSkips_of_lt hlt (byte?_of_ascii h hascii), if_neg (by simp [hcomment.1]),
    if_neg (by simp [hcomment.1]), if_pos ⟨hcomment.1, hbyte⟩, hpiece, ok_bind,
    skipComment_cons h hcomment]
  cases hnext : Lexeme.next c rest with
  | error e => rfl
  | ok p =>
    have hlater := lt_spot h (next_suffix hnext)
    have hle : c.offset < (if clamped then min (spot source p.2) stop else spot source p.2) ∧
        (if clamped then min (spot source p.2) stop else spot source p.2) ≤
          source.utf8ByteSize := by
      split <;> omega
    simp only [Except.map, faultless_ok, ok_bind, subtract_of_le hle.1.le, onward_of_lt hle]
    exact map_note_of_some (skip?_of_comment h hcomment hnext) _

theorem sweep_of_le {i : Nat} (h : stop ≤ i) :
    sweep source stop clip copied i =
      cut source copied (max stop copied) >>= fun piece => .ok (clip.append piece) := by
  rw [sweep, if_neg (by omega)]

theorem sweep_cons {c : Located} {rest : List Located} (h : c :: rest <:+ Located.ofString source)
    (hstop : stop ≤ source.utf8ByteSize) (hlt : c.offset < stop)
    (hcomment : ¬(c.char = '/' ∧ rest.head?.map Located.char = some '*')) :
    sweep source stop clip copied c.offset =
      faultless (Lexeme.next c rest) >>= fun p =>
        sweep source stop clip copied (spot source p.2) := by
  simp only [sweep_eq_map_sweepSkips, sweepSkips_cons h hstop hlt hcomment]
  refine (bind_eq_map_bind (fun p => ?_) _).symm
  exact (map_snd_note p.1 _).symm

theorem sweep_comment {c : Located} {rest : List Located}
    (h : c :: rest <:+ Located.ofString source) (hlt : c.offset < stop)
    (hstop : stop ≤ source.utf8ByteSize)
    (hcomment : c.char = '/' ∧ rest.head?.map Located.char = some '*')
    {piece : String}
    (hpiece : cut source copied c.offset = (.ok piece : Checked ParseError String)) :
    sweep source stop clip copied c.offset =
      faultless (Lexeme.next c rest) >>= fun p =>
        sweep source stop
          ((clip.append piece).skip (min (spot source p.2) stop - c.offset))
          (min (spot source p.2) stop) (min (spot source p.2) stop) := by
  simp only [sweep_eq_map_sweepSkips, sweepSkips_comment h hlt hstop hcomment hpiece]
  refine (bind_eq_map_bind (fun p => ?_) _).symm
  exact (map_snd_note p.1 _).symm

/-- The loop from the offset of `cs` on makes a copy of what is kept from there on. What is not
copied yet when it comes there, `pending`, is copied as far as it stands before `tail`. -/
def Sweeps (source : String) (clip : Clip) (kept pending cs tail : List Located) : Prop :=
  Agrees
    (fun result more => result.Shows
      (kept ++ (pending.filter (fun c => c.offset < spot source tail) ++ more)) (spot source tail))
    (sweep source (spot source tail) clip (spot source (pending ++ cs)) (spot source cs))
    (Excerpt.keep (spot source tail) cs)

variable {kept pending cs tail rest : List Located} {c : Located}

/-- Behind the range the loop copies what it has not copied yet. -/
theorem sweeps_of_le (h : pending ++ cs <:+ Located.ofString source)
    (htail : tail <:+ pending ++ cs)
    (hshows : clip.Shows kept (spot source (pending ++ cs)))
    (hle : spot source tail ≤ spot source cs) : Sweeps source clip kept pending cs tail := by
  have hrising := Located.Rising.of_runs (runs_spot h)
  have hback : ∀ c ∈ cs, spot source tail ≤ c.offset := fun c hc =>
    hle.trans (hrising.right.startOf_le hc)
  obtain ⟨piece, hpiece⟩ := htail
  rw [← hpiece] at hrising h hshows
  have hfilter : pending.filter (fun c => c.offset < spot source tail) = piece := by
    have hall : ((piece ++ tail).filter fun c => c.offset < spot source tail) = piece :=
      hrising.filter_lt (List.Subset.refl piece) (List.Subset.refl tail)
    rwa [hpiece, List.filter_append, (List.filter_eq_nil_iff (l := cs)).2 (by simpa using hback),
      List.append_nil] at hall
  have hadd := spot_append h
  rw [Sweeps, sweep_of_le hle, Excerpt.keep_of_le hback, ← hpiece, Nat.max_eq_left (by omega),
    cut_append h, ok_bind, hfilter]
  exact .ok (by simpa using hshows.append (runs_of_append h))

/-- A unit that is no comment waits to be copied. -/
theorem sweeps_unit (h : pending ++ c :: rest <:+ Located.ofString source)
    (hlt : c.offset < spot source tail) (hstop : spot source tail ≤ source.utf8ByteSize)
    (hcomment : ¬(c.char = '/' ∧ rest.head?.map Located.char = some '*'))
    (hafter : ∀ l after, Lexeme.next c rest = .ok (l, after) →
      Sweeps source clip kept (pending ++ l.chars) after tail) :
    Sweeps source clip kept pending (c :: rest) tail := by
  have hcs : c :: rest <:+ Located.ofString source := (List.suffix_append pending _).trans h
  rw [Sweeps, spot_cons, Excerpt.keep_cons hlt, sweep_cons hcs hstop hlt hcomment]
  cases hnext : Lexeme.next c rest with
  | error e => exact .error e
  | ok p =>
    obtain ⟨l, after⟩ := p
    have hkind : l.kind ≠ .comment := (kind_eq_comment_iff hnext).not.2 hcomment
    rw [← Lexeme.next_append hnext, ← List.append_assoc, faultless_ok, ok_bind, ok_bind]
    refine (hafter l after hnext).map fun result more hresult => ?_
    rw [if_neg hkind]
    simpa using hresult

/-- At a comment all that waits is copied, and the comment is left out as far as it belongs to the
range. -/
theorem sweeps_comment (h : pending ++ c :: rest <:+ Located.ofString source)
    (htail : tail <:+ Located.ofString source) (hlt : c.offset < spot source tail)
    (hcomment : c.char = '/' ∧ rest.head?.map Located.char = some '*')
    (hshows : clip.Shows kept (spot source (pending ++ c :: rest)))
    (hafter : ∀ l after clip', Lexeme.next c rest = .ok (l, after) →
      spot source after ≤ spot source tail → clip'.Shows (kept ++ pending) (spot source after) →
      Sweeps source clip' (kept ++ pending) [] after tail) :
    Sweeps source clip kept pending (c :: rest) tail := by
  have hcs : c :: rest <:+ Located.ofString source := (List.suffix_append pending _).trans h
  have hpending : pending.filter (fun d => d.offset < spot source tail) = pending := by
    refine List.filter_eq_self.2 fun d hd => ?_
    have hd' := (Located.Rising.of_runs (runs_spot h)).lt_startOf hd
    rw [Located.startOf_cons] at hd'
    simpa using hd'.trans hlt
  have hcopied := hshows.append (runs_of_append h)
  rw [Sweeps, spot_cons, Excerpt.keep_cons hlt,
    sweep_comment hcs hlt (spot_le htail) hcomment (cut_append h), hpending]
  cases hnext : Lexeme.next c rest with
  | error e => exact .error e
  | ok p =>
    obtain ⟨l, after⟩ := p
    have hsuffix : after <:+ rest := next_suffix hnext
    have hlater := lt_spot hcs hsuffix
    have hkind : l.kind = .comment := (kind_eq_comment_iff hnext).2 hcomment
    have hskip := hcopied.skip (min (spot source after) (spot source tail) - c.offset)
    rw [spot_cons, Nat.add_sub_cancel' (by omega)] at hskip
    rw [faultless_ok, ok_bind, ok_bind]
    simp only [hkind, if_true]
    rcases Nat.le_total (spot source after) (spot source tail) with hle | hge
    · rw [Nat.min_eq_left hle] at hskip ⊢
      refine (hafter l after _ hnext hle hskip).map fun result more hresult => ?_
      simpa using hresult
    · -- the comment ends behind the range
      rw [Nat.min_eq_right hge] at hskip ⊢
      have hback : ∀ xs : List Located, xs <:+ Located.ofString source →
          spot source tail ≤ spot source xs → Excerpt.keep (spot source tail) xs = .ok [] := by
        intro xs hxs hle
        have hrising := Located.Rising.of_runs (runs_spot hxs)
        exact Excerpt.keep_of_le fun d hd => hle.trans (hrising.startOf_le hd)
      have hdone : Sweeps source _ (kept ++ pending) [] tail tail :=
        sweeps_of_le htail List.suffix_rfl hskip le_rfl
      have hafterSource := (hsuffix.trans (List.suffix_cons c rest)).trans hcs
      rw [Sweeps, hback tail htail le_rfl] at hdone
      rw [hback after hafterSource hge]
      simpa [Except.map] using hdone

theorem sweep_spot (h : pending ++ cs <:+ Located.ofString source) (htail : tail <:+ pending ++ cs)
    (hshows : clip.Shows kept (spot source (pending ++ cs))) :
    Sweeps source clip kept pending cs tail := by
  have htailSource := htail.trans h
  induction hlen : cs.length using Nat.strong_induction_on generalizing clip kept pending cs with
  | _ n ih =>
  rcases Nat.lt_or_ge (spot source cs) (spot source tail) with hlt | hge
  case inr => exact sweeps_of_le h htail hshows hge
  cases cs with
  | nil =>
    have := spot_le htailSource
    rw [spot_nil] at hlt
    omega
  | cons c rest =>
    rw [spot_cons] at hlt
    rw [List.length_cons] at hlen
    by_cases hcomment : c.char = '/' ∧ rest.head?.map Located.char = some '*'
    · refine sweeps_comment h htailSource hlt hcomment hshows ?_
      intro l after clip' hnext hle hshows'
      have hshorter := Lexeme.length_next hnext
      have hafter : [] ++ after <:+ Located.ofString source :=
        ((next_suffix hnext).trans
          ((List.suffix_cons c _).trans (List.suffix_append pending _))).trans h
      exact ih after.length (by omega) hafter (suffix_of_spot_le hafter htailSource hle) hshows' rfl
    · refine sweeps_unit h hlt (spot_le htailSource) hcomment ?_
      intro l after hnext
      have hshorter := Lexeme.length_next hnext
      rw [← Lexeme.next_append hnext, ← List.append_assoc] at h htail hshows
      exact ih after.length (by omega) h htail hshows rfl

end

/-! ## Trimming -/

theorem cut_middle {ε : Type} (s t u : String) :
    (cut (s ++ (t ++ u)) s.utf8ByteSize (s.utf8ByteSize + t.utf8ByteSize) : Checked ε String) =
      .ok t := by
  have hsplit : Located.ofString (s ++ (t ++ u)) = Located.ofString s ++
      ((Located.ofString t).map (Located.move (· + s.utf8ByteSize)) ++
        ((Located.ofString u).map (Located.move (· + t.utf8ByteSize))).map
          (Located.move (· + s.utf8ByteSize))) := by
    rw [Located.ofString_append, Located.ofString_append, List.map_append]
  have hsize : ∀ s : String, Located.size (Located.ofString s) = s.utf8ByteSize := fun s => by
    rw [← Located.utf8ByteSize_text, Located.text_ofString]
  have hsuffix := hsplit ▸ List.suffix_append (Located.ofString s) _
  have hruns := Located.runs_ofString (s ++ (t ++ u))
  rw [hsplit] at hruns
  have hstart : spot (s ++ (t ++ u)) _ = _ := hruns.of_append.2.startOf_eq
  have hstop := spot_append hsuffix
  have hcut := @cut_append ε _ _ _ hsuffix
  rwa [hstop, hstart, Located.size_move, hsize, hsize, Nat.zero_add, Located.text_move,
    Located.text_ofString] at hcut

namespace Clip

variable {clip : Clip} {xs ys : List Located} {place : Nat}

theorem split_excerpt (h : clip.excerpt = ⟨xs ++ ys, place⟩) :
    (Located.ofString (Located.text xs)).map (Located.move clip.sourceOffset) = xs ∧
      (Located.ofString (Located.text ys)).map
        (Located.move fun i => clip.sourceOffset (i + Located.size xs)) = ys ∧
      clip.sourceOffset (Located.size ys + Located.size xs) = place := by
  have htext : clip.text = Located.text xs ++ Located.text ys := by
    rw [← clip.text_excerpt, h]
    simp [Excerpt.text, Located.text]
  have hchars : (Located.ofString clip.text).map (Located.move clip.sourceOffset) = xs ++ ys :=
    congrArg Excerpt.chars h
  have hplace : clip.sourceOffset clip.text.utf8ByteSize = place := congrArg Excerpt.stop h
  rw [htext, map_move_append, Located.utf8ByteSize_text] at hchars
  rw [htext, String.utf8ByteSize_append, Located.utf8ByteSize_text, Located.utf8ByteSize_text,
    Nat.add_comm] at hplace
  obtain ⟨hxs, hys⟩ := List.append_inj hchars (by simp [Located.ofString, Located.text])
  exact ⟨hxs, hys, hplace⟩

/-- Shortening the text leaves the places of what remains. -/
theorem excerpt_truncate (h : clip.excerpt = ⟨xs ++ ys, place⟩) :
    ({ clip with text := Located.text xs } : Clip).excerpt =
      ⟨xs, Located.startOf place ys⟩ := by
  obtain ⟨hxs, hys, hplace⟩ := split_excerpt h
  have hstart := Located.startOf_move (fun i => clip.sourceOffset (i + Located.size xs))
    (Located.size ys) (Located.ofString (Located.text ys))
  have hzero : Located.startOf (Located.size ys) (Located.ofString (Located.text ys)) = 0 := by
    rw [← Located.utf8ByteSize_text]
    exact (Located.runs_ofString _).startOf_eq
  rw [hys, hplace, hzero, Nat.zero_add, ← Located.utf8ByteSize_text] at hstart
  exact congrArg₂ Excerpt.mk hxs hstart.symm

/-- A clip of what follows `xs` shows it at the same places. -/
theorem excerpt_drop (h : clip.excerpt = ⟨xs ++ ys, place⟩) {later : Clip}
    (htext : later.text = Located.text ys)
    (hoffset : ∀ i, later.sourceOffset i = clip.sourceOffset (i + Located.size xs)) :
    later.excerpt = ⟨ys, place⟩ := by
  obtain ⟨_, hys, hplace⟩ := split_excerpt h
  rw [excerpt, funext hoffset, htext, hys, Located.utf8ByteSize_text]
  exact congrArg (Excerpt.mk ys) hplace

end Clip

theorem takeWhile_eq_filter {gaps : List (Nat × Nat)}
    (h : gaps.Pairwise fun gap later => gap.1 ≤ later.1) (i : Nat) :
    (gaps.takeWhile fun gap => gap.1 ≤ i) = gaps.filter fun gap => gap.1 ≤ i := by
  induction gaps with
  | nil => rfl
  | cons gap gaps ih =>
    obtain ⟨hlater, htail⟩ := List.pairwise_cons.1 h
    by_cases hgap : gap.1 ≤ i
    · rw [List.takeWhile_cons_of_pos (by simpa using hgap),
        List.filter_cons_of_pos (by simpa using hgap), ih htail]
    · rw [List.takeWhile_cons_of_neg (by simpa using hgap), eq_comm, List.filter_eq_nil_iff]
      intro other hother
      rcases List.mem_cons.1 hother with rfl | hother
      · simpa using hgap
      · have := hlater other hother
        simp
        omega

theorem shift_eq {ε : Type} (lead : Nat) (gaps : List (Nat × Nat)) :
    (shift lead gaps : Checked ε _) =
      .ok (((gaps.filter fun gap => gap.1 ≤ lead).map Prod.snd).sum,
        (gaps.filter fun gap => lead < gap.1).map fun gap => (gap.1 - lead, gap.2)) := by
  induction gaps with
  | nil => rfl
  | cons gap gaps ih =>
    obtain ⟨index, n⟩ := gap
    rw [shift, ih, ok_bind]
    by_cases hindex : index ≤ lead
    · simp [hindex]
    · simp [hindex, subtract_of_le (Nat.le_of_not_le hindex), Nat.lt_of_not_le hindex]

/-- The bytes left out up to an index behind `lead` are those left out up to `lead` and those of
the shifted gaps. -/
theorem sum_shift (lead i : Nat) (gaps : List (Nat × Nat)) :
    ((gaps.filter fun gap => gap.1 ≤ lead).map Prod.snd).sum +
        ((((gaps.filter fun gap => lead < gap.1).map fun gap => (gap.1 - lead, gap.2)).filter
          fun gap => gap.1 ≤ i).map Prod.snd).sum =
      ((gaps.filter fun gap => gap.1 ≤ i + lead).map Prod.snd).sum := by
  induction gaps with
  | nil => rfl
  | cons gap gaps ih =>
    obtain ⟨index, n⟩ := gap
    by_cases hlead : index ≤ lead
    · have hle : index ≤ i + lead := by omega
      have hlt : ¬ lead < index := by omega
      simp only [List.filter_cons, hlead, hle, hlt, decide_true, decide_false, if_true,
        Bool.false_eq_true, if_false, List.map_cons, List.sum_cons, ← ih]
      omega
    · have hlt : lead < index := by omega
      by_cases hi : index ≤ i + lead
      · have hle : index - lead ≤ i := by omega
        simp only [List.filter_cons, hlead, hi, hle, hlt, decide_true, decide_false, if_true,
          Bool.false_eq_true, if_false, List.map_cons, List.sum_cons, ← ih]
        omega
      · have hle : ¬ index - lead ≤ i := by omega
        simp only [List.filter_cons, hlead, hi, hle, hlt, decide_true, decide_false, if_true,
          Bool.false_eq_true, if_false, List.map_cons, ← ih]

/-- A text that starts at index `lead` of the clip, with what the clip knows about its places. -/
def Clip.behind (clip : Clip) (lead : Nat) (text : String) : Clip where
  text := text
  start := clip.start + lead + ((clip.gaps.filter fun gap => gap.1 ≤ lead).map Prod.snd).sum
  gaps := (clip.gaps.filter fun gap => lead < gap.1).map fun gap => (gap.1 - lead, gap.2)

theorem Clip.sourceOffset_behind {clip : Clip}
    (h : clip.gaps.Pairwise fun gap later => gap.1 ≤ later.1) (lead : Nat) (text : String)
    (i : Nat) :
    (clip.behind lead text).sourceOffset i = clip.sourceOffset (i + lead) := by
  have hascending : (clip.behind lead text).gaps.Pairwise fun gap later => gap.1 ≤ later.1 :=
    List.pairwise_map.2 ((h.filter _).imp fun hle => Nat.sub_le_sub_right hle _)
  have hsum := sum_shift lead i clip.gaps
  rw [sourceOffset, sourceOffset, takeWhile_eq_filter h, takeWhile_eq_filter hascending, ← hsum]
  simp only [behind]
  omega

/-- A part of the text has no gap inside its characters either. -/
theorem Clip.Aligned.behind {clip : Clip} (h : clip.Aligned) {front text back : String}
    (htext : clip.text = front ++ (text ++ back)) :
    (clip.behind front.utf8ByteSize text).Aligned := by
  intro gap hgap c hc
  obtain ⟨old, hold, rfl⟩ := List.mem_map.1 hgap
  have hmem : c.move (· + front.utf8ByteSize) ∈ Located.ofString clip.text := by
    rw [htext, Located.ofString_append, Located.ofString_append]
    exact List.mem_append_right _ (List.mem_map_of_mem (List.mem_append_left _ hc))
  have hplaces := h old (List.mem_of_mem_filter hold) _ hmem
  simp only [Located.stop, Located.move] at hplaces ⊢
  omega

theorem Clip.Aligned.truncate {clip : Clip} (h : clip.Aligned) {text back : String}
    (htext : clip.text = text ++ back) : ({ clip with text := text } : Clip).Aligned := by
  intro gap hgap c hc
  refine h gap hgap c ?_
  rw [htext, Located.ofString_append]
  exact List.mem_append_left _ hc

theorem trimLeft_text (cs : List Located) :
    Text.trimLeft (Located.text cs) =
      Located.text (cs.dropWhile fun c => Text.isBlank c.char) := by
  rw [Text.trimLeft, Located.text, String.toList_ofList, List.dropWhile_map]
  rfl

theorem trimEnd_text (cs : List Located) :
    trimEnd (Located.text cs) =
      Located.text (Text.dropRightWhile (fun c => Text.isBlank c.char) cs) := by
  rw [trimEnd, Located.text, String.toList_ofList, Text.dropRightWhile, Text.dropRightWhile,
    ← List.map_reverse, List.dropWhile_map, ← List.map_reverse]
  rfl

theorem text_append (xs ys : List Located) :
    Located.text (xs ++ ys) = Located.text xs ++ Located.text ys := by
  simp [Located.text]

theorem truncate_text {ε : Type} (xs ys : List Located) :
    (truncate (Located.text (xs ++ ys)) (Located.text xs).utf8ByteSize : Checked ε String) =
      .ok (Located.text xs) := by
  have hcut := @cut_middle ε "" (Located.text xs) (Located.text ys)
  rw [truncate, if_pos (by simp [text_append, String.utf8ByteSize_append]), text_append]
  simpa using hcut

theorem cutFrom_text {ε : Type} (xs ys : List Located) :
    (cutFrom (Located.text (xs ++ ys)) (Located.size xs) : Checked ε String) =
      .ok (Located.text ys) := by
  have hcut := @cut_middle ε (Located.text xs) (Located.text ys) ""
  rwa [String.append_empty, ← String.utf8ByteSize_append, ← text_append,
    Located.utf8ByteSize_text xs] at hcut

/-- Shortening a text by the blanks at its end and then by those at its start leaves what is between
them, also where there are blanks only. -/
theorem cut_blanks {ε : Type} {lead body tail : List Located}
    (hlead : ∀ c ∈ lead, Text.isBlank c.char = true)
    (htail : ∀ c ∈ tail, Text.isBlank c.char = true)
    (hlast : ∀ c, body.getLast? = some c → Text.isBlank c.char = false) :
    (truncate (Located.text (lead ++ (body ++ tail)))
        (trimEnd (Located.text (lead ++ (body ++ tail)))).utf8ByteSize >>= fun text =>
      cutFrom text (min (Located.size lead) text.utf8ByteSize) : Checked ε String) =
      .ok (Located.text body) := by
  rw [trimEnd_text]
  cases body with
  | nil =>
    have hnone : Text.dropRightWhile (fun c : Located => Text.isBlank c.char)
        ([] ++ (lead ++ tail)) = [] := by
      refine Event.dropRightWhile_append (fun c hc => ?_) (by simp)
      rcases List.mem_append.1 hc with hc | hc
      · exact hlead c hc
      · exact htail c hc
    have hcut := @cutFrom_text ε [] []
    rw [List.nil_append, ← List.nil_append (lead ++ tail), hnone, truncate_text, ok_bind]
    simpa [Located.utf8ByteSize_text] using hcut
  | cons c body =>
    have hfull : Text.dropRightWhile (fun c : Located => Text.isBlank c.char)
        (lead ++ c :: body ++ tail) = lead ++ c :: body := by
      refine Event.dropRightWhile_append htail fun d hd => hlast d ?_
      rwa [List.getLast?_append_of_ne_nil _ (List.cons_ne_nil c body)] at hd
    rw [← List.append_assoc, hfull, truncate_text, ok_bind, Located.utf8ByteSize_text,
      Located.size_append, Nat.min_eq_left (Nat.le_add_right _ _), cutFrom_text]

theorem exists_trim (kept : List Located) (place : Nat) :
    ∃ lead body tail, kept = lead ++ (body ++ tail) ∧
      (kept.dropWhile fun c => Text.isBlank c.char) = body ++ tail ∧
      Excerpt.trim kept place = ⟨body, Located.startOf place tail⟩ ∧
      (∀ c ∈ lead, Text.isBlank c.char = true) ∧ (∀ c ∈ tail, Text.isBlank c.char = true) ∧
      ∀ c, body.getLast? = some c → Text.isBlank c.char = false := by
  let blank : Located → Bool := fun c => Text.isBlank c.char
  let rest := kept.dropWhile blank
  have hrest := Excerpt.dropRightWhile_append_drop blank rest
  refine ⟨kept.takeWhile blank, Text.dropRightWhile blank rest, _, ?_, hrest.symm, rfl,
    fun c hc => ?_, fun c hc => ?_, fun c hc => ?_⟩
  · rw [hrest]
    exact List.takeWhile_append_dropWhile.symm
  · exact (List.mem_takeWhile_imp hc : blank c = true)
  · exact (Excerpt.of_mem_drop_dropRightWhile hc : blank c = true)
  · exact (Event.getLast?_dropRightWhile hc : blank c = false)

/-- Trimming a copy is trimming what it shows. -/
theorem Clip.Shows.trim (ε : Type) {clip : Clip} {kept : List Located} {place : Nat}
    (h : clip.Shows kept place) :
    ∃ result, (clip.trim : Checked ε Clip) = .ok result ∧
      result.excerpt = Excerpt.trim kept place ∧ result.Aligned := by
  obtain ⟨lead, body, tail, hkept, hrest, htrim, hlead, htail, hlast⟩ := exists_trim kept place
  have hsubtract : (subtract clip.text.utf8ByteSize (Text.trimLeft clip.text).utf8ByteSize :
      Checked ε Nat) = .ok (Located.size lead) := by
    rw [h.text_eq, trimLeft_text, hrest, Located.utf8ByteSize_text, Located.utf8ByteSize_text,
      hkept, Located.size_append, subtract_of_le (Nat.le_add_left _ _), Nat.add_sub_cancel]
  have hcut := @cut_blanks ε _ _ _ hlead htail hlast
  rw [← hkept, ← h.text_eq] at hcut
  have hexcerpt := h.excerpt_eq
  rw [hkept] at hexcerpt
  have hlater : (clip.behind (Located.size lead) (Located.text (body ++ tail))).excerpt =
      ⟨body ++ tail, place⟩ :=
    excerpt_drop hexcerpt rfl fun i => sourceOffset_behind h.ascending _ _ i
  refine ⟨clip.behind (Located.size lead) (Located.text body), ?_, ?_, ?_⟩
  · rw [Clip.trim, hsubtract, ok_bind, shift_eq, ← bind_assoc, hcut]
    rfl
  · rw [htrim]
    exact excerpt_truncate hlater
  · rw [← Located.utf8ByteSize_text]
    have htext : clip.text = Located.text lead ++ (Located.text body ++ Located.text tail) := by
      rw [h.text_eq, hkept, text_append, text_append]
    exact h.aligned.behind htext

/-- The clip shows the excerpt, which does not start with a blank character, and has no gap inside a
character. -/
structure Clip.IsCopy (clip : Clip) (e : Excerpt) : Prop where
  excerpt_eq : clip.excerpt = e
  aligned : clip.Aligned
  tight : ∀ c, e.chars.head? = some c → Text.isBlank c.char = false

theorem Clip.Shows.trim_isCopy {ε : Type} {clip : Clip} {kept : List Located} {place : Nat}
    (h : clip.Shows kept place) :
    ∃ result, (clip.trim : Checked ε Clip) = .ok result ∧
      result.IsCopy (Excerpt.trim kept place) := by
  obtain ⟨result, htrim, hexcerpt, haligned⟩ := h.trim ε
  refine ⟨result, htrim, hexcerpt, haligned, fun c hc => ?_⟩
  obtain ⟨lead, body, tail, -, hrest, heq, -⟩ := exists_trim kept place
  have hhead := List.head?_dropWhile_not (fun c : Located => Text.isBlank c.char) kept
  rw [heq] at hc
  rw [hrest, List.head?_append, show body.head? = some c from hc] at hhead
  simpa using hhead

/-- A range cut out by offsets is the excerpt of its characters. -/
theorem clean_spot {source : String} {taken tail : List Located}
    (h : taken ++ tail <:+ Located.ofString source) :
    Agrees Clip.IsCopy (clean source (spot source (taken ++ tail)) (spot source tail))
      (Excerpt.cut (taken ++ tail) (spot source tail)) := by
  have hadd := spot_append h
  have hsweep : Sweeps source _ [] [] (taken ++ tail) tail :=
    sweep_spot h (List.suffix_append taken tail) (Clip.Shows.empty _)
  rw [clean, subtract_of_le (by omega), ok_bind, Excerpt.cut]
  exact hsweep.bind_map fun clip kept hshows => hshows.trim_isCopy

/-! ## The flag -/

theorem rfind?_eq_none {mark : Char} {text : String} (h : rfind? mark text = none) :
    ∀ c ∈ Located.ofString text, c.char ≠ mark := by
  rw [rfind?, Option.map_eq_none_iff, List.find?_eq_none] at h
  intro c hc
  simpa using h c (List.mem_reverse.2 hc)

theorem rfind?_eq_some {mark : Char} {text : String} {i : Nat} (h : rfind? mark text = some i) :
    ∃ before c word, Located.ofString text = before ++ c :: word ∧ c.char = mark ∧ c.offset = i ∧
      ∀ d ∈ word, d.char ≠ mark := by
  rw [rfind?, Option.map_eq_some_iff] at h
  obtain ⟨c, hfind, rfl⟩ := h
  obtain ⟨hc, front, back, hreverse, hfront⟩ := List.find?_eq_some_iff_append.1 hfind
  refine ⟨back.reverse, c, front.reverse, ?_, by simpa using hc, rfl, fun d hd => ?_⟩
  · rw [← List.reverse_reverse (Located.ofString text), hreverse]
    simp
  · simpa using hfront d (List.mem_reverse.1 hd)

theorem trim_of_tight {kept : List Located} {place : Nat}
    (h : ∀ c, kept.head? = some c → Text.isBlank c.char = false) :
    ∃ body tail, kept = body ++ tail ∧
      Text.dropRightWhile (fun c => Text.isBlank c.char) kept = body ∧
      Excerpt.trim kept place = ⟨body, Located.startOf place tail⟩ := by
  have hdrop : (kept.dropWhile fun c => Text.isBlank c.char) = kept := by
    cases kept with
    | nil => rfl
    | cons c kept => exact List.dropWhile_cons_of_neg (by simp [h c rfl])
  refine ⟨_, _, (Excerpt.dropRightWhile_append_drop _ kept).symm, rfl, ?_⟩
  rw [Excerpt.trim, hdrop]

/-- A copy cut short behind the last character of a front that is not blank shows that front. -/
theorem Clip.IsCopy.truncate (ε : Type) {clip : Clip} {e : Excerpt} (h : clip.IsCopy e)
    {before rest : List Located} (hsplit : e.chars = before ++ rest) :
    ∃ text, (truncate clip.text (trimEnd (Located.text before)).utf8ByteSize : Checked ε String) =
        .ok text ∧
      ({ clip with text := text } : Clip).excerpt =
        Excerpt.trim before (Located.startOf e.stop rest) ∧
      ({ clip with text := text } : Clip).Aligned := by
  obtain ⟨rfl, haligned, htight⟩ := h
  obtain ⟨body, tail, hbefore, hbody, htrim⟩ :=
    @trim_of_tight before (Located.startOf clip.excerpt.stop rest) fun c hc =>
      htight c (by simp [hsplit, hc])
  have hexcerpt : clip.excerpt = ⟨body ++ (tail ++ rest), clip.excerpt.stop⟩ := by
    rw [← List.append_assoc, ← hbefore, ← hsplit]
  have htext : clip.text = Located.text (body ++ (tail ++ rest)) := by
    rw [← clip.text_excerpt, hexcerpt]
    rfl
  refine ⟨Located.text body, ?_, ?_, haligned.truncate (htext.trans (text_append _ _))⟩
  · rw [trimEnd_text, hbody, htext, truncate_text]
  · rw [Clip.excerpt_truncate hexcerpt, htrim, Located.startOf_append]

theorem Clip.IsCopy.splitImportant (ε : Type) {clip : Clip} {e : Excerpt} (h : clip.IsCopy e) :
    ∃ result, (clip.splitImportant : Checked ε _) = .ok (result, e.splitImportant.2) ∧
      result.excerpt = e.splitImportant.1 ∧ result.Aligned := by
  have hcopy := h
  obtain ⟨rfl, haligned, -⟩ := h
  have hchars : clip.excerpt.chars =
      (Located.ofString clip.text).map (Located.move clip.sourceOffset) := rfl
  rw [Clip.splitImportant]
  cases hfind : rfind? '!' clip.text with
  | none =>
    have hfree := rfind?_eq_none hfind
    rcases Excerpt.splitImportant_cases clip.excerpt with
      heq | ⟨before, bang, word, hsplit, hbang, _⟩
    · exact ⟨clip, by rw [heq], by rw [heq], haligned⟩
    · have hmem : bang ∈ clip.excerpt.chars := by simp [hsplit]
      rw [hchars] at hmem
      obtain ⟨c, hc, rfl⟩ := List.mem_map.1 hmem
      exact absurd hbang (hfree c hc)
  | some i =>
    obtain ⟨before, bang, word, hsplit, hbang, rfl, hword⟩ := rfind?_eq_some hfind
    have hsuffix : before ++ bang :: word <:+ Located.ofString clip.text :=
      hsplit ▸ List.suffix_rfl
    have hbangSuffix : bang :: word <:+ Located.ofString clip.text :=
      (List.suffix_append before _).trans hsuffix
    have hafter := @cutFrom_spot ε _ _ ((List.suffix_cons bang word).trans hbangSuffix)
    rw [spot_rest hbangSuffix, stop_eq_of_ascii (by simp [hbang])] at hafter
    have hfront := @cut_append ε _ _ _ hsuffix
    rw [← hsplit, spot_ofString, spot_cons] at hfront
    rw [hsplit, List.map_append, List.map_cons] at hchars
    have hflag := Excerpt.splitImportant_last hchars hbang
      (by simpa using hword)
    rw [Located.text_move] at hflag
    simp only [hafter, ok_bind]
    split
    · next himportant =>
      rw [if_pos himportant] at hflag
      obtain ⟨text, htruncate, hexcerpt, hshort⟩ := hcopy.truncate ε hchars
      rw [Located.text_move] at htruncate
      rw [hfront, ok_bind, htruncate, ok_bind, hflag]
      exact ⟨_, rfl, hexcerpt, hshort⟩
    · next himportant =>
      rw [if_neg himportant] at hflag
      exact ⟨clip, by rw [hflag], by rw [hflag], haligned⟩

end SheetPolicy.Cursor

import Mathlib
import SheetPolicy.Proofs.Diagnostic

/-!
The weight in a `font` shorthand. A part of the value that another one follows has closed what it
opened (`Part.Parted`), so that white space at its very end is escaped. A line height that is
written right behind its slash stands in one part with the slash and is not taken for a weight; with
white space after the slash it is a part of its own, and can be (`weight_behind_slash_iff`).
-/

namespace SheetPolicy

/-- The characters before a byte offset. -/
def Text.before (text : String) (offset : Nat) : List Char :=
  ((Located.ofString text).filter fun c => c.offset < offset).map Located.char

/-- The last character before a byte offset that is no white space. -/
def Text.lastVisible? (text : String) (offset : Nat) : Option Char :=
  ((before text offset).filter fun c => !isSpace c).getLast?

/-- Between two characters, what stands before is what was passed. -/
theorem Text.before_size {text : String} {before after : List Located}
    (h : Located.ofString text = before ++ after) :
    Text.before text (Located.size before) = before.map Located.char := by
  have hruns := Located.runs_ofString text
  rw [h] at hruns
  obtain ⟨hbefore, hafter⟩ := hruns.of_append
  rw [Nat.zero_add] at hbefore hafter
  have hin : ∀ c ∈ before, decide (c.offset < Located.size before) = true := by
    intro c hc
    simpa using c.offset_lt_stop.trans_le (hbefore.offset_mem hc).2
  have hout : ∀ c ∈ after, ¬decide (c.offset < Located.size before) = true := by
    intro c hc
    simpa using (hafter.offset_mem hc).1
  rw [Text.before, h, List.filter_append, List.filter_eq_self.2 hin,
    List.filter_eq_nil_iff.2 hout, List.append_nil]

namespace Part

/-! ## The end of a part -/

namespace State

theorem Sound.run {s : State} (h : s.Sound) (cs : List Located) : (s.run cs).Sound := by
  induction cs generalizing s with
  | nil => exact h
  | cons c cs ih => exact ih (h.after c.char)

/-- Only a backslash leaves a character escaped. -/
theorem eq_of_escaped_after {s : State} {c : Char} (h : (s.after c).escaped = true) :
    c = '\\' := by
  unfold after at h
  grind

/-- White space that does not split, with nothing open behind it, is escaped. -/
theorem escaped_of_isSpace {s : State} {c : Char} (hs : s.Sound) (hc : Text.isSpace c = true)
    (hsplits : s.splits c = false) (h : s.after c = closed) : s.escaped = true := by
  by_contra hescaped
  rw [Bool.not_eq_true] at hescaped
  rw [after_of_isSpace hs hc hescaped] at h
  simp [splits_iff.2 ⟨h, hc⟩] at hsplits

end State

theorem Unsplit.of_concat {s : State} {cs : List Located} {c : Located}
    (h : Unsplit s (cs ++ [c])) : (s.run cs).splits c.char = false := by
  induction cs generalizing s with
  | nil => exact h.1
  | cons d cs ih => exact ih h.2

/-- A part starts with a character that is no white space. -/
theorem IsPiece.head {c : Located} {run : List Located} (h : IsPiece (c :: run)) :
    Text.isSpace c.char = false := by
  have hsplits := h.unsplit.1
  by_contra hspace
  rw [Bool.not_eq_false] at hspace
  simp [State.splits_iff.2 ⟨rfl, hspace⟩] at hsplits

/-- The last visible character of a part that closes what it opens: white space at its very end has
a backslash before it. -/
theorem IsPiece.last_visible {run : List Located} (h : IsPiece run)
    (hclosed : State.closed.run run = .closed) :
    ((run.map Located.char).filter fun c => !Text.isSpace c).getLast? = some '/' ↔
      (run.map Located.char).getLast? = some '/' := by
  obtain ⟨front, last, rfl⟩ := (List.eq_nil_or_concat' run).resolve_left h.ne_nil
  by_cases hlast : Text.isSpace last.char = true
  · -- The backslash before the white space is the last visible character.
    have hrun : (State.closed.run front).after last.char = .closed := by
      simpa [State.run] using hclosed
    have hescaped := State.escaped_of_isSpace (State.sound_closed.run front) hlast
      h.unsplit.of_concat hrun
    obtain rfl | ⟨front, slash, rfl⟩ := List.eq_nil_or_concat' front
    · simp [State.run, State.closed] at hescaped
    · have hslash : slash.char = '\\' :=
        State.eq_of_escaped_after (s := State.closed.run front)
          (by simpa [State.run] using hescaped)
      have hne : last.char ≠ '/' := by
        rintro heq
        simp [heq, Text.isSpace] at hlast
      have hback : Text.isSpace '\\' = false := by decide
      simp [hlast, hslash, hne, hback]
  · simp [hlast]

/-! ## What stands before a part -/

/-- The first part has only white space before it. -/
theorem Parted.first {later : List (List Located)} {run cs : List Located}
    (h : Parted (run :: later) cs) :
    ∃ gap after, cs = gap ++ (run ++ after) ∧ run ≠ [] ∧
      ∀ c ∈ gap, Text.isSpace c.char = true := by
  cases h with
  | last hgap hrun => exact ⟨_, [], by simp, hrun.ne_nil, hgap⟩
  | piece hgap hrun _ _ _ => exact ⟨_, _, rfl, hrun.ne_nil, hgap⟩

/-- A part that another one follows is closed, and has white space behind it. -/
theorem Parted.tail {later : List (List Located)} {run cs : List Located}
    (h : Parted (run :: later) cs) (hlater : later ≠ []) :
    ∃ gap c rest, cs = gap ++ (run ++ c :: rest) ∧ IsPiece run ∧ State.closed.run run = .closed ∧
      Text.isSpace c.char = true ∧ Parted later rest := by
  cases h with
  | last => exact absurd rfl hlater
  | piece _ hrun hclosed hspace hrest => exact ⟨_, _, _, rfl, hrun, hclosed, hspace, hrest⟩

theorem Parted.next {earlier later : List (List Located)} {run next cs : List Located}
    (h : Parted (earlier ++ run :: next :: later) cs) :
    ∃ before gap after, cs = (before ++ run ++ gap) ++ (next ++ after) ∧ next ≠ [] ∧
      IsPiece run ∧ State.closed.run run = .closed ∧ gap ≠ [] ∧
      ∀ c ∈ gap, Text.isSpace c.char = true := by
  induction earlier generalizing cs with
  | nil =>
    obtain ⟨lead, c, rest, rfl, hrun, hclosed, hspace, hrest⟩ := h.tail (by simp)
    obtain ⟨gap, after, rfl, hnext, hgap⟩ := hrest.first
    exact ⟨lead, c :: gap, after, by simp, hnext, hrun, hclosed, List.cons_ne_nil c gap,
      by simpa using ⟨hspace, hgap⟩⟩
  | cons first earlier ih =>
    obtain ⟨lead, c, rest, rfl, _, _, _, hrest⟩ := h.tail (by simp)
    obtain ⟨before, gap, after, rfl, hfacts⟩ := ih hrest
    exact ⟨lead ++ (first ++ c :: before), gap, after, by simp, hfacts⟩

theorem offset_ofRun {value : String} {before run after : List Located}
    (h : Located.ofString value = before ++ (run ++ after)) (hrun : run ≠ []) :
    (ofRun run).offset = Located.size before := by
  obtain ⟨c, run, rfl⟩ := List.exists_cons_of_ne_nil hrun
  exact Located.offset_eq_size h

/-- Before a part with another one in front of it stands white space, and before that white space
the last visible character of the other. -/
theorem before_next {value : String} {earlier later : List Part} {part next : Part}
    (h : split value = earlier ++ part :: next :: later) :
    (Text.lastVisible? value next.offset = some '/' ↔ part.text.toList.getLast? = some '/') ∧
      (Text.before value next.offset).getLast? ≠ some '/' := by
  obtain ⟨pieces, hpieces, hparted⟩ := split_parted value
  rw [hpieces] at h
  obtain ⟨front, back, rfl, -, hback⟩ := List.map_eq_append_iff.1 h
  obtain ⟨run, rest, rfl, rfl, hrest⟩ := List.map_eq_cons_iff.1 hback
  obtain ⟨other, rest, rfl, rfl, -⟩ := List.map_eq_cons_iff.1 hrest
  obtain ⟨before, gap, after, hvalue, hother, hrun, hclosed, hgap, hspaces⟩ := hparted.next
  rw [Text.lastVisible?, offset_ofRun hvalue hother, Text.before_size hvalue]
  have hblank : (gap.map Located.char).filter (fun c => !Text.isSpace c) = [] := by
    simpa [List.filter_eq_nil_iff] using hspaces
  constructor
  · have hvisible : (run.map Located.char).filter (fun c => !Text.isSpace c) ≠ [] := by
      obtain ⟨c, run, rfl⟩ := List.exists_cons_of_ne_nil hrun.ne_nil
      simp [hrun.head]
    have htext : (ofRun run).text.toList = run.map Located.char := by
      simp [ofRun, Located.text]
    rw [htext, ← hrun.last_visible hclosed, List.map_append, List.map_append, List.filter_append,
      List.filter_append, hblank, List.append_nil, List.getLast?_append_of_ne_nil _ hvisible]
  · obtain ⟨gap, last, rfl⟩ := (List.eq_nil_or_concat' gap).resolve_left hgap
    have hlast := hspaces last (by simp)
    have hne : last.char ≠ '/' := by
      rintro heq
      simp [heq, Text.isSpace] at hlast
    simpa [← List.append_assoc] using hne

/-- Before the first part stands white space only. -/
theorem before_first {value : String} {later : List Part} {part : Part}
    (h : split value = part :: later) :
    ∀ c ∈ Text.before value part.offset, Text.isSpace c = true := by
  obtain ⟨pieces, hpieces, hparted⟩ := split_parted value
  rw [hpieces] at h
  obtain ⟨run, back, rfl, rfl, -⟩ := List.map_eq_cons_iff.1 h
  obtain ⟨gap, after, hvalue, hrun, hgap⟩ := hparted.first
  rw [offset_ofRun hvalue hrun, Text.before_size hvalue]
  simpa using hgap

end Part

namespace FontWeight

/-! ## Weights and slashes -/

/-- In a shorthand the weight is a part of the value. -/
theorem mem_split_of_weightOf? {keywords : Keywords} {decl : Declaration} {weight : Weight}
    (hfont : Text.sameLetters decl.prop "font" = true)
    (h : weightOf? keywords decl = some weight) :
    (⟨weight.text, weight.offset⟩ : Part) ∈ Part.split decl.value.text := by
  have hplain : ¬Text.sameLetters decl.prop "font-weight" = true := by
    intro hweight
    have hlower : Text.lower "font" = Text.lower "font-weight" :=
      (beq_iff_eq.1 hfont).symm.trans (beq_iff_eq.1 hweight)
    exact absurd hlower (by decide)
  rw [weightOf?, if_neg hplain, if_pos hfont] at h
  obtain ⟨part, hpart, rfl⟩ := Option.map_eq_some_iff.1 h
  exact List.mem_of_find?_eq_some hpart

/-- A weight that a `font` shorthand is found to set is never written right behind a slash. It has
a slash before it, with white space in between, exactly if the part before it ends in one: then it
is the line height that is taken for a weight. -/
theorem weight_behind_slash_iff {keywords : Keywords} {decl : Declaration} {weight : Weight}
    (hfont : Text.sameLetters decl.prop "font" = true)
    (h : weightOf? keywords decl = some weight) :
    (Text.before decl.value.text weight.offset).getLast? ≠ some '/' ∧
    (Text.lastVisible? decl.value.text weight.offset = some '/' ↔
      ∃ earlier part later,
        Part.split decl.value.text =
          earlier ++ part :: ⟨weight.text, weight.offset⟩ :: later ∧
        part.text.toList.getLast? = some '/') := by
  obtain ⟨earlier, later, hsplit⟩ := List.append_of_mem (mem_split_of_weightOf? hfont h)
  obtain rfl | ⟨earlier, part, rfl⟩ := List.eq_nil_or_concat' earlier
  · have hspaces := Part.before_first hsplit
    have hnone : Text.lastVisible? decl.value.text weight.offset = none := by
      simpa [Text.lastVisible?, List.filter_eq_nil_iff] using hspaces
    refine ⟨fun hslash => ?_, ?_⟩
    · have := hspaces _ (List.mem_of_getLast? hslash)
      simp [Text.isSpace] at this
    · rw [hnone]
      refine ⟨by simp, ?_⟩
      rintro ⟨front, part, back, hother, hpart⟩
      rw [← hnone]
      exact (Part.before_next hother).1.2 hpart
  · rw [List.append_assoc, List.singleton_append] at hsplit
    obtain ⟨hiff, hne⟩ := Part.before_next hsplit
    refine ⟨hne, ⟨fun hslash => ⟨earlier, part, later, hsplit, hiff.1 hslash⟩, ?_⟩⟩
    rintro ⟨front, other, back, hother, hslash⟩
    exact (Part.before_next hother).1.2 hslash

/-- A shorthand with white space on both sides of the slash. -/
def sampleShorthand : Declaration :=
  ⟨⟨4, 26⟩, "font", ⟨Located.place 10 "12px / 1.5 serif".toList, 26⟩, false⟩

theorem weight_behind_slash_iff_sample :
    Text.sameLetters sampleShorthand.prop "font" = true ∧
    weightOf? {} sampleShorthand = some ⟨"1.5", 7, .shorthand⟩ ∧
    Text.lastVisible? sampleShorthand.value.text 7 = some '/' ∧
    ∃ earlier part later,
      Part.split sampleShorthand.value.text = earlier ++ part :: ⟨"1.5", 7⟩ :: later ∧
      part.text.toList.getLast? = some '/' := by
  have hfont : Text.sameLetters sampleShorthand.prop "font" = true := by decide
  have hweight : weightOf? {} sampleShorthand = some ⟨"1.5", 7, .shorthand⟩ := by decide +kernel
  have hslash : Text.lastVisible? sampleShorthand.value.text 7 = some '/' := by decide +kernel
  exact ⟨hfont, hweight, hslash, (weight_behind_slash_iff hfont hweight).2.1 hslash⟩

/-- In a sheet with such a declaration the line height is taken for the weight. -/
theorem line_height_taken_for_weight :
    ¬∀ source sheet decl parent weight, Sheet.parse source = .ok sheet →
      (decl, parent) ∈ sheet.declarations → Text.sameLetters decl.prop "font" = true →
      weightOf? {} decl = some weight →
      Text.lastVisible? decl.value.text weight.offset ≠ some '/' := by
  intro hnever
  have hfound : (Sheet.parse "a \x7b font: 12px / 1.5 serif \x7d").toOption.any (fun sheet =>
      sheet.declarations.any fun found => Text.sameLetters found.1.prop "font" &&
        (weightOf? {} found.1).any fun weight =>
          Text.lastVisible? found.1.value.text weight.offset == some '/') = true := by
    decide +kernel
  cases hparse : Sheet.parse "a \x7b font: 12px / 1.5 serif \x7d" with
  | error e => simp [hparse, Except.toOption] at hfound
  | ok sheet =>
    rw [hparse] at hfound
    obtain ⟨⟨decl, parent⟩, hdecl, htaken⟩ := List.any_eq_true.1 hfound
    obtain ⟨hfont, hany⟩ := Bool.and_eq_true_iff.1 htaken
    cases hweight : weightOf? {} decl with
    | none => simp [hweight] at hany
    | some weight =>
      rw [hweight] at hany
      exact hnever _ sheet decl parent weight hparse hdecl hfont hweight (beq_iff_eq.1 hany)

end FontWeight

end SheetPolicy

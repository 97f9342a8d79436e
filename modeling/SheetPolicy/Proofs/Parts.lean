import Mathlib
import SheetPolicy.Value.Part
import SheetPolicy.Proofs.Located

/-!
Parts of a value. A value is split at white space where nothing is open, so that a part with another
one behind it has closed what it opened (`Part.Parted`). Main statement: splitting loses nothing but
white space, a part is not split again, and parts that close what they open can be put together with
any white space in between and are then found again (`Part.split_lossless`).
-/

namespace SheetPolicy

namespace Part

/-! ## Parts and what they close -/

namespace State

/-- Nothing is open. -/
def closed : State := ⟨0, none, false⟩

/-- The state after some characters. -/
def run (s : State) (cs : List Located) : State :=
  cs.foldl (fun s c => s.after c.char) s

theorem splits_iff {s : State} {c : Char} :
    s.splits c = true ↔ s = closed ∧ Text.isSpace c = true := by
  obtain ⟨depth, quote, escaped⟩ := s
  cases escaped <;> cases quote <;> simp [splits, closed]

/-- What is open between quotes was opened by one of the two quotes. -/
def Sound (s : State) : Prop :=
  ∀ q, s.quote = some q → q = '"' ∨ q = '\''

theorem sound_closed : closed.Sound := by
  simp [Sound, closed]

theorem Sound.after {s : State} (h : s.Sound) (c : Char) : (s.after c).Sound := by
  unfold Sound State.after at *
  grind

/-- White space neither opens nor closes anything. -/
theorem after_of_isSpace {s : State} {c : Char} (hs : s.Sound) (hc : Text.isSpace c = true)
    (hescaped : s.escaped = false) : s.after c = s := by
  unfold Text.isSpace at hc
  unfold Sound at hs
  unfold after
  grind

theorem after_closed_of_isSpace {c : Char} (hc : Text.isSpace c = true) :
    closed.after c = closed :=
  after_of_isSpace sound_closed hc rfl

end State

/-- No character splits what is read from a state on. -/
def Unsplit : State → List Located → Prop
  | _, [] => True
  | s, c :: cs => s.splits c.char = false ∧ Unsplit (s.after c.char) cs

/-- The characters can be a part of a value: they are read from where nothing is open, and none of
them splits. -/
structure IsPiece (run : List Located) : Prop where
  ne_nil : run ≠ []
  unsplit : Unsplit .closed run

/-- The parts of a text that is read from where nothing is open. Only white space stands before,
between and behind them, and a part with something behind it closes what it opens. -/
inductive Parted : List (List Located) → List Located → Prop
  | blank {gap : List Located} : (∀ c ∈ gap, Text.isSpace c.char = true) → Parted [] gap
  | last {gap run : List Located} :
      (∀ c ∈ gap, Text.isSpace c.char = true) → IsPiece run → Parted [run] (gap ++ run)
  | piece {gap run rest : List Located} {c : Located} {later : List (List Located)} :
      (∀ c ∈ gap, Text.isSpace c.char = true) → IsPiece run → State.closed.run run = .closed →
      Text.isSpace c.char = true → Parted later rest →
      Parted (run :: later) (gap ++ (run ++ c :: rest))

theorem Parted.cons_space {pieces : List (List Located)} {c : Located} {cs : List Located}
    (h : Parted pieces cs) (hc : Text.isSpace c.char = true) : Parted pieces (c :: cs) := by
  have hcons : ∀ gap : List Located, (∀ d ∈ gap, Text.isSpace d.char = true) →
      ∀ d ∈ c :: gap, Text.isSpace d.char = true := by
    intro gap hgap
    simpa using ⟨hc, hgap⟩
  cases h with
  | blank hgap => exact .blank (hcons _ hgap)
  | last hgap hrun => exact .last (hcons _ hgap) hrun
  | piece hgap hrun hclosed hspace hlater => exact .piece (hcons _ hgap) hrun hclosed hspace hlater

/-- A run that starts where nothing is open is the first part, unless it is empty. -/
theorem Parted.of_run {run cs : List Located} {later : List (List Located)}
    (hunsplit : Unsplit .closed run)
    (h : cs = run ∧ later = [] ∨ ∃ c rest, cs = run ++ c :: rest ∧
      State.closed.run run = .closed ∧ Text.isSpace c.char = true ∧ Parted later rest) :
    Parted (if run.isEmpty then later else run :: later) cs := by
  cases run with
  | nil =>
    rcases h with ⟨rfl, rfl⟩ | ⟨c, rest, rfl, _, hspace, hlater⟩
    · exact .blank (by simp)
    · exact hlater.cons_space hspace
  | cons d run =>
    have hpiece : IsPiece (d :: run) := ⟨List.cons_ne_nil d run, hunsplit⟩
    rcases h with ⟨rfl, rfl⟩ | ⟨c, rest, rfl, hclosed, hspace, hlater⟩
    · exact @Parted.last [] _ (by simp) hpiece
    · exact @Parted.piece [] _ _ _ _ (by simp) hpiece hclosed hspace hlater

/-- What `runs` finds from a state on: a run that nothing splits, to the end of the text or up to
white space where nothing is open any more; and the parts behind that. -/
theorem runs_parted (s : State) (cs : List Located) :
    Unsplit s (runs s cs).1 ∧
      (cs = (runs s cs).1 ∧ (runs s cs).2 = [] ∨
        ∃ c rest, cs = (runs s cs).1 ++ c :: rest ∧ s.run (runs s cs).1 = .closed ∧
          Text.isSpace c.char = true ∧ Parted (runs s cs).2 rest) := by
  induction cs generalizing s with
  | nil => exact ⟨trivial, .inl ⟨rfl, rfl⟩⟩
  | cons c cs ih =>
    obtain ⟨hunsplit, hrest⟩ := ih (s.after c.char)
    rw [runs]
    by_cases hsplits : s.splits c.char = true
    · obtain ⟨rfl, hspace⟩ := State.splits_iff.1 hsplits
      rw [State.after_closed_of_isSpace hspace] at hunsplit hrest ⊢
      simp only [hsplits, if_true]
      exact ⟨trivial, .inr ⟨c, cs, rfl, rfl, hspace, .of_run hunsplit hrest⟩⟩
    · simp only [hsplits]
      rw [Bool.not_eq_true] at hsplits
      refine ⟨⟨hsplits, hunsplit⟩, ?_⟩
      rcases hrest with ⟨hcs, hlater⟩ | ⟨d, rest, hcs, hclosed, hspace, hlater⟩
      · exact .inl ⟨congrArg (c :: ·) hcs, hlater⟩
      · exact .inr ⟨d, rest, congrArg (c :: ·) hcs, hclosed, hspace, hlater⟩

/-- The runs of characters that `split` makes parts of. -/
def piecesOf (cs : List Located) : List (List Located) :=
  if (runs .closed cs).1.isEmpty then (runs .closed cs).2
  else (runs .closed cs).1 :: (runs .closed cs).2

theorem split_eq (value : String) :
    split value = (piecesOf (Located.ofString value)).map ofRun := rfl

theorem parted_piecesOf (cs : List Located) : Parted (piecesOf cs) cs := by
  obtain ⟨hunsplit, hrest⟩ := runs_parted .closed cs
  exact .of_run hunsplit hrest

theorem split_parted (value : String) :
    ∃ pieces, split value = pieces.map ofRun ∧ Parted pieces (Located.ofString value) :=
  ⟨_, split_eq value, parted_piecesOf _⟩

variable {run rest : List Located}

/-! ## Where parts stand -/

/-- A part can be read again, and it is a piece of the text. -/
theorem Parted.mem {pieces : List (List Located)} {cs : List Located} (h : Parted pieces cs)
    (hrun : run ∈ pieces) : IsPiece run ∧ ∃ before after, cs = before ++ (run ++ after) := by
  induction h with
  | blank => cases hrun
  | last _ hpiece =>
    obtain rfl := List.mem_singleton.1 hrun
    exact ⟨hpiece, _, [], by rw [List.append_nil]⟩
  | @piece gap first rest c later _ hpiece _ _ _ ih =>
    rcases List.mem_cons.1 hrun with rfl | hrun
    · exact ⟨hpiece, gap, c :: rest, rfl⟩
    · obtain ⟨hother, before, after, rfl⟩ := ih hrun
      exact ⟨hother, gap ++ (first ++ c :: before), after, by simp⟩

/-- What is in no part is white space. -/
theorem Parted.space_or_mem {pieces : List (List Located)} {cs : List Located}
    (h : Parted pieces cs) {c : Located} (hc : c ∈ cs) :
    Text.isSpace c.char = true ∨ ∃ run ∈ pieces, c ∈ run := by
  induction h with
  | blank hgap => exact .inl (hgap c hc)
  | @last gap run hgap _ =>
    rcases List.mem_append.1 hc with hc | hc
    · exact .inl (hgap c hc)
    · exact .inr ⟨run, by simp, hc⟩
  | @piece gap run rest d later hgap _ _ hspace _ ih =>
    rcases List.mem_append.1 hc with hc | hc
    · exact .inl (hgap c hc)
    rcases List.mem_append.1 hc with hc | hc
    · exact .inr ⟨run, by simp, hc⟩
    rcases List.mem_cons.1 hc with rfl | hc
    · exact .inl hspace
    · rcases ih hc with hspace | ⟨other, hother, hmem⟩
      · exact .inl hspace
      · exact .inr ⟨other, List.mem_cons_of_mem run hother, hmem⟩

/-- A part starts at the place that its offset says. -/
theorem offset_of_runs {start stop : Nat} (h : Located.Runs start (run ++ rest) stop)
    (hne : run ≠ []) : (ofRun run).offset = start := by
  obtain ⟨c, run, rfl⟩ := List.exists_cons_of_ne_nil hne
  exact h.1

/-- Parts stand one behind the other with something in between. -/
theorem Parted.apart {pieces : List (List Located)} {cs : List Located} (h : Parted pieces cs)
    {start stop : Nat} (hruns : Located.Runs start cs stop) :
    pieces.Pairwise fun r r' => (ofRun r).offset + Located.size r < (ofRun r').offset := by
  induction h generalizing start with
  | blank => exact .nil
  | last => exact List.pairwise_singleton _ _
  | @piece gap run rest c later _ hpiece _ _ hlater ih =>
    have hrun := hruns.of_append.2
    obtain ⟨hoffset, hrest⟩ := hrun.of_append.2
    refine .cons (fun other hother => ?_) (ih hrest)
    obtain ⟨hother, before, after, rfl⟩ := hlater.mem hother
    rw [offset_of_runs hrun hpiece.ne_nil, offset_of_runs hrest.of_append.2 hother.ne_nil,
      ← hoffset]
    exact Nat.lt_add_right _ c.offset_lt_stop

/-! ## Reading parts again -/

theorem State.run_congr {xs ys : List Located} (h : xs.map Located.char = ys.map Located.char)
    (s : State) : s.run xs = s.run ys := by
  have hchars : ∀ cs : List Located, s.run cs = (cs.map Located.char).foldl State.after s :=
    fun cs => List.foldl_map.symm
  rw [hchars, hchars, h]

/-- Whether characters split does not hang on where they stand. -/
theorem Unsplit.congr {s : State} {xs ys : List Located} (hxs : Unsplit s xs)
    (h : xs.map Located.char = ys.map Located.char) : Unsplit s ys := by
  induction xs generalizing s ys with
  | nil =>
    obtain rfl := List.map_eq_nil_iff.1 h.symm
    trivial
  | cons x xs ih =>
    obtain ⟨y, ys, rfl, hy, hys⟩ := List.map_eq_cons_iff.1 h.symm
    rw [Unsplit, hy]
    exact ⟨hxs.1, ih hxs.2 hys.symm⟩

theorem IsPiece.congr {xs ys : List Located} (hxs : IsPiece xs)
    (h : xs.map Located.char = ys.map Located.char) : IsPiece ys := by
  refine ⟨?_, hxs.unsplit.congr h⟩
  rintro rfl
  exact hxs.ne_nil (List.map_eq_nil_iff.1 h)

/-- Characters that do not split are passed into the run that follows them. -/
theorem runs_append {s : State} (h : Unsplit s run) (rest : List Located) :
    runs s (run ++ rest) = (run ++ (runs (s.run run) rest).1, (runs (s.run run) rest).2) := by
  induction run generalizing s with
  | nil => rfl
  | cons c run ih =>
    rw [List.cons_append, runs, ih h.2]
    simp [h.1, State.run]

/-- White space where nothing is open ends the run before it. -/
theorem runs_cons_space {c : Located} (hc : Text.isSpace c.char = true) (cs : List Located) :
    runs .closed (c :: cs) = ([], piecesOf cs) := by
  rw [runs, State.after_closed_of_isSpace hc, State.splits_iff.2 ⟨rfl, hc⟩]
  rfl

theorem piecesOf_append_gap {gap : List Located} (h : ∀ c ∈ gap, Text.isSpace c.char = true)
    (cs : List Located) : piecesOf (gap ++ cs) = piecesOf cs := by
  induction gap with
  | nil => rfl
  | cons c gap ih =>
    rw [List.forall_mem_cons] at h
    rw [List.cons_append, piecesOf, runs_cons_space h.1]
    exact ih h.2

/-- A part up to the end of the text, whatever it leaves open. -/
theorem piecesOf_last (h : IsPiece run) : piecesOf run = [run] := by
  have hruns : runs .closed run = (run, []) := by
    simpa [runs] using runs_append h.unsplit []
  simp [piecesOf, hruns, h.ne_nil]

/-- A part that closes what it opens, with nothing or white space behind it. -/
theorem piecesOf_append (h : IsPiece run) (hclosed : State.closed.run run = .closed)
    (hrest : ∀ c, rest.head? = some c → Text.isSpace c.char = true) :
    piecesOf (run ++ rest) = run :: piecesOf rest := by
  have hfirst : (runs .closed rest).1 = [] := by
    cases rest with
    | nil => rfl
    | cons c rest => rw [runs_cons_space (hrest c rfl)]
  rw [piecesOf, piecesOf, runs_append h.unsplit, hclosed, hfirst]
  simp [h.ne_nil]

/-- A part of a value can be a part wherever its text is written. -/
theorem isPiece_of_mem_split {value : String} {p : Part} (h : p ∈ split value) (start : Nat) :
    IsPiece (Located.place start p.text.toList) := by
  obtain ⟨run, hrun, rfl⟩ := List.mem_map.1 (split_eq value ▸ h)
  exact ((parted_piecesOf _).mem hrun).1.congr (by simp [ofRun, Located.text])

theorem ofRun_place {start : Nat} {text : String}
    (h : IsPiece (Located.place start text.toList)) :
    ofRun (Located.place start text.toList) = ⟨text, start⟩ := by
  have hruns := Located.runs_place_toList start text
  rw [← List.append_nil (Located.place start text.toList)] at hruns
  have htext : Located.text (Located.place start text.toList) = text := by simp [Located.text]
  exact congr (congrArg Part.mk htext) (offset_of_runs hruns h.ne_nil)

theorem split_of_isPiece {text : String} (h : IsPiece (Located.ofString text)) :
    split text = [⟨text, 0⟩] := by
  rw [split_eq, piecesOf_last h]
  exact congrArg ([·]) (ofRun_place h)

/-! ## Parts put together -/

/-- Texts put together, each with the white space that stands before it. -/
def joined : List (String × String) → String
  | [] => ""
  | (gap, text) :: later => gap ++ text ++ joined later

/-- The texts with their places when they are put together from byte offset `start` on. -/
def placed (start : Nat) : List (String × String) → List Part
  | [] => []
  | (gap, text) :: later =>
    ⟨text, start + gap.utf8ByteSize⟩ ::
      placed (start + gap.utf8ByteSize + text.utf8ByteSize) later

/-- Only white space stands around the texts, and some between any two of them. -/
structure Spaced (pieces : List (String × String)) (trailing : String) : Prop where
  gaps : ∀ piece ∈ pieces, ∀ c ∈ piece.1.toList, Text.isSpace c = true
  apart : ∀ piece ∈ pieces.tail, piece.1 ≠ ""
  trailing : ∀ c ∈ trailing.toList, Text.isSpace c = true

/-- What is open at the end of a text that is read from where nothing is. -/
def openAfter (text : String) : State :=
  State.closed.run (Located.ofString text)

section Joined

variable {pieces : List (String × String)} {trailing : String}

theorem Spaced.tail {piece : String × String} (h : Spaced (piece :: pieces) trailing) :
    Spaced pieces trailing where
  gaps other hother := h.gaps other (List.mem_cons_of_mem piece hother)
  apart other hother := h.apart other (List.mem_of_mem_tail hother)
  trailing := h.trailing

/-- Behind a text comes nothing or white space. -/
theorem Spaced.head {piece : String × String} (h : Spaced (piece :: pieces) trailing) {c : Char}
    (hc : (joined pieces ++ trailing).toList.head? = some c) : Text.isSpace c = true := by
  cases pieces with
  | nil => exact h.trailing c (List.mem_of_mem_head? (by simpa [joined] using hc))
  | cons next later =>
    have hne : next.1.toList ≠ [] := by simpa using h.apart next List.mem_cons_self
    have hhead : (joined (next :: later) ++ trailing).toList.head? = next.1.toList.head? := by
      simp [joined, String.toList_append, List.head?_append_of_ne_nil _ hne]
    exact h.gaps next (by simp) c (List.mem_of_mem_head? (hhead ▸ hc))

theorem piecesOf_joined (h : Spaced pieces trailing)
    (hpieces : ∀ piece ∈ pieces, ∀ start, IsPiece (Located.place start piece.2.toList))
    (hclosed : ∀ piece ∈ pieces, openAfter piece.2 = .closed) (start : Nat) :
    (piecesOf (Located.place start (joined pieces ++ trailing).toList)).map ofRun =
      placed start pieces := by
  -- A list of characters has the property of its text wherever it is placed.
  have hplace : ∀ {cs : List Char} {start : Nat}, (∀ c ∈ cs, Text.isSpace c = true) →
      ∀ c ∈ Located.place start cs, Text.isSpace c.char = true := by
    intro cs start hcs c hc
    exact hcs _ (by simpa using List.mem_map_of_mem (f := Located.char) hc)
  induction pieces generalizing start with
  | nil =>
    rw [← List.append_nil (Located.place start _), piecesOf_append_gap (hplace (by
      simpa [joined] using h.trailing))]
    rfl
  | cons piece pieces ih =>
    obtain ⟨gap, text⟩ := piece
    have hpiece := hpieces _ List.mem_cons_self (start + gap.utf8ByteSize)
    have htext : State.closed.run (Located.place (start + gap.utf8ByteSize) text.toList) =
        .closed := by
      have hsame : (Located.place (start + gap.utf8ByteSize) text.toList).map Located.char =
          (Located.ofString text).map Located.char := by simp [Located.ofString]
      rw [State.run_congr hsame]
      exact hclosed _ List.mem_cons_self
    have hchars : (joined ((gap, text) :: pieces) ++ trailing).toList =
        gap.toList ++ (text.toList ++ (joined pieces ++ trailing).toList) := by
      simp [joined, String.toList_append]
    rw [hchars, Located.place_append, Located.place_append, Located.size_place_toList,
      Located.size_place_toList, piecesOf_append_gap (hplace (h.gaps _ List.mem_cons_self)),
      piecesOf_append hpiece htext, List.map_cons, ofRun_place hpiece,
      ih h.tail (fun p hp => hpieces p (List.mem_cons_of_mem _ hp))
        (fun p hp => hclosed p (List.mem_cons_of_mem _ hp)), placed]
    intro c hc
    refine h.head ?_
    have hmap := congrArg (Option.map Located.char) hc
    rwa [← List.head?_map, Located.map_char_place] at hmap

end Joined

/-- Splitting a value. The parts are not empty and stand in the value where their offsets say, one
behind the other with something in between; what is in none of them is white space. A part is not
split again. Parts of any values that leave nothing open are found again where they were put when
they are put together with white space in between, and some more around them. -/
theorem split_lossless (value : String) :
    (∀ p ∈ split value, p.text ≠ "" ∧ ∃ before after, value = before ++ p.text ++ after ∧
      before.utf8ByteSize = p.offset) ∧
    (split value).Pairwise (fun p q => p.offset + p.text.utf8ByteSize < q.offset) ∧
    (∀ c ∈ Located.ofString value,
      (∀ p ∈ split value, ¬(p.offset ≤ c.offset ∧ c.offset < p.offset + p.text.utf8ByteSize)) →
        Text.isSpace c.char = true) ∧
    (∀ p ∈ split value, split p.text = [⟨p.text, 0⟩]) ∧
    ∀ pieces trailing, Spaced pieces trailing →
      (∀ piece ∈ pieces, (∃ other, ∃ p ∈ split other, p.text = piece.2) ∧
        openAfter piece.2 = .closed) →
      split (joined pieces ++ trailing) = placed 0 pieces := by
  have hparted := parted_piecesOf (Located.ofString value)
  have hruns := Located.runs_ofString value
  -- A part, and where its characters stand.
  have hplace : ∀ run ∈ piecesOf (Located.ofString value), IsPiece run ∧ ∃ before after,
      Located.ofString value = before ++ (run ++ after) ∧
        Located.Runs (ofRun run).offset run ((ofRun run).offset + Located.size run) ∧
        (ofRun run).offset = Located.size before := by
    intro run hrun
    obtain ⟨hpiece, before, after, hvalue⟩ := hparted.mem hrun
    have hplaced := (hvalue ▸ hruns).of_append.2
    have hoffset := offset_of_runs hplaced hpiece.ne_nil
    rw [Nat.zero_add] at hoffset hplaced
    exact ⟨hpiece, before, after, hvalue, hoffset ▸ hplaced.of_append.1, hoffset⟩
  refine ⟨fun p hp => ?_, ?_, fun c hc hnone => ?_, fun p hp => ?_,
    fun pieces trailing h hall => ?_⟩
  · obtain ⟨run, hrun, rfl⟩ := List.mem_map.1 (split_eq value ▸ hp)
    obtain ⟨hpiece, before, after, hvalue, _, hoffset⟩ := hplace run hrun
    refine ⟨by simpa [ofRun, Located.text] using hpiece.ne_nil, Located.text before,
      Located.text after, Located.eq_text_append hvalue, ?_⟩
    rw [Located.utf8ByteSize_text, hoffset]
  · rw [split_eq, List.pairwise_map]
    simpa only [ofRun, Located.utf8ByteSize_text] using hparted.apart hruns
  · refine (hparted.space_or_mem hc).resolve_right ?_
    rintro ⟨run, hrun, hmem⟩
    obtain ⟨_, _, _, _, hplaced, _⟩ := hplace run hrun
    obtain ⟨hstart, hstop⟩ := hplaced.offset_mem hmem
    refine hnone (ofRun run) (split_eq value ▸ List.mem_map_of_mem hrun) ⟨hstart, ?_⟩
    rw [ofRun, Located.utf8ByteSize_text]
    exact c.offset_lt_stop.trans_le hstop
  · exact split_of_isPiece (isPiece_of_mem_split hp 0)
  · refine piecesOf_joined h (fun piece hpiece start => ?_)
      (fun piece hpiece => (hall piece hpiece).2) 0
    obtain ⟨⟨other, p, hp, htext⟩, _⟩ := hall piece hpiece
    exact htext ▸ isPiece_of_mem_split hp start

/-- White space that does not split: in quotes, in parentheses and behind a backslash. -/
def samplePieces : List (String × String) :=
  [("\n", "a\\ b"), (" \t", "')'é"), ("\x0c", "f(x \" \"))")]

/-- A part that leaves a quote and a parenthesis open, and parts that leave nothing open. -/
theorem split_lossless_sample :
    split " 'é (\t\\ \"b c" = [⟨"'é (\t\\ \"b c", 1⟩] ∧
    split "'é (\t\\ \"b c" = [⟨"'é (\t\\ \"b c", 0⟩] ∧
    Spaced samplePieces "\r " ∧
    split "\na\\ b \t')'é\x0cf(x \" \"))\r " =
      [⟨"a\\ b", 1⟩, ⟨"')'é", 7⟩, ⟨"f(x \" \"))", 13⟩] := by
  have hvalue : split " 'é (\t\\ \"b c" = [⟨"'é (\t\\ \"b c", 1⟩] := by decide +kernel
  have hspaced : Spaced samplePieces "\r " := by
    refine ⟨?_, ?_, ?_⟩ <;> simp [samplePieces, Text.isSpace]
  have hparts : ∀ piece ∈ samplePieces, (∃ other, ∃ p ∈ split other, p.text = piece.2) ∧
      openAfter piece.2 = .closed := by
    have hfound : (split "a\\ b ')'é f(x \" \"))").map Part.text = samplePieces.map Prod.snd := by
      decide +kernel
    have hclosed : ∀ piece ∈ samplePieces, openAfter piece.2 = .closed := by decide +kernel
    intro piece hpiece
    have hmem : piece.2 ∈ (split "a\\ b ')'é f(x \" \"))").map Part.text :=
      hfound ▸ List.mem_map_of_mem hpiece
    exact ⟨⟨_, List.mem_map.1 hmem⟩, hclosed piece hpiece⟩
  have hjoined : joined samplePieces ++ "\r " = "\na\\ b \t')'é\x0cf(x \" \"))\r " := by
    decide +kernel
  have hplaced : placed 0 samplePieces = [⟨"a\\ b", 1⟩, ⟨"')'é", 7⟩, ⟨"f(x \" \"))", 13⟩] := by
    decide +kernel
  have hagain := (split_lossless " 'é (\t\\ \"b c").2.2.2.1 ⟨"'é (\t\\ \"b c", 1⟩
    (by rw [hvalue]; exact List.mem_cons_self)
  refine ⟨hvalue, hagain, hspaced, ?_⟩
  rw [← hjoined, ← hplaced]
  exact (split_lossless "").2.2.2.2 _ _ hspaced hparts

end Part

end SheetPolicy

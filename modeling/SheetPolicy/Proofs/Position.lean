import Mathlib
import SheetPolicy.Text.Position
import SheetPolicy.Proofs.Located

/-!
Lines and columns by counting. Between characters, the position of an offset is told by the
characters before it: the line by their line feeds, the column by those after the last one.
-/

namespace SheetPolicy.Position

/-- The position after a character. -/
def next (p : Position) (c : Char) : Position :=
  if c = '\n' then ⟨p.line + 1, 1⟩ else ⟨p.line, p.column + 1⟩

/-- The position of `offset`, counted from the characters before it. -/
def counted (source : String) (offset : Nat) : Position :=
  let before := ((Located.ofString source).filter fun c => c.offset < offset).map Located.char
  ⟨before.count '\n' + 1, (before.reverse.takeWhile (· ≠ '\n')).length + 1⟩

theorem foldl_next (before : List Char) :
    before.foldl next ⟨1, 1⟩ =
      ⟨before.count '\n' + 1, (before.reverse.takeWhile (· ≠ '\n')).length + 1⟩ := by
  induction before using List.reverseRecOn with
  | nil => rfl
  | append_singleton before c ih =>
    rw [List.foldl_append, ih]
    by_cases hc : c = '\n'
    · simp [next, hc]
    · simp [next, hc, List.count_append]

/-- The scan steps over the characters before the offset. -/
theorem scan_eq_foldl {offset here line lineStart column : Nat} {cs : List Char}
    (hle : here ≤ offset)
    (hcut : Located.IsCut (Located.place here cs) (here + Located.size (Located.place here cs))
      offset) :
    scan offset here line lineStart column cs =
      (((Located.place here cs).filter fun c => c.offset < offset).map Located.char).foldl next
        ⟨line, column⟩ := by
  induction cs generalizing here line lineStart column with
  | nil =>
    obtain rfl : offset = here := by simpa [Located.IsCut, Located.place] using hcut
    simp [scan, Located.place]
  | cons c cs ih =>
    rcases Nat.lt_or_eq_of_le hle with hlt | rfl
    · -- The offset is none inside the first character.
      have hstop : here + c.utf8Size ≤ offset := by
        have hruns := Located.runs_place here (c :: cs)
        exact hcut.stop_le hruns (List.mem_cons_self : (⟨here, c⟩ : Located) ∈ _) hlt
      have hrest : Located.IsCut (Located.place (here + c.utf8Size) cs)
          (here + c.utf8Size + Located.size (Located.place (here + c.utf8Size) cs)) offset := by
        rcases hcut with hend | ⟨d, hd, rfl⟩
        · exact .inl (by simpa [Located.place, Nat.add_assoc] using hend)
        · rcases List.mem_cons.1 hd with rfl | hd
          · exact absurd hlt (Nat.lt_irrefl _)
          · exact .inr ⟨d, hd, rfl⟩
      rw [scan, if_pos hlt, Located.place, List.filter_cons_of_pos (by simpa using hlt),
        List.map_cons, List.foldl_cons]
      by_cases hc : c = '\n'
      · subst hc
        rw [if_pos rfl]
        exact ih hstop hrest
      · rw [if_neg hc, ih hstop hrest, next, if_neg hc]
    · have hnone : (Located.place here (c :: cs)).filter (fun d => d.offset < here) = [] := by
        rw [List.filter_eq_nil_iff]
        intro d hd
        simpa using ((Located.runs_place here (c :: cs)).offset_mem hd).1
      rw [hnone, scan, if_neg (Nat.lt_irrefl _), if_pos rfl]
      rfl

/-- Between characters a position is what counting gives. -/
theorem ofOffset_eq_counted {source : String} {offset : Nat}
    (h : Located.IsCut (Located.ofString source) source.utf8ByteSize offset) :
    ofOffset source offset = counted source offset := by
  have hsize : source.utf8ByteSize = 0 + Located.size (Located.ofString source) :=
    (Located.runs_ofString source).stop_eq
  rw [hsize] at h
  rw [ofOffset, counted, scan_eq_foldl (Nat.zero_le offset) h, foldl_next]
  rfl

/-- The line is told by the line feeds before an offset, also inside a character. -/
theorem line_scan (offset here line lineStart column : Nat) (cs : List Char) :
    (scan offset here line lineStart column cs).line =
      line + (((Located.place here cs).filter fun c => c.offset < offset).map Located.char).count
        '\n' := by
  induction cs generalizing here line lineStart column with
  | nil =>
    rw [scan]
    split <;> simp [Located.place]
  | cons c cs ih =>
    rw [scan, Located.place]
    by_cases hlt : here < offset
    · rw [if_pos hlt, List.filter_cons_of_pos (by simpa using hlt), List.map_cons, List.count_cons]
      by_cases hc : c = '\n'
      · subst hc
        have hsize : '\n'.utf8Size = 1 := rfl
        rw [if_pos rfl, ih, hsize, beq_self_eq_true, if_pos rfl]
        omega
      · rw [if_neg hc, ih, if_neg (by simpa using hc), Nat.add_zero]
    · have hnone : (Located.place here (c :: cs)).filter (fun d => d.offset < offset) = [] := by
        rw [List.filter_eq_nil_iff]
        intro d hd
        have := ((Located.runs_place here (c :: cs)).offset_mem hd).1
        simp
        omega
      rw [Located.place] at hnone
      rw [if_neg hlt, hnone]
      split <;> rfl

/-- Two texts with characters of the same sizes and the same line feeds have the same positions. -/
theorem scan_congr {cs ds : List Char}
    (h : List.Forall₂ (fun c d => d.utf8Size = c.utf8Size ∧ (d = '\n' ↔ c = '\n')) cs ds)
    (offset here line lineStart column : Nat) :
    scan offset here line lineStart column ds = scan offset here line lineStart column cs := by
  induction h generalizing here line lineStart column with
  | nil => rfl
  | @cons c d cs ds hcd _ ih => simp only [scan, hcd.1, hcd.2, ih]

theorem line_ofOffset (source : String) (offset : Nat) :
    (ofOffset source offset).line = (counted source offset).line := by
  rw [ofOffset, line_scan, counted, Nat.add_comm]
  rfl

end SheetPolicy.Position

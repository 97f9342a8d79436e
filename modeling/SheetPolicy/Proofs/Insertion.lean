import Mathlib
import SheetPolicy.Proofs.Filling
import SheetPolicy.Proofs.Position

/-!
Text put into a text. What stands behind the new text moves on and the rest stays
(`Located.ofString_insertAt`). If the new text has no line breaks, the breaks of the whole are those of
the old text, moved (`Text.breaks_insertAt`), and a place keeps its line and is further on in it only
behind the new text (`Position.ofOffset_insertAt`).
-/

namespace SheetPolicy

/-- The text with another one put in at a byte offset. -/
def Text.insertAt (text inserted : String) (p : Nat) : String :=
  Located.text ((Located.ofString text).filter fun c => c.offset < p) ++ inserted ++
    Located.text ((Located.ofString text).filter fun c => p ≤ c.offset)

namespace Located

theorem Runs.move {f : Nat → Nat} {start stop : Nat} {cs : List Located} (h : Runs start cs stop)
    (hcarries : Carries f cs) : Runs (f start) (cs.map (Located.move f)) (f stop) := by
  induction cs generalizing start with
  | nil => exact congrArg f h
  | cons c cs ih =>
    obtain ⟨rfl, hrest⟩ := h
    refine ⟨rfl, ?_⟩
    rw [hcarries c List.mem_cons_self]
    exact ih hrest fun d hd => hcarries d (List.mem_cons_of_mem _ hd)

section Cut

variable {start stop p : Nat} {cs : List Located}

/-- Characters that adjoin divide into those before an offset and those from there on. -/
theorem Runs.filter_append (h : Runs start cs stop) (p : Nat) :
    cs.filter (fun c => c.offset < p) ++ cs.filter (fun c => p ≤ c.offset) = cs := by
  obtain ⟨back, hcs, hback⟩ := Excerpt.filter_lt_append (o := p) h
  have hrest : cs.filter (fun c => p ≤ c.offset) = back := by
    rw [hcs, List.filter_append, List.filter_filter, List.filter_eq_nil_iff.2, List.nil_append,
      List.filter_eq_self.2 (by simpa using hback)]
    intro c _
    simp
  rw [hrest, ← hcs]

theorem IsCut.le (hcut : IsCut cs stop p) (h : Runs start cs stop) : p ≤ stop := by
  rcases hcut with rfl | ⟨c, hc, rfl⟩
  · exact le_rfl
  · exact c.offset_lt_stop.le.trans (h.offset_mem hc).2

/-- The characters before a cut run up to it, and the others from there on. -/
theorem IsCut.runs_filter (hcut : IsCut cs stop p) (h : Runs start cs stop) :
    Runs start (cs.filter fun c => c.offset < p) p ∧
      Runs p (cs.filter fun c => p ≤ c.offset) stop := by
  have hsplit := h
  rw [← h.filter_append p, runs_append] at hsplit
  obtain ⟨middle, hfront, hback⟩ := hsplit
  have hp : middle = p := by
    refine le_antisymm ?_ ?_
    · rcases hcut with rfl | ⟨c, hc, rfl⟩
      · exact hback.le
      · exact (hback.offset_mem (List.mem_filter.2 ⟨hc, by simp⟩)).1
    · rw [← hback.startOf_eq]
      cases hrest : cs.filter fun c => p ≤ c.offset with
      | nil => exact hcut.le h
      | cons d back =>
        have hd : d ∈ cs.filter fun c => p ≤ c.offset := hrest ▸ List.mem_cons_self
        simpa using (List.mem_filter.1 hd).2
  exact ⟨hp ▸ hfront, hp ▸ hback⟩

end Cut

section InsertAt

variable {text : String} {p : Nat} (hcut : IsCut (ofString text) text.utf8ByteSize p)
  (inserted : String)
include hcut

theorem runs_insertAt :
    Runs 0 (filled p inserted.utf8ByteSize ((ofString text).filter fun c => c.offset < p)
      (place p inserted.toList) ((ofString text).filter fun c => p ≤ c.offset))
      (shift p inserted.utf8ByteSize text.utf8ByteSize) := by
  obtain ⟨hfront, hback⟩ := hcut.runs_filter (runs_ofString text)
  have hinserted := runs_place_toList p inserted
  have hmoved := hback.move (carries_shift inserted.utf8ByteSize fun c hc => by
    simpa using (List.mem_filter.1 hc).2)
  rw [shift_of_le _ le_rfl] at hmoved
  exact runs_append.2 ⟨p, hfront, runs_append.2 ⟨_, hinserted, hmoved⟩⟩

/-- The characters of a text with another one put in. -/
theorem ofString_insertAt :
    ofString (Text.insertAt text inserted p) =
      filled p inserted.utf8ByteSize ((ofString text).filter fun c => c.offset < p)
        (place p inserted.toList) ((ofString text).filter fun c => p ≤ c.offset) := by
  rw [← ofString_text (runs_insertAt hcut inserted)]
  congr 1
  simp only [filled, Text.insertAt, Located.text, List.map_append, map_char_place, List.map_map,
    char_comp_move, String.ofList_append, String.ofList_toList, String.append_assoc]

theorem utf8ByteSize_insertAt :
    (Text.insertAt text inserted p).utf8ByteSize =
      shift p inserted.utf8ByteSize text.utf8ByteSize := by
  have hruns := runs_insertAt hcut inserted
  rw [← ofString_insertAt hcut] at hruns
  rw [hruns.stop_eq, (runs_ofString _).stop_eq]

/-- A place between characters is one also when text is put in. -/
theorem IsCut.insertAt {o : Nat} (ho : IsCut (ofString text) text.utf8ByteSize o) :
    IsCut (ofString (Text.insertAt text inserted p)) (Text.insertAt text inserted p).utf8ByteSize
      (shift p inserted.utf8ByteSize o) := by
  rw [utf8ByteSize_insertAt hcut, ofString_insertAt hcut]
  rcases ho with rfl | ⟨c, hc, rfl⟩
  · exact .inl rfl
  · refine .inr ⟨c.move (shift p inserted.utf8ByteSize), ?_, rfl⟩
    by_cases hlt : c.offset < p
    · have hmove : c.move (shift p inserted.utf8ByteSize) = c := by
        rw [move, shift_of_lt _ hlt]
      rw [hmove]
      exact List.mem_append_left _ (List.mem_filter.2 ⟨hc, by simpa using hlt⟩)
    · exact List.mem_append_right _ (List.mem_append_right _
        (List.mem_map_of_mem (List.mem_filter.2 ⟨hc, by simpa using hlt⟩)))

end InsertAt

end Located

/-! ## Line breaks -/

namespace Text

/-- The character ends a line. -/
def isBreak (c : Char) : Bool :=
  c == '\n' || c == '\r'

def breaks (text : String) : List Located :=
  (Located.ofString text).filter fun c => isBreak c.char

/-- Text without line breaks moves the breaks behind it and adds none. -/
theorem breaks_insertAt {text inserted : String} {p : Nat}
    (hcut : Located.IsCut (Located.ofString text) text.utf8ByteSize p)
    (h : ∀ c ∈ inserted.toList, isBreak c = false) :
    breaks (insertAt text inserted p) =
      (breaks text).map (Located.move (shift p inserted.utf8ByteSize)) := by
  let f := Located.move (shift p inserted.utf8ByteSize)
  let front := (Located.ofString text).filter fun c => c.offset < p
  let back := (Located.ofString text).filter fun c => p ≤ c.offset
  have hfront : front.map f = front :=
    Located.map_move_shift _ fun c hc => by simpa using (List.mem_filter.1 hc).2
  have hnone : (Located.place p inserted.toList).filter (fun c => isBreak c.char) = [] := by
    rw [List.filter_eq_nil_iff]
    intro c hc
    have hchar : c.char ∈ (Located.place p inserted.toList).map Located.char :=
      List.mem_map_of_mem hc
    rw [Located.map_char_place] at hchar
    simpa using h c.char hchar
  calc breaks (insertAt text inserted p)
      = (front.map f ++ back.map f).filter fun c => isBreak c.char := by
        rw [breaks, Located.ofString_insertAt hcut, filled, List.filter_append, List.filter_append,
          hnone, List.nil_append, ← List.filter_append, hfront]
    _ = ((front ++ back).map f).filter fun c => isBreak c.char := by rw [List.map_append]
    _ = (breaks text).map f := by
        rw [(Located.runs_ofString text).filter_append, List.filter_map]
        rfl

end Text

/-! ## Lines and columns -/

namespace Position

theorem counted_eq_foldl (source : String) (o : Nat) :
    counted source o =
      (((Located.ofString source).filter fun c => c.offset < o).map Located.char).foldl next
        ⟨1, 1⟩ :=
  (foldl_next _).symm

theorem line_le_foldl (q : Position) (cs : List Char) : q.line ≤ (cs.foldl next q).line := by
  induction cs generalizing q with
  | nil => exact le_rfl
  | cons c cs ih =>
    refine le_trans ?_ (ih (q.next c))
    unfold next
    split <;> simp

/-- Characters that end no line are passed column by column. -/
theorem foldl_next_of_not_mem {cs : List Char} (h : '\n' ∉ cs) (q : Position) :
    cs.foldl next q = ⟨q.line, q.column + cs.length⟩ := by
  induction cs generalizing q with
  | nil => rfl
  | cons c cs ih =>
    rw [List.mem_cons, not_or] at h
    rw [List.foldl_cons, ih h.2, next, if_neg (Ne.symm h.1)]
    simp [Nat.add_comm, Nat.add_left_comm]

/-- A start further to the right counts up to the end of the line only. -/
theorem foldl_next_add (line column k : Nat) (cs : List Char) :
    cs.foldl next ⟨line, column + k⟩ =
      ⟨(cs.foldl next ⟨line, column⟩).line, (cs.foldl next ⟨line, column⟩).column +
        if (cs.foldl next ⟨line, column⟩).line = line then k else 0⟩ := by
  induction cs generalizing column with
  | nil => simp
  | cons c cs ih =>
    rw [List.foldl_cons, List.foldl_cons]
    by_cases hc : c = '\n'
    · -- From the next line on both counts are the same.
      have hlater : line + 1 ≤ (cs.foldl next ⟨line + 1, 1⟩).line := line_le_foldl ⟨line + 1, 1⟩ cs
      have hne : (cs.foldl next ⟨line + 1, 1⟩).line ≠ line := by omega
      simp only [next, if_pos hc, if_neg hne, Nat.add_zero]
    · simp only [next, if_neg hc]
      rw [Nat.add_right_comm, ih]

section InsertAt

variable {source inserted : String} {p : Nat}
  (hcut : Located.IsCut (Located.ofString source) source.utf8ByteSize p)
include hcut

/-- The characters before a place: the new text is among them if the place is not before it. -/
theorem before_insertAt (o : Nat) :
    ((Located.ofString (Text.insertAt source inserted p)).filter fun c =>
        c.offset < shift p inserted.utf8ByteSize o).map Located.char =
      (((Located.ofString source).filter fun c => c.offset < p).filter fun c => c.offset < o).map
          Located.char ++ ((if p ≤ o then inserted.toList else []) ++
        (((Located.ofString source).filter fun c => p ≤ c.offset).filter fun c => c.offset < o).map
          Located.char) := by
  have hmono := shift_strictMono p inserted.utf8ByteSize
  have hfront : ∀ c ∈ (Located.ofString source).filter (fun c => c.offset < p),
      decide (c.offset < shift p inserted.utf8ByteSize o) = decide (c.offset < o) := by
    intro c hc
    have hlt : c.offset < p := by simpa using (List.mem_filter.1 hc).2
    have hiff := hmono.lt_iff_lt (a := c.offset) (b := o)
    rw [shift_of_lt _ hlt] at hiff
    exact decide_eq_decide.2 hiff
  have hinserted : ((Located.place p inserted.toList).filter fun c =>
      c.offset < shift p inserted.utf8ByteSize o).map Located.char =
        if p ≤ o then inserted.toList else [] := by
    have hruns := Located.runs_place_toList p inserted
    split
    · next hpo =>
      rw [List.filter_eq_self.2, Located.map_char_place]
      intro c hc
      have := (hruns.offset_mem hc).2
      have := c.offset_lt_stop
      rw [shift_of_le _ hpo]
      simp
      omega
    · next hpo =>
      rw [List.filter_eq_nil_iff.2, List.map_nil]
      intro c hc
      have := (hruns.offset_mem hc).1
      rw [shift_of_lt _ (by omega)]
      simp
      omega
  rw [Located.ofString_insertAt hcut, filled, List.filter_append, List.filter_append,
    List.map_append, List.map_append, hinserted, List.filter_congr hfront, List.filter_map,
    List.map_map]
  simp only [Function.comp_def, Located.offset_move, hmono.lt_iff_lt, Located.char_move]

/-- A place keeps its line, and only behind the new text and on its line it is further on. -/
theorem ofOffset_insertAt {o : Nat} (hinserted : ∀ c ∈ inserted.toList, Text.isBreak c = false)
    (ho : Located.IsCut (Located.ofString source) source.utf8ByteSize o) :
    ofOffset (Text.insertAt source inserted p) (shift p inserted.utf8ByteSize o) =
      ⟨(ofOffset source o).line, (ofOffset source o).column +
        if p ≤ o ∧ (ofOffset source o).line = (ofOffset source p).line then inserted.length
        else 0⟩ := by
  have hbreak : '\n' ∉ inserted.toList := fun hmem => absurd (hinserted _ hmem) (by decide)
  rw [ofOffset_eq_counted (hcut.insertAt inserted ho), ofOffset_eq_counted ho,
    ofOffset_eq_counted hcut]
  simp only [counted_eq_foldl, before_insertAt hcut]
  have hbefore : ((Located.ofString source).filter fun c => c.offset < o).map Located.char = _ :=
    congrArg (fun cs => (List.filter (fun c => c.offset < o) cs).map Located.char)
      ((Located.runs_ofString source).filter_append p).symm
  rw [hbefore, List.filter_append, List.map_append]
  by_cases hpo : p ≤ o
  · have hall : ((Located.ofString source).filter fun c => c.offset < p).filter
        (fun c => c.offset < o) = (Located.ofString source).filter fun c => c.offset < p := by
      rw [List.filter_eq_self]
      intro c hc
      have hlt : c.offset < p := by simpa using (List.mem_filter.1 hc).2
      simpa using hlt.trans_le hpo
    rw [if_pos hpo, hall]
    simp only [List.foldl_append, foldl_next_of_not_mem hbreak, foldl_next_add, hpo, true_and,
      String.length_toList]
  · simp [hpo]

end InsertAt

end Position

end SheetPolicy

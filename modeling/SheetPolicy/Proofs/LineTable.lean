import Mathlib
import SheetPolicy.Proofs.Cursor.Access
import SheetPolicy.Proofs.SourceOrder

/-!
Lines from a table. The offsets at which lines start are collected once, from the bytes of the text
(`LineTable.ofSource`); the line of an offset is then found by halving (`bisect`), and its column by
counting the characters of the piece between the start of the line and the offset.

A scan through the characters gives the same positions, for every offset there is
(`LineTable.position_ofSource`). Between characters they are exact, and they are ordered as the
offsets are (`position_exact`).
-/

namespace SheetPolicy

/-! ## Search by halving -/

/-- Where a number stands among others that rise. -/
inductive Hit where
  | found (index : Nat)
  /-- The number is not there and would go to the index. -/
  | missing (index : Nat)
deriving DecidableEq

/-- How many of the numbers are no greater. -/
def Hit.past : Hit → Nat
  | found index => index + 1
  | missing index => index

/-- Looks for `x` from index `lo` on and before index `hi`. -/
def bisect (xs : List Nat) (x lo hi : Nat) : Hit :=
  if lo < hi then
    let middle := lo + (hi - lo) / 2
    match compare (xs.getD middle 0) x with
    | .eq => .found middle
    | .lt => bisect xs x (middle + 1) hi
    | .gt => bisect xs x lo middle
  else .missing lo
termination_by hi - lo
decreasing_by all_goals omega

section Bisection

variable {xs : List Nat} {x : Nat}

/-- A number of the list has smaller ones before it and greater ones behind it. -/
theorem lt_getD_lt (hrising : xs.Pairwise (· < ·)) {i : Nat} (hi : i < xs.length) :
    (∀ a ∈ xs.take i, a < xs.getD i 0) ∧ ∀ a ∈ xs.drop (i + 1), xs.getD i 0 < a := by
  have hsplit : xs.take i ++ xs.getD i 0 :: xs.drop (i + 1) = xs := by
    rw [List.getD_eq_getElem _ _ hi, List.getElem_cons_drop, List.take_append_drop]
  rw [← hsplit, List.pairwise_append, List.pairwise_cons] at hrising
  exact ⟨fun a ha => hrising.2.2 a ha _ List.mem_cons_self, hrising.2.1.1⟩

theorem mem_take_succ {i a : Nat} (hi : i < xs.length) (ha : a ∈ xs.take (i + 1)) :
    a ∈ xs.take i ∨ a = xs.getD i 0 := by
  rw [List.take_add_one, List.getElem?_eq_getElem hi, List.mem_append] at ha
  rw [List.getD_eq_getElem _ _ hi]
  simpa using ha

/-- The numbers that are no greater than `x` are those before the place found. The invariant is that
the numbers left of the window are no greater, and those right of it are. -/
theorem filter_le_eq_take_bisect (hrising : xs.Pairwise (· < ·)) {lo hi : Nat} (hle : lo ≤ hi)
    (hhi : hi ≤ xs.length) (hleft : ∀ a ∈ xs.take lo, a ≤ x) (hright : ∀ a ∈ xs.drop hi, x < a) :
    xs.filter (· ≤ x) = xs.take (bisect xs x lo hi).past := by
  have hdivided : ∀ n, (∀ a ∈ xs.take n, a ≤ x) → (∀ a ∈ xs.drop n, x < a) →
      xs.filter (· ≤ x) = xs.take n := by
    intro n hbelow habove
    conv_lhs => rw [← List.take_append_drop n xs]
    rw [List.filter_append, List.filter_eq_self.2 (by simpa using hbelow),
      List.filter_eq_nil_iff.2 (by simpa using habove), List.append_nil]
  fun_induction bisect xs x lo hi with
  | case1 lo hi hlt middle hcompare =>
    have hmiddle : middle < xs.length := by omega
    obtain ⟨hbefore, hbehind⟩ := lt_getD_lt hrising hmiddle
    rw [Nat.compare_eq_eq.1 hcompare] at hbefore hbehind
    refine hdivided (middle + 1) (fun a ha => ?_) hbehind
    rcases mem_take_succ hmiddle ha with ha | rfl
    · exact (hbefore a ha).le
    · exact (Nat.compare_eq_eq.1 hcompare).le
  | case2 lo hi hlt middle hcompare ih =>
    have hmiddle : middle < xs.length := by omega
    have hless := Nat.compare_eq_lt.1 hcompare
    refine ih (by omega) hhi (fun a ha => ?_) hright
    rcases mem_take_succ hmiddle ha with ha | rfl
    · exact ((lt_getD_lt hrising hmiddle).1 a ha).le.trans hless.le
    · exact hless.le
  | case3 lo hi hlt middle hcompare ih =>
    have hmiddle : middle < xs.length := by omega
    have hgreater := Nat.compare_eq_gt.1 hcompare
    refine ih (by omega) (by omega) hleft fun a ha => ?_
    rw [← List.getElem_cons_drop hmiddle, List.mem_cons, ← List.getD_eq_getElem _ 0 hmiddle] at ha
    rcases ha with rfl | ha
    · exact hgreater
    · exact hgreater.trans ((lt_getD_lt hrising hmiddle).2 a ha)
  | case4 lo hi hlt =>
    obtain rfl : lo = hi := by omega
    exact hdivided lo hleft hright

theorem past_bisect_le {lo hi : Nat} (hle : lo ≤ hi) : (bisect xs x lo hi).past ≤ hi := by
  fun_induction bisect xs x lo hi with
  | case1 lo hi hlt middle hcompare => exact (by omega : middle + 1 ≤ hi)
  | case2 lo hi hlt middle hcompare ih => exact ih (by omega)
  | case3 lo hi hlt middle hcompare ih => exact (ih (by omega)).trans (by omega)
  | case4 lo hi hlt => exact hle

end Bisection

/-! ## Tables of line starts -/

/-- The byte offsets at which lines start. -/
structure LineTable where
  starts : List Nat
  rising : starts.Pairwise (· < ·)
  head : starts.head? = some 0

namespace LineTable

/-- The offsets behind the line feeds of some bytes, the first of which is at `here`. -/
def behindFeeds (here : Nat) (bytes : List UInt8) : List Nat :=
  (bytes.zipIdx here).filterMap fun (b, i) => if b = 0x0A then some (i + 1) else none

theorem mem_behindFeeds {here k : Nat} {bytes : List UInt8} :
    k ∈ behindFeeds here bytes ↔ ∃ i, k = here + i + 1 ∧ bytes[i]? = some 0x0A := by
  simp only [behindFeeds, List.mem_filterMap, Prod.exists, Option.ite_none_right_eq_some,
    Option.some.injEq, List.mk_mem_zipIdx_iff_le_and_getElem?_sub]
  constructor
  · rintro ⟨_, i, ⟨hle, hbyte⟩, rfl, rfl⟩
    exact ⟨i - here, by omega, hbyte⟩
  · rintro ⟨i, rfl, hbyte⟩
    exact ⟨0x0A, here + i, ⟨by omega, by simpa using hbyte⟩, rfl, rfl⟩

theorem behindFeeds_cons (here : Nat) (b : UInt8) (bytes : List UInt8) :
    behindFeeds here (b :: bytes) =
      if b = 0x0A then (here + 1) :: behindFeeds (here + 1) bytes
      else behindFeeds (here + 1) bytes := by
  by_cases hb : b = 0x0A <;> simp [behindFeeds, hb]

theorem rising_behindFeeds (here : Nat) (bytes : List UInt8) :
    (behindFeeds here bytes).Pairwise (· < ·) := by
  induction bytes generalizing here with
  | nil => exact .nil
  | cons b bytes ih =>
    rw [behindFeeds_cons]
    split
    · refine .cons (fun k hk => ?_) (ih (here + 1))
      obtain ⟨i, rfl, _⟩ := mem_behindFeeds.1 hk
      omega
    · exact ih (here + 1)

theorem length_behindFeeds (here : Nat) (bytes : List UInt8) :
    (behindFeeds here bytes).length = bytes.count 0x0A := by
  induction bytes generalizing here with
  | nil => rfl
  | cons b bytes ih =>
    rw [behindFeeds_cons, List.count_cons, ← ih (here + 1)]
    split <;> simp_all

theorem rising_starts (bytes : List UInt8) : (0 :: behindFeeds 0 bytes).Pairwise (· < ·) := by
  refine .cons (fun k hk => ?_) (rising_behindFeeds 0 _)
  obtain ⟨i, rfl, _⟩ := mem_behindFeeds.1 hk
  exact Nat.succ_pos _

/-- The table of a text. -/
def ofSource (source : String) : LineTable where
  starts := 0 :: behindFeeds 0 (Text.bytes source)
  rising := rising_starts _
  head := rfl

/-- The index of the line on which an offset is. -/
def lineAt (t : LineTable) (offset : Nat) : Nat :=
  match bisect t.starts offset 0 t.starts.length with
  | .found index => index
  | .missing index => index - 1

/-- The offset at which a line starts. -/
def startOf (t : LineTable) (line : Nat) : Nat :=
  t.starts.getD line 0

/-- The position of an offset of the text that the table is about. An offset that does not cut the
text between characters is counted in bytes. -/
def position (t : LineTable) (source : String) (offset : Nat) : Position :=
  let line := t.lineAt offset
  let piece : Cursor.Checked Empty String := Cursor.cut source (t.startOf line) offset
  ⟨line + 1, piece.toOption.elim (offset - t.startOf line) String.length + 1⟩

section Line

variable (t : LineTable) (offset : Nat)

theorem past_bisect_pos : 0 < (bisect t.starts offset 0 t.starts.length).past := by
  have hbisect := filter_le_eq_take_bisect t.rising (x := offset) (Nat.zero_le t.starts.length)
    le_rfl (by simp) (by simp)
  rw [Nat.pos_iff_ne_zero]
  intro hzero
  -- the first line starts at 0, which is never greater
  rw [hzero, List.take_zero, List.filter_eq_nil_iff] at hbisect
  exact hbisect 0 (List.mem_of_mem_head? t.head) (by simp)

theorem lineAt_add_one : t.lineAt offset + 1 = (bisect t.starts offset 0 t.starts.length).past := by
  have hpos := t.past_bisect_pos offset
  rw [lineAt]
  cases hit : bisect t.starts offset 0 t.starts.length with
  | found index => rfl
  | missing index =>
    rw [hit] at hpos
    exact Nat.sub_add_cancel hpos

/-- The lines that have started by an offset are those up to its own. -/
theorem filter_le_eq_take : t.starts.filter (· ≤ offset) = t.starts.take (t.lineAt offset + 1) := by
  rw [lineAt_add_one]
  exact filter_le_eq_take_bisect t.rising (Nat.zero_le _) le_rfl (by simp) (by simp)

theorem lineAt_lt : t.lineAt offset < t.starts.length := by
  rw [← Nat.succ_le_iff, Nat.succ_eq_add_one, lineAt_add_one]
  exact past_bisect_le (Nat.zero_le _)

theorem length_filter_le : (t.starts.filter (· ≤ offset)).length = t.lineAt offset + 1 := by
  rw [filter_le_eq_take, List.length_take_of_le (t.lineAt_lt offset)]

theorem startOf_lineAt :
    t.startOf (t.lineAt offset) = (t.starts.filter (· ≤ offset)).getLastD 0 := by
  rw [filter_le_eq_take, List.getLastD_eq_getLast?, List.getLast?_take, if_neg (Nat.succ_ne_zero _),
    Nat.add_sub_cancel, List.getElem?_eq_getElem (t.lineAt_lt offset), startOf,
    List.getD_eq_getElem _ _ (t.lineAt_lt offset)]
  rfl

end Line

/-! ## Line feeds among the characters -/

theorem behindFeeds_append (here : Nat) (xs ys : List UInt8) :
    behindFeeds here (xs ++ ys) = behindFeeds here xs ++ behindFeeds (here + xs.length) ys := by
  rw [behindFeeds, List.zipIdx_append, List.filterMap_append]
  rfl

/-- A character other than the line feed has no byte that is one. -/
theorem feed_of_mem_encode {c : Char} (h : 0x0A ∈ String.utf8EncodeChar c) : c = '\n' :=
  ((Cursor.alike_of_mem_encode h).eq_iff (by decide)).1 rfl

theorem behindFeeds_encode {here : Nat} {c : Char} (hc : c ≠ '\n') :
    behindFeeds here (String.utf8EncodeChar c) = [] := by
  refine List.eq_nil_iff_forall_not_mem.2 fun k hk => hc ?_
  obtain ⟨i, _, hbyte⟩ := mem_behindFeeds.1 hk
  exact feed_of_mem_encode (List.mem_of_getElem? hbyte)

/-- The line feeds among the bytes are those among the characters. -/
theorem behindFeeds_bytes {start stop : Nat} {cs : List Located} (h : Located.Runs start cs stop) :
    behindFeeds start (Text.bytes (Located.text cs)) =
      (cs.filter fun c => c.char = '\n').map Located.stop := by
  rw [Located.bytes_text]
  induction cs generalizing start with
  | nil => rfl
  | cons c cs ih =>
    obtain ⟨rfl, hrest⟩ := h
    have hlater : behindFeeds (c.offset + (String.utf8EncodeChar c.char).length)
        (cs.flatMap fun d => String.utf8EncodeChar d.char) = _ :=
      (congrArg (behindFeeds · _) (by simp [Located.stop])).trans (ih hrest)
    rw [List.flatMap_cons, behindFeeds_append, hlater]
    by_cases hc : c.char = '\n'
    · have hone : behindFeeds c.offset (String.utf8EncodeChar c.char) = [c.stop] := by
        rw [Located.stop, hc]
        rfl
      rw [hone, List.filter_cons_of_pos (by simpa using hc)]
      rfl
    · rw [behindFeeds_encode hc, List.filter_cons_of_neg (by simpa using hc), List.nil_append]

theorem stop_of_feed {c : Located} (hc : c.char = '\n') : c.stop = c.offset + 1 := by
  rw [Located.stop, hc]
  rfl

/-- The characters before an offset. -/
def charsBefore (source : String) (offset : Nat) : List Located :=
  (Located.ofString source).filter fun c => c.offset < offset

/-- The lines that have started by an offset start behind the line feeds before it. -/
theorem filter_starts (source : String) (offset : Nat) :
    (ofSource source).starts.filter (· ≤ offset) =
      0 :: ((charsBefore source offset).filter fun c => c.char = '\n').map Located.stop := by
  have hfeeds := behindFeeds_bytes (Located.runs_ofString source)
  rw [Located.text_ofString] at hfeeds
  have hstarts : (ofSource source).starts = 0 :: _ := congrArg (0 :: ·) hfeeds
  rw [hstarts, List.filter_cons_of_pos (by simp), List.filter_map, List.filter_filter, charsBefore,
    List.filter_filter]
  refine congrArg (fun cs => 0 :: cs.map Located.stop) (List.filter_congr fun c _ => ?_)
  by_cases hc : c.char = '\n'
  · simp [hc, stop_of_feed hc]
  · simp [hc]

theorem lineAt_ofSource (source : String) (offset : Nat) :
    (ofSource source).lineAt offset =
      ((charsBefore source offset).filter fun c => c.char = '\n').length := by
  have hlength := (ofSource source).length_filter_le offset
  rw [filter_starts, List.length_cons, List.length_map] at hlength
  exact (Nat.succ.inj hlength).symm

/-! ## Starts of lines -/

/-- Where the last line starts after some characters on a line that starts at `start`. -/
def lastStart (start : Nat) (cs : List Located) : Nat :=
  cs.foldl (fun start c => if c.char = '\n' then c.stop else start) start

theorem lastStart_cons (start : Nat) (c : Located) (cs : List Located) :
    lastStart start (c :: cs) = lastStart (if c.char = '\n' then c.stop else start) cs := rfl

theorem lastStart_concat (start : Nat) (cs : List Located) (c : Located) :
    lastStart start (cs ++ [c]) = if c.char = '\n' then c.stop else lastStart start cs := by
  simp [lastStart]

theorem getLastD_eq_lastStart (start : Nat) (cs : List Located) :
    ((cs.filter fun c => c.char = '\n').map Located.stop).getLastD start = lastStart start cs := by
  induction cs generalizing start with
  | nil => rfl
  | cons c cs ih =>
    rw [lastStart_cons, ← ih]
    by_cases hc : c.char = '\n'
    · rw [List.filter_cons_of_pos (by simpa using hc), List.map_cons, List.getLastD_cons, if_pos hc]
    · rw [List.filter_cons_of_neg (by simpa using hc), if_neg hc]

theorem startOf_lineAt_ofSource (source : String) (offset : Nat) :
    (ofSource source).startOf ((ofSource source).lineAt offset) =
      lastStart 0 (charsBefore source offset) := by
  rw [startOf_lineAt, filter_starts, List.getLastD_cons, getLastD_eq_lastStart]

/-- A line starts where the text does, or where one of its characters stops. -/
theorem lastStart_eq_or (start : Nat) (cs : List Located) :
    lastStart start cs = start ∨ ∃ c ∈ cs, c.char = '\n' ∧ lastStart start cs = c.stop := by
  induction cs using List.reverseRecOn with
  | nil => exact .inl rfl
  | append_singleton cs c ih =>
    rw [lastStart_concat]
    by_cases hc : c.char = '\n'
    · exact .inr ⟨c, by simp, hc, if_pos hc⟩
    · rw [if_neg hc]
      rcases ih with heq | ⟨d, hd, hfeed, heq⟩
      · exact .inl heq
      · exact .inr ⟨d, List.mem_append_left _ hd, hfeed, heq⟩

theorem lastStart_le {start stop : Nat} {cs : List Located} (h : Located.Runs start cs stop) :
    lastStart start cs ≤ stop := by
  rcases lastStart_eq_or start cs with heq | ⟨c, hc, _, heq⟩
  · rw [heq]
    exact h.le
  · rw [heq]
    exact (h.offset_mem hc).2

/-- The line of an offset starts between characters, and not behind the offset. -/
theorem lastStart_charsBefore (source : String) (offset : Nat) :
    lastStart 0 (charsBefore source offset) ≤ offset ∧
      Located.IsCut (Located.ofString source) source.utf8ByteSize
        (lastStart 0 (charsBefore source offset)) := by
  rcases lastStart_eq_or 0 (charsBefore source offset) with heq | ⟨c, hc, hfeed, heq⟩
  · rw [heq]
    exact ⟨Nat.zero_le _, (Location.isPlaced_start "" source).cut⟩
  · obtain ⟨hc, hlt⟩ := List.mem_filter.1 hc
    have hlt : c.offset < offset := by simpa using hlt
    rw [heq]
    refine ⟨by rw [stop_of_feed hfeed]; omega, ?_⟩
    obtain ⟨before, after, hsplit⟩ := List.append_of_mem hc
    have hruns := Located.runs_ofString source
    rw [hsplit] at hruns ⊢
    obtain ⟨_, _, hafter⟩ := hruns.of_append
    rw [← hafter.startOf_eq]
    exact Located.isCut_startOf fun d hd => List.mem_append_right _ (List.mem_cons_of_mem _ hd)

/-! ## Columns -/

/-- Going back to the last line feed passes the characters of the last line. -/
theorem length_takeWhile_reverse {start stop : Nat} {cs : List Located}
    (h : Located.Runs start cs stop) :
    ((cs.map Located.char).reverse.takeWhile (· ≠ '\n')).length =
      (cs.filter fun c => lastStart start cs ≤ c.offset).length := by
  induction cs using List.reverseRecOn generalizing stop with
  | nil => rfl
  | append_singleton cs c ih =>
    obtain ⟨hfront, hoffset, hstop⟩ := h.of_append
    rw [List.map_append, List.map_singleton, List.reverse_append, List.reverse_singleton,
      List.singleton_append, lastStart_concat]
    by_cases hc : c.char = '\n'
    · have hnone : (cs ++ [c]).filter (fun d => c.stop ≤ d.offset) = [] := by
        rw [List.filter_eq_nil_iff]
        intro d hd
        have hlt := d.offset_lt_stop.trans_le (h.offset_mem hd).2
        rw [← show c.stop = stop from hstop] at hlt
        simpa using hlt
      rw [List.takeWhile_cons_of_neg (by simpa using hc), if_pos hc, hnone]
      rfl
    · have hle : lastStart start cs ≤ c.offset := (lastStart_le hfront).trans_eq hoffset.symm
      rw [List.takeWhile_cons_of_pos (by simpa using hc), List.length_cons, ih hfront, if_neg hc,
        List.filter_append, List.filter_cons_of_pos (by simpa using hle)]
      simp

/-- The characters from one offset on and before another. -/
def charsBetween (source : String) (start stop : Nat) : List Located :=
  (Located.ofString source).filter fun c => start ≤ c.offset && c.offset < stop

/-- Between characters the column counts the characters of the line. -/
theorem column_of_isCut {source : String} {offset : Nat}
    (h : Located.IsCut (Located.ofString source) source.utf8ByteSize offset) :
    (Position.ofOffset source offset).column =
      (charsBetween source (lastStart 0 (charsBefore source offset)) offset).length + 1 := by
  have hfront := (h.runs_filter (Located.runs_ofString source)).1
  rw [Position.ofOffset_eq_counted h, Position.counted, length_takeWhile_reverse hfront,
    List.filter_filter]
  rfl

/-- Inside a character and past the end the column counts bytes. -/
theorem column_scan_of_not_isCut {offset here line start column : Nat} {cs : List Char}
    (h : ¬ Located.IsCut (Located.place here cs) (here + Located.size (Located.place here cs))
      offset) :
    (Position.scan offset here line start column cs).column =
      offset - lastStart start ((Located.place here cs).filter fun c => c.offset < offset) + 1 := by
  induction cs generalizing here line start column with
  | nil =>
    have hne : offset ≠ here := fun heq => h (.inl heq)
    rw [Position.scan, if_neg hne]
    rfl
  | cons c cs ih =>
    have hne : here ≠ offset := fun heq => h (.inr ⟨_, List.mem_cons_self, heq⟩)
    have hrest : ¬ Located.IsCut (Located.place (here + c.utf8Size) cs)
        (here + c.utf8Size + Located.size (Located.place (here + c.utf8Size) cs)) offset := by
      rintro (hend | ⟨d, hd, heq⟩)
      · exact h (.inl (by simpa [Located.place, Nat.add_assoc] using hend))
      · exact h (.inr ⟨d, List.mem_cons_of_mem _ hd, heq⟩)
    rcases Nat.lt_or_gt_of_ne hne with hlt | hgt
    · rw [Position.scan, if_pos hlt, Located.place, List.filter_cons_of_pos (by simpa using hlt),
        lastStart_cons]
      by_cases hc : c = '\n'
      · subst hc
        rw [if_pos rfl, if_pos rfl]
        exact ih hrest
      · rw [if_neg hc, if_neg hc]
        exact ih hrest
    · have hnone : (Located.place here (c :: cs)).filter (fun d => d.offset < offset) = [] := by
        rw [List.filter_eq_nil_iff]
        intro d hd
        have := ((Located.runs_place here (c :: cs)).offset_mem hd).1
        simp
        omega
      rw [hnone, Position.scan, if_neg (by omega), if_neg hne.symm]
      rfl

theorem column_of_not_isCut {source : String} {offset : Nat}
    (h : ¬ Located.IsCut (Located.ofString source) source.utf8ByteSize offset) :
    (Position.ofOffset source offset).column =
      offset - lastStart 0 (charsBefore source offset) + 1 := by
  have hsize : source.utf8ByteSize = 0 + Located.size (Located.ofString source) :=
    (Located.runs_ofString source).stop_eq
  rw [hsize] at h
  exact column_scan_of_not_isCut h

/-! ## The table and the scan -/

theorem line_eq_lineAt (source : String) (offset : Nat) :
    (Position.ofOffset source offset).line = (ofSource source).lineAt offset + 1 := by
  rw [Position.line_ofOffset, lineAt_ofSource, Position.counted, List.count_eq_length_filter,
    List.filter_map, List.length_map]
  rfl

/-- The piece of the line before an offset can be cut out if the offset is between characters. -/
theorem column_eq_elim (source : String) (offset : Nat) :
    (Position.ofOffset source offset).column =
      (Cursor.cut source (lastStart 0 (charsBefore source offset)) offset :
        Cursor.Checked Empty String).toOption.elim
          (offset - lastStart 0 (charsBefore source offset)) String.length + 1 := by
  obtain ⟨hle, hstart⟩ := lastStart_charsBefore source offset
  by_cases h : Located.IsCut (Located.ofString source) source.utf8ByteSize offset
  · have hsize := h.le (Located.runs_ofString source)
    rw [column_of_isCut h, Cursor.cut, if_neg (by omega), if_neg (by omega),
      Located.isBoundary_iff.2 hstart, Located.isBoundary_iff.2 h]
    simp [charsBetween, Except.toOption, Located.text]
  · rw [column_of_not_isCut h, Cursor.cut, if_neg (by omega)]
    rw [← Located.isBoundary_iff, Bool.not_eq_true] at h
    rw [h, Bool.and_false]
    split <;> rfl

/-- The table gives every offset the position that a scan gives it. -/
theorem position_ofSource (source : String) (offset : Nat) :
    (ofSource source).position source offset = Position.ofOffset source offset := by
  rw [position, startOf_lineAt_ofSource, ← line_eq_lineAt, ← column_eq_elim]

/-! ## Exact positions -/

/-- A line starts at the offset: it is the first one, or a line feed is the byte before it. -/
def StartsAt (source : String) (k : Nat) : Prop :=
  k = 0 ∨ ∃ i, k = i + 1 ∧ (Text.bytes source)[i]? = some 0x0A

theorem mem_starts {source : String} {k : Nat} :
    k ∈ (ofSource source).starts ↔ StartsAt source k := by
  rw [ofSource, List.mem_cons, mem_behindFeeds, StartsAt]
  simp only [Nat.zero_add]

/-- The line of an offset is the last one that has started by then. -/
theorem isGreatest_startOf (source : String) (offset : Nat) :
    IsGreatest {k | k ≤ offset ∧ StartsAt source k}
      ((ofSource source).startOf ((ofSource source).lineAt offset)) := by
  have hlt := (ofSource source).lineAt_lt offset
  have htake := (ofSource source).filter_le_eq_take offset
  have hmem : ∀ k, k ≤ offset ∧ StartsAt source k ↔
      k ∈ (ofSource source).starts.take ((ofSource source).lineAt offset + 1) := by
    intro k
    rw [← htake, List.mem_filter, mem_starts, decide_eq_true_eq, and_comm]
  constructor
  · rw [Set.mem_ofPred_eq, hmem, startOf, List.getD_eq_getElem _ _ hlt]
    exact List.mem_take_iff_getElem.2 ⟨_, by omega, rfl⟩
  · intro k hk
    rcases mem_take_succ hlt ((hmem k).1 hk) with hk | rfl
    · exact ((lt_getD_lt (ofSource source).rising hlt).1 k hk).le
    · exact le_rfl

/-- The lines that have started by an offset are told by the bytes before it. -/
theorem filter_behindFeeds (bytes : List UInt8) (offset : Nat) :
    (behindFeeds 0 bytes).filter (· ≤ offset) = behindFeeds 0 (bytes.take offset) := by
  conv_lhs => rw [← List.take_append_drop offset bytes]
  rw [behindFeeds_append, List.filter_append, List.filter_eq_self.2, List.filter_eq_nil_iff.2,
    List.append_nil]
  · intro k hk
    obtain ⟨i, rfl, hbyte⟩ := mem_behindFeeds.1 hk
    obtain ⟨hlt, _⟩ := List.getElem?_eq_some_iff.1 hbyte
    simp at hlt ⊢
    omega
  · intro k hk
    obtain ⟨i, rfl, hbyte⟩ := mem_behindFeeds.1 hk
    obtain ⟨hlt, _⟩ := List.getElem?_eq_some_iff.1 hbyte
    simp at hlt ⊢
    omega

/-- The index of a line counts the line feeds among the bytes before the offset. -/
theorem lineAt_eq_count (source : String) (offset : Nat) :
    (ofSource source).lineAt offset = ((Text.bytes source).take offset).count 0x0A := by
  have hlength := (ofSource source).length_filter_le offset
  have hfilter : (ofSource source).starts.filter (· ≤ offset) =
      0 :: behindFeeds 0 ((Text.bytes source).take offset) := by
    rw [← filter_behindFeeds]
    rfl
  rw [hfilter, List.length_cons, length_behindFeeds] at hlength
  exact (Nat.succ.inj hlength).symm

end LineTable

theorem Position.compare_eq_lt_iff {p q : Position} :
    p.compare q = .lt ↔ p.line < q.line ∨ p.line = q.line ∧ p.column < q.column := by
  simp only [compare, compareLex, compareOn, Ordering.then_eq_lt, Nat.compare_eq_lt,
    Nat.compare_eq_eq]

/-- Positions are exact and in the order of the offsets. A table of line starts, searched by
halving, gives every offset the position that the scan of the text gives it. Between characters the
line counts the line feeds among the bytes before the offset, and the column the characters since
the last line start; two such offsets are in the order of their lines and, on one line, of their
columns. -/
theorem position_exact (source : String) :
    (∀ offset, (LineTable.ofSource source).position source offset =
      Position.ofOffset source offset) ∧
    ∀ offset, Sheet.isBoundary source offset = true →
      (∃ start, IsGreatest {k | k ≤ offset ∧ LineTable.StartsAt source k} start ∧
        Position.ofOffset source offset =
          ⟨1 + ((Text.bytes source).take offset).count 0x0A,
            1 + (LineTable.charsBetween source start offset).length⟩) ∧
      ∀ later, Sheet.isBoundary source later = true →
        (offset < later ↔
          (Position.ofOffset source offset).line < (Position.ofOffset source later).line ∨
          (Position.ofOffset source offset).line = (Position.ofOffset source later).line ∧
            (Position.ofOffset source offset).column <
              (Position.ofOffset source later).column) := by
  refine ⟨LineTable.position_ofSource source, fun offset hoffset => ⟨?_, fun later hlater => ?_⟩⟩
  · refine ⟨_, LineTable.isGreatest_startOf source offset, ?_⟩
    rw [Located.isBoundary_iff] at hoffset
    rw [LineTable.startOf_lineAt_ofSource, ← LineTable.lineAt_eq_count, Nat.add_comm 1,
      Nat.add_comm 1, ← LineTable.line_eq_lineAt, ← LineTable.column_of_isCut hoffset]
  · rw [Located.isBoundary_iff] at hoffset hlater
    rw [← Nat.compare_eq_lt, ← Position.compare_ofOffset hoffset hlater]
    exact Position.compare_eq_lt_iff

/-- Offset 7 is the line feed, 9 stands inside a character and 20 past the end. -/
theorem position_exact_sample :
    (LineTable.ofSource sampleLines).starts = [0, 8] ∧
    [7, 9, 20].map (Position.ofOffset sampleLines) = [⟨1, 7⟩, ⟨2, 2⟩, ⟨2, 13⟩] ∧
    (∀ offset, (LineTable.ofSource sampleLines).position sampleLines offset =
      Position.ofOffset sampleLines offset) ∧
    Sheet.isBoundary sampleLines 7 = true ∧ Sheet.isBoundary sampleLines 10 = true ∧
    (∃ start, IsGreatest {k | k ≤ 10 ∧ LineTable.StartsAt sampleLines k} start ∧
      Position.ofOffset sampleLines 10 =
        ⟨1 + ((Text.bytes sampleLines).take 10).count 0x0A,
          1 + (LineTable.charsBetween sampleLines start 10).length⟩) ∧
    (7 < 10 ↔
      (Position.ofOffset sampleLines 7).line < (Position.ofOffset sampleLines 10).line ∨
      (Position.ofOffset sampleLines 7).line = (Position.ofOffset sampleLines 10).line ∧
        (Position.ofOffset sampleLines 7).column < (Position.ofOffset sampleLines 10).column) := by
  have hfeed : Sheet.isBoundary sampleLines 7 = true := by decide +kernel
  have hcolon : Sheet.isBoundary sampleLines 10 = true := by decide +kernel
  obtain ⟨htable, hexact⟩ := position_exact sampleLines
  exact ⟨by decide +kernel, by decide +kernel, htable, hfeed, hcolon, (hexact 10 hcolon).1,
    (hexact 7 hfeed).2 10 hcolon⟩

end SheetPolicy

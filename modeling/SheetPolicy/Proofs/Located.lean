import Mathlib
import SheetPolicy.Sheet.Node

/-!
Places in a source. The characters of a text adjoin each other (`Located.Runs`); whatever part of
them is kept stays in order, and its bytes are the bytes of the source at the offsets that
`Located.offsetAt` gives.
-/

namespace SheetPolicy

/-- The UTF-8 bytes of a text. -/
def Text.bytes (s : String) : List UInt8 :=
  s.toByteArray.data.toList

theorem Text.bytes_eq (s : String) : Text.bytes s = s.toList.flatMap String.utf8EncodeChar := by
  rw [Text.bytes, ← String.utf8Encode_toList]
  simp [List.utf8Encode]

@[simp] theorem Text.bytes_ofList (cs : List Char) :
    Text.bytes (String.ofList cs) = cs.flatMap String.utf8EncodeChar := by
  simp [Text.bytes_eq]

namespace Located

/-! ## Adjoining characters -/

/-- The characters stand one right after the other, from `start` up to `stop`. -/
def Runs (start : Nat) : List Located → Nat → Prop
  | [], stop => start = stop
  | c :: cs, stop => c.offset = start ∧ Runs c.stop cs stop

/-- The number of bytes of some characters. -/
def size (cs : List Located) : Nat :=
  cs.foldr (fun c n => c.char.utf8Size + n) 0

@[simp] theorem size_nil : size [] = 0 := rfl

@[simp] theorem size_cons (c : Located) (cs : List Located) :
    size (c :: cs) = c.char.utf8Size + size cs := rfl

@[simp] theorem size_append (xs ys : List Located) : size (xs ++ ys) = size xs + size ys := by
  induction xs with
  | nil => simp
  | cons c cs ih => simp [ih, Nat.add_assoc]

@[simp] theorem startOf_nil (stop : Nat) : startOf stop [] = stop := rfl

@[simp] theorem startOf_cons (stop : Nat) (c : Located) (cs : List Located) :
    startOf stop (c :: cs) = c.offset := rfl

theorem startOf_append (size : Nat) (xs ys : List Located) :
    startOf size (xs ++ ys) = startOf (startOf size ys) xs := by
  cases xs <;> rfl

theorem utf8ByteSize_text (cs : List Located) : (text cs).utf8ByteSize = size cs := by
  induction cs with
  | nil => rfl
  | cons c cs ih =>
    simp only [text, String.utf8ByteSize_ofList, List.map_cons, String.utf8Len_cons] at ih ⊢
    rw [ih, size_cons, Nat.add_comm]

theorem size_eq_of_map_char {xs ys : List Located}
    (h : xs.map Located.char = ys.map Located.char) : size xs = size ys := by
  rw [← utf8ByteSize_text, ← utf8ByteSize_text, text, h, ← text]

theorem size_pos {cs : List Located} (h : cs ≠ []) : 0 < size cs := by
  cases cs with
  | nil => exact absurd rfl h
  | cons c cs => exact Nat.add_pos_left c.char.utf8Size_pos _

theorem offset_lt_stop (c : Located) : c.offset < c.stop := by
  have := c.char.utf8Size_pos
  simp only [stop]
  omega

theorem runs_place (start : Nat) (cs : List Char) :
    Runs start (place start cs) (start + size (place start cs)) := by
  induction cs generalizing start with
  | nil => simp [Runs, place]
  | cons c cs ih =>
    refine ⟨rfl, ?_⟩
    simpa [place, stop, Nat.add_assoc] using ih (start + c.utf8Size)

theorem place_append (start : Nat) (xs ys : List Char) :
    place start (xs ++ ys) = place start xs ++ place (start + size (place start xs)) ys := by
  induction xs generalizing start with
  | nil => rfl
  | cons x xs ih => simp [place, ih, Nat.add_assoc]

theorem text_ofString (s : String) : text (ofString s) = s := by
  simp [text, ofString]

theorem size_place_toList (start : Nat) (s : String) :
    size (place start s.toList) = s.utf8ByteSize := by
  rw [← utf8ByteSize_text, text, map_char_place, String.ofList_toList]

theorem runs_place_toList (start : Nat) (s : String) :
    Runs start (place start s.toList) (start + s.utf8ByteSize) := by
  rw [← size_place_toList start]
  exact runs_place start s.toList

theorem runs_ofString (s : String) : Runs 0 (ofString s) s.utf8ByteSize := by
  simpa [ofString] using runs_place_toList 0 s

theorem runs_append {start stop : Nat} {xs ys : List Located} :
    Runs start (xs ++ ys) stop ↔ ∃ middle, Runs start xs middle ∧ Runs middle ys stop := by
  induction xs generalizing start with
  | nil => simp [Runs]
  | cons c cs ih => simp [Runs, ih, and_assoc]

namespace Runs

variable {start stop : Nat} {cs : List Located}

theorem place_eq (h : Runs start cs stop) : place start (cs.map char) = cs := by
  induction cs generalizing start with
  | nil => rfl
  | cons c cs ih =>
    obtain ⟨rfl, hrest⟩ := h
    rw [List.map_cons, place]
    exact congrArg (c :: ·) (ih hrest)

theorem stop_eq (h : Runs start cs stop) : stop = start + size cs := by
  induction cs generalizing start with
  | nil => simpa [Runs] using h.symm
  | cons c cs ih =>
    obtain ⟨rfl, htail⟩ := h
    rw [ih htail, size_cons, Located.stop, Nat.add_assoc]

theorem le (h : Runs start cs stop) : start ≤ stop := by
  have := h.stop_eq
  omega

theorem startOf_eq (h : Runs start cs stop) : startOf stop cs = start := by
  cases cs with
  | nil => exact h.symm
  | cons c cs => exact h.1

theorem offset_mem (h : Runs start cs stop) {c : Located} (hc : c ∈ cs) :
    start ≤ c.offset ∧ c.stop ≤ stop := by
  obtain ⟨before, after, rfl⟩ := List.append_of_mem hc
  obtain ⟨middle, hbefore, rfl, hafter⟩ := runs_append.1 h
  exact ⟨hbefore.le, hafter.le⟩

theorem pairwise (h : Runs start cs stop) : cs.Pairwise fun c d => c.stop ≤ d.offset := by
  induction cs generalizing start with
  | nil => exact .nil
  | cons c cs ih =>
    obtain ⟨_, htail⟩ := h
    exact .cons (fun d hd => (htail.offset_mem hd).1) (ih htail)

/-- A part of adjoining characters adjoins, and starts where the part before it stops. -/
theorem of_append {before after : List Located} (h : Runs start (before ++ after) stop) :
    Runs start before (start + size before) ∧ Runs (start + size before) after stop := by
  obtain ⟨middle, hbefore, hafter⟩ := runs_append.1 h
  obtain rfl := hbefore.stop_eq
  exact ⟨hbefore, hafter⟩

/-- What stands before an offset between two characters ends there. -/
theorem stop_le_of_lt (h : Runs start cs stop) {c d : Located} (hc : c ∈ cs) (hd : d ∈ cs)
    (hlt : c.offset < d.offset) : c.stop ≤ d.offset := by
  induction cs generalizing start with
  | nil => simp at hc
  | cons x xs ih =>
    obtain ⟨_, htail⟩ := h
    rcases List.mem_cons.1 hc with rfl | hc' <;> rcases List.mem_cons.1 hd with rfl | hd'
    · omega
    · exact (htail.offset_mem hd').1
    · have := (htail.offset_mem hc').1
      have := d.offset_lt_stop
      omega
    · exact ih htail hc' hd'

/-- Two characters that share a byte are one. -/
theorem eq_of_overlap (h : Runs start cs stop) {c d : Located} (hc : c ∈ cs) (hd : d ∈ cs)
    (hlt : c.offset < d.stop) (hgt : d.offset < c.stop) : c = d := by
  induction cs generalizing start with
  | nil => simp at hc
  | cons x xs ih =>
    obtain ⟨_, htail⟩ := h
    rcases List.mem_cons.1 hc with rfl | hc' <;> rcases List.mem_cons.1 hd with rfl | hd'
    · rfl
    · have := (htail.offset_mem hd').1
      omega
    · have := (htail.offset_mem hc').1
      omega
    · exact ih htail hc' hd'

end Runs

/-! ## Characters in order -/

/-- The characters stand in the order of their offsets, before `size`. -/
structure Rising (size : Nat) (cs : List Located) : Prop where
  ordered : cs.Pairwise fun c d => c.offset < d.offset
  lt : ∀ c ∈ cs, c.offset < size

namespace Rising

variable {size : Nat} {xs ys : List Located}

theorem of_runs {start stop : Nat} {cs : List Located} (h : Runs start cs stop) :
    Rising stop cs where
  ordered := h.pairwise.imp fun {c _} hcd => c.offset_lt_stop.trans_le hcd
  lt c hc := c.offset_lt_stop.trans_le (h.offset_mem hc).2

theorem left (h : Rising size (xs ++ ys)) : Rising size xs :=
  ⟨(List.pairwise_append.1 h.ordered).1, fun c hc => h.lt c (List.mem_append_left _ hc)⟩

theorem right (h : Rising size (xs ++ ys)) : Rising size ys :=
  ⟨(List.pairwise_append.1 h.ordered).2.1, fun c hc => h.lt c (List.mem_append_right _ hc)⟩

theorem suffix (h : Rising size xs) (hs : ys <:+ xs) : Rising size ys := by
  obtain ⟨front, rfl⟩ := hs
  exact h.right

/-- A character is told by its offset. -/
theorem eq_of_offset (h : Rising size xs) {c d : Located} (hc : c ∈ xs) (hd : d ∈ xs)
    (heq : c.offset = d.offset) : c = d := by
  obtain ⟨before, after, rfl⟩ := List.append_of_mem hc
  obtain ⟨_, htail, hfront⟩ := List.pairwise_append.1 h.ordered
  rcases List.mem_append.1 hd with hd | hd
  · have := hfront d hd c List.mem_cons_self
    omega
  · rcases List.mem_cons.1 hd with rfl | hd
    · rfl
    · have := (List.pairwise_cons.1 htail).1 d hd
      omega

/-- What stands in front starts before the rest does. -/
theorem lt_startOf (h : Rising size (xs ++ ys)) {c : Located} (hc : c ∈ xs) :
    c.offset < startOf size ys := by
  cases ys with
  | nil => exact h.lt c (List.mem_append_left _ hc)
  | cons y ys => exact (List.pairwise_append.1 h.ordered).2.2 c hc y List.mem_cons_self

theorem startOf_le (h : Rising size xs) {c : Located} (hc : c ∈ xs) :
    startOf size xs ≤ c.offset := by
  cases xs with
  | nil => simp at hc
  | cons x xs =>
    rcases List.mem_cons.1 hc with rfl | hc
    · exact le_rfl
    · exact ((List.pairwise_cons.1 h.ordered).1 c hc).le

end Rising

/-- A text in three pieces. -/
theorem eq_text_append {s : String} {before run after : List Located}
    (h : ofString s = before ++ (run ++ after)) : s = text before ++ text run ++ text after := by
  rw [← text_ofString s, h]
  simp [text, String.append_assoc]

/-- A character of a text stands after the bytes of those before it. -/
theorem offset_eq_size {s : String} {before after : List Located} {c : Located}
    (h : ofString s = before ++ c :: after) : c.offset = size before := by
  have hruns := runs_ofString s
  rw [h] at hruns
  simpa using hruns.of_append.2.1

/-! ## Offsets between characters -/

/-- The offset is where one of the characters starts, or where the text ends. -/
def IsCut (cs : List Located) (stop o : Nat) : Prop :=
  o = stop ∨ ∃ c ∈ cs, c.offset = o

theorem isBoundary_iff {source : String} {o : Nat} :
    Sheet.isBoundary source o = true ↔ IsCut (ofString source) source.utf8ByteSize o := by
  simp [Sheet.isBoundary, IsCut]

/-- A part of the characters at the end starts between characters. -/
theorem isCut_startOf {cs tail : List Located} {stop : Nat} (h : tail ⊆ cs) :
    IsCut cs stop (startOf stop tail) := by
  cases tail with
  | nil => exact .inl rfl
  | cons c tail => exact .inr ⟨c, h List.mem_cons_self, rfl⟩

/-- A character before a cut ends before it. -/
theorem IsCut.stop_le {start stop o : Nat} {cs : List Located} (hcut : IsCut cs stop o)
    (h : Runs start cs stop) {c : Located} (hc : c ∈ cs) (hlt : c.offset < o) : c.stop ≤ o := by
  rcases hcut with rfl | ⟨d, hd, rfl⟩
  · exact (h.offset_mem hc).2
  · exact h.stop_le_of_lt hc hd hlt

/-! ## Bytes of kept characters -/

theorem bytes_text (cs : List Located) :
    Text.bytes (text cs) = cs.flatMap fun c => String.utf8EncodeChar c.char := by
  simp [text, List.flatMap_map]

theorem length_flatMap_encode (cs : List Located) :
    (cs.flatMap fun c => String.utf8EncodeChar c.char).length = size cs := by
  induction cs with
  | nil => rfl
  | cons c cs ih => simp [ih]

/-- A byte of kept characters is a byte of one of them, and `offsetAt` finds its place. -/
theorem exists_mem_of_lt_size {stop i : Nat} {cs : List Located} (hi : i < size cs) :
    ∃ c ∈ cs, ∃ k < c.char.utf8Size, offsetAt stop cs i = c.offset + k ∧
      (Text.bytes (text cs))[i]? = (String.utf8EncodeChar c.char)[k]? := by
  rw [bytes_text]
  induction cs generalizing i with
  | nil => simp at hi
  | cons c cs ih =>
    by_cases hk : i < c.char.utf8Size
    · refine ⟨c, List.mem_cons_self, i, hk, by simp [offsetAt, hk], ?_⟩
      rw [List.flatMap_cons, List.getElem?_append_left (by simpa using hk)]
    · rw [size_cons] at hi
      obtain ⟨d, hd, k, hlt, hoff, hbyte⟩ := ih (i := i - c.char.utf8Size) (by omega)
      refine ⟨d, List.mem_cons_of_mem _ hd, k, hlt, by simp [offsetAt, hk, hoff], ?_⟩
      rw [List.flatMap_cons, List.getElem?_append_right (by simpa using hk)]
      simpa using hbyte

/-- Characters that run through a text from its start are the characters of the text. -/
theorem ofString_text {stop : Nat} {cs : List Located} (h : Runs 0 cs stop) :
    ofString (text cs) = cs := by
  rw [ofString, text, String.toList_ofList, h.place_eq]

/-- The bytes of a character stand at its place. -/
theorem Runs.getElem?_bytes {start stop k : Nat} {cs : List Located} (h : Runs start cs stop)
    {c : Located} (hc : c ∈ cs) (hk : k < c.char.utf8Size) :
    (Text.bytes (text cs))[c.offset - start + k]? = (String.utf8EncodeChar c.char)[k]? := by
  obtain ⟨before, after, rfl⟩ := List.append_of_mem hc
  obtain ⟨_, hoff, _⟩ := h.of_append
  have hplace : c.offset - start = size before := by omega
  rw [bytes_text, List.flatMap_append, List.flatMap_cons, hplace,
    List.getElem?_append_right (by rw [length_flatMap_encode]; omega), length_flatMap_encode,
    List.getElem?_append_left (by simp; omega)]
  simp

theorem getElem?_bytes_ofString {source : String} {c : Located} {k : Nat}
    (hc : c ∈ ofString source) (hk : k < c.char.utf8Size) :
    (Text.bytes source)[c.offset + k]? = (String.utf8EncodeChar c.char)[k]? := by
  simpa [text_ofString] using (runs_ofString source).getElem?_bytes hc hk

/-! ## Places of kept characters -/

theorem offsetAt_size (stop : Nat) (cs : List Located) : offsetAt stop cs (size cs) = stop := by
  induction cs with
  | nil => rfl
  | cons c cs ih => simp [offsetAt, ih]

theorem offsetAt_append (stop : Nat) (xs ys : List Located) :
    offsetAt stop (xs ++ ys) (size xs) = startOf stop ys := by
  induction xs with
  | nil =>
    cases ys with
    | nil => rfl
    | cons c ys => simp [offsetAt, c.char.utf8Size_pos]
  | cons c xs ih => simpa [offsetAt] using ih

theorem le_offsetAt {bound stop : Nat} {cs : List Located} (h : ∀ c ∈ cs, bound ≤ c.offset)
    (hstop : bound ≤ stop) (i : Nat) : bound ≤ offsetAt stop cs i := by
  induction cs generalizing i with
  | nil => exact Nat.le_add_right_of_le hstop
  | cons c cs ih =>
    rw [offsetAt]
    split
    · exact Nat.le_add_right_of_le (h c List.mem_cons_self)
    · exact ih (fun d hd => h d (List.mem_cons_of_mem _ hd)) _

/-- Later bytes of kept characters stand at later places. -/
theorem offsetAt_lt_offsetAt {stop i j : Nat} {cs : List Located}
    (hordered : cs.Pairwise fun c d => c.stop ≤ d.offset) (hstop : ∀ c ∈ cs, c.stop ≤ stop)
    (hij : i < j) (hj : j ≤ size cs) : offsetAt stop cs i < offsetAt stop cs j := by
  induction cs generalizing i j with
  | nil => simp at hj; omega
  | cons c cs ih =>
    obtain ⟨hlater, htail⟩ := List.pairwise_cons.1 hordered
    rw [size_cons] at hj
    rw [offsetAt, offsetAt]
    split
    · split
      · omega
      · have hc : c.stop ≤ offsetAt stop cs (j - c.char.utf8Size) :=
          le_offsetAt hlater (hstop c List.mem_cons_self) _
        simp only [Located.stop] at hc
        omega
    · rw [if_neg (by omega)]
      exact ih htail (fun d hd => hstop d (List.mem_cons_of_mem _ hd)) (by omega) (by omega)

theorem offsetAt_le {stop i : Nat} {cs : List Located}
    (hordered : cs.Pairwise fun c d => c.stop ≤ d.offset) (hstop : ∀ c ∈ cs, c.stop ≤ stop)
    (hi : i ≤ size cs) : offsetAt stop cs i ≤ stop := by
  rcases Nat.lt_or_eq_of_le hi with hlt | rfl
  · have h := offsetAt_lt_offsetAt hordered hstop hlt le_rfl
    rw [offsetAt_size] at h
    exact Nat.le_of_lt h
  · rw [offsetAt_size]

end Located

end SheetPolicy

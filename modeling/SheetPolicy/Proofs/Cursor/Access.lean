import Mathlib
import SheetPolicy.Proofs.Located

/-!
Reading by byte offsets. Such a reader looks at single bytes, cuts texts at offsets, subtracts
offsets and goes on in a loop from a later one, and each of these can go wrong (`Fault`). Here they
are checked: what they ask for is there, or the reader stops with the fault.

The offsets of characters are safe (`byte?_cons`, `cut_append`). An offset that is not one, because
a step over a byte led into a character, does no harm to a loop that tells ASCII characters only
(`Glides`).
-/

namespace SheetPolicy.Cursor

/-! ## Checked steps -/

/-- What must not happen to a reader. -/
inductive Fault where
  /-- A byte is asked for that the text does not have. -/
  | noByte
  /-- A piece is cut that stops before it starts. -/
  | reversed
  /-- A piece is cut that stops behind the end of the text. -/
  | outOfRange
  /-- A piece is cut that starts or stops inside a character. -/
  | insideCharacter
  /-- A number is taken from a smaller one. -/
  | underflow
  /-- A loop goes on from where it was, from before, or from behind the end of the text. -/
  | standstill
deriving DecidableEq

/-- Why a reader stops: it went wrong, or it refuses the text. -/
inductive Stop (ε : Type) where
  | fault (fault : Fault)
  | refusal (error : ε)

abbrev Checked (ε α : Type) : Type :=
  Except (Stop ε) α

variable {ε α β : Type}

def fault (f : Fault) : Checked ε α :=
  .error (.fault f)

def refuse (e : ε) : Checked ε α :=
  .error (.refusal e)

/-- The outcome, reached without a fault. -/
def faultless (x : Except ε α) : Checked ε α :=
  x.mapError .refusal

/-- The byte at an offset, as the character that has its code. -/
def byte? (text : String) (i : Nat) : Option Char :=
  (Text.bytes text)[i]?.map fun b => Char.ofNat b.toNat

/-- The byte at an offset where there has to be one. -/
def byte (text : String) (i : Nat) : Checked ε Char :=
  match byte? text i with
  | some b => .ok b
  | none => fault .noByte

/-- The piece of a text between two offsets. -/
def cut (text : String) (start stop : Nat) : Checked ε String :=
  if stop < start then fault .reversed
  else if text.utf8ByteSize < stop then fault .outOfRange
  else if Sheet.isBoundary text start && Sheet.isBoundary text stop then
    .ok (Located.text ((Located.ofString text).filter fun c =>
      start ≤ c.offset && c.offset < stop))
  else fault .insideCharacter

/-- The piece of a text from an offset on. -/
def cutFrom (text : String) (start : Nat) : Checked ε String :=
  cut text start text.utf8ByteSize

def subtract (m n : Nat) : Checked ε Nat :=
  if n ≤ m then .ok (m - n) else fault .underflow

/-- The offset `j` from which a loop goes on that was at `i`. -/
def onward (text : String) (i j : Nat) :
    Checked ε { k : Nat // i < k ∧ k ≤ text.utf8ByteSize } :=
  if h : i < j ∧ j ≤ text.utf8ByteSize then .ok ⟨j, h⟩ else fault .standstill

/-- Where `mark` first occurs. -/
def find? (mark text : String) : Option Nat :=
  (Text.splitAtFirst? mark.toList text.toList).map fun (before, _) =>
    (String.ofList before).utf8ByteSize

@[simp] theorem faultless_ok (a : α) : faultless (.ok a : Except ε α) = .ok a := rfl

@[simp] theorem faultless_error (e : ε) : faultless (.error e : Except ε α) = refuse e := rfl

@[simp] theorem ok_bind (a : α) (f : α → Except ε β) : (.ok a : Except ε α) >>= f = f a := rfl

/-- The checked outcome is no fault, and it is the other outcome up to `R`. -/
inductive Agrees (R : α → β → Prop) : Checked ε α → Except ε β → Prop
  | ok {a : α} {b : β} : R a b → Agrees R (.ok a) (.ok b)
  | error (e : ε) : Agrees R (.error (.refusal e)) (.error e)

theorem Agrees.bind {γ δ : Type} {R : α → β → Prop} {S : γ → δ → Prop} {x : Checked ε α}
    {y : Except ε β} {f : α → Checked ε γ} {g : β → Except ε δ} (h : Agrees R x y)
    (hfg : ∀ a b, R a b → Agrees S (f a) (g b)) : Agrees S (x >>= f) (y >>= g) := by
  cases h with
  | ok hR => exact hfg _ _ hR
  | error e => exact .error e

theorem Agrees.map {γ : Type} {R : α → β → Prop} {S : α → γ → Prop} {x : Checked ε α}
    {y : Except ε β} {g : β → γ} (h : Agrees R x y) (hg : ∀ a b, R a b → S a (g b)) :
    Agrees S x (y.map g) := by
  cases h with
  | ok hR => exact .ok (hg _ _ hR)
  | error e => exact .error e

theorem Agrees.bind_map {γ δ : Type} {R : α → β → Prop} {S : γ → δ → Prop} {x : Checked ε α}
    {y : Except ε β} {f : α → Checked ε γ} {g : β → δ} (h : Agrees R x y)
    (hfg : ∀ a b, R a b → ∃ c, f a = .ok c ∧ S c (g b)) : Agrees S (x >>= f) (y.map g) := by
  cases h with
  | ok hR =>
    obtain ⟨c, hc, hS⟩ := hfg _ _ hR
    rw [ok_bind, hc]
    exact .ok hS
  | error e => exact .error e

theorem onward_of_lt {text : String} {i j : Nat} (h : i < j ∧ j ≤ text.utf8ByteSize) :
    (onward text i j : Checked ε _) = .ok ⟨j, h⟩ :=
  dif_pos h

theorem subtract_of_le {m n : Nat} (h : n ≤ m) : (subtract m n : Checked ε Nat) = .ok (m - n) :=
  if_pos h

theorem lt_size_of_byte? {text : String} {i : Nat} {b : Char} (h : byte? text i = some b) :
    i < text.utf8ByteSize := by
  rw [byte?, Option.map_eq_some_iff] at h
  obtain ⟨_, hbyte, _⟩ := h
  obtain ⟨hlt, _⟩ := List.getElem?_eq_some_iff.1 hbyte
  exact hlt

theorem byte?_eq_none_iff {text : String} {i : Nat} :
    byte? text i = none ↔ text.utf8ByteSize ≤ i := by
  rw [byte?, Option.map_eq_none_iff, List.getElem?_eq_none_iff]
  rfl

@[simp] theorem byte?_size (text : String) : byte? text text.utf8ByteSize = none :=
  byte?_eq_none_iff.2 le_rfl

/-! ## Bytes of characters -/

/-- The two are one character, or neither is in ASCII. -/
def Alike (b c : Char) : Prop :=
  b = c ∨ 127 < b.toNat ∧ 127 < c.toNat

/-- The function does not tell characters outside ASCII apart. -/
def Coarse {β : Type} (f : Char → β) : Prop :=
  ∀ c d : Char, 127 < c.toNat → 127 < d.toNat → f c = f d

theorem Alike.map_eq {b c : Char} (h : Alike b c) {f : Char → β} (hf : Coarse f) : f b = f c := by
  rcases h with rfl | ⟨hb, hc⟩
  · rfl
  · exact hf b c hb hc

theorem Alike.eq_iff {b c : Char} (h : Alike b c) {k : Char} (hk : k.toNat ≤ 127) :
    b = k ↔ c = k := by
  rcases h with rfl | ⟨hb, hc⟩
  · rfl
  · exact ⟨fun heq => by subst heq; omega, fun heq => by subst heq; omega⟩

theorem ne_of_ascii {b k : Char} (hb : 127 < b.toNat) (hk : k.toNat ≤ 127) : b ≠ k := by
  rintro rfl
  omega

theorem toNat_ofNat_byte (b : UInt8) : (Char.ofNat b.toNat).toNat = b.toNat := by
  have hlt := b.toNat_lt
  rw [Char.ofNat, dif_pos (Or.inl (by omega))]
  rfl

theorem le_toNat_or (x k : UInt8) : k.toNat ≤ (x ||| k).toNat := by
  rw [UInt8.toNat_or]
  exact Nat.right_le_or

/-- Every byte of a character outside ASCII is outside ASCII, and one in ASCII is its own byte. -/
theorem alike_of_mem_encode {c : Char} {b : UInt8} (hb : b ∈ String.utf8EncodeChar c) :
    Alike (Char.ofNat b.toNat) c := by
  have hval : c.toNat = c.val.toNat := rfl
  have hmarked : ∀ x k : UInt8, 128 ≤ k.toNat → 127 < (Char.ofNat (x ||| k).toNat).toNat := by
    intro x k hk
    have := le_toNat_or x k
    rw [toNat_ofNat_byte]
    omega
  by_cases hascii : c.val ≤ 127
  · left
    rw [String.utf8EncodeChar_eq_singleton (Char.utf8Size_eq_one_iff.2 hascii),
      List.mem_singleton] at hb
    have hle : c.val.toNat ≤ 127 := UInt32.le_iff_toNat_le.1 hascii
    rw [hb, UInt32.toNat_toUInt8, Nat.mod_eq_of_lt (by omega), ← hval, Char.ofNat_toNat]
  · right
    have hlt : 127 < c.val.toNat := by
      rw [UInt32.le_iff_toNat_le] at hascii
      exact Nat.lt_of_not_le hascii
    refine ⟨?_, hlt⟩
    rcases c.utf8Size_eq with h | h | h | h
    · exact absurd (Char.utf8Size_eq_one_iff.1 h) hascii
    · rw [String.utf8EncodeChar_eq_cons_cons h] at hb
      simp only [List.mem_cons, List.not_mem_nil, or_false] at hb
      rcases hb with rfl | rfl <;> exact hmarked _ _ (by decide)
    · rw [String.utf8EncodeChar_eq_cons_cons_cons h] at hb
      simp only [List.mem_cons, List.not_mem_nil, or_false] at hb
      rcases hb with rfl | rfl | rfl <;> exact hmarked _ _ (by decide)
    · rw [String.utf8EncodeChar_eq_cons_cons_cons_cons h] at hb
      simp only [List.mem_cons, List.not_mem_nil, or_false] at hb
      rcases hb with rfl | rfl | rfl | rfl <;> exact hmarked _ _ (by decide)

theorem stop_eq_of_ascii {c : Located} (h : c.char.toNat ≤ 127) : c.stop = c.offset + 1 := by
  rw [Located.stop, Char.utf8Size_eq_one_iff.2 (UInt32.le_iff_toNat_le.2 h)]

/-! ## Offsets of characters -/

/-- The offset at which the end `cs` of a text starts. -/
def spot (text : String) (cs : List Located) : Nat :=
  Located.startOf text.utf8ByteSize cs

@[simp] theorem spot_nil (text : String) : spot text [] = text.utf8ByteSize := rfl

@[simp] theorem spot_cons (text : String) (c : Located) (rest : List Located) :
    spot text (c :: rest) = c.offset := rfl

theorem spot_ofString (text : String) : spot text (Located.ofString text) = 0 :=
  (Located.runs_ofString text).startOf_eq

section

variable {text : String} {cs xs ys rest : List Located} {c : Located}

theorem runs_spot (h : cs <:+ Located.ofString text) :
    Located.Runs (spot text cs) cs text.utf8ByteSize := by
  obtain ⟨front, hfront⟩ := h
  have hruns := Located.runs_ofString text
  rw [← hfront] at hruns
  obtain ⟨_, htail⟩ := hruns.of_append
  rwa [spot, htail.startOf_eq]

theorem spot_le (h : cs <:+ Located.ofString text) : spot text cs ≤ text.utf8ByteSize :=
  (runs_spot h).le

theorem spot_append (h : xs ++ ys <:+ Located.ofString text) :
    spot text ys = spot text (xs ++ ys) + Located.size xs := by
  obtain ⟨_, htail⟩ := (runs_spot h).of_append
  exact htail.startOf_eq

theorem runs_of_append (h : xs ++ ys <:+ Located.ofString text) :
    Located.Runs (spot text (xs ++ ys)) xs (spot text ys) := by
  rw [spot_append h]
  exact (runs_spot h).of_append.1

theorem spot_rest (h : c :: rest <:+ Located.ofString text) : spot text rest = c.stop :=
  (runs_spot h).2.startOf_eq

theorem spot_rest_rest {d : Located} (h : c :: d :: rest <:+ Located.ofString text)
    (hc : c.char.toNat ≤ 127) (hd : d.char.toNat ≤ 127) : spot text rest = c.offset + 2 := by
  have htail : d :: rest <:+ Located.ofString text := (List.suffix_cons c _).trans h
  have hoffset := spot_rest h
  rw [spot_cons, stop_eq_of_ascii hc] at hoffset
  rw [spot_rest htail, stop_eq_of_ascii hd, hoffset]

/-- Of two ends of a text the one that starts later is an end of the other. -/
theorem suffix_of_spot_le (hxs : xs <:+ Located.ofString text) (hys : ys <:+ Located.ofString text)
    (hle : spot text xs ≤ spot text ys) : ys <:+ xs := by
  rcases List.suffix_or_suffix_of_suffix hxs hys with h | h
  · obtain ⟨front, rfl⟩ := h
    have hadd := spot_append hys
    cases front with
    | nil => exact List.suffix_rfl
    | cons c front =>
      have hpos := Located.size_pos (List.cons_ne_nil c front)
      omega
  · exact h

theorem spot_mono (h : xs <:+ Located.ofString text) (hsuffix : ys <:+ xs) :
    spot text xs ≤ spot text ys := by
  obtain ⟨front, rfl⟩ := hsuffix
  rw [spot_append h]
  exact Nat.le_add_right _ _

/-- Behind a character the text goes on from a later offset. -/
theorem lt_spot {after : List Located} (h : c :: rest <:+ Located.ofString text)
    (hafter : after <:+ rest) :
    c.offset < spot text after ∧ spot text after ≤ text.utf8ByteSize := by
  have hrest : rest <:+ Located.ofString text := (List.suffix_cons c rest).trans h
  refine ⟨?_, spot_le (hafter.trans hrest)⟩
  obtain ⟨body, rfl⟩ := hafter
  have hlt := c.offset_lt_stop
  rw [spot_append hrest, spot_rest h]
  omega

theorem lt_spot_of_suffix {after : List Located} (h : cs <:+ Located.ofString text)
    (hcons : c :: rest <:+ cs) (hafter : after <:+ rest) :
    spot text cs < spot text after ∧ spot text after ≤ text.utf8ByteSize := by
  have hlater := lt_spot (hcons.trans h) hafter
  exact ⟨(spot_mono h hcons).trans_lt hlater.1, hlater.2⟩

theorem isBoundary_spot (h : cs <:+ Located.ofString text) :
    Sheet.isBoundary text (spot text cs) = true :=
  Located.isBoundary_iff.2 (Located.isCut_startOf h.subset)

/-- Between the offsets of two ends of a text stand the characters that the longer one has more. -/
theorem filter_spot (h : xs ++ ys <:+ Located.ofString text) :
    ((Located.ofString text).filter fun c =>
      spot text (xs ++ ys) ≤ c.offset && c.offset < spot text ys) = xs := by
  obtain ⟨front, hfront⟩ := h
  have hruns := Located.runs_ofString text
  rw [← hfront] at hruns ⊢
  obtain ⟨hbefore, hafter⟩ := hruns.of_append
  obtain ⟨hpiece, htail⟩ := hafter.of_append
  have hstart : spot text (xs ++ ys) = _ := hafter.startOf_eq
  have hstop : spot text ys = _ := htail.startOf_eq
  rw [List.filter_append, List.filter_append, List.filter_eq_nil_iff.2, List.filter_eq_self.2,
    List.filter_eq_nil_iff.2, List.nil_append, List.append_nil]
  · intro d hd
    have := (htail.offset_mem hd).1
    simp
    omega
  · intro d hd
    have := hpiece.offset_mem hd
    have := d.offset_lt_stop
    simp
    omega
  · intro d hd
    have := (hbefore.offset_mem hd).2
    have := d.offset_lt_stop
    simp
    omega

theorem cut_append (h : xs ++ ys <:+ Located.ofString text) :
    (cut text (spot text (xs ++ ys)) (spot text ys) : Checked ε String) =
      .ok (Located.text xs) := by
  have hys : ys <:+ Located.ofString text := (List.suffix_append xs ys).trans h
  have hadd := spot_append h
  have hle := spot_le hys
  rw [cut, if_neg (by omega), if_neg (by omega), isBoundary_spot h, isBoundary_spot hys,
    filter_spot h]
  rfl

-- Offset 2 stands inside the second character.
example : (cut "né" 0 2 : Checked Empty String) = fault .insideCharacter := rfl

theorem cutFrom_spot (h : cs <:+ Located.ofString text) :
    (cutFrom text (spot text cs) : Checked ε String) = .ok (Located.text cs) := by
  have hcut := @cut_append ε text cs [] (by simpa using h)
  rwa [List.append_nil] at hcut

theorem byte?_of_mem (hc : c ∈ Located.ofString text) {k : Nat} (hk : k < c.char.utf8Size) :
    ∃ b, byte? text (c.offset + k) = some b ∧ Alike b c.char := by
  have hlen : k < (String.utf8EncodeChar c.char).length := by simpa using hk
  refine ⟨_, ?_, alike_of_mem_encode (List.getElem_mem hlen)⟩
  rw [byte?, Located.getElem?_bytes_ofString hc hk, List.getElem?_eq_getElem hlen, Option.map_some]

theorem byte?_cons (h : c :: rest <:+ Located.ofString text) :
    ∃ b, byte? text c.offset = some b ∧ Alike b c.char := by
  simpa using byte?_of_mem (h.subset List.mem_cons_self) c.char.utf8Size_pos

theorem byte?_of_ascii (h : c :: rest <:+ Located.ofString text) (hc : c.char.toNat ≤ 127) :
    byte? text c.offset = some c.char := by
  obtain ⟨b, hb, halike⟩ := byte?_cons h
  rw [hb, (halike.eq_iff hc).2 rfl]

/-- The byte at the offset where an end of the text starts tells whether an ASCII character stands
there. -/
theorem byte?_spot_eq_iff (h : cs <:+ Located.ofString text) {k : Char} (hk : k.toNat ≤ 127) :
    byte? text (spot text cs) = some k ↔ cs.head?.map Located.char = some k := by
  cases cs with
  | nil => simp
  | cons c rest =>
    obtain ⟨b, hb, halike⟩ := byte?_cons h
    simp [hb, halike.eq_iff hk]

theorem byte?_second_eq_iff (h : c :: rest <:+ Located.ofString text) (hc : c.char.toNat ≤ 127)
    {k : Char} (hk : k.toNat ≤ 127) :
    byte? text (c.offset + 1) = some k ↔ rest.head?.map Located.char = some k := by
  rw [← stop_eq_of_ascii hc, ← spot_rest h]
  exact byte?_spot_eq_iff ((List.suffix_cons c rest).trans h) hk

theorem exists_cons_of_head? {k : Char} (h : cs.head?.map Located.char = some k) :
    ∃ c rest, cs = c :: rest ∧ c.char = k := by
  cases cs with
  | nil => simp at h
  | cons c rest => exact ⟨c, rest, rfl, by simpa using h⟩

end

/-! ## Offsets inside characters -/

/-- Where a byte outside ASCII stands, `f` does not tell the offset from the next one. -/
def Glides (text : String) (f : Nat → α) : Prop :=
  ∀ i b, byte? text i = some b → 127 < b.toNat → f i = f (i + 1)

namespace Glides

variable {text : String} {f : Nat → α} {rest : List Located} {c : Located}

/-- All through a character outside ASCII it is as from its end. -/
theorem inside_eq (hf : Glides text f) (h : c :: rest <:+ Located.ofString text)
    (hc : 127 < c.char.toNat) {k : Nat} (hk : k ≤ c.char.utf8Size) :
    f (c.offset + k) = f (spot text rest) := by
  induction hk using Nat.decreasingInduction with
  | self => rw [spot_rest h, Located.stop]
  | of_succ k hk ih =>
    obtain ⟨b, hb, halike⟩ := byte?_of_mem (h.subset List.mem_cons_self) hk
    have hlt : 127 < b.toNat := by
      rcases halike with rfl | ⟨hlt, _⟩
      · exact hc
      · exact hlt
    rw [hf _ b hb hlt, ← ih, Nat.add_assoc]

theorem start_eq (hf : Glides text f) (h : c :: rest <:+ Located.ofString text)
    (hc : 127 < c.char.toNat) : f c.offset = f (spot text rest) :=
  hf.inside_eq h hc (Nat.zero_le _)

/-- From the second byte of a character on it is as from its end. -/
theorem second_eq (hf : Glides text f) (h : c :: rest <:+ Located.ofString text) :
    f (c.offset + 1) = f (spot text rest) := by
  rcases Nat.lt_or_ge 127 c.char.toNat with hc | hc
  · exact hf.inside_eq h hc c.char.utf8Size_pos
  · rw [spot_rest h, stop_eq_of_ascii hc]

/-- From two bytes behind a backslash on it is as behind the character that it escapes, or as at
the end. -/
theorem escape_eq (hf : Glides text f) (hend : f (text.utf8ByteSize + 1) = f text.utf8ByteSize)
    (h : c :: rest <:+ Located.ofString text) (hc : c.char.toNat ≤ 127) :
    f (c.offset + 2) = f (spot text rest.tail) := by
  have hspot := spot_rest h
  rw [stop_eq_of_ascii hc] at hspot
  cases rest with
  | nil =>
    rw [spot_nil] at hspot
    rw [List.tail_nil, spot_nil, ← hend, hspot]
  | cons d rest =>
    have hd : d :: rest <:+ Located.ofString text := (List.suffix_cons c _).trans h
    rw [spot_cons] at hspot
    rw [List.tail_cons, ← hf.second_eq hd, hspot]

end Glides

end SheetPolicy.Cursor

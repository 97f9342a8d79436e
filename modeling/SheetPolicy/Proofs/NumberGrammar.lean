import Mathlib
import SheetPolicy.Value.Number
import SheetPolicy.Proofs.Cursor.Access
import SheetPolicy.Proofs.PlainText

/-!
Numbers as a regular language. `Grammar.number` is the expression
`[+-]? ([0-9]+ | [0-9]*\.[0-9]+) ([eE][+-]?[0-9]+)?`. Each step of the reader is one factor of it: a
sign taken off (`mem_sign_mul`), an exponent (`isExponent_iff`), what stands between the two
(`isUnsigned_iff`). Main statement: `isNumber_iff_matches`.

A cursor that goes through the bytes of the text, part by part and with the exits that each part
allows, comes to the same answer (`readNumber_eq`).
-/

namespace SheetPolicy.Value

/-! ## The expression -/

namespace Grammar

/-- One of the characters of `s`. -/
def oneOf (s : String) : RegularExpression Char :=
  s.toList.foldr (fun c r => .char c + r) 0

def optional (r : RegularExpression Char) : RegularExpression Char :=
  1 + r

def digit : RegularExpression Char :=
  oneOf "0123456789"

/-- One digit or more. -/
def digits : RegularExpression Char :=
  digit * digit.star

def sign : RegularExpression Char :=
  optional (oneOf "+-")

/-- Digits behind a point, with or without digits before it. -/
def fraction : RegularExpression Char :=
  digit.star * (.char '.' * digits)

def exponent : RegularExpression Char :=
  oneOf "eE" * (sign * digits)

def unsigned : RegularExpression Char :=
  (digits + fraction) * optional exponent

def number : RegularExpression Char :=
  sign * unsigned

theorem mem_oneOf {s : String} {cs : List Char} :
    cs ∈ (oneOf s).matches' ↔ ∃ c ∈ s.toList, cs = [c] := by
  rw [oneOf]
  induction s.toList with
  | nil => simp
  | cons c more ih =>
    rw [List.foldr_cons, RegularExpression.matches'_add, Language.mem_add, ih]
    simp only [List.mem_cons, exists_eq_or_imp]
    rfl

theorem mem_optional {r : RegularExpression Char} {cs : List Char} :
    cs ∈ (optional r).matches' ↔ cs = [] ∨ cs ∈ r.matches' :=
  Iff.rfl

theorem mem_mul {r s : RegularExpression Char} {cs : List Char} :
    cs ∈ (r * s).matches' ↔ ∃ xs ys, cs = xs ++ ys ∧ xs ∈ r.matches' ∧ ys ∈ s.matches' := by
  rw [RegularExpression.matches'_mul, Language.mem_mul]
  constructor
  · rintro ⟨xs, hxs, ys, hys, rfl⟩
    exact ⟨xs, ys, rfl, hxs, hys⟩
  · rintro ⟨xs, ys, rfl, hxs, hys⟩
    exact ⟨xs, hxs, ys, hys, rfl⟩

theorem mem_digit {cs : List Char} : cs ∈ digit.matches' ↔ ∃ c, c.isDigit = true ∧ cs = [c] := by
  rw [digit, mem_oneOf]
  refine exists_congr fun c => and_congr_left fun _ => ⟨fun h => ?_, fun h => ?_⟩
  · fin_cases h <;> rfl
  · have hrange : 48 ≤ c.toNat ∧ c.toNat ≤ 57 := by
      simpa [Char.isDigit, UInt32.le_iff_toNat_le] using h
    obtain ⟨hlow, hhigh⟩ := hrange
    rw [← Char.ofNat_toNat c]
    generalize c.toNat = n at *
    interval_cases n <;> decide

theorem mem_star_digit {cs : List Char} :
    cs ∈ digit.star.matches' ↔ ∀ c ∈ cs, c.isDigit = true := by
  rw [RegularExpression.matches'_star, Language.mem_kstar]
  constructor
  · rintro ⟨parts, rfl, hparts⟩ c hc
    obtain ⟨part, hpart, hc⟩ := List.mem_flatten.1 hc
    obtain ⟨d, hd, rfl⟩ := mem_digit.1 (hparts part hpart)
    rwa [List.mem_singleton.1 hc]
  · intro h
    refine ⟨cs.map fun c => [c], ?_, fun part hpart => ?_⟩
    · rw [← List.flatMap_def, List.flatMap_singleton']
    · obtain ⟨c, hc, rfl⟩ := List.mem_map.1 hpart
      exact mem_digit.2 ⟨c, h c hc, rfl⟩

theorem mem_digits {cs : List Char} :
    cs ∈ digits.matches' ↔ cs ≠ [] ∧ ∀ c ∈ cs, c.isDigit = true := by
  rw [digits, mem_mul]
  constructor
  · rintro ⟨xs, ys, rfl, hxs, hys⟩
    obtain ⟨c, hc, rfl⟩ := mem_digit.1 hxs
    exact ⟨List.cons_ne_nil c ys, List.forall_mem_cons.2 ⟨hc, mem_star_digit.1 hys⟩⟩
  · rintro ⟨hne, hall⟩
    obtain ⟨c, cs, rfl⟩ := List.exists_cons_of_ne_nil hne
    obtain ⟨hc, hcs⟩ := List.forall_mem_cons.1 hall
    exact ⟨[c], cs, rfl, mem_digit.2 ⟨c, hc, rfl⟩, mem_star_digit.2 hcs⟩

theorem mem_fraction {cs : List Char} :
    cs ∈ fraction.matches' ↔
      ∃ xs ys, cs = xs ++ '.' :: ys ∧ (∀ c ∈ xs, c.isDigit = true) ∧ ys ∈ digits.matches' := by
  simp only [fraction, mem_mul, mem_star_digit]
  constructor
  · rintro ⟨xs, _, rfl, hxs, point, ys, rfl, rfl, hys⟩
    exact ⟨xs, ys, rfl, hxs, hys⟩
  · rintro ⟨xs, ys, rfl, hxs, hys⟩
    exact ⟨xs, _, rfl, hxs, ['.'], ys, rfl, rfl, hys⟩

end Grammar

open Grammar

/-! ## Signs -/

/-- The expression matches nothing that starts with a sign. -/
def HasNoSign (r : RegularExpression Char) : Prop :=
  ∀ cs ∈ r.matches', ∀ c, cs.head? = some c → ¬(c = '+' ∨ c = '-')

/-- A sign is taken off, so that what follows it must not start with one. -/
theorem mem_sign_mul {r : RegularExpression Char} (hr : HasNoSign r) {cs : List Char} :
    cs ∈ (sign * r).matches' ↔ afterSign cs ∈ r.matches' := by
  rw [mem_mul]
  constructor
  · rintro ⟨xs, ys, rfl, hxs, hys⟩
    rcases mem_optional.1 hxs with rfl | hsign
    · cases ys with
      | nil => exact hys
      | cons c ys =>
        rw [List.nil_append, afterSign, if_neg (hr _ hys c rfl)]
        exact hys
    · obtain ⟨c, hc, rfl⟩ := mem_oneOf.1 hsign
      have hc : c = '+' ∨ c = '-' := by simpa using hc
      rwa [List.singleton_append, afterSign, if_pos hc]
  · intro h
    cases cs with
    | nil => exact ⟨[], [], rfl, .inl rfl, h⟩
    | cons c cs =>
      rw [afterSign] at h
      split at h
      · next hc => exact ⟨[c], cs, rfl, .inr (mem_oneOf.2 ⟨c, by simpa using hc, rfl⟩), h⟩
      · exact ⟨[], c :: cs, rfl, .inl rfl, h⟩

theorem hasNoSign_digits : HasNoSign digits := by
  intro cs hcs c hc hsign
  have hdigit := (mem_digits.1 hcs).2 c (List.mem_of_head? hc)
  rcases hsign with rfl | rfl <;> contradiction

/-! ## Exponents -/

theorem cons_mem_exponent {e : Char} {cs : List Char} :
    (e :: cs) ∈ exponent.matches' ↔
      (e = 'e' ∨ e = 'E') ∧ afterSign cs ∈ digits.matches' := by
  rw [exponent, mem_mul, ← mem_sign_mul hasNoSign_digits]
  constructor
  · rintro ⟨xs, ys, heq, hxs, hys⟩
    obtain ⟨c, hc, rfl⟩ := mem_oneOf.1 hxs
    obtain ⟨rfl, rfl⟩ := List.cons.inj heq
    exact ⟨by simpa using hc, hys⟩
  · rintro ⟨he, hcs⟩
    exact ⟨[e], cs, rfl, mem_oneOf.2 ⟨e, by simpa using he, rfl⟩, hcs⟩

theorem isExponent_iff {cs : List Char} :
    isExponent cs = true ↔ cs ∈ (optional exponent).matches' := by
  rw [mem_optional]
  cases cs with
  | nil => simp [isExponent]
  | cons e cs =>
    rw [cons_mem_exponent, mem_digits]
    simp [isExponent, and_assoc]

/-- Where an exponent may stand neither a digit nor a point does. -/
theorem head_of_isExponent {cs : List Char} (h : isExponent cs = true) {c : Char}
    (hc : cs.head? = some c) : c.isDigit = false ∧ c ≠ '.' := by
  obtain ⟨cs, rfl⟩ := List.head?_eq_some_iff.1 hc
  rcases mem_optional.1 (isExponent_iff.1 h) with hnil | hexponent
  · cases hnil
  · rcases (cons_mem_exponent.1 hexponent).1 with rfl | rfl <;> decide

/-! ## What stands between a sign and an exponent -/

/-- The digits at the front of a text and what follows them. -/
theorem exists_digits (cs : List Char) :
    ∃ xs ys, cs = xs ++ ys ∧ (∀ c ∈ xs, c.isDigit = true) ∧
      cs.takeWhile Char.isDigit = xs ∧ cs.dropWhile Char.isDigit = ys :=
  ⟨_, _, List.takeWhile_append_dropWhile.symm, fun _ hc => List.mem_takeWhile_imp hc, rfl, rfl⟩

theorem span_digits {xs ys : List Char} (hxs : ∀ c ∈ xs, c.isDigit = true)
    (hys : ∀ c, ys.head? = some c → c.isDigit = false) :
    (xs ++ ys).takeWhile Char.isDigit = xs ∧ (xs ++ ys).dropWhile Char.isDigit = ys := by
  rw [List.takeWhile_append_of_pos hxs, List.dropWhile_append_of_pos hxs]
  cases ys with
  | nil => simp
  | cons c ys => simp [hys c rfl]

theorem isUnsigned_of_point {cs rest : List Char} (h : cs.dropWhile Char.isDigit = '.' :: rest) :
    isUnsigned cs = true ↔
      rest.takeWhile Char.isDigit ≠ [] ∧ isExponent (rest.dropWhile Char.isDigit) = true := by
  simp [isUnsigned, h]

theorem isUnsigned_of_no_point {cs : List Char}
    (h : (cs.dropWhile Char.isDigit).head? ≠ some '.') :
    isUnsigned cs = true ↔
      cs.takeWhile Char.isDigit ≠ [] ∧ isExponent (cs.dropWhile Char.isDigit) = true := by
  rw [isUnsigned]
  split
  · next rest hrest => simp [hrest] at h
  · simp

theorem mem_unsigned_of_isUnsigned {cs : List Char} (h : isUnsigned cs = true) :
    cs ∈ unsigned.matches' := by
  rw [unsigned, mem_mul]
  obtain ⟨xs, rest, hcs, hxs, htake, hdrop⟩ := exists_digits cs
  by_cases hpoint : rest.head? = some '.'
  · obtain ⟨more, rfl⟩ := List.head?_eq_some_iff.1 hpoint
    obtain ⟨ys, power, rfl, hys, htake', hdrop'⟩ := exists_digits more
    rw [isUnsigned_of_point hdrop, htake', hdrop'] at h
    refine ⟨xs ++ '.' :: ys, power, by simp [hcs], .inr ?_, isExponent_iff.1 h.2⟩
    exact mem_fraction.2 ⟨xs, ys, rfl, hxs, mem_digits.2 ⟨h.1, hys⟩⟩
  · rw [isUnsigned_of_no_point (by rwa [hdrop]), htake, hdrop] at h
    exact ⟨xs, rest, hcs, .inl (mem_digits.2 ⟨h.1, hxs⟩), isExponent_iff.1 h.2⟩

theorem isUnsigned_of_mem_unsigned {cs : List Char} (h : cs ∈ unsigned.matches') :
    isUnsigned cs = true := by
  obtain ⟨mantissa, power, rfl, hmantissa, hpower⟩ := mem_mul.1 h
  have hexponent := isExponent_iff.2 hpower
  -- digits end where the exponent starts, and no point follows them there
  have hhead := fun c hc => @head_of_isExponent _ hexponent c hc
  rcases hmantissa with hwhole | hfraction
  · obtain ⟨hne, hall⟩ := mem_digits.1 hwhole
    obtain ⟨htake, hdrop⟩ := span_digits hall fun c hc => (hhead c hc).1
    rw [isUnsigned_of_no_point (by rw [hdrop]; exact fun hc => (hhead '.' hc).2 rfl), htake, hdrop]
    exact ⟨hne, hexponent⟩
  · obtain ⟨xs, ys, rfl, hxs, hys⟩ := mem_fraction.1 hfraction
    obtain ⟨hne, hall⟩ := mem_digits.1 hys
    obtain ⟨htake, hdrop⟩ := span_digits hall fun c hc => (hhead c hc).1
    have hpoint := (@span_digits xs ('.' :: (ys ++ power)) hxs (by simp)).2
    rw [List.append_assoc, List.cons_append, isUnsigned_of_point hpoint, htake, hdrop]
    exact ⟨hne, hexponent⟩

theorem isUnsigned_iff {cs : List Char} : isUnsigned cs = true ↔ cs ∈ unsigned.matches' :=
  ⟨mem_unsigned_of_isUnsigned, isUnsigned_of_mem_unsigned⟩

theorem hasNoSign_unsigned : HasNoSign unsigned := by
  intro cs hcs c hc hsign
  obtain ⟨mantissa, power, rfl, hmantissa, -⟩ := mem_mul.1 hcs
  rcases hmantissa with hwhole | hfraction
  · have hne := (mem_digits.1 hwhole).1
    rw [List.head?_append_of_ne_nil _ hne] at hc
    exact hasNoSign_digits _ hwhole c hc hsign
  · obtain ⟨xs, ys, rfl, hxs, -⟩ := mem_fraction.1 hfraction
    cases xs with
    | nil =>
      obtain rfl : '.' = c := by simpa using hc
      simp at hsign
    | cons x xs =>
      obtain rfl : x = c := by simpa using hc
      have hdigit := hxs x List.mem_cons_self
      rcases hsign with rfl | rfl <;> contradiction

/-! ## Byte by byte -/

section Bytes

open Cursor

/-- The number of digits from a byte on. -/
def digitsAt (text : String) (i : Nat) : Nat :=
  match h : byte? text i with
  | none => 0
  | some b => if b.isDigit then digitsAt text (i + 1) + 1 else 0
termination_by text.utf8ByteSize - i
decreasing_by have := lt_size_of_byte? h; omega

/-- The number of digits in what follows an offset, which must not be behind the end. -/
def countDigits (text : String) (i : Nat) : Checked Empty Nat :=
  if i ≤ text.utf8ByteSize then .ok (digitsAt text i) else fault .outOfRange

def skipSign (text : String) (i : Nat) : Nat :=
  if byte? text i = some '+' ∨ byte? text i = some '-' then i + 1 else i

/-- The text ends at an offset, or an exponent stands there and the text ends behind it. -/
def readExponent (text : String) (i : Nat) : Checked Empty Bool :=
  if byte? text i = some 'e' ∨ byte? text i = some 'E' then do
    let start := skipSign text (i + 1)
    let power ← countDigits text start
    if power = 0 then .ok false else .ok (start + power == text.utf8ByteSize)
  else .ok (i == text.utf8ByteSize)

/-- What stands from an offset on is a number without a sign. -/
def readUnsigned (text : String) (start : Nat) : Checked Empty Bool := do
  let whole ← countDigits text start
  let point := start + whole
  let fraction? ←
    if byte? text point = some '.' then some <$> countDigits text (point + 1) else .ok none
  if fraction? = some 0 then .ok false
  else if whole = 0 ∧ fraction?.getD 0 = 0 then .ok false
  else readExponent text (fraction?.elim point (point + 1 + ·))

def readNumber (value : String) : Checked Empty Bool :=
  let text := Text.trim value
  readUnsigned text (skipSign text 0)

variable {text : String} {cs : List Located}

theorem digitsAt_of_none {i : Nat} (h : byte? text i = none) : digitsAt text i = 0 := by
  rw [digitsAt]
  split
  · rfl
  · simp_all

theorem digitsAt_of_some {i : Nat} {b : Char} (h : byte? text i = some b) :
    digitsAt text i = if b.isDigit then digitsAt text (i + 1) + 1 else 0 := by
  rw [digitsAt]
  split
  · simp_all
  · simp_all

theorem toNat_of_isDigit {c : Char} (h : c.isDigit = true) : c.toNat ≤ 127 := by
  have hrange : 48 ≤ c.toNat ∧ c.toNat ≤ 57 := by
    simpa [Char.isDigit, UInt32.le_iff_toNat_le] using h
  omega

theorem coarse_isDigit : Coarse Char.isDigit := by
  have hfalse : ∀ c : Char, 127 < c.toNat → c.isDigit = false := fun c hc =>
    Bool.eq_false_iff.2 fun h => absurd (toNat_of_isDigit h) (Nat.not_le_of_lt hc)
  intro c d hc hd
  rw [hfalse c hc, hfalse d hd]

/-- The digits at the front of an end of the text are counted, and lead to what follows them. -/
theorem countDigits_spot (h : cs <:+ Located.ofString text) :
    countDigits text (spot text cs) =
        .ok ((cs.map Located.char).takeWhile Char.isDigit).length ∧
      ∃ ds, ds <:+ cs ∧ ds.map Located.char = (cs.map Located.char).dropWhile Char.isDigit ∧
        spot text cs + ((cs.map Located.char).takeWhile Char.isDigit).length = spot text ds := by
  rw [countDigits, if_pos (spot_le h), Except.ok.injEq]
  induction cs with
  | nil => exact ⟨digitsAt_of_none (byte?_size text), [], List.suffix_rfl, rfl, rfl⟩
  | cons c rest ih =>
    obtain ⟨b, hb, halike⟩ := byte?_cons h
    rw [spot_cons, digitsAt_of_some hb, halike.map_eq coarse_isDigit, List.map_cons,
      List.takeWhile_cons, List.dropWhile_cons]
    cases hdigit : c.char.isDigit with
    | false => exact ⟨rfl, c :: rest, List.suffix_rfl, rfl, rfl⟩
    | true =>
      obtain ⟨hcount, ds, hds, hchars, hspot⟩ := ih ((List.suffix_cons c rest).trans h)
      rw [spot_rest h, stop_eq_of_ascii (toNat_of_isDigit hdigit)] at hcount hspot
      refine ⟨by simp [hcount], ds, hds.trans (List.suffix_cons c rest), hchars, ?_⟩
      rw [← hspot, if_pos rfl, List.length_cons]
      omega

/-- Which of two ASCII characters a character is can be seen from its first byte. -/
theorem byte?_eq_or_iff {c k l : Char} {offset : Nat} {rest : List Located}
    (h : ⟨offset, c⟩ :: rest <:+ Located.ofString text) (hk : k.toNat ≤ 127) (hl : l.toNat ≤ 127) :
    byte? text offset = some k ∨ byte? text offset = some l ↔ c = k ∨ c = l := by
  obtain ⟨b, hb, halike⟩ := byte?_cons h
  rw [hb, Option.some_inj, Option.some_inj, halike.eq_iff hk, halike.eq_iff hl]

theorem skipSign_spot (h : cs <:+ Located.ofString text) :
    ∃ ds, ds <:+ cs ∧ ds.map Located.char = afterSign (cs.map Located.char) ∧
      skipSign text (spot text cs) = spot text ds := by
  cases cs with
  | nil => exact ⟨[], List.suffix_rfl, rfl, by simp [skipSign]⟩
  | cons c rest =>
    have hsign := byte?_eq_or_iff h (k := '+') (l := '-') (by decide) (by decide)
    rw [skipSign, spot_cons, List.map_cons, afterSign]
    by_cases hc : c.char = '+' ∨ c.char = '-'
    · refine ⟨rest, List.suffix_cons c rest, (if_pos hc).symm, ?_⟩
      rw [if_pos (hsign.2 hc), spot_rest h,
        stop_eq_of_ascii (by rcases hc with hc | hc <;> simp [hc])]
    · exact ⟨c :: rest, List.suffix_rfl, (if_neg hc).symm, if_neg (hsign.not.2 hc)⟩

theorem spot_beq_size (h : cs <:+ Located.ofString text) :
    (spot text cs == text.utf8ByteSize) = (cs.map Located.char).isEmpty := by
  cases cs with
  | nil => simp
  | cons c rest =>
    have hlater := lt_spot h List.suffix_rfl
    have hne : c.offset ≠ text.utf8ByteSize := by omega
    rw [spot_cons, beq_eq_false_iff_ne.2 hne]
    rfl

/-- A text is of digits exactly if nothing is left behind its first digits. -/
theorem all_isDigit (xs : List Char) : xs.all Char.isDigit = (xs.dropWhile Char.isDigit).isEmpty := by
  rw [Bool.eq_iff_iff, List.isEmpty_iff, List.dropWhile_eq_nil_iff, List.all_eq_true]

theorem readExponent_spot (h : cs <:+ Located.ofString text) :
    readExponent text (spot text cs) = .ok (isExponent (cs.map Located.char)) := by
  cases cs with
  | nil => simp [readExponent, isExponent]
  | cons e rest =>
    have hletter := byte?_eq_or_iff h (k := 'e') (l := 'E') (by decide) (by decide)
    rw [readExponent, spot_cons, List.map_cons, isExponent]
    by_cases he : e.char = 'e' ∨ e.char = 'E'
    · have hascii : e.char.toNat ≤ 127 := by rcases he with he | he <;> simp [he]
      have hrest := (List.suffix_cons e rest).trans h
      obtain ⟨ds, hds, hchars, hstart⟩ := skipSign_spot hrest
      obtain ⟨hcount, es, hes, hleft, hstop⟩ := countDigits_spot (hds.trans hrest)
      rw [if_pos (hletter.2 he), ← stop_eq_of_ascii hascii, ← spot_rest h, ← hchars]
      simp only [hstart, hcount, ok_bind, hstop, spot_beq_size (hes.trans (hds.trans hrest)), hleft,
        all_isDigit]
      rw [show (e.char == 'e' || e.char == 'E') = true by simpa using he]
      generalize ds.map Located.char = xs
      cases xs with
      | nil => rfl
      | cons x xs => cases hx : x.isDigit <;> simp [hx]
    · have hend := spot_beq_size h
      rw [spot_cons] at hend
      rw [if_neg (hletter.not.2 he), hend,
        show (e.char == 'e' || e.char == 'E') = false by simpa using he]
      rfl

theorem readUnsigned_spot (h : cs <:+ Located.ofString text) :
    readUnsigned text (spot text cs) = .ok (isUnsigned (cs.map Located.char)) := by
  obtain ⟨hwhole, ds, hds, hleft, hpoint⟩ := countDigits_spot h
  have hdsText := hds.trans h
  simp only [readUnsigned, hwhole, ok_bind, hpoint]
  generalize cs.map Located.char = xs at *
  by_cases hhead : ds.head?.map Located.char = some '.'
  · rw [if_pos ((byte?_spot_eq_iff hdsText (by decide)).2 hhead)]
    obtain ⟨point, rest, rfl, hchar⟩ := exists_cons_of_head? hhead
    have hrest := (List.suffix_cons point rest).trans hdsText
    have hnext : spot text (point :: rest) + 1 = spot text rest := by
      rw [spot_cons, spot_rest hdsText, stop_eq_of_ascii (by simp [hchar])]
    obtain ⟨hfraction, es, hes, hbehind, hend⟩ := countDigits_spot hrest
    have hexponent := readExponent_spot (hes.trans hrest)
    have hunsigned : isUnsigned xs = (!((rest.map Located.char).takeWhile Char.isDigit).isEmpty &&
        isExponent (es.map Located.char)) := by
      simp only [isUnsigned, ← hleft, List.map_cons, hchar, hbehind]
    rw [← hend] at hexponent
    simp only [hnext, hfraction, hunsigned, Functor.map, Except.map, ok_bind, Option.some_inj,
      Option.getD_some, Option.elim_some, hexponent]
    cases (rest.map Located.char).takeWhile Char.isDigit <;> simp
  · rw [if_neg ((byte?_spot_eq_iff hdsText (by decide)).not.2 hhead)]
    have hunsigned : isUnsigned xs = (!(xs.takeWhile Char.isDigit).isEmpty &&
        isExponent (ds.map Located.char)) := by
      rw [isUnsigned, ← hleft]
      split
      · next more hmore =>
        rw [← List.head?_map, hmore] at hhead
        exact absurd rfl hhead
      · rfl
    simp only [reduceCtorEq, if_false, Option.getD_none, and_true, Option.elim_none,
      readExponent_spot hdsText, hunsigned]
    cases xs.takeWhile Char.isDigit <;> rfl

theorem readNumber_eq (value : String) : readNumber value = .ok (isNumber value) := by
  have hchars : (Located.ofString (Text.trim value)).map Located.char =
      Text.trimChars value.toList := by
    rw [Located.ofString, Located.map_char_place, Text.trim, String.toList_ofList]
  obtain ⟨ds, hds, hunsigned, hstart⟩ :=
    skipSign_spot (@List.suffix_rfl _ (Located.ofString (Text.trim value)))
  rw [spot_ofString] at hstart
  rw [hchars] at hunsigned
  rw [readNumber, hstart, readUnsigned_spot hds, hunsigned, isNumber]

end Bytes

/-! ## Main result -/

/-- A value is a number exactly if what is left of it without the blanks around it matches the
expression. The cursor over its bytes finds out which, without a fault. -/
theorem isNumber_iff_matches (value : String) :
    readNumber value = .ok (isNumber value) ∧
      (isNumber value = true ↔
        ∃ core, Text.TrimsTo value.toList core ∧ core ∈ number.matches') := by
  refine ⟨readNumber_eq value, ?_⟩
  simp only [Text.trimsTo_iff, exists_eq_left']
  rw [isNumber, isUnsigned_iff, number, mem_sign_mul hasNoSign_unsigned]

-- A blank need not be ASCII; a point needs a digit behind it, and so does an exponent.
example : isNumber "\u00a0-.5e+3 " = true ∧ isNumber "1." = false ∧ isNumber "1e+" = false := by
  decide +kernel

end SheetPolicy.Value

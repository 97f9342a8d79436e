import SheetPolicy.Sheet.Lexeme

/-!
Where a statement ends. A statement runs up to the next semicolon or brace that is outside strings,
comments, brackets and interpolations.
-/

namespace SheetPolicy.Prelude

/-- The characters that end a statement. -/
def isTerminator (c : Char) : Bool :=
  c == ';' || c == '{' || c == '}'

/-- The two characters open an interpolation of a preprocessor. -/
def opensInterpolation (c : Char) (rest : List Located) : Bool :=
  (c == '#' || c == '@') && (rest.head?.map Located.char == some '{')

/-- What follows the next closing brace. -/
def afterInterpolation (rest : List Located) : List Located :=
  (rest.dropWhile fun c => c.char ≠ '}').tail

theorem length_afterInterpolation (rest : List Located) :
    (afterInterpolation rest).length ≤ rest.length := by
  have h := (List.dropWhile_suffix (l := rest) fun c => decide (c.char ≠ '}')).length_le
  simp only [afterInterpolation, List.length_tail]
  omega

/-- The bracket depth after a character. A closing bracket without an open one counts for
nothing. -/
def depthAfter (depth : Nat) (c : Char) : Nat :=
  if c = '(' ∨ c = '[' then depth + 1
  else if c = ')' ∨ c = ']' then depth - 1
  else depth

/-- Goes on from the statement's end at bracket depth `depth`: what is left from there on. -/
def skip (depth : Nat) : List Located → Except ParseError (List Located)
  | [] => .ok []
  | c :: rest =>
    if depth = 0 ∧ isTerminator c.char then .ok (c :: rest)
    else if opensInterpolation c.char rest then skip depth (afterInterpolation rest)
    else
      match h : Lexeme.next c rest with
      | .error e => .error e
      | .ok (l, after) =>
        have := Lexeme.length_next h
        if l.kind = .plain then skip (depthAfter depth c.char) after else skip depth after
termination_by cs => cs.length
decreasing_by
  · have := length_afterInterpolation rest
    simp; omega
  · simp; omega
  · simp; omega

/-- What is left is the end of what was given. -/
theorem skip_suffix {depth : Nat} {cs after : List Located} (h : skip depth cs = .ok after) :
    after <:+ cs := by
  fun_induction skip depth cs with
  | case1 => simp_all
  | case2 => simp_all
  | case3 depth c rest _ _ ih =>
    exact (ih h).trans ((List.tail_suffix _).trans
      ((List.dropWhile_suffix _).trans (List.suffix_cons c rest)))
  | case4 => simp at h
  | case5 depth c rest _ _ l tail hl _ _ ih | case6 depth c rest _ _ l tail hl _ _ ih =>
    obtain ⟨body, _, hrest⟩ := Lexeme.next_eq_cons hl
    exact (ih h).trans ((hrest ▸ List.suffix_append body tail).trans (List.suffix_cons c rest))

/-- A statement whose first character does not end it takes that character. -/
theorem length_skip_cons {depth : Nat} {c : Located} {rest after : List Located}
    (hc : ¬(depth = 0 ∧ isTerminator c.char = true)) (h : skip depth (c :: rest) = .ok after) :
    after.length ≤ rest.length := by
  rw [skip, if_neg hc] at h
  split at h
  · exact Nat.le_trans (skip_suffix h).length_le (length_afterInterpolation rest)
  · split at h
    · simp at h
    · rename_i l tail hl
      have := Lexeme.length_next hl
      split at h <;> exact Nat.le_trans (skip_suffix h).length_le this

end SheetPolicy.Prelude

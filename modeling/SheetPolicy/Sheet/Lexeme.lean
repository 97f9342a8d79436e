import SheetPolicy.Text.Located
import SheetPolicy.Sheet.ParseError

/-!
The units in which statements are read: an escaped character, a quoted string, a comment, or a
single character. `Lexeme.next` cuts one off; what it cuts off and what it leaves are together what
it was given (`Lexeme.next_append`).
-/

namespace SheetPolicy

inductive Lexeme.Kind where
  | plain
  | escape
  | quoted
  | comment
deriving DecidableEq

/-- A unit of a stylesheet with the characters it is made of. -/
structure Lexeme where
  kind : Lexeme.Kind
  chars : List Located
deriving DecidableEq

namespace Lexeme

/-- The rest of a comment up to its closing mark, and what follows. -/
def closeComment : List Located → Option (List Located × List Located)
  | [] => none
  | [_] => none
  | c :: d :: rest =>
    if c.char = '*' ∧ d.char = '/' then some ([c, d], rest)
    else (closeComment (d :: rest)).map fun (body, after) => (c :: body, after)

/-- The rest of a string up to its closing quote, and what follows. A backslash takes the next
character with it. -/
def closeString (quote : Char) : List Located → Option (List Located × List Located)
  | [] => none
  | c :: rest =>
    if c.char = quote then some ([c], rest)
    else if c.char = '\\' then
      match rest with
      | [] => none
      | d :: rest' => (closeString quote rest').map fun (body, after) => (c :: d :: body, after)
    else (closeString quote rest).map fun (body, after) => (c :: body, after)

/-- The unit that starts with `c`, and what follows it. -/
def next (c : Located) (rest : List Located) : Except ParseError (Lexeme × List Located) :=
  if c.char = '\\' then
    match rest with
    | [] => .ok (⟨.escape, [c]⟩, [])
    | d :: after => .ok (⟨.escape, [c, d]⟩, after)
  else if c.char = '"' ∨ c.char = '\'' then
    match closeString c.char rest with
    | some (body, after) => .ok (⟨.quoted, c :: body⟩, after)
    | none => .error (.unclosedString c.offset)
  else
    match rest with
    | [] => .ok (⟨.plain, [c]⟩, [])
    | d :: rest' =>
      if c.char = '/' ∧ d.char = '*' then
        match closeComment rest' with
        | some (body, after) => .ok (⟨.comment, c :: d :: body⟩, after)
        | none => .error (.unclosedComment c.offset)
      else .ok (⟨.plain, [c]⟩, d :: rest')

theorem closeComment_append {cs body after : List Located}
    (h : closeComment cs = some (body, after)) : body ++ after = cs := by
  fun_induction closeComment cs generalizing body after with
  | case1 => simp at h
  | case2 => simp at h
  | case3 c d rest _ =>
    obtain ⟨rfl, rfl⟩ := by simpa using h
    rfl
  | case4 c d rest _ ih =>
    obtain ⟨⟨b, a⟩, hb, heq⟩ := Option.map_eq_some_iff.1 h
    obtain ⟨rfl, rfl⟩ := by simpa using heq
    simp [ih hb]

theorem closeString_append {quote : Char} {cs body after : List Located}
    (h : closeString quote cs = some (body, after)) : body ++ after = cs := by
  fun_induction closeString quote cs generalizing body after with
  | case1 => simp at h
  | case2 c rest _ =>
    obtain ⟨rfl, rfl⟩ := by simpa using h
    rfl
  | case3 => simp at h
  | case4 c _ _ d rest' ih =>
    obtain ⟨⟨b, a⟩, hb, heq⟩ := Option.map_eq_some_iff.1 h
    obtain ⟨rfl, rfl⟩ := by simpa using heq
    simp [ih hb]
  | case5 c rest _ _ ih =>
    obtain ⟨⟨b, a⟩, hb, heq⟩ := Option.map_eq_some_iff.1 h
    obtain ⟨rfl, rfl⟩ := by simpa using heq
    simp [ih hb]

/-- The unit is its first character and a further part, and that part with what follows is what
was ahead: nothing is lost or added. -/
theorem next_eq_cons {c : Located} {rest after : List Located} {l : Lexeme}
    (h : next c rest = .ok (l, after)) : ∃ body, l.chars = c :: body ∧ body ++ after = rest := by
  unfold next at h
  split at h
  · split at h <;> (obtain ⟨rfl, rfl⟩ := by simpa using h) <;> simp
  · split at h
    · split at h
      · rename_i body a hs
        obtain ⟨rfl, rfl⟩ := by simpa using h
        simp [closeString_append hs]
      · simp at h
    · split at h
      · obtain ⟨rfl, rfl⟩ := by simpa using h
        simp
      · split at h
        · split at h
          · rename_i body a hs
            obtain ⟨rfl, rfl⟩ := by simpa using h
            simp [closeComment_append hs]
          · simp at h
        · obtain ⟨rfl, rfl⟩ := by simpa using h
          simp

theorem next_append {c : Located} {rest after : List Located} {l : Lexeme}
    (h : next c rest = .ok (l, after)) : l.chars ++ after = c :: rest := by
  obtain ⟨body, hl, rfl⟩ := next_eq_cons h
  simp [hl]

/-- The unit takes at least its first character. -/
theorem length_next {c : Located} {rest after : List Located} {l : Lexeme}
    (h : next c rest = .ok (l, after)) : after.length ≤ rest.length := by
  obtain ⟨body, _, rfl⟩ := next_eq_cons h
  simp

end Lexeme

end SheetPolicy

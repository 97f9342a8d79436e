/-!
Lines and columns. A line ends at a line feed. Columns count characters, so that a character of
several bytes is one column.
-/

namespace SheetPolicy

/-- A line and a column, both counted from 1. -/
structure Position where
  line : Nat
  column : Nat
deriving DecidableEq

namespace Position

/-- The position of `offset`, on the way through a text: `here` is the offset reached, on line
`line` that starts at `lineStart`, in column `column`. An offset inside a character or past the
end has no column of its own and is counted in bytes from the start of its line. -/
def scan (offset here line lineStart column : Nat) : List Char → Position
  | [] => if offset = here then ⟨line, column⟩ else ⟨line, offset - lineStart + 1⟩
  | c :: cs =>
    if here < offset then
      if c = '\n' then scan offset (here + 1) (line + 1) (here + 1) 1 cs
      else scan offset (here + c.utf8Size) line lineStart (column + 1) cs
    else if offset = here then ⟨line, column⟩
    else ⟨line, offset - lineStart + 1⟩

/-- The position of a byte offset in a text. -/
def ofOffset (source : String) (offset : Nat) : Position :=
  scan offset 0 1 0 1 source.toList

end Position

end SheetPolicy

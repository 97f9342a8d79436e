/-!
The ways in which a text fails to be a stylesheet.
-/

namespace SheetPolicy

/-- Why a source is no stylesheet, with the byte offset to blame. -/
inductive ParseError where
  /-- The block opened at the offset is never closed. -/
  | unclosedBlock (offset : Nat)
  /-- The comment that starts at the offset is never closed. -/
  | unclosedComment (offset : Nat)
  /-- The string whose opening quote stands at the offset is never closed. -/
  | unclosedString (offset : Nat)
  /-- The brace at the offset closes no block. -/
  | unexpectedClose (offset : Nat)
  /-- The statement at the offset is neither a declaration nor a rule. -/
  | unknownWord (offset : Nat) (word : String)
deriving DecidableEq

namespace ParseError

def offset : ParseError → Nat
  | unclosedBlock o | unclosedComment o | unclosedString o | unexpectedClose o => o
  | unknownWord o _ => o

def message : ParseError → String
  | unclosedBlock o => s!"Unclosed block at offset {o}"
  | unclosedComment o => s!"Unclosed comment at offset {o}"
  | unclosedString o => s!"Unclosed string at offset {o}"
  | unexpectedClose o => s!"Unexpected \x7d at offset {o}"
  | unknownWord o word => s!"Unknown word \"{word}\" at offset {o}"

end ParseError

end SheetPolicy

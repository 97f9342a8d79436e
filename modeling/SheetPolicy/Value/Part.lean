import SheetPolicy.Text.Blank
import SheetPolicy.Text.Located

/-!
Parts of a value. A value such as that of `font` is split at white space; white space inside quotes
or parentheses, or after a backslash, does not split.
-/

namespace SheetPolicy

/-- A part of a value and the byte offset at which it starts. -/
structure Part where
  text : String
  offset : Nat
deriving DecidableEq

namespace Part

/-- What is open between two characters of a value. -/
structure State where
  depth : Nat
  quote : Option Char
  escaped : Bool
deriving DecidableEq

/-- The state after a character. -/
def State.after (s : State) (c : Char) : State :=
  if s.escaped then { s with escaped := false }
  else if c = '\\' then { s with escaped := true }
  else
    match s.quote with
    | some q => if c = q then { s with quote := none } else s
    | none =>
      if c = '"' ∨ c = '\'' then { s with quote := some c }
      else if c = '(' then { s with depth := s.depth + 1 }
      else if c = ')' then { s with depth := s.depth - 1 }
      else s

/-- A character splits if it is white space and nothing is open before it. -/
def State.splits (s : State) (c : Char) : Bool :=
  !s.escaped && s.quote.isNone && s.depth == 0 && Text.isSpace c

/-- Gathers the runs of characters between those that split: the run at the start, which may be
empty, and the later ones, none of which is. -/
def runs (s : State) : List Located → List Located × List (List Located)
  | [] => ([], [])
  | c :: cs =>
    let (run, later) := runs (s.after c.char) cs
    if s.splits c.char then ([], if run.isEmpty then later else run :: later)
    else (c :: run, later)

def ofRun (run : List Located) : Part :=
  ⟨Located.text run, Located.startOf 0 run⟩

/-- Splits a value at white space. -/
def split (value : String) : List Part :=
  let (run, later) := runs ⟨0, none, false⟩ (Located.ofString value)
  (if run.isEmpty then later else run :: later).map ofRun

end Part

end SheetPolicy

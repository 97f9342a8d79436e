import SheetPolicy.Text.Blank
import SheetPolicy.Sheet.Lexeme

/-!
Excerpts: a text cut out of a source, without its comments and without blank characters at its
ends, that still knows where in the source each of its characters stands.
-/

namespace SheetPolicy

/-- Characters kept from a source, in order, and the offset at which the source goes on after
them. -/
structure Excerpt where
  chars : List Located
  stop : Nat
deriving DecidableEq

namespace Excerpt

def text (e : Excerpt) : String :=
  Located.text e.chars

/-- The number of bytes of the text. -/
def size (e : Excerpt) : Nat :=
  e.chars.foldr (fun c n => c.char.utf8Size + n) 0

/-- The place in the source of byte `i` of the text. -/
def sourceOffset (e : Excerpt) (i : Nat) : Nat :=
  Located.offsetAt e.stop e.chars i

/-- The place in the source at which the text starts. -/
def offset (e : Excerpt) : Nat :=
  e.sourceOffset 0

/-- The excerpt of some kept characters: blank ones at either end are left out. -/
def trim (kept : List Located) (stop : Nat) : Excerpt :=
  let body := kept.dropWhile fun c => Text.isBlank c.char
  let chars := Text.dropRightWhile (fun c => Text.isBlank c.char) body
  ⟨chars, Located.startOf stop (body.drop chars.length)⟩

/-- The characters before `stop` that are in no comment. A comment or string that starts before
`stop` counts as read to its own end, wherever that is. -/
def keep (stop : Nat) : List Located → Except ParseError (List Located)
  | [] => .ok []
  | c :: rest =>
    if c.offset < stop then
      match h : Lexeme.next c rest with
      | .error e => .error e
      | .ok (l, after) =>
        have := Lexeme.length_next h
        match keep stop after with
        | .error e => .error e
        | .ok kept =>
          if l.kind = .comment then .ok kept
          else .ok (l.chars.filter (fun d => d.offset < stop) ++ kept)
    else .ok []
termination_by cs => cs.length
decreasing_by exact Nat.lt_succ_of_le this

/-- Cuts out what stands before `stop`. -/
def cut (cs : List Located) (stop : Nat) : Except ParseError Excerpt :=
  (keep stop cs).map fun kept => trim kept stop

/-- Splits off a final `!important`, in any letter case and with blanks around the word. -/
def splitImportant (e : Excerpt) : Excerpt × Bool :=
  match e.chars.reverse.span fun c => c.char ≠ '!' with
  | (_, []) => (e, false)
  | (wordReversed, bang :: before) =>
    let word := Located.text wordReversed.reverse
    if Text.sameLetters (Text.trim word) "important" then
      (trim before.reverse bang.offset, true)
    else (e, false)

/-- The places where text and source go out of step: the start, and every byte whose place is not
just past the place of the byte before it. -/
def jumps (e : Excerpt) : List (Nat × Nat) :=
  (List.range (e.size + 1)).filterMap fun i =>
    let here := e.sourceOffset i
    if i = 0 ∨ here ≠ e.sourceOffset (i - 1) + 1 then some (i, here) else none

end Excerpt

end SheetPolicy

import SheetPolicy.Text.Blank
import SheetPolicy.Text.CaseFold
import SheetPolicy.Text.WordChar

/-!
Sets of characters as a pattern describes them, and membership.
-/

namespace SheetPolicy.Pattern

inductive CharSet where
  | empty
  /-- The code points from `low` to `high`, both included. -/
  | range (low high : Nat)
  /-- Word characters, decimal digits and white space of all scripts. -/
  | word
  | digit
  | blank
  | union (a b : CharSet)
  | inter (a b : CharSet)
  | compl (a : CharSet)
  /-- All that differs from a member by case alone. -/
  | folded (a : CharSet)
  /-- The same for the letters A to Z alone. -/
  | asciiFolded (a : CharSet)
deriving DecidableEq

namespace CharSet

def mem : CharSet → Char → Bool
  | empty, _ => false
  | range low high, c => low ≤ c.toNat && c.toNat ≤ high
  | word, c => Text.isWordChar c
  | digit, c => Text.isDecimalDigit c
  | blank, c => Text.isBlank c
  | union a b, c => a.mem c || b.mem c
  | inter a b, c => a.mem c && b.mem c
  | compl a, c => !a.mem c
  | folded a, c => (Text.caseClass c).any a.mem
  | asciiFolded a, c => a.mem c || a.mem c.toLower || a.mem c.toUpper

def single (c : Char) : CharSet :=
  range c.toNat c.toNat

def unions (sets : List CharSet) : CharSet :=
  sets.foldr union empty

/-- Ranges given by their first and last character. -/
def ofRanges (ranges : List (Char × Char)) : CharSet :=
  unions (ranges.map fun (a, b) => range a.toNat b.toNat)

def asciiDigit : CharSet := ofRanges [('0', '9')]

def asciiWord : CharSet := ofRanges [('0', '9'), ('A', 'Z'), ('_', '_'), ('a', 'z')]

def asciiBlank : CharSet := ofRanges [('\t', '\r'), (' ', ' ')]

/-- The classes of ASCII characters that have a name. -/
def named? : String → Option CharSet
  | "alnum" => some (ofRanges [('0', '9'), ('A', 'Z'), ('a', 'z')])
  | "alpha" => some (ofRanges [('A', 'Z'), ('a', 'z')])
  | "ascii" => some (range 0 0x7F)
  | "blank" => some (ofRanges [('\t', '\t'), (' ', ' ')])
  | "cntrl" => some (union (range 0 0x1F) (range 0x7F 0x7F))
  | "digit" => some asciiDigit
  | "graph" => some (ofRanges [('!', '~')])
  | "lower" => some (ofRanges [('a', 'z')])
  | "print" => some (ofRanges [(' ', '~')])
  | "punct" => some (ofRanges [('!', '/'), (':', '@'), ('[', '\x60'), ('\x7b', '~')])
  | "space" => some asciiBlank
  | "upper" => some (ofRanges [('A', 'Z')])
  | "word" => some asciiWord
  | "xdigit" => some (ofRanges [('0', '9'), ('A', 'F'), ('a', 'f')])
  | _ => none

end CharSet

end SheetPolicy.Pattern

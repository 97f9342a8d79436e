/-!
White space and letter case of plain text.

Two notions of white space occur: the 25 characters of the Unicode property `White_Space`, which
is what trimming removes, and the five ASCII characters that separate statements, selectors and
parts of a value. Letter case is that of the letters A to Z alone.
-/

namespace SheetPolicy.Text

/-- The Unicode property `White_Space`. -/
def isBlank (c : Char) : Bool :=
  let n := c.toNat
  (9 ≤ n && n ≤ 13) || n == 0x20 || n == 0x85 || n == 0xA0 || n == 0x1680 ||
    (0x2000 ≤ n && n ≤ 0x200A) || n == 0x2028 || n == 0x2029 || n == 0x202F ||
    n == 0x205F || n == 0x3000

/-- Space, tab, line feed, carriage return and form feed. -/
def isSpace (c : Char) : Bool :=
  c == ' ' || c == '\t' || c == '\n' || c == '\r' || c == '\x0c'

/-- The longest initial part whose last element fails `p`. -/
def dropRightWhile {α : Type} (p : α → Bool) (xs : List α) : List α :=
  (xs.reverse.dropWhile p).reverse

/-- Removes blank characters at both ends. -/
def trimChars (cs : List Char) : List Char :=
  dropRightWhile isBlank (cs.dropWhile isBlank)

def trim (s : String) : String :=
  String.ofList (trimChars s.toList)

def trimLeft (s : String) : String :=
  String.ofList (s.toList.dropWhile isBlank)

/-- Lowers the letters A to Z and keeps all else. -/
def lower (s : String) : String :=
  String.ofList (s.toList.map Char.toLower)

/-- Equality up to the case of the letters A to Z. -/
def sameLetters (s t : String) : Bool :=
  lower s == lower t

def isAsciiAlphanumeric (c : Char) : Bool :=
  ('a' ≤ c && c ≤ 'z') || ('A' ≤ c && c ≤ 'Z') || ('0' ≤ c && c ≤ '9')

/-- What follows `head` at the start of `cs`, if `cs` starts with it. -/
def afterPrefix? : List Char → List Char → Option (List Char)
  | [], cs => some cs
  | _ :: _, [] => none
  | h :: head, c :: cs => if h = c then afterPrefix? head cs else none

/-- What stands before and after the first place where `mark` occurs. -/
def splitAtFirst? (mark : List Char) : List Char → Option (List Char × List Char)
  | [] => if mark.isEmpty then some ([], []) else none
  | c :: cs =>
    match afterPrefix? mark (c :: cs) with
    | some rest => some ([], rest)
    | none => (splitAtFirst? mark cs).map fun (before, after) => (c :: before, after)

def startsWith (mark : String) (cs : List Char) : Bool :=
  (afterPrefix? mark.toList cs).isSome

def endsWith (mark : String) (cs : List Char) : Bool :=
  (afterPrefix? mark.toList.reverse cs.reverse).isSome

def contains (mark : String) (cs : List Char) : Bool :=
  (splitAtFirst? mark.toList cs).isSome

/-- The parts between the characters that satisfy `p`: one more than there are such characters. -/
def splitOnChar (p : Char → Bool) : List Char → List (List Char)
  | [] => [[]]
  | c :: cs =>
    match splitOnChar p cs with
    | [] => [[]]
    | part :: parts => if p c then [] :: part :: parts else (c :: part) :: parts

/-- The text with every occurrence of `mark` taken out, from the left. -/
def removeAll (mark : List Char) : List Char → List Char
  | [] => []
  | c :: cs =>
    match afterPrefix? mark (c :: cs) with
    | some rest => if rest.length < (c :: cs).length then removeAll mark rest else c :: cs
    | none => c :: removeAll mark cs
termination_by cs => cs.length
decreasing_by
  · assumption
  · exact Nat.lt_succ_self _

end SheetPolicy.Text

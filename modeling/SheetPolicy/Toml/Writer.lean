import SheetPolicy.Decimal.Shortest
import SheetPolicy.Toml.Value

/-!
How values are written. Every value is written on one line, apart from strings with line feeds in
them. A string takes the first of several quotations that needs no escape, if there is one.
-/

namespace SheetPolicy.Toml

/-- A control character other than tab and line feed. -/
def isControl (c : Char) : Bool :=
  (c.toNat ≤ 0x1F || c.toNat == 0x7F) && c != '\t' && c != '\n'

/-- The length of the longest run of `c`. -/
def longestRun (c : Char) (cs : List Char) : Nat :=
  go 0 0 cs
where
  go (run best : Nat) : List Char → Nat
    | [] => max run best
    | d :: ds => if d = c then go (run + 1) best ds else go 0 (max run best) ds

def hexDigits (width n : Nat) : List Char :=
  let digits := (Nat.toDigits 16 n).map Char.toUpper
  List.replicate (width - digits.length) '0' ++ digits

/-- A character in double quotes, where quotes and line feeds are seen to elsewhere. -/
def escaped (c : Char) : List Char :=
  if c = '\x08' then ['\\', 'b']
  else if c = '\t' then ['\\', 't']
  else if c = '\n' then ['\\', 'n']
  else if c = '\x0c' then ['\\', 'f']
  else if c = '\r' then ['\\', 'r']
  else if c = '\\' then ['\\', '\\']
  else if c.toNat ≤ 0x1F ∨ c.toNat = 0x7F then '\\' :: 'u' :: hexDigits 4 c.toNat
  else [c]

/-- The inside of a string in double quotes: every quote is escaped. -/
def quotedBody (cs : List Char) : List Char :=
  cs.flatMap fun c => if c = '"' then ['\\', '"'] else escaped c

/-- The inside of a string in triple double quotes: line feeds stand as they are, and of a run of
quotes every third is escaped. -/
def tripleQuotedBody (run : Nat) : List Char → List Char
  | [] => []
  | c :: cs =>
    if c = '"' then
      if run = 2 then '\\' :: '"' :: tripleQuotedBody 0 cs else '"' :: tripleQuotedBody (run + 1) cs
    else if c = '\n' then '\n' :: tripleQuotedBody 0 cs
    else escaped c ++ tripleQuotedBody 0 cs

/-- A string in the first quotation of the list that can hold it. -/
def writeString (s : String) : String :=
  let cs := s.toList
  let control := cs.any isControl
  let backslash := cs.contains '\\'
  let lines := cs.contains '\n'
  let double := longestRun '"' cs
  let single := longestRun '\'' cs
  let opening := if lines then "\n" else ""
  let triple := "\"\"\"" ++ opening ++ String.ofList (tripleQuotedBody 0 cs) ++ "\"\"\""
  let plain := "\"" ++ String.ofList (quotedBody cs) ++ "\""
  if !control && !backslash && double == 0 && !lines then plain
  else if !control && single == 0 && !lines then "'" ++ s ++ "'"
  else if !control && !backslash && double ≤ 2 then triple
  else if !control && single ≤ 2 then "'''" ++ opening ++ s ++ "'''"
  else if lines then triple
  else plain

def writeKey (key : String) : String :=
  let cs := key.toList
  let control := cs.any fun c => isControl c || c == '\n'
  if !cs.isEmpty && cs.all isBareKeyChar then key
  else if !control && !cs.contains '\\' && !cs.contains '"' then
    "\"" ++ String.ofList (quotedBody cs) ++ "\""
  else if !control && !cs.contains '\'' then "'" ++ key ++ "'"
  else "\"" ++ String.ofList (quotedBody cs) ++ "\""

/-- A number with the fewest digits that read back, and never with an exponent. -/
def writeFloat (x : Binary64) : String :=
  let size :=
    if x.isNaN then "nan"
    else if x.isInfinite then "inf"
    else if x.isZero then "0.0"
    else (Decimal.shortest x).positional
  if x.isNegative then "-" ++ size else size

mutual

def write : Toml → String
  | .string s => writeString s
  | .integer i => toString i
  | .float x => writeFloat x
  | .boolean b => if b then "true" else "false"
  | .datetime text => text
  | .array elements => "[" ++ ", ".intercalate (writeElements elements) ++ "]"
  | .table [] => "\x7b\x7d"
  | .table (entry :: entries) =>
    "\x7b " ++ ", ".intercalate (writeEntries (entry :: entries)) ++ " \x7d"

def writeElements : List Toml → List String
  | [] => []
  | v :: vs => write v :: writeElements vs

def writeEntries : List (String × Toml) → List String
  | [] => []
  | (key, v) :: rest => (writeKey key ++ " = " ++ write v) :: writeEntries rest

end

/-- The value as a message shows it: a string stands without quotes. -/
def display : Toml → String
  | .string s => s
  | v => write v

end SheetPolicy.Toml

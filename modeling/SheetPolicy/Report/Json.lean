/-!
Documents of objects and arrays, written over several lines with two spaces for each level.
-/

namespace SheetPolicy.Report

inductive Json where
  | null
  | number (n : Nat)
  | string (text : String)
  | array (elements : List Json)
  | object (fields : List (String × Json))

namespace Json

def hexDigit (n : Nat) : Char :=
  "0123456789abcdef".toList.getD n '0'

/-- A character as it stands between quotes. -/
def escapeChar (c : Char) : List Char :=
  match c with
  | '"' => ['\\', '"']
  | '\\' => ['\\', '\\']
  | '\n' => ['\\', 'n']
  | '\r' => ['\\', 'r']
  | '\t' => ['\\', 't']
  | '\x08' => ['\\', 'b']
  | '\x0c' => ['\\', 'f']
  | c =>
    if c.toNat < 0x20 then
      ['\\', 'u', '0', '0', hexDigit (c.toNat / 16), hexDigit (c.toNat % 16)]
    else [c]

def quote (text : String) : String :=
  "\"" ++ String.ofList (text.toList.flatMap escapeChar) ++ "\""

/-- A new line at a level. -/
def lineAt (level : Nat) : String :=
  String.ofList ('\n' :: List.replicate (2 * level) ' ')

mutual

/-- The text of a document whose surroundings are at a level. -/
def pretty (level : Nat) : Json → String
  | .null => "null"
  | .number n => toString n
  | .string text => quote text
  | .array [] => "[]"
  | .array (e :: es) =>
    "[" ++ ",".intercalate (prettyElements (level + 1) (e :: es)) ++ lineAt level ++ "]"
  | .object [] => "\x7b\x7d"
  | .object (f :: fs) =>
    "\x7b" ++ ",".intercalate (prettyFields (level + 1) (f :: fs)) ++ lineAt level ++ "\x7d"

def prettyElements (level : Nat) : List Json → List String
  | [] => []
  | e :: es => (lineAt level ++ e.pretty level) :: prettyElements level es

def prettyFields (level : Nat) : List (String × Json) → List String
  | [] => []
  | (name, v) :: fs =>
    (lineAt level ++ quote name ++ ": " ++ v.pretty level) :: prettyFields level fs

end

end Json

end SheetPolicy.Report

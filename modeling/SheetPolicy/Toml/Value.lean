import SheetPolicy.Decimal.Binary64
import SheetPolicy.Text.Blank

/-!
Values of configuration files. Tables are kept sorted by key, in the order of code points, with
every key once.
-/

namespace SheetPolicy

inductive Toml where
  | string (text : String)
  | integer (value : Int)
  | float (value : Binary64)
  | boolean (value : Bool)
  /-- A date, a time of day, or both, as written in the normal form. -/
  | datetime (text : String)
  | array (elements : List Toml)
  | table (entries : List (String × Toml))
deriving Inhabited

namespace Toml

abbrev Table := List (String × Toml)

/-- The value of a key. -/
def Table.get? (t : Table) (key : String) : Option Toml :=
  (t.find? fun entry => entry.1 == key).map Prod.snd

/-- Sets the value of a key. -/
def Table.insert (t : Table) (key : String) (value : Toml) : Table :=
  match t with
  | [] => [(key, value)]
  | entry :: rest =>
    if entry.1 < key then entry :: Table.insert rest key value
    else if entry.1 = key then (key, value) :: rest
    else (key, value) :: entry :: rest

def Table.ofEntries (entries : List (String × Toml)) : Table :=
  entries.foldl (fun t entry => t.insert entry.1 entry.2) []

/-- A character that a key may have without being quoted. -/
def isBareKeyChar (c : Char) : Bool :=
  Text.isAsciiAlphanumeric c || c == '_' || c == '-'

/-- The text of a string. -/
def asString? : Toml → Option String
  | .string s => some s
  | _ => none

end Toml

end SheetPolicy

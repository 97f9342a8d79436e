import SheetPolicy.Pattern.Reader
import SheetPolicy.Toml.Writer

/-!
Lists of words and patterns that an option allows or ignores. An entry written between slashes, as
in `/^nth/i`, is a pattern to be found somewhere in the word; any other entry is the word itself.
-/

namespace SheetPolicy.WordList

inductive Entry where
  | word (text : String)
  | pattern (regex : Pattern.Regex)
deriving DecidableEq

/-- The body and the flags of an entry between slashes. -/
def splitPattern? (entry : String) : Option (String × List Char) :=
  match entry.toList with
  | '/' :: rest =>
    match rest.reverse.span (· != '/') with
    | (flagsReversed, _ :: bodyReversed) =>
      if flagsReversed.all fun c => "gimsuy".toList.contains c then
        some (String.ofList bodyReversed.reverse, flagsReversed.reverse)
      else none
    | (_, []) => none
  | _ => none

def isPattern (entry : String) : Bool :=
  (splitPattern? entry).isSome

/-- Reads an entry; a pattern that makes no sense has no reading. -/
def Entry.parse? (entry : String) : Option Entry :=
  match splitPattern? entry with
  | none => some (.word entry)
  | some (body, flags) =>
    let modes : Pattern.Flags :=
      { ignoreCase := flags.contains 'i', multiLine := flags.contains 'm',
        dotAll := flags.contains 's' }
    (Pattern.Regex.parse? modes body).map .pattern

def Entry.allows (candidate : String) : Entry → Bool
  | .word text => text == candidate
  | .pattern regex => regex.isMatch candidate

inductive Error where
  | invalidPattern (entry : String)
  | notAString (value : Toml)

def Error.message : Error → String
  | .invalidPattern entry => "Invalid pattern \"" ++ entry ++ "\""
  | .notAString value => "Expected a string or pattern, got " ++ value.write

/-- Reads one entry of an option. -/
def Entry.ofValue : Toml → Except Error Entry
  | .string s =>
    match Entry.parse? s with
    | some entry => .ok entry
    | none => .error (.invalidPattern s)
  | v => .error (.notAString v)

/-- Reads an option: one entry or an array of entries. -/
def ofValue : Toml → Except Error (List Entry)
  | .array elements => elements.mapM Entry.ofValue
  | v => (Entry.ofValue v).map ([·])

/-- Some entry allows the word. -/
def allows (entries : List Entry) (candidate : String) : Bool :=
  entries.any (Entry.allows candidate)

end SheetPolicy.WordList

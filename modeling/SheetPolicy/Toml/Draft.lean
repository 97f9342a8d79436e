import SheetPolicy.Toml.Value

/-!
Tables in the making. A configuration file names tables by headers and by dotted keys, and which of
them may be added to later depends on how each came about.
-/

namespace SheetPolicy.Toml

/-- How a table came about. -/
inductive Origin where
  /-- By a header of its own, or as the whole of a file or of a value in braces. -/
  | header
  /-- As one above the table of a header. -/
  | implied
  /-- By the front part of a dotted key. -/
  | dotted
deriving DecidableEq

inductive Draft where
  | value (v : Toml)
  | table (origin : Origin) (entries : List (String × Draft))
  /-- The elements of an array of tables, the last one first. -/
  | tables (elements : List (List (String × Draft)))

namespace Draft

abbrev Entries := List (String × Draft)

def Entries.get? (entries : Entries) (key : String) : Option Draft :=
  (entries.find? fun entry => entry.1 == key).map Prod.snd

/-- The entries with a key set anew. -/
def Entries.set (entries : Entries) (key : String) (draft : Draft) : Entries :=
  (key, draft) :: entries.filter fun entry => entry.1 != key

/-- Goes down a path and applies `f` to the table there. Tables that are missing on the way are
made; in an array of tables the way goes through the last element. A value is in the way, and so is
a table with a header for the path of a dotted key. -/
def descend {α : Type} (isDotted : Bool) (f : Origin → Entries → Option (α × Entries)) :
    List String → Origin → Entries → Option (α × Entries)
  | [], origin, entries => f origin entries
  | key :: path, _, entries =>
    match entries.get? key with
    | none => do
      let origin := if isDotted then .dotted else .implied
      let (a, inner) ← descend isDotted f path origin []
      some (a, entries.set key (.table origin inner))
    | some (.value _) => none
    | some (.table origin inner) =>
      if isDotted ∧ origin = .header then none
      else do
        let (a, inner) ← descend isDotted f path origin inner
        some (a, entries.set key (.table origin inner))
    | some (.tables []) => none
    | some (.tables (last :: earlier)) => do
      let (a, last) ← descend isDotted f path .header last
      some (a, entries.set key (.tables (last :: earlier)))

/-- Sets a dotted key. The key is new, and the table that it is set in came about by a dotted key
if and only if this key is dotted. -/
def insert (path : List String) (key : String) (v : Toml) (entries : Entries) :
    Option Entries := do
  let put (origin : Origin) (target : Entries) : Option (Unit × Entries) :=
    if (origin == .dotted) == path.isEmpty || (target.get? key).isSome then none
    else some ((), target.set key (.value v))
  let (_, entries) ← descend true put path .header entries
  return entries

mutual

/-- The finished value. -/
def toToml : Draft → Toml
  | .value v => v
  | .table _ entries => .table (Table.ofEntries (tomlEntries entries))
  | .tables elements => .array (tomlElements elements).reverse

def tomlEntries : List (String × Draft) → List (String × Toml)
  | [] => []
  | (key, draft) :: entries => (key, draft.toToml) :: tomlEntries entries

def tomlElements : List (List (String × Draft)) → List Toml
  | [] => []
  | entries :: elements => .table (Table.ofEntries (tomlEntries entries)) :: tomlElements elements

end

end Draft

/-- A file up to some line: the tables that are finished, and the one that is being filled. -/
structure Outline where
  placed : Draft.Entries := []
  /-- The path of the open table; the file itself has none. -/
  path : List String := []
  /-- The open table is an element of an array of tables. -/
  isElement : Bool := false
  current : Draft.Entries := []

namespace Outline

/-- The path of the table around a header's table, and the last key. -/
def splitLast? (path : List String) : Option (List String × String) :=
  path.getLast?.map fun key => (path.dropLast, key)

/-- Puts the open table in its place. -/
def place (o : Outline) : Option Draft.Entries :=
  match splitLast? o.path with
  | none => some o.current
  | some (parents, key) => do
    let put (_ : Origin) (target : Draft.Entries) : Option (Unit × Draft.Entries) :=
      if o.isElement then
        match target.get? key with
        | none => some ((), target.set key (.tables [o.current]))
        | some (.tables elements) => some ((), target.set key (.tables (o.current :: elements)))
        | some _ => none
      else some ((), target.set key (.table .header o.current))
    let (_, placed) ← Draft.descend false put parents .header o.placed
    return placed

/-- Opens the table of a header. A table may have one header, which may come after those of the
tables in it. -/
def openTable (o : Outline) (path : List String) : Option Outline := do
  let placed ← o.place
  let (parents, key) ← splitLast? path
  let take (_ : Origin) (target : Draft.Entries) : Option (Draft.Entries × Draft.Entries) :=
    match target.get? key with
    | none => some ([], target)
    | some (.table .implied inner) => some (inner, target)
    | some _ => none
  let (current, placed) ← Draft.descend false take parents .header placed
  return ⟨placed, path, false, current⟩

/-- Opens a new element of an array of tables. -/
def openElement (o : Outline) (path : List String) : Option Outline := do
  let placed ← o.place
  let (parents, key) ← splitLast? path
  let look (_ : Origin) (target : Draft.Entries) : Option (Unit × Draft.Entries) :=
    match target.get? key with
    | none => some ((), target)
    | some (.tables _) => some ((), target)
    | some _ => none
  let (_, placed) ← Draft.descend false look parents .header placed
  return ⟨placed, path, true, []⟩

/-- Sets a key in the open table. -/
def set (o : Outline) (path : List String) (key : String) (v : Toml) : Option Outline := do
  let current ← Draft.insert path key v o.current
  return { o with current }

end Outline

end SheetPolicy.Toml

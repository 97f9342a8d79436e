import SheetPolicy.Files.Path

/-!
File trees: what a run finds on disk, as a value. Paths are taken from the root of the tree.
-/

namespace SheetPolicy

inductive FileTree where
  /-- A file; one whose bytes are no text has none. -/
  | file (text : Option String)
  | directory (entries : List (String × FileTree))

namespace FileTree

def empty : FileTree := .directory []

def isDirectory : FileTree → Bool
  | .directory _ => true
  | .file _ => false

def child? (name : String) : FileTree → Option FileTree
  | .directory entries => (entries.find? fun entry => entry.1 == name).map Prod.snd
  | .file _ => none

/-- Follows the segments of a path. The list holds the place reached and the places above it, with
their names; only a directory can be gone on from, even by an empty segment or a dot. -/
def follow : List (String × FileTree) → List String → Option (List (String × FileTree))
  | places, [] => some places
  | [], _ :: _ => none
  | (name, here) :: above, segment :: rest =>
    if !here.isDirectory then none
    else if segment = "" ∨ segment = "." then follow ((name, here) :: above) rest
    else if segment = ".." then follow (if above.isEmpty then [(name, here)] else above) rest
    else
      match here.child? segment with
      | some child => follow ((segment, child) :: (name, here) :: above) rest
      | none => none

/-- The place at an absolute path, and those above it. -/
def places? (tree : FileTree) (path : String) : Option (List (String × FileTree)) :=
  match path.toList with
  | '/' :: rest => follow [("", tree)] ((Text.splitOnChar (· == '/') rest).map String.ofList)
  | _ => none

/-- What stands at an absolute path. -/
def get? (tree : FileTree) (path : String) : Option FileTree :=
  (tree.places? path).bind fun places => places.head?.map Prod.snd

/-- The path without dots and doubled slashes, if something stands there. -/
def canonical? (tree : FileTree) (path : String) : Option String :=
  (tree.places? path).map fun places =>
    match places with
    | [_] => "/"
    | places => String.intercalate "/" (places.reverse.map Prod.fst)

def exists? (tree : FileTree) (path : String) : Bool :=
  (tree.get? path).isSome

def hasFile (tree : FileTree) (path : String) : Bool :=
  (tree.get? path).any fun t => !t.isDirectory

def hasDirectory (tree : FileTree) (path : String) : Bool :=
  (tree.get? path).any isDirectory

/-- The text of a file. -/
def read? (tree : FileTree) (path : String) : Option String :=
  match tree.get? path with
  | some (.file text) => text
  | _ => none

mutual

/-- All that lies below a place, with the paths. -/
def descendants (path : String) : FileTree → List (String × FileTree)
  | .file _ => []
  | .directory entries => descendantsOf path entries

def descendantsOf (path : String) : List (String × FileTree) → List (String × FileTree)
  | [] => []
  | (name, tree) :: entries =>
    let place := Path.join path name
    (place, tree) :: tree.descendants place ++ descendantsOf path entries

end

/-- The entries with one set anew, at its old place if it has one. -/
def setEntry (name : String) (tree : FileTree) : List (String × FileTree) → List (String × FileTree)
  | [] => [(name, tree)]
  | entry :: entries =>
    if entry.1 = name then (name, tree) :: entries else entry :: setEntry name tree entries

/-- Puts something at a place, given by the names on the way. Directories on the way are made. -/
def put (what : FileTree) : List String → FileTree → FileTree
  | [], _ => what
  | name :: names, tree =>
    let entries := match tree with
      | .directory entries => entries
      | .file _ => []
    let child := ((entries.find? fun entry => entry.1 == name).map Prod.snd).getD empty
    .directory (setEntry name (put what names child) entries)

/-- Takes away what stands at a place. -/
def remove : List String → FileTree → FileTree
  | [], tree => tree
  | _, .file text => .file text
  | [name], .directory entries => .directory (entries.filter fun entry => entry.1 != name)
  | name :: names, .directory entries =>
    match (entries.find? fun entry => entry.1 == name).map Prod.snd with
    | some child => .directory (setEntry name (remove names child) entries)
    | none => .directory entries

/-- The names on the way to a path; an upward step takes back the name before it. -/
def namesOf (path : String) : List String :=
  (Path.steps path).foldl (fun names step =>
    match step with
    | .root | .here => names
    | .up => names.dropLast
    | .name text => names ++ [text]) []

end FileTree

end SheetPolicy

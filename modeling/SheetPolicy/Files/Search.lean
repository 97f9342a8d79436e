import SheetPolicy.Files.Glob
import SheetPolicy.Files.Tree

/-!
Files that a pattern for paths finds in a tree. The pattern is taken apart at slashes and matched
one name at a time.
-/

namespace SheetPolicy.Search

/-- A part of a pattern, between slashes. -/
inductive Part where
  /-- A name, which need not be looked for. -/
  | exact (name : String)
  | wild (tokens : List Glob.Token)
  /-- Any number of directories. -/
  | anyPath
deriving DecidableEq

def Part.parse? (text : String) : Option Part :=
  (Glob.parse? text).map fun tokens =>
    if tokens = [.anyPath] then .anyPath
    else
      match Glob.plainText? tokens with
      | some name => .exact name
      | none => .wild tokens

def Part.isMatch (name : String) : Part → Bool
  | .exact text => text == name
  | .wild tokens => Glob.isMatch tokens name.toList
  | .anyPath => true

/-- The names of the directory above and of the directory itself, if a pattern asks for them by a
leading dot. -/
def dotNames (tokens : List Glob.Token) : List String :=
  if tokens.head? = some (.char '.') then
    ["..", "."].filter fun name => Glob.isMatch tokens name.toList
  else []

/-- The entries of the directory at a path, with their paths. -/
def children (tree : FileTree) (path : String) : List (String × String) :=
  match tree.get? path with
  | some (.directory entries) => entries.map fun (name, _) => (name, Path.join path name)
  | _ => []

/-- All that lies below a path. -/
def descendants (tree : FileTree) (path : String) : List (String × FileTree) :=
  ((tree.get? path).map (FileTree.descendants path)).getD []

/-- The last name of a path. -/
def lastName (path : String) : String :=
  String.ofList ((Text.splitOnChar (· == '/') path.toList).getLastD [])

/-- The paths that the parts of a pattern lead to from a place. Below any number of directories,
the next part is matched against every name found. -/
def expand (tree : FileTree) : List Part → String → List String
  | [], path => [path]
  | .exact name :: parts, path =>
    let next := Path.join path name
    let isThere := if name = "." ∨ name = ".." then tree.hasDirectory path else tree.exists? next
    if isThere then expand tree parts next else []
  | .wild tokens :: parts, path =>
    let named := (children tree path).filter fun (name, _) => Glob.isMatch tokens name.toList
    let dotted := if tree.hasDirectory path then dotNames tokens else []
    (dotted.map (Path.join path) ++ named.map Prod.snd).flatMap (expand tree parts)
  | [.anyPath], path =>
    ((descendants tree path).filter fun (_, t) => t.isDirectory).map Prod.fst
  | .anyPath :: parts@(.anyPath :: _), path => expand tree parts path
  | .anyPath :: part :: parts, path =>
    (((descendants tree path).map Prod.fst).filter fun p => part.isMatch (lastName p)).flatMap
      (expand tree parts)

/-- The parts of an absolute pattern; one that ends in a slash has no part after it. -/
def parts? (pattern : String) : Option (List Part) := do
  let _ ← Glob.parse? pattern
  let texts := Text.splitOnChar (· == '/') (pattern.toList.drop 1)
  let texts := if texts.getLast? = some [] then texts.dropLast else texts
  texts.mapM fun text => Part.parse? (String.ofList text)

/-- The files that an absolute pattern finds; a pattern that makes no sense has no answer. One that
ends in a slash asks for directories. -/
def files? (tree : FileTree) (pattern : String) : Option (List String) :=
  (parts? pattern).map fun parts =>
    if Text.endsWith "/" pattern.toList then []
    else (expand tree parts "/").filter tree.hasFile

end SheetPolicy.Search

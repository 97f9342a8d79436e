import SheetPolicy.Files.Tree

/-!
What a run is given besides its arguments, and what it leaves behind.
-/

namespace SheetPolicy.Command

structure World where
  tree : FileTree
  /-- An absolute path, from which paths that are not absolute are taken. -/
  workingDirectory : String
  /-- The directory of the configuration for all projects. -/
  globalDirectory : Option String
  /-- The configuration file that the environment names. -/
  environmentConfig : Option String

/-- The absolute path that a path stands for. The empty path stands for nothing. -/
def World.absolute (w : World) (path : String) : String :=
  if path = "" then "" else Path.join w.workingDirectory path

structure Outcome where
  exitCode : Nat
  output : String := ""
  /-- What is written to the error stream before the error, if there is one. -/
  notes : String := ""
  error : Option String := none
  /-- Files written: absolute paths with texts. -/
  written : List (String × String) := []
deriving DecidableEq

/-- An error ends a run with exit code 1. -/
def Outcome.ofError (message : String) : Outcome :=
  { exitCode := 1, error := some message }

/-- Arguments that make no sense end a run with exit code 2. -/
def Outcome.usage : Outcome :=
  { exitCode := 2 }

/-- The tree after a run. -/
def World.after (w : World) (outcome : Outcome) : FileTree :=
  outcome.written.foldl (fun tree (path, text) =>
    FileTree.put (.file (some text)) (FileTree.namesOf path) tree) w.tree

end SheetPolicy.Command

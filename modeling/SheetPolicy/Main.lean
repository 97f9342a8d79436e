import SheetPolicy.Command.Run

/-!
The program. It takes from disk what a run can look at, runs, and carries out what the run leaves
behind.
-/

namespace SheetPolicy.Program

open SheetPolicy.Command

/-- Directories are followed to this depth. -/
def maxDepth : Nat := 128

def readText (path : String) : IO (Option String) := do
  try return String.fromUTF8? (← IO.FS.readBinFile path)
  catch _ => return none

/-- What stands at a path, with the names of files but not their texts. -/
def loadShape : Nat → String → IO (Option FileTree)
  | 0, _ => return none
  | depth + 1, path => do
    try
      let place ← IO.FS.realPath path
      if ← place.isDir then
        let entries ← place.readDir
        let loaded ← entries.toList.mapM fun entry => do
          let tree ← loadShape depth (Path.join path entry.fileName)
          return tree.map fun t => (entry.fileName, t)
        return some (.directory (loaded.filterMap id))
      else if ← place.pathExists then return some (.file none)
      else return none
    catch _ => return none

def put (w : World) (path : String) (tree : FileTree) : World :=
  { w with tree := FileTree.put tree (FileTree.namesOf path) w.tree }

/-- The world with the text of a file, if there is one at the path. -/
def withFile (w : World) (path : String) : IO World := do
  let path := w.absolute path
  match ← loadShape 1 path with
  | some (.file _) => return put w path (.file (← readText path))
  | _ => return w

/-- The world with what stands at a path. -/
def withShape (w : World) (path : String) : IO World := do
  match ← loadShape maxDepth (w.absolute path) with
  | some tree => return put w (w.absolute path) tree
  | none => return w

/-- The world that a check looks at. -/
def worldForCheck (w : World) (given : Option String) (s : CheckSettings) : IO World := do
  let w ← withShape w s.path
  let names := FileTree.namesOf (w.absolute s.path)
  let above := (Path.ancestors ("/" ++ "/".intercalate names)).flatMap fun directory =>
    projectConfigNames.map (Path.join directory)
  let here := projectConfigNames
  let everywhere := w.globalDirectory.toList.map fun directory => Path.join directory "config.toml"
  let w ← (above ++ here ++ everywhere ++ given.toList).foldlM withFile w
  (sheets w given s).foldlM withFile w

/-- The world that a run looks at. -/
def worldFor (w : World) (args : List String) : IO World :=
  match Request.parse? w.environmentConfig args with
  | some (.act given (.check settings)) => worldForCheck w given settings
  | some (.act _ (.init _ _)) => withShape w configName
  | _ => return w

/-- The directory of the configuration for all projects. -/
def globalDirectory : IO (Option String) := do
  match ← IO.getEnv "SHEETLINT_CONFIG_DIR" with
  | some directory => return some directory
  | none => return (← IO.getEnv "HOME").map fun home => Path.join home ".sheetlint"

def runHere (args : List String) : IO UInt32 := do
  let here := (← IO.currentDir).toString
  let bare : World :=
    { tree := .empty
      workingDirectory := here
      globalDirectory := ← globalDirectory
      environmentConfig := ← IO.getEnv "SHEETLINT_CONFIG" }
  let world ← worldFor (put bare here .empty) args
  let outcome := run world args
  for (path, text) in outcome.written do
    IO.FS.writeFile path text
  IO.print outcome.output
  IO.eprint outcome.notes
  if let some message := outcome.error then
    IO.eprintln ("Error: " ++ message)
  if outcome.exitCode == 2 then
    IO.eprint usageText
  return UInt32.ofNat outcome.exitCode

end SheetPolicy.Program

def main (args : List String) : IO UInt32 :=
  SheetPolicy.Program.runHere args

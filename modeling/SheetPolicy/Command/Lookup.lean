import SheetPolicy.Command.World
import SheetPolicy.Config

/-!
Where a run finds its configuration. The file that the arguments name comes first, then one in the
directory checked or the nearest directory above, then the one for all projects.
-/

namespace SheetPolicy.Command

def projectConfigNames : List String :=
  ["sheetlint.toml", ".sheetlint.toml"]

/-- The directory whose configuration counts for a target. A file counts for the directory that it
stands in; a directory that exists is taken by its full path, so that all above it are seen. -/
def startDirectory? (w : World) (target : String) : Option String := do
  let start ← if w.tree.hasFile (w.absolute target) then Path.parent? target else some target
  return (w.tree.canonical? (w.absolute start)).getD start

/-- The configuration file of the project that a target belongs to. -/
def projectConfig? (w : World) (target : String) : Option String := do
  let start ← startDirectory? w target
  let candidates := (Path.ancestors start).flatMap fun directory =>
    projectConfigNames.map (Path.join directory)
  candidates.find? fun path => w.tree.hasFile (w.absolute path)

def globalConfig? (w : World) : Option String := do
  let path := Path.join (← w.globalDirectory) "config.toml"
  if w.tree.hasFile (w.absolute path) then some path else none

/-- The path of the configuration file for a target; `given` is the one that the arguments name. -/
def configPath? (w : World) (given : Option String) (target : String) : Option String :=
  given <|> projectConfig? w target <|> globalConfig? w

/-- Loads the configuration for a target. Without a file it is empty. -/
def loadConfig (w : World) (given : Option String) (target : String) : Except String Config :=
  match configPath? w given target with
  | none => .ok {}
  | some path =>
    match (w.tree.read? (w.absolute path)).bind Config.parse? with
    | some config => .ok config
    | none => .error ("Failed to load config: " ++ path)

end SheetPolicy.Command

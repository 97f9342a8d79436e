import SheetPolicy.Text.Blank

/-!
Paths as they are written, and the steps that they name. Doubled slashes and inner dots name no
step, so two texts can be the same path.
-/

namespace SheetPolicy.Path

inductive Step where
  | root
  /-- A dot at the start of a path that is not absolute. -/
  | here
  | up
  | name (text : String)
deriving DecidableEq

/-- A stretch of a path between slashes, with the step that it names. -/
structure Segment where
  text : String
  step? : Option Step
deriving DecidableEq

def Segment.inner (text : String) : Segment :=
  ⟨text, if text = "" ∨ text = "." then none else if text = ".." then some .up
    else some (.name text)⟩

/-- The segments of a path. What stands before a leading slash is the root. -/
def segments (path : String) : List Segment :=
  match (Text.splitOnChar (· == '/') path.toList).map String.ofList with
  | [] => []
  | first :: rest =>
    let start :=
      if first = "" ∧ !rest.isEmpty then ⟨first, some .root⟩
      else if first = "." then ⟨first, some .here⟩
      else .inner first
    start :: rest.map .inner

def steps (path : String) : List Step :=
  (segments path).filterMap Segment.step?

def isAbsolute (path : String) : Bool :=
  path.toList.head? == some '/'

/-- The rank of a step among steps of different kinds. -/
def Step.rank : Step → Nat
  | root => 0
  | here => 1
  | up => 2
  | name _ => 3

def Step.compare : Step → Step → Ordering
  | .name a, .name b => if a < b then .lt else if a = b then .eq else .gt
  | a, b => Ord.compare a.rank b.rank

def compareSteps : List Step → List Step → Ordering
  | [], [] => .eq
  | [], _ :: _ => .lt
  | _ :: _, [] => .gt
  | a :: as, b :: bs =>
    match a.compare b with
    | .eq => compareSteps as bs
    | order => order

/-- Paths are ordered step by step, so that a directory stays together. -/
def compare (a b : String) : Ordering :=
  compareSteps (steps a) (steps b)

/-- The text of some segments in a row. -/
def ofSegments (segments : List Segment) : String :=
  if segments.map Segment.step? = [some .root] then "/"
  else String.intercalate "/" (segments.map Segment.text)

/-- The segments after those that name the given steps. -/
def after? : List Step → List Segment → Option (List Segment)
  | [], segments => some segments
  | step :: steps, segments =>
    match segments.dropWhile fun s => s.step?.isNone with
    | segment :: rest => if segment.step? = some step then after? steps rest else none
    | [] => none

/-- The path as seen from a directory above it; a path that does not lie below stays as it is. -/
def relativeTo (base path : String) : String :=
  match after? (steps base) (segments path) with
  | none => path
  | some rest =>
    let isVoid (s : Segment) := s.step?.isNone
    let rest := if steps base = [] then rest else rest.dropWhile isVoid
    ofSegments (Text.dropRightWhile isVoid rest)

/-- A path seen from a directory. -/
def join (base path : String) : String :=
  if isAbsolute path ∨ base = "" then path
  else if base.toList.getLast? = some '/' then base ++ path
  else base ++ "/" ++ path

/-- The path of the directory that something stands in, as far as the text tells. -/
def parent? (path : String) : Option String :=
  let isVoid (s : Segment) := s.step?.isNone
  let kept := Text.dropRightWhile isVoid (segments path)
  match kept.getLast? with
  | none => none
  | some last =>
    if last.step? = some .root then none
    else some (ofSegments (Text.dropRightWhile isVoid kept.dropLast))

/-- The path and those of the directories above it, up to a number of them. -/
def ancestorsUpTo : Nat → String → List String
  | 0, path => [path]
  | n + 1, path => path :: ((parent? path).map (ancestorsUpTo n)).getD []

/-- The path and those of all directories above it. -/
def ancestors (path : String) : List String :=
  ancestorsUpTo (steps path).length path

end SheetPolicy.Path

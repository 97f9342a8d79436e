/-!
Scanners: readers that take characters from the front of a text or fail. Repetition ends where a
round fails or takes nothing, so that every scanner ends.
-/

namespace SheetPolicy

abbrev Scanner := StateT (List Char) Option

namespace Scanner

/-- Takes one character. -/
def next : Scanner Char := fun
  | [] => none
  | c :: rest => some (c, rest)

/-- Takes one character that satisfies `p`. -/
def satisfy (p : Char → Bool) : Scanner Char := fun
  | [] => none
  | c :: rest => if p c then some (c, rest) else none

/-- Takes exactly this character. -/
def char (c : Char) : Scanner Unit := do
  let _ ← satisfy (· == c)

/-- Takes exactly this text. -/
def literal (text : String) : Scanner Unit :=
  go text.toList
where
  go : List Char → Scanner Unit
    | [] => pure ()
    | c :: cs => do
      char c
      go cs

/-- The next character, which stays. -/
def peek : Scanner (Option Char) := fun cs => some (cs.head?, cs)

/-- The character after the next one; both stay. -/
def peekSecond : Scanner (Option Char) := fun cs => some (cs.tail.head?, cs)

/-- Succeeds at the end of the text alone. -/
def atEnd : Scanner Unit := fun
  | [] => some ((), [])
  | _ :: _ => none

/-- Takes the longest run of characters that satisfy `p`. -/
def takeWhile (p : Char → Bool) : Scanner (List Char) := fun cs =>
  some (cs.takeWhile p, cs.dropWhile p)

/-- Like `takeWhile`, for a run of at least one character. -/
def takeWhile1 (p : Char → Bool) : Scanner (List Char) := do
  let run ← takeWhile p
  if run.isEmpty then failure else pure run

def optional {α : Type} (s : Scanner α) : Scanner (Option α) :=
  (some <$> s) <|> pure none

/-- Fails if the condition does. -/
def require (condition : Bool) : Scanner Unit :=
  if condition then pure () else failure

/-- Repeats a step that carries a state along, for as long as it succeeds and takes something. -/
def iterate {σ : Type} (step : σ → Scanner σ) (state : σ) : Scanner σ := fun cs =>
  match step state cs with
  | none => some (state, cs)
  | some (state', rest) =>
    if rest.length < cs.length then iterate step state' rest else some (state, cs)
termination_by cs => cs.length

/-- All results of a scanner repeated. -/
def many {α : Type} (s : Scanner α) : Scanner (List α) :=
  List.reverse <$> iterate (fun results => (· :: results) <$> s) []

/-- The result of a scanner that takes the whole text. -/
def runWhole {α : Type} (s : Scanner α) (text : String) : Option α :=
  match s text.toList with
  | some (a, []) => some a
  | _ => none

end Scanner

end SheetPolicy

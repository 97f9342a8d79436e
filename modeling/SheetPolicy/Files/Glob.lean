import SheetPolicy.Text.Blank

/-!
Patterns for paths: `?` stands for one character, `*` for any run of them, `[abc]`, `[a-c]` and
`[!a]` for one of some characters, and `**` between slashes for any number of directories.
-/

namespace SheetPolicy.Glob

/-- The characters from `low` to `high`. -/
structure Range where
  low : Char
  high : Char
deriving DecidableEq

def Range.holds (r : Range) (c : Char) : Bool :=
  r.low ≤ c && c ≤ r.high

inductive Token where
  | char (c : Char)
  | anyChar
  | anyRun
  | anyPath
  | oneOf (ranges : List Range)
  | noneOf (ranges : List Range)
deriving DecidableEq

/-- The ranges between brackets: `a-c`, or single characters. -/
def ranges : List Char → List Range
  | low :: '-' :: high :: rest => ⟨low, high⟩ :: ranges rest
  | c :: rest => ⟨c, c⟩ :: ranges rest
  | [] => []

/-- Reads the inside of brackets and the closing one. The first character may be a closing
bracket. -/
def bracket? : List Char → Option (List Range × List Char)
  | [] => none
  | first :: rest =>
    match rest.dropWhile (· != ']') with
    | [] => none
    | _ :: after => some (ranges (first :: rest.takeWhile (· != ']')), after)

theorem length_bracket? {cs after : List Char} {rs : List Range}
    (h : bracket? cs = some (rs, after)) : after.length < cs.length := by
  unfold bracket? at h
  split at h
  · simp at h
  · next first rest =>
    split at h
    · simp at h
    · next _ tail heq =>
      have := (List.dropWhile_suffix (l := rest) (· != ']')).length_le
      simp_all
      omega

/-- Reads tokens. Of `atStart`, the characters before are none or end in a slash, which is where
`**` may stand; it takes the slash after it along. Three stars in a row make no sense. -/
def tokens? (atStart : Bool) (cs : List Char) : Option (List Token) :=
  match cs with
  | [] => some []
  | '?' :: rest => (tokens? false rest).map (.anyChar :: ·)
  | '*' :: '*' :: '*' :: _ => none
  | ['*', '*'] => if atStart then some [.anyPath] else none
  | '*' :: '*' :: '/' :: rest =>
    if atStart then (tokens? true rest).map (.anyPath :: ·) else none
  | '*' :: '*' :: _ => none
  | '*' :: rest => (tokens? false rest).map (.anyRun :: ·)
  | '[' :: '!' :: rest =>
    match h : bracket? rest with
    | some (rs, after) =>
      have := length_bracket? h
      (tokens? false after).map (.noneOf rs :: ·)
    | none => none
  | '[' :: rest =>
    match h : bracket? rest with
    | some (rs, after) =>
      have := length_bracket? h
      (tokens? false after).map (.oneOf rs :: ·)
    | none => none
  | c :: rest => (tokens? (c == '/') rest).map (.char c :: ·)
termination_by cs.length

/-- Reads a pattern. -/
def parse? (pattern : String) : Option (List Token) :=
  tokens? true pattern.toList

/-- A list and all that remains of it when elements are taken from its front. -/
def suffixes : List Char → List (List Char)
  | [] => [[]]
  | c :: cs => (c :: cs) :: suffixes cs

/-- What remains of a path when whole directories, or all of it, are taken from its front. -/
def afterDirectories (cs : List Char) : List (List Char) :=
  cs :: go cs
where
  go : List Char → List (List Char)
    | [] => [[]]
    | c :: cs => if c = '/' then cs :: go cs else go cs

/-- The tokens match the whole text. A star also matches slashes. -/
def isMatch : List Token → List Char → Bool
  | [], cs => cs.isEmpty
  | .anyRun :: ts, cs => (suffixes cs).any (isMatch ts)
  | .anyPath :: ts, cs => (afterDirectories cs).any (isMatch ts)
  | _ :: _, [] => false
  | .char x :: ts, c :: cs => x == c && isMatch ts cs
  | .anyChar :: ts, _ :: cs => isMatch ts cs
  | .oneOf rs :: ts, c :: cs => rs.any (·.holds c) && isMatch ts cs
  | .noneOf rs :: ts, c :: cs => !rs.any (·.holds c) && isMatch ts cs

def Token.char? : Token → Option Char
  | .char c => some c
  | _ => none

/-- The text that tokens without wildcards stand for. -/
def plainText? (ts : List Token) : Option String :=
  (ts.mapM Token.char?).map String.ofList

end SheetPolicy.Glob

import SheetPolicy.Pattern.Regex
import SheetPolicy.Text.Digits
import SheetPolicy.Text.Scanner

/-!
Reading regular expressions. A text that is no expression has no reading. Groups and classes may be
nested up to a fixed depth.

Two things are left out. Classes by Unicode property, as in `\p{Greek}`, `\pL` and `\P{Lu}`, are
refused along with the unknown escapes. And there is no limit on the size of an expression once its
counted repetitions are written out, so that `a{1000}{1000}{1000}` has a reading.
-/

namespace SheetPolicy.Pattern

/-- The modes of matching that flags switch. -/
structure Flags where
  ignoreCase : Bool := false
  multiLine : Bool := false
  dotAll : Bool := false
  crlf : Bool := false
  ascii : Bool := false
  /-- Blanks and comments in the pattern are skipped. -/
  verbose : Bool := false
deriving DecidableEq

/-- Switches one flag; a letter that is no flag has no result. The letter `U` is about which match
is found first and changes nothing here. -/
def Flags.set? (f : Flags) (letter : Char) (on : Bool) : Option Flags :=
  match letter with
  | 'i' => some { f with ignoreCase := on }
  | 'm' => some { f with multiLine := on }
  | 's' => some { f with dotAll := on }
  | 'R' => some { f with crlf := on }
  | 'u' => some { f with ascii := !on }
  | 'x' => some { f with verbose := on }
  | 'U' => some f
  | _ => none

/-- A set as the case mode of the flags has it. -/
def Flags.fold (f : Flags) (s : CharSet) : CharSet :=
  if f.ignoreCase then (if f.ascii then .asciiFolded s else .folded s) else s

/-- The largest depth of groups and of classes in one another. -/
def maxNesting : Nat := 250

namespace Read

/-- In verbose mode, skips blanks and comments up to the end of their line. -/
def skip (flags : Flags) : Scanner Unit :=
  if flags.verbose then
    Scanner.iterate (fun _ => do
      let _ ← Scanner.takeWhile1 Text.isBlank <|> (do
        Scanner.char '#'
        let _ ← Scanner.takeWhile (· != '\n')
        pure [])) ()
  else pure ()

/-- What an escape stands for. -/
inductive Escape where
  | literal (c : Char)
  | set (s : CharSet)
  | assertion (a : Assertion)

def isMeta (c : Char) : Bool :=
  "\\.+*?()|[]\x7b\x7d^$#&-~".toList.contains c

/-- A punctuation or control character of ASCII, which a backslash may stand before. -/
def isEscapable (c : Char) : Bool :=
  isMeta c || (c.toNat < 0x80 && !Text.isAsciiAlphanumeric c && c != '<' && c != '>')

def hexDigit : Scanner Char :=
  Scanner.satisfy (Text.isDigitIn 16)

/-- The character with a code point written in hexadecimal digits. -/
def ofCode (digits : List Char) : Scanner Char := do
  let n := Text.numberIn 16 digits
  Scanner.require n.isValidChar
  return Char.ofNat n

/-- The digits after the letter of a numeric escape: as many as the letter asks for, or any number
in braces. -/
def hexEscape (width : Nat) : Scanner Char := do
  match ← Scanner.peek with
  | some '{' =>
    Scanner.char '{'
    let digits ← Scanner.takeWhile1 (Text.isDigitIn 16)
    Scanner.char '}'
    ofCode digits
  | _ =>
    let digits ← (List.replicate width ()).mapM fun _ => hexDigit
    ofCode digits

/-- The kinds of word boundary that are written in braces. -/
def boundary (ascii : Bool) : Scanner Assertion := do
  let isLetter (c : Char) := Text.isAsciiAlphanumeric c && !c.isDigit || c == '-'
  if (← Scanner.peek) == some '{' then
    match ← Scanner.peekSecond with
    | none => failure
    | some c =>
      if isLetter c then
        Scanner.char '{'
        let name ← Scanner.takeWhile isLetter
        Scanner.char '}'
        match String.ofList name with
        | "start" => return .wordStart ascii
        | "end" => return .wordEnd ascii
        | "start-half" => return .wordStartHalf ascii
        | "end-half" => return .wordEndHalf ascii
        | _ => failure
      else return .wordBoundary ascii
  else return .wordBoundary ascii

/-- The complement of a set. In ASCII mode it would hold parts of characters and is refused. -/
def negated (flags : Flags) (s : CharSet) : Scanner CharSet :=
  if flags.ascii then failure else pure (.compl s)

/-- An escape from its backslash on. -/
def escape (flags : Flags) : Scanner Escape := do
  Scanner.char '\\'
  let c ← Scanner.next
  let digits := if flags.ascii then CharSet.asciiDigit else .digit
  let blanks := if flags.ascii then CharSet.asciiBlank else .blank
  let words := if flags.ascii then CharSet.asciiWord else .word
  match c with
  | 'x' => do
    -- In ASCII mode two digits stand for a byte, which must be a character of its own.
    let isBraced := (← Scanner.peek) == some '{'
    let code ← hexEscape 2
    Scanner.require (isBraced || !flags.ascii || code.toNat < 0x80)
    return .literal code
  | 'u' => .literal <$> hexEscape 4
  | 'U' => .literal <$> hexEscape 8
  | 'd' => return .set digits
  | 's' => return .set blanks
  | 'w' => return .set words
  | 'D' => .set <$> negated flags digits
  | 'S' => .set <$> negated flags blanks
  | 'W' => .set <$> negated flags words
  | 'a' => return .literal '\x07'
  | 'f' => return .literal '\x0c'
  | 't' => return .literal '\t'
  | 'n' => return .literal '\n'
  | 'r' => return .literal '\r'
  | 'v' => return .literal '\x0b'
  | 'A' => return .assertion .textStart
  | 'z' => return .assertion .textEnd
  | 'b' => .assertion <$> boundary flags.ascii
  | 'B' => return .assertion (.notWordBoundary flags.ascii)
  | '<' => return .assertion (.wordStart flags.ascii)
  | '>' => return .assertion (.wordEnd flags.ascii)
  | c => if isEscapable c then return .literal c else failure

/-- The ways in which two parts of a class can be combined. -/
inductive ClassOp where
  | intersection
  | difference
  | symmetricDifference

def ClassOp.apply (op : ClassOp) (a b : CharSet) : CharSet :=
  match op with
  | .intersection => .inter a b
  | .difference => .inter a (.compl b)
  | .symmetricDifference => .inter (.union a b) (.compl (.inter a b))

/-- A class under construction: what stands before the last operator, and the union after it. -/
structure ClassState where
  before : Option (CharSet × ClassOp)
  items : CharSet

def ClassState.add (st : ClassState) (s : CharSet) : ClassState :=
  { st with items := .union st.items s }

/-- The set described so far. The parts of an operator are folded before it applies. -/
def ClassState.result (flags : Flags) (st : ClassState) : CharSet :=
  match st.before with
  | none => st.items
  | some (lhs, op) => op.apply (flags.fold lhs) (flags.fold st.items)

/-- A member of a class: one character or a set of them. -/
def classItem (flags : Flags) : Scanner Escape := do
  let item ←
    if (← Scanner.peek) == some '\\' then escape flags
    else .literal <$> Scanner.next
  match item with
  | .assertion _ => failure
  | .literal c => Scanner.require (!flags.ascii || c.toNat < 0x80)
  | .set _ => pure ()
  return item

/-- A member of a class, or a range between two characters. -/
def classRange (flags : Flags) : Scanner CharSet := do
  let first ← classItem flags
  skip flags
  let single : Scanner CharSet :=
    match first with
    | .literal c => pure (.single c)
    | .set s => pure s
    | .assertion _ => failure
  if (← Scanner.peek) == some '-' then
    let second ← Scanner.peekSecond
    if second == some ']' || second == some '-' then single
    else
      Scanner.char '-'
      skip flags
      match first, ← classItem flags with
      | .literal a, .literal b =>
        Scanner.require (a ≤ b)
        return .range a.toNat b.toNat
      | _, _ => failure
  else single

/-- A named class such as `[:alpha:]`, in the brackets of another class. -/
def asciiClass : Scanner CharSet := do
  Scanner.literal "[:"
  let hat ← Scanner.optional (Scanner.char '^')
  let name ← Scanner.takeWhile (· != ':')
  Scanner.literal ":]"
  match CharSet.named? (String.ofList name) with
  | none => failure
  | some s => return if hat.isSome then .compl s else s

def classOp : Scanner ClassOp :=
  (Scanner.literal "&&" *> pure .intersection) <|> (Scanner.literal "--" *> pure .difference) <|>
    (Scanner.literal "~~" *> pure .symmetricDifference)

/-- One step in a class, up to the bracket that closes it. -/
def classStep (nested : Scanner CharSet) (flags : Flags) (st : ClassState) :
    Scanner ClassState := do
  let st' ←
    match ← Scanner.peek with
    | none | some ']' => failure
    | some '[' => st.add <$> (asciiClass <|> nested)
    | some _ =>
      (do
        let op ← classOp
        return ⟨some (st.result flags, op), .empty⟩) <|>
      st.add <$> classRange flags
  skip flags
  return st'

/-- A class from its opening bracket on. -/
def bracketed (flags : Flags) : Nat → Scanner CharSet
  | 0 => failure
  | depth + 1 => do
    Scanner.char '['
    skip flags
    let hat ← Scanner.optional (Scanner.char '^' <* skip flags)
    let dashes ← Scanner.many (Scanner.char '-' <* skip flags)
    let start := if dashes.isEmpty then CharSet.empty else .single '-'
    let bracket ←
      if dashes.isEmpty then Scanner.optional (Scanner.char ']' <* skip flags) else pure none
    let start := if bracket.isSome then .single ']' else start
    let st ← Scanner.iterate (classStep (bracketed flags depth) flags) ⟨none, start⟩
    Scanner.char ']'
    let s := flags.fold (st.result flags)
    if hat.isSome then negated flags s else pure s

/-- An expression under construction, with the flags in force. -/
structure State where
  flags : Flags
  /-- Group names used so far. -/
  names : List String
  /-- The finished alternatives, the last one first. -/
  branches : List Regex
  /-- The parts of the current alternative, the last one first. -/
  items : List Regex
  /-- The last thing read can be repeated. -/
  repeatable : Bool

def State.push (st : State) (r : Regex) : State :=
  { st with items := r :: st.items, repeatable := true }

def State.branch (st : State) : Regex :=
  match st.items with
  | [] => .empty
  | last :: earlier => earlier.foldl (fun r item => .seq item r) last

def State.result (st : State) : Regex :=
  st.branches.foldl (fun r b => .alt b r) st.branch

/-- The last part, repeated. A question mark after the operator is about which match comes first and
changes nothing here. -/
def State.repeated (st : State) (least : Nat) (most : Option Nat) : Scanner State := do
  Scanner.require st.repeatable
  match st.items with
  | [] => failure
  | last :: earlier =>
    let _ ← Scanner.optional (Scanner.char '?')
    return { st with items := .loop last least most :: earlier }

/-- A number in a counted repetition, with blanks around it. -/
def count (flags : Flags) : Scanner Nat := do
  let _ ← Scanner.takeWhile Text.isBlank
  skip flags
  let digits ← Scanner.takeWhile1 Char.isDigit
  let _ ← Scanner.takeWhile Text.isBlank
  skip flags
  let n := Text.numberIn 10 digits
  Scanner.require (n < 0x100000000)
  return n

/-- The bounds of a counted repetition from its opening brace on. -/
def bounds (flags : Flags) : Scanner (Nat × Option Nat) := do
  Scanner.char '{'
  let least ← count flags
  let most ←
    match ← Scanner.optional (Scanner.char ',' <* skip flags) with
    | none => pure (some least)
    | some () =>
      if (← Scanner.peek) == some '}' then pure none
      else some <$> count flags
  Scanner.char '}'
  Scanner.require ((most.map fun m => decide (least ≤ m)).getD true)
  return (least, most)

/-- The name of a group, up to its closing angle. -/
def groupName : Scanner String := do
  let isFirst (c : Char) := c == '_' || (Text.isWordChar c && !Text.isDecimalDigit c)
  let isLater (c : Char) := Text.isWordChar c || c == '.' || c == '[' || c == ']'
  let first ← Scanner.satisfy isFirst
  let later ← Scanner.takeWhile isLater
  Scanner.char '>'
  return String.ofList (first :: later)

/-- What is known of a list of flags: the flags, whether a minus sign came, whether it was last, and
the letters seen. -/
structure FlagList where
  flags : Flags
  negative : Bool := false
  dangling : Bool := false
  letters : List Char := []

def flagStep (st : FlagList) : Scanner FlagList := do
  let c ← Scanner.satisfy fun c => c != ':' && c != ')'
  if c = '-' then
    Scanner.require (!st.negative)
    return { st with negative := true, dangling := true }
  else
    Scanner.require (!st.letters.contains c)
    match st.flags.set? c (!st.negative) with
    | none => failure
    | some flags => return { st with flags, dangling := false, letters := c :: st.letters }

/-- A group from its opening parenthesis on, or a setting of flags for what follows. -/
def group (body : Flags → List String → Scanner (Regex × List String)) (st : State) :
    Scanner State := do
  Scanner.char '('
  skip st.flags
  let close (flags : Flags) (names : List String) : Scanner State := do
    let (r, names) ← body flags names
    Scanner.char ')'
    return { st with names }.push r
  if (← Scanner.optional (Scanner.literal "?P<" <|> Scanner.literal "?<")).isSome then
    let name ← groupName
    Scanner.require (!st.names.contains name)
    close st.flags (name :: st.names)
  else if (← Scanner.optional (Scanner.char '?')).isSome then
    let list ← Scanner.iterate flagStep { flags := st.flags }
    Scanner.require (!list.dangling)
    let sign ← Scanner.next
    if sign = ':' then close list.flags st.names
    else
      Scanner.require (sign == ')' && !list.letters.isEmpty)
      return { st with flags := list.flags, repeatable := false }
  else close st.flags st.names

/-- One character that stands for itself, an escape, or one of the signs `.`, `^` and `$`. -/
def primitive (flags : Flags) : Scanner Regex := do
  match ← Scanner.peek with
  | none => failure
  | some '\\' =>
    match ← escape flags with
    | .literal c => return .chars (flags.fold (.single c))
    | .set s => return .chars s
    | .assertion a => return .assertion a
  | some c =>
    let _ ← Scanner.next
    match c with
    | '.' =>
      Scanner.require (!flags.ascii)
      return .chars (
        if flags.dotAll then .compl .empty
        else if flags.crlf then .compl (.union (.single '\n') (.single '\r'))
        else .compl (.single '\n'))
    | '^' => return .assertion (if flags.multiLine then .lineStart flags.crlf else .textStart)
    | '$' => return .assertion (if flags.multiLine then .lineEnd flags.crlf else .textEnd)
    | c => return .chars (flags.fold (.single c))

/-- One step in an expression, up to the parenthesis that closes it. -/
def step (body : Flags → List String → Scanner (Regex × List String)) (st : State) :
    Scanner State := do
  let st' ←
    match ← Scanner.peek with
    | none | some ')' => failure
    | some '(' => group body st
    | some '|' => do
      Scanner.char '|'
      pure { st with branches := st.branch :: st.branches, items := [], repeatable := false }
    | some '[' => (fun s => st.push (.chars s)) <$> bracketed st.flags maxNesting
    | some '?' => Scanner.char '?' *> st.repeated 0 (some 1)
    | some '*' => Scanner.char '*' *> st.repeated 0 none
    | some '+' => Scanner.char '+' *> st.repeated 1 none
    | some '{' => do
      let (least, most) ← bounds st.flags
      st.repeated least most
    | some _ => st.push <$> primitive st.flags
  skip st'.flags
  return st'

/-- An expression up to its end or to the parenthesis that closes it. -/
def expression : Nat → Flags → List String → Scanner (Regex × List String)
  | 0, _, _ => failure
  | depth + 1, flags, names => do
    skip flags
    let st ← Scanner.iterate (step (expression depth)) ⟨flags, names, [], [], false⟩
    return (st.result, st.names)

end Read

/-- Reads a regular expression. -/
def Regex.parse? (flags : Flags) (pattern : String) : Option Regex :=
  (Scanner.runWhole (Read.expression (maxNesting + 1) flags []) pattern).map Prod.fst

end SheetPolicy.Pattern

import SheetPolicy.Decimal.Reader
import SheetPolicy.Text.Scanner
import SheetPolicy.Toml.Datetime
import SheetPolicy.Toml.Draft

/-!
Reading configuration files. A text that is no such file has no reading.
-/

namespace SheetPolicy.Toml

/-- Arrays and tables in braces may be nested less deep than this, and a key has fewer parts. -/
def maxNesting : Nat := 80

namespace Read

def isGap (c : Char) : Bool :=
  c == ' ' || c == '\t'

def gap : Scanner Unit := do
  let _ ← Scanner.takeWhile isGap

def newline : Scanner Unit :=
  Scanner.char '\n' <|> Scanner.literal "\r\n"

/-- A character that may stand in a comment or a text: a tab or anything but a control
character of ASCII. -/
def isPlain (c : Char) : Bool :=
  c == '\t' || (0x20 ≤ c.toNat && c.toNat != 0x7F)

def comment : Scanner Unit := do
  Scanner.char '#'
  let _ ← Scanner.takeWhile isPlain

/-- What may stand at the end of a line, and the end. -/
def lineEnd : Scanner Unit := do
  gap
  let _ ← Scanner.optional comment
  newline <|> Scanner.atEnd

/-- Blanks, comments and line ends inside an array. -/
def looseGap : Scanner Unit :=
  Scanner.iterate (fun _ => (do let _ ← Scanner.takeWhile1 isGap) <|> newline <|>
    (do comment; newline)) ()

/-! Strings. -/

/-- The character with a code point of so many hexadecimal digits. -/
def codePoint (width : Nat) : Scanner Char := do
  let digits ← (List.replicate width ()).mapM fun _ => Scanner.satisfy (Text.isDigitIn 16)
  let n := Text.numberIn 16 digits
  Scanner.require n.isValidChar
  return Char.ofNat n

def escape : Scanner Char := do
  Scanner.char '\\'
  match ← Scanner.next with
  | 'b' => return '\x08'
  | 't' => return '\t'
  | 'n' => return '\n'
  | 'f' => return '\x0c'
  | 'r' => return '\r'
  | '"' => return '"'
  | '\\' => return '\\'
  | 'u' => codePoint 4
  | 'U' => codePoint 8
  | _ => failure

def isBasic (c : Char) : Bool :=
  isPlain c && c != '"' && c != '\\'

def isLiteral (c : Char) : Bool :=
  isPlain c && c != '\''

/-- A run of plain characters, or an escape, between double quotes. -/
def basicUnit : Scanner (List Char) :=
  Scanner.takeWhile1 isBasic <|> ([·]) <$> escape

/-- A string on one line between double quotes. -/
def basicString : Scanner String := do
  Scanner.char '"'
  let units ← Scanner.many basicUnit
  Scanner.char '"'
  return String.ofList units.flatten

/-- A string on one line between single quotes, which has no escapes. -/
def literalString : Scanner String := do
  Scanner.char '\''
  let run ← Scanner.takeWhile isLiteral
  Scanner.char '\''
  return String.ofList run

/-- A backslash at the end of a line, which joins it to the next text. -/
def joinedLines : Scanner (List Char) := do
  Scanner.char '\\'
  gap
  newline
  Scanner.iterate (fun _ => (do let _ ← Scanner.takeWhile1 isGap) <|> newline) ()
  return []

def lineBreak : Scanner (List Char) := do
  newline
  return ['\n']

/-- One or two quotes within a string that three quotes enclose. -/
def innerQuotes (quote : Char) : Scanner (List Char) := do
  let run ← Scanner.takeWhile1 (· == quote)
  Scanner.require (run.length ≤ 2)
  return run

/-- A string that three quotes enclose. Up to two more quotes may stand before the closing ones,
and a line break after the opening ones does not count. -/
def longString (quote : Char) (units : Scanner (List Char)) : Scanner String := do
  Scanner.char quote
  Scanner.char quote
  Scanner.char quote
  let _ ← Scanner.optional newline
  let body ← Scanner.many (units <|> innerQuotes quote)
  let run ← Scanner.takeWhile (· == quote)
  Scanner.require (3 ≤ run.length && run.length ≤ 5)
  return String.ofList (body.flatten ++ run.drop 3)

def string : Scanner String :=
  longString '"' (Scanner.takeWhile1 isBasic <|> lineBreak <|> joinedLines <|> ([·]) <$> escape) <|>
    basicString <|> longString '\'' (Scanner.takeWhile1 isLiteral <|> lineBreak) <|> literalString

/-! Numbers. -/

/-- Digits, with single underscores between them, which do not count. -/
def digitRun (base : Nat) : Scanner (List Char) := do
  let digit := Scanner.satisfy (Text.isDigitIn base)
  let first ← digit
  let rest ← Scanner.many (digit <|> (do Scanner.char '_'; digit))
  return first :: rest

def sign : Scanner (List Char) :=
  Option.toList <$> Scanner.optional (Scanner.satisfy fun c => c == '+' || c == '-')

/-- Decimal digits without a zero in front. -/
def wholeDigits : Scanner (List Char) := do
  if (← Scanner.peek) == some '0' then
    Scanner.char '0'
    return ['0']
  else digitRun 10

def basedInteger (mark : String) (base : Nat) : Scanner Int := do
  Scanner.literal mark
  let digits ← digitRun base
  return Text.numberIn base digits

def decimalInteger : Scanner Int := do
  let mark ← sign
  let digits ← wholeDigits
  let size : Int := Text.numberIn 10 digits
  return if mark = ['-'] then -size else size

/-- A number of 64 bits with a sign. -/
def integer : Scanner Int := do
  let n ← basedInteger "0x" 16 <|> basedInteger "0o" 8 <|> basedInteger "0b" 2 <|> decimalInteger
  Scanner.require (-0x8000000000000000 ≤ n && n < 0x8000000000000000)
  return n

def fractionPart : Scanner (List Char) := do
  Scanner.char '.'
  let digits ← digitRun 10
  return '.' :: digits

def exponentPart : Scanner (List Char) := do
  let _ ← Scanner.satisfy fun c => c == 'e' || c == 'E'
  let mark ← sign
  let digits ← digitRun 10
  return 'e' :: mark ++ digits

/-- A number with a fraction, an exponent, or both. -/
def floatText : Scanner (List Char) := do
  let mark ← sign
  let whole ← wholeDigits
  let tail ← exponentPart <|> (do
    let fraction ← fractionPart
    let exponent ← Scanner.optional exponentPart
    return fraction ++ exponent.getD [])
  return mark ++ whole ++ tail

/-- A binary number. One that is too large is refused, but may be infinite below zero. -/
def float : Scanner Binary64 :=
  (do
    let text ← floatText
    match Binary64.ofText? (String.ofList text) with
    | some x => do
      Scanner.require (x != Binary64.infinity)
      return x
    | none => failure) <|> (do
    let mark ← sign
    let x ← (do Scanner.literal "inf"; return Binary64.infinity) <|>
      (do Scanner.literal "nan"; return Binary64.nan)
    return if mark = ['-'] then x.negate else x)

/-! Keys and values. -/

def boolean : Scanner Bool :=
  (do Scanner.literal "true"; return true) <|> (do Scanner.literal "false"; return false)

def simpleKey : Scanner String :=
  basicString <|> literalString <|> String.ofList <$> Scanner.takeWhile1 isBareKeyChar

/-- A key and the keys before it, if dots divide them. -/
def key : Scanner (List String × String) := do
  let part : Scanner String := do
    gap
    let name ← simpleKey
    gap
    return name
  let first ← part
  let rest ← Scanner.many (do Scanner.char '.'; part)
  let names := first :: rest
  Scanner.require (names.length < maxNesting)
  return (names.dropLast, names.getLastD first)

def scalar : Scanner Toml :=
  .string <$> string <|> .datetime <$> Datetime.scan <|> .float <$> float <|>
    .integer <$> integer <|> .boolean <$> boolean

/-- The elements so far, the last one first, and whether another may follow. -/
def arrayElements (element : Scanner Toml) : Scanner (List Toml × Bool) :=
  Scanner.iterate (fun (elements, more) => do
    Scanner.require more
    looseGap
    let v ← element
    looseGap
    let comma ← Scanner.optional (Scanner.char ',')
    return (v :: elements, comma.isSome)) ([], true)

def array (element : Scanner Toml) : Scanner Toml := do
  Scanner.char '['
  let (elements, _) ← arrayElements element
  looseGap
  Scanner.char ']'
  return .array elements.reverse

def keyValue (element : Scanner Toml) : Scanner ((List String × String) × Toml) := do
  let name ← key
  Scanner.char '='
  gap
  let v ← element
  return (name, v)

def ofOption {α : Type} (x : Option α) : Scanner α :=
  match x with
  | some a => pure a
  | none => failure

/-- A table in braces, all of it on one line. -/
def inlineTable (element : Scanner Toml) : Scanner Toml := do
  Scanner.char '\x7b'
  let first ← Scanner.optional (keyValue element)
  let rest ← match first with
    | none => pure []
    | some _ => Scanner.many (do gap; Scanner.char ','; keyValue element)
  gap
  Scanner.char '\x7d'
  let entries ← ofOption ((first.toList ++ rest).foldlM
    (fun entries ((path, name), v) => Draft.insert path name v entries) [])
  return (Draft.table .header entries).toToml

/-- A value with arrays and tables nested up to a depth. -/
def value : Nat → Scanner Toml
  | 0 => scalar
  | depth + 1 => scalar <|> array (value depth) <|> inlineTable (value depth)

/-! Lines. -/

def header (opening closing : String) : Scanner (List String) := do
  Scanner.literal opening
  let (path, name) ← key
  Scanner.literal closing
  return path ++ [name]

/-- What a line may hold before its end. -/
def lineContent (o : Outline) : Scanner Outline :=
  (do
    let path ← header "[[" "]]"
    ofOption (o.openElement path)) <|> (do
    let path ← header "[" "]"
    ofOption (o.openTable path)) <|> (do
    let ((path, name), v) ← keyValue (value (maxNesting - 1))
    ofOption (o.set path name v))

def line (o : Outline) : Scanner Outline := do
  gap
  let content ← Scanner.optional (lineContent o)
  lineEnd
  return content.getD o

/-- A whole file; a byte order mark at its start does not count. -/
def document : Scanner Outline := do
  let _ ← Scanner.optional (Scanner.char '\uFEFF')
  Scanner.iterate line {}

end Read

/-- Reads a file. -/
def parse? (text : String) : Option Table := do
  let outline ← Scanner.runWhole Read.document text
  let entries ← outline.place
  return Table.ofEntries (Draft.tomlEntries entries)

end SheetPolicy.Toml

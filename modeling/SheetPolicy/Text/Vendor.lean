import SheetPolicy.Text.Blank

/-!
Vendor marks of names, such as the `-webkit-` of `-webkit-any-link`.
-/

namespace SheetPolicy.Text

/-- The name without its vendor mark: a hyphen, a word of ASCII letters, digits and underscores,
and a second hyphen. A name without such a mark stays as it is. -/
def withoutVendor (name : String) : String :=
  match name.toList with
  | '-' :: rest =>
    let isWord (c : Char) := isAsciiAlphanumeric c || c == '_'
    match rest.takeWhile isWord, rest.dropWhile isWord with
    | _ :: _, '-' :: bare => String.ofList bare
    | _, _ => name
  | _ => name

end SheetPolicy.Text

/-!
Characters with their places. A text is read as a list of characters that each know the byte
offset, in the UTF-8 encoding, at which they stand. Cutting, trimming and removing characters
then keeps every place.
-/

namespace SheetPolicy

/-- A character and the byte offset at which it stands. -/
structure Located where
  offset : Nat
  char : Char
deriving DecidableEq

namespace Located

/-- The offset just past the character. -/
def stop (c : Located) : Nat :=
  c.offset + c.char.utf8Size

/-- Places the characters one after the other from byte offset `start` on. -/
def place (start : Nat) : List Char → List Located
  | [] => []
  | c :: cs => ⟨start, c⟩ :: place (start + c.utf8Size) cs

def ofString (s : String) : List Located :=
  place 0 s.toList

def text (cs : List Located) : String :=
  String.ofList (cs.map Located.char)

/-- The offset at which `cs` starts, where a text that ends at `size` goes on with `cs`. -/
def startOf (size : Nat) : List Located → Nat
  | [] => size
  | c :: _ => c.offset

/-- The offset of byte `i` of the text made of `cs`; the byte after the last one is at `stop`. -/
def offsetAt (stop : Nat) : List Located → Nat → Nat
  | [], i => stop + i
  | c :: cs, i =>
    if i < c.char.utf8Size then c.offset + i else offsetAt stop cs (i - c.char.utf8Size)

@[simp] theorem place_nil (start : Nat) : place start [] = [] := rfl

@[simp] theorem length_place (start : Nat) (cs : List Char) :
    (place start cs).length = cs.length := by
  induction cs generalizing start with
  | nil => rfl
  | cons c cs ih => simp [place, ih]

@[simp] theorem map_char_place (start : Nat) (cs : List Char) :
    (place start cs).map Located.char = cs := by
  induction cs generalizing start with
  | nil => rfl
  | cons c cs ih => simp [place, ih]

end Located

end SheetPolicy

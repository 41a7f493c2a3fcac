import TropicalAlgebra.Error

/-!
# Reading the name of an algebra

A name is read in letters of either case, with any number of hyphens, underscores and spaces between
them, and with blanks around it. Blanks are the characters with the Unicode property `White_Space`,
of which there are 25.
-/

namespace TropicalAlgebra

namespace Text

/-- The blank characters as closed ranges of code points, in increasing order. -/
def blankRanges : List (Nat × Nat) :=
  [(0x09, 0x0D), (0x20, 0x20), (0x85, 0x85), (0xA0, 0xA0), (0x1680, 0x1680), (0x2000, 0x200A),
   (0x2028, 0x2029), (0x202F, 0x202F), (0x205F, 0x205F), (0x3000, 0x3000)]

def isBlank (c : Char) : Bool := blankRanges.any fun r => r.1 ≤ c.toNat && c.toNat ≤ r.2

/-- A text without the blanks at its beginning and its end. -/
def trim (cs : List Char) : List Char :=
  ((cs.dropWhile isBlank).reverse.dropWhile isBlank).reverse

end Text

namespace AlgebraName

/-- The characters that may stand between the letters of a name. -/
def isSeparator (c : Char) : Bool := c == '-' || c == '_' || c == ' '

def letters (n : AlgebraName) : List Char := n.text.toList.filter fun c => !isSeparator c

/-- What counts in a text that is to be read: its lower-case letters without separators and without
blanks at the ends. -/
def normalize (cs : List Char) : List Char :=
  ((Text.trim cs).filter fun c => !isSeparator c).map Char.toLower

/-- The algebra with the given name. -/
def parse {α : Type} (text : String) : Outcome α AlgebraName :=
  match all.find? fun n => n.letters == normalize text.toList with
  | some n => .ok n
  | none => .error (.configuration (.unknownAlgebra text))

end AlgebraName

end TropicalAlgebra

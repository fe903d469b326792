/-!
Blank characters: those with the white space property.
-/

namespace Chronicle.Text

/-- The code points with the white space property, as ranges with both ends included. -/
def blankRanges : List (Nat × Nat) :=
  [(0x09, 0x0D), (0x20, 0x20), (0x85, 0x85), (0xA0, 0xA0), (0x1680, 0x1680), (0x2000, 0x200A),
    (0x2028, 0x2029), (0x202F, 0x202F), (0x205F, 0x205F), (0x3000, 0x3000)]

def isBlank (c : Char) : Bool :=
  blankRanges.any fun range => range.1 ≤ c.toNat && c.toNat ≤ range.2

/-- Blanks are taken off both ends. -/
def trim (content : List Char) : List Char :=
  ((content.dropWhile isBlank).reverse.dropWhile isBlank).reverse

end Chronicle.Text

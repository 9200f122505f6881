/-
# Blank characters

The characters of the Unicode property `White_Space`, and the text that is left
when they are taken off both ends.
-/

namespace Keel

namespace Text

/-- Ranges of the property `White_Space`, both ends included. -/
def blankRanges : List (Nat × Nat) :=
  [(0x9, 0xd), (0x20, 0x20), (0x85, 0x85), (0xa0, 0xa0), (0x1680, 0x1680), (0x2000, 0x200a),
    (0x2028, 0x2029), (0x202f, 0x202f), (0x205f, 0x205f), (0x3000, 0x3000)]

def isBlank (c : Char) : Bool :=
  blankRanges.any fun (first, last) => first ≤ c.toNat && c.toNat ≤ last

/-- Text without the blanks at its ends. -/
def trim (text : String) : String :=
  String.ofList ((text.toList.dropWhile isBlank).reverse.dropWhile isBlank).reverse

/-- Whether text has a character that is not blank. -/
def hasInk (text : String) : Bool := text.toList.any (! isBlank ·)

/-- Text with the ASCII capitals made small. -/
def lower (text : String) : String := String.ofList (text.toList.map Char.toLower)

end Text

end Keel

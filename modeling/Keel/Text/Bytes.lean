/-
# Bytes of text

Text as the bytes of its UTF-8 form, and a byte as two hexadecimal digits.
-/

namespace Keel.Text

def bytes (text : String) : List UInt8 := text.toUTF8.data.toList

/-- Two digits, lower case. -/
def hexByte (b : UInt8) : List Char :=
  [Nat.digitChar (b.toNat / 16), Nat.digitChar (b.toNat % 16)]

/-- The ASCII character of a byte. -/
def charOfByte (b : UInt8) : Char := Char.ofNat b.toNat

end Keel.Text

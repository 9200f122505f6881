/-
# Quoted text in listings

A string constant is listed between double quotes.  Quote and backslash are
escaped, so are newline, carriage return, tab and NUL; the other characters
without a visible form are written by their code point in lower-case hexadecimal
digits between braces.
-/

namespace Keel

namespace Text

/-- Hexadecimal digits of a number, lower case, none in front that is zero. -/
def hex (n : Nat) : String := String.ofList (Nat.toDigits 16 n)

/-- Characters without a visible form: the two blocks of controls with the
delete and no-break space between and after them, and the soft hyphen. -/
def isHidden (c : Char) : Bool :=
  c.toNat < 0x20 || (0x7f ≤ c.toNat && c.toNat ≤ 0xa0) || c.toNat == 0xad

/-- One character of a listed string. -/
def quoteChar (c : Char) : String :=
  if c = '"' then "\\\""
  else if c = '\\' then "\\\\"
  else if c = '\n' then "\\n"
  else if c = '\r' then "\\r"
  else if c = '\t' then "\\t"
  else if c = '\x00' then "\\0"
  else if isHidden c then "\\u\x7b" ++ hex c.toNat ++ "\x7d"
  else c.toString

/-- A string constant as it is listed. -/
def quote (text : String) : String :=
  "\"" ++ String.join (text.toList.map quoteChar) ++ "\""

end Text

end Keel

/-
# Literals

Constants as C writes them.  A string is given by its bytes: printable ASCII stands for
itself, except quote and backslash; newline, carriage return and tab have escapes of
their own; every other byte is `\x` and two hexadecimal digits.  C takes as many digits
as follow `\x`, so the literal is closed and opened again before a character that could
be one.
-/
import Keel.Text.Bytes
import Keel.Ty

namespace Keel.Target

/-! ### Strings -/

/-- Bytes that stand for themselves, quote and backslash aside. -/
def isPrintable (b : UInt8) : Bool := 0x20 ≤ b && b ≤ 0x7e

def isHexDigit (b : UInt8) : Bool :=
  (48 ≤ b && b ≤ 57) || (65 ≤ b && b ≤ 70) || (97 ≤ b && b ≤ 102)

/-- The escape of a byte that has one of its own. -/
def shortEscape? (b : UInt8) : Option Char :=
  match Text.charOfByte b with
  | '\\' => some '\\'
  | '"' => some '"'
  | '\n' => some 'n'
  | '\r' => some 'r'
  | '\t' => some 't'
  | _ => none

/-- Whether a byte is written by its number. -/
def isNumbered (b : UInt8) : Bool := (shortEscape? b).isNone && !isPrintable b

def escapeByte (b : UInt8) : List Char :=
  match shortEscape? b with
  | some c => ['\\', c]
  | none => if isPrintable b then [Text.charOfByte b] else '\\' :: 'x' :: Text.hexByte b

/-- Escapes bytes; `numbered` says that the one before was written by its number. -/
def escapeBytes : (numbered : Bool) → List UInt8 → List Char
  | _, [] => []
  | numbered, b :: rest =>
    (if numbered && isHexDigit b then ['"', ' ', '"'] else []) ++
      escapeByte b ++ escapeBytes (isNumbered b) rest

/-- A string literal with its quotes. -/
def stringLiteral (text : String) : String :=
  String.ofList ('"' :: escapeBytes false (Text.bytes text) ++ ['"'])

/-! ### Integers -/

def intType : IntKind → String
  | .i8 => "int8_t"
  | .i16 => "int16_t"
  | .i32 => "int32_t"
  | .i64 => "int64_t"
  | .u8 => "uint8_t"
  | .u16 => "uint16_t"
  | .u32 => "uint32_t"
  | .u64 => "uint64_t"

/-- A constant of a kind.  The least `int64_t` cannot be written as a negated number. -/
def intLiteral (value : Int) (kind : IntKind) : String :=
  match kind with
  | .i64 => if value = IntKind.min .i64 then "INT64_MIN" else s!"INT64_C({value})"
  | .u64 => s!"UINT64_C({value})"
  | kind => "((" ++ intType kind ++ ")" ++ toString value ++ ")"

end Keel.Target

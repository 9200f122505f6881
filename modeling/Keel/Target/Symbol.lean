/-
# Symbols

Names of the program become C identifiers.  Letters and digits stand for themselves;
every other byte, the underscore too, is an underscore and two hexadecimal digits, so
that different names stay different.

| declared | symbol |
| --- | --- |
| function `f` | `kf_f` |
| struct `S` | `ks_S` |
| enum `E` | `ke_E` |
-/
import Keel.Text.Bytes

namespace Keel.Target

def mangleByte (b : UInt8) : List Char :=
  if (Text.charOfByte b).isAlphanum then [Text.charOfByte b] else '_' :: Text.hexByte b

def mangle (name : String) : String := String.ofList ((Text.bytes name).flatMap mangleByte)

def functionSymbol (name : String) : String := "kf_" ++ mangle name

def structSymbol (name : String) : String := "ks_" ++ mangle name

def enumSymbol (name : String) : String := "ke_" ++ mangle name

end Keel.Target

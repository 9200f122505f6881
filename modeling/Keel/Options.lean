/-
# Build options

What the emitted `main` does with the result of the entry function is chosen by a flag
or else by the environment; blank text counts as no choice.

| mode | result of the entry function |
| --- | --- |
| `program` | is printed; the exit status is 0 |
| `tool` | becomes the exit status |
-/
import Keel.Text.Blank

namespace Keel

inductive EmitMode where
  | program
  | tool
deriving DecidableEq, Repr

inductive OptionError where
  | unknownMode (text : String)
deriving DecidableEq, Repr

def OptionError.message : OptionError → String
  | unknownMode text => s!"unknown emit mode `{text}` (expected `program` or `tool`)"

namespace EmitMode

def name : EmitMode → String
  | program => "program"
  | tool => "tool"

/-- Reads a mode; capitals and blanks around it make no difference. -/
def ofText? (text : String) : Option EmitMode :=
  [program, tool].find? (·.name == Text.lower (Text.trim text))

/-- The flag, if there is one, hides the environment. -/
def choose (flag environment : Option String) : Except OptionError EmitMode :=
  match (flag <|> environment).filter Text.hasInk with
  | none => .ok program
  | some text =>
    match ofText? text with
    | some mode => .ok mode
    | none => .error (.unknownMode text)

end EmitMode

structure Options where
  mode : EmitMode := .program
  /-- The package whose root module has the entry function; a library has none. -/
  entryPackage : Option String := none
  entryFunction : String := "main"
deriving DecidableEq, Repr

/-- Options from the flags for mode and package and from the environment. -/
def Options.ofSettings (mode environment entry : Option String) : Except OptionError Options := do
  return { mode := ← EmitMode.choose mode environment, entryPackage := entry.filter Text.hasInk }

end Keel

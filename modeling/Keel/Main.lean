/-
# The program

The command line over the files of the machine.  The names of the files below the
source directory come from the standard input, one a line, as paths from that
directory.
-/
import Keel.Cli

namespace Keel
namespace Cli

/-- Runs an action on files; what goes wrong is an error of its own kind or a text. -/
def guarded {α : Type} (action : IO α) : IO (Except FileError α) := do
  try
    return .ok (← action)
  catch
    | .noFileOrDirectory _ _ _ => return .error .missing
    | .inappropriateType _ _ _ => return .error .notDirectory
    | e => return .error (.other (toString e))

def inputLines : IO (List SourcePath) := do
  let stdin ← IO.getStdin
  let mut lines := #[]
  repeat
    let line ← stdin.getLine
    if line.isEmpty then
      break
    let name := Text.trim line
    if !name.isEmpty then
      lines := lines.push ⟨name⟩
  return lines.toList

def machine : Host IO where
  list := fun _ => guarded inputLines
  read := fun root path => guarded (IO.FS.readBinFile (root ++ "/" ++ path.text))
  write := fun path text => guarded (IO.FS.writeFile path text)
  print := fun text => IO.print text
  report := fun line => IO.eprintln line
  modeSetting := IO.getEnv "KEEL_EMIT_MODE"

end Cli
end Keel

def main (args : List String) : IO UInt32 := do
  return (← Keel.Cli.run Keel.Cli.machine args).toUInt32

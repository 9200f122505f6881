/-
# The command line

`keel check` checks the sources below a directory, `keel build` writes their C text.

| exit status | meaning |
| --- | --- |
| 0 | done |
| 1 | the sources are wrong, or a file cannot be read or written |
| 2 | the command line is wrong |

The arguments are read first, then the sources, and only then the command is looked at.
What the outside world does is behind `Host`, so that a run is a function of it.
-/
import Keel.Build

namespace Keel.Cli

/-! ### Arguments -/

def usage : String :=
  "Usage: keel [build|check] <source-dir> [--entry <package>] [--mode program|tool] [--out <file.c>]"

inductive UsageError where
  | missingCommand
  | missingDirectory
  | missingValue (flag : String)
  | unknownFlag (flag : String)
deriving DecidableEq, Repr

def UsageError.message : UsageError → String
  | missingCommand => "missing command"
  | missingDirectory => "missing source directory"
  | missingValue flag => s!"`{flag}` needs a value"
  | unknownFlag flag => s!"unknown flag `{flag}`"

structure Invocation where
  command : String
  root : String
  entry : Option String := none
  mode : Option String := none
  out : Option String := none
deriving DecidableEq, Repr

namespace Invocation

/-- Sets what a flag stands for, if there is such a flag. -/
def set? (inv : Invocation) (flag value : String) : Option Invocation :=
  match flag with
  | "--entry" => some { inv with entry := some value }
  | "--mode" => some { inv with mode := some value }
  | "--out" | "-o" => some { inv with out := some value }
  | _ => none

/-- Flags with their values; the last of several wins. -/
def withFlags (inv : Invocation) : List String → Except UsageError Invocation
  | [] => .ok inv
  | [flag] =>
    match inv.set? flag "" with
    | some _ => .error (.missingValue flag)
    | none => .error (.unknownFlag flag)
  | flag :: value :: rest =>
    match inv.set? flag value with
    | some inv => inv.withFlags rest
    | none => .error (.unknownFlag flag)

def ofArgs : List String → Except UsageError Invocation
  | [] => .error .missingCommand
  | [_] => .error .missingDirectory
  | command :: root :: flags => withFlags { command, root } flags

end Invocation

/-! ### The outside world -/

inductive FileError where
  | missing
  | notDirectory
  | isDirectory
  | notText
  | other (text : String)
deriving DecidableEq, Repr

def FileError.message : FileError → String
  | missing => "No such file or directory (os error 2)"
  | notDirectory => "Not a directory (os error 20)"
  | isDirectory => "Is a directory (os error 21)"
  | notText => "stream did not contain valid UTF-8"
  | other text => text

/-- What a run needs of the outside world. -/
structure Host (m : Type → Type) where
  /-- All files below a directory, as paths from there. -/
  list : (root : String) → m (Except FileError (List SourcePath))
  /-- The content of a file below a directory. -/
  read : (root : String) → SourcePath → m (Except FileError ByteArray)
  write : (path text : String) → m (Except FileError Unit)
  /-- Writes text to the standard output. -/
  print : String → m Unit
  /-- Writes a line to the standard error. -/
  report : String → m Unit
  /-- The emit mode that the environment asks for. -/
  modeSetting : m (Option String)

/-! ### Sources -/

def sourceExtension : String := "kl"

/-- Source files go by the extension of their name. -/
def isSource (path : SourcePath) : Bool :=
  (path.names.getLast?.bind SourcePath.extension?) == some sourceExtension

/-- The source files among paths, in the order of paths. -/
def sourcesAmong (paths : List SourcePath) : List SourcePath :=
  (paths.filter isSource).mergeSort fun a b => (SourcePath.order a b).isLE

def decode (path : SourcePath) (content : ByteArray) : Except FileError SourceFile :=
  match String.fromUTF8? content with
  | some text => .ok ⟨path, text⟩
  | none => .error .notText

section Run

variable {m : Type → Type} [Monad m] (host : Host m)

/-- Reads files in order, up to the first that cannot be read. -/
def readSources (root : String) : List SourcePath → m (Except FileError (List SourceFile))
  | [] => return .ok []
  | path :: rest => do
    match (← host.read root path).bind (decode path) with
    | .error e => return .error e
    | .ok file => return (← readSources root rest).map (file :: ·)

def loadSources (root : String) : m (Except FileError (List SourceFile)) := do
  match ← host.list root with
  | .error e => return .error e
  | .ok paths => readSources host root (sourcesAmong paths)

/-! ### Commands -/

def reportAccess (path : String) (e : FileError) : m Nat := do
  host.report s!"Failed to access {path}: {e.message}"
  return 1

def diagnosticLines (files : List SourceFile) (d : Diagnostic) : List String :=
  match SourceFile.find? files d.path, d.help with
  | some file, some help => [d.located file.text, "  help: " ++ help]
  | some file, none => [d.located file.text]
  | none, _ => [d.brief]

def reportBuild (files : List SourceFile) (e : BuildError) : m Nat := do
  (e.diagnostics.flatMap (diagnosticLines files)).forM host.report
  host.report s!"error: {e.message}"
  return 1

def check (files : List SourceFile) : m Nat := do
  match SourceFile.check files with
  | .error e => reportBuild host files (.source e)
  | .ok program =>
    host.print s!"ok: {program.functions.size} function(s) checked\n"
    return 0

/-- Writes the text to the file that was asked for, or else to the standard output. -/
def deliver (out : Option String) (text : String) : m Nat := do
  match out with
  | none =>
    host.print text
    return 0
  | some path =>
    match ← host.write path text with
    | .ok _ => return 0
    | .error e => reportAccess host path e

def build (inv : Invocation) (files : List SourceFile) : m Nat := do
  match Options.ofSettings inv.mode (← host.modeSetting) inv.entry with
  | .error e =>
    host.report e.message
    return 2
  | .ok options =>
    match Build.ofFiles files options with
    | .error e => reportBuild host files e
    | .ok done => deliver host inv.out done.text

def run (args : List String) : m Nat := do
  match Invocation.ofArgs args with
  | .error e =>
    host.report e.message
    host.report usage
    return 2
  | .ok inv =>
    match ← loadSources host inv.root with
    | .error e => reportAccess host inv.root e
    | .ok files =>
      match inv.command with
      | "check" => check host files
      | "build" => build host inv files
      | other =>
        host.report s!"Invalid command `{other}`. {usage}"
        return 2

end Run

end Keel.Cli

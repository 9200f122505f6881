/-
# From files to a checked program

All files are read before anything is checked, so that every mistake in their syntax
is reported together.  Nodes are numbered through all files.
-/
import Keel.Typing.Program

namespace Keel

inductive SourceError where
  /-- Some file is not a module. -/
  | unreadable (diagnostics : List Diagnostic)
  /-- The modules do not make a program. -/
  | rejected (diagnostics : List Diagnostic)
deriving Repr

namespace SourceError

def diagnostics : SourceError → List Diagnostic
  | unreadable ds | rejected ds => ds

def message : SourceError → String
  | unreadable ds => toString ds.length ++ " syntax error(s)"
  | rejected ds => toString ds.length ++ " error(s) found"

end SourceError

def SyntaxError.diagnostic (path : SourcePath) (e : SyntaxError) : Diagnostic :=
  { path := path, span := e.span, message := e.problem.message, help := e.problem.help }

namespace SourceFile

/-- Reads files in order: the modules, the first unused number, and the mistakes. -/
def readAll : List SourceFile → NodeId → List ModuleDef × NodeId × List Diagnostic
  | [], nextId => ([], nextId, [])
  | file :: rest, nextId =>
    match ModuleDef.ofText file.path file.text nextId with
    | .ok (m, nextId) =>
      let (modules, last, errors) := readAll rest nextId
      (m :: modules, last, errors)
    | .error problems =>
      let (modules, last, errors) := readAll rest nextId
      (modules, last, problems.map (SyntaxError.diagnostic file.path) ++ errors)

/-- Reads files that are all modules. -/
def read (files : List SourceFile) : Except SourceError (List ModuleDef × NodeId) :=
  match readAll files 0 with
  | (modules, nextId, []) => .ok (modules, nextId)
  | (_, _, errors) => .error (.unreadable (Diagnostic.sorted errors))

def check (files : List SourceFile) : Except SourceError CheckedProgram := do
  let modules ← read files
  (Typing.checkModules modules.1 modules.2).mapError fun reports =>
    .rejected (Diagnostic.sorted (reports.map Report.diagnostic))

end SourceFile

end Keel

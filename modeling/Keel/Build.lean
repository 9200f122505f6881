/-
# Builds

Files are checked, the entry function is found, the program is lowered and its C text
is written.  Each step runs only if the one before found nothing wrong.
-/
import Keel.Lowering.Program
import Keel.Sources
import Keel.Target.Program

namespace Keel

inductive BuildError where
  | source (e : SourceError)
  | layout (e : LayoutError)
  | fault (f : Fault)
deriving Repr

namespace BuildError

def diagnostics : BuildError → List Diagnostic
  | source e => e.diagnostics
  | layout _ | fault _ => []

def message : BuildError → String
  | source e => e.message
  | layout e => e.message
  | fault f => f.message

def ofEmit : Target.EmitError → BuildError
  | .layout e => layout e
  | .fault f => fault f

end BuildError

structure Build where
  program : Ir.Program
  text : String

namespace Build

/-- The file that holds the root module of a package, or the package where it would be. -/
def rootFile (files : List SourceFile) (package : String) : SourcePath :=
  match files.find? fun file => ModulePath.ofFile file.path == ⟨package, []⟩ with
  | some file => file.path
  | none => ⟨package⟩

def parametersDiagnostic (name : QualName) (f : CheckedFunction) : Diagnostic :=
  { path := f.file
    span := f.decl.span
    message := s!"entry function `{name.text}` must not take parameters"
    help := none }

def missingEntryDiagnostic (files : List SourceFile) (package function : String) : Diagnostic :=
  let path := rootFile files package
  { path
    span := Span.zero
    message := s!"no entry function `{function}` in the root module of package `{package}`"
    help := some s!"add `fn {function}() -> i32 \x7b ... \x7d` to {path.text}" }

/-- The entry function: in the root module of the package, and without parameters. -/
def findEntry (files : List SourceFile) (program : CheckedProgram) (package function : String) :
    Except SourceError QualName :=
  let name : QualName := ⟨⟨package, []⟩, function⟩
  match program.functions.get? name with
  | some f =>
    if f.decl.params.isEmpty then .ok name else .error (.rejected [parametersDiagnostic name f])
  | none => .error (.rejected [missingEntryDiagnostic files package function])

def ofProgram (program : CheckedProgram) (entry : Option QualName) (mode : EmitMode) :
    Except BuildError Build := do
  let lowered ← (Lowering.lowerProgram program entry).mapError .fault
  let text ← (Target.programText lowered mode).mapError .ofEmit
  return ⟨lowered, text⟩

def ofFiles (files : List SourceFile) (options : Options) : Except BuildError Build := do
  let program ← (SourceFile.check files).mapError .source
  let entry ← options.entryPackage.mapM fun package =>
    (findEntry files program package options.entryFunction).mapError .source
  ofProgram program entry options.mode

end Build

end Keel

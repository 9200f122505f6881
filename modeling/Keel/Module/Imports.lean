/-
# Imports

What the imports of a file bind: `import m;` a short name for a module, and
`import m::{f, T as U};` names of functions and types.  A local name is bound once;
a second import of it is reported and has no effect.
-/
import Keel.Module.Index

namespace Keel

inductive ImportTarget where
  | function (name : QualName)
  | type (name : QualName)
deriving DecidableEq, Repr

structure ImportScope where
  aliases : Std.TreeMap String ModulePath := ∅
  names : Std.TreeMap String ImportTarget := ∅

namespace ImportScope

def alias? (scope : ImportScope) (name : String) : Option ModulePath := scope.aliases.get? name

def function? (scope : ImportScope) (name : String) : Option QualName :=
  match scope.names.get? name with
  | some (.function target) => some target
  | _ => none

def type? (scope : ImportScope) (name : String) : Option QualName :=
  match scope.names.get? name with
  | some (.type target) => some target
  | _ => none

def isBound (scope : ImportScope) (name : String) : Bool :=
  scope.aliases.contains name || scope.names.contains name

/-- What a selector binds, or why it cannot. -/
def select (current target : ModulePath) (decls : ModuleDecls) (scope : ImportScope)
    (s : Selector) : Except NameProblem ImportTarget := do
  if scope.isBound s.localName then
    throw (.duplicateImport s.localName)
  let (binding, info) ← match decls.lookup .function s.name, decls.lookup .type s.name with
    | some _, some _ => throw (.ambiguousImport s.name target)
    | some info, none => pure (ImportTarget.function (target.qualify s.name), info)
    | none, some info => pure (ImportTarget.type (target.qualify s.name), info)
    | none, none => throw (.noSuchExport s.name target)
  if canAccess current target info.isPublic then
    return binding
  throw (.privateName s.name target)

def addSelectors (current target : ModulePath) (decls : ModuleDecls) (file : SourcePath) :
    ImportScope → List Selector → ImportScope × List (Report NameProblem)
  | scope, [] => (scope, [])
  | scope, s :: rest =>
    match select current target decls scope s with
    | .ok binding =>
      addSelectors current target decls file
        { scope with names := scope.names.insert s.localName binding } rest
    | .error problem =>
      let (scope, reports) := addSelectors current target decls file scope rest
      (scope, ⟨file, s.span, problem⟩ :: reports)

def addImport (index : ModuleIndex) (current : ModulePath) (file : SourcePath)
    (scope : ImportScope) (i : Import) : ImportScope × List (Report NameProblem) :=
  match index.resolve current i.segments with
  | none => (scope, [⟨file, i.span, .unknownModule i.text⟩])
  | some target =>
    match i.kind with
    | .module renamed =>
      let name := renamed.getD (i.segments.getLastD "")
      if scope.isBound name then
        (scope, [⟨file, i.span, .aliasTaken name⟩])
      else ({ scope with aliases := scope.aliases.insert name target }, [])
    | .names selectors =>
      match index.get? target with
      | none => (scope, [])
      | some decls => addSelectors current target decls file scope selectors

def addImports (index : ModuleIndex) (current : ModulePath) (file : SourcePath) :
    ImportScope → List Import → ImportScope × List (Report NameProblem)
  | scope, [] => (scope, [])
  | scope, i :: rest =>
    let (scope, here) := addImport index current file scope i
    let (scope, later) := addImports index current file scope rest
    (scope, here ++ later)

def ofFile (index : ModuleIndex) (file : ModuleFile) : ImportScope × List (Report NameProblem) :=
  addImports index file.module file.text.path {} file.text.imports

end ImportScope

end Keel

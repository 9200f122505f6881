/-
# Looking names up

A path with a qualifier names a declaration of the module that the qualifier means.  A
name alone is looked for in its own module, among the imported names, in the root
module of the package, and at last, where that is asked for, in the prelude.

The root module is passed over if the name is private there; that is reported only
when nothing else is found.
-/
import Keel.Module.Imports
import Keel.Prelude

namespace Keel

/-- The module and the imports of a file: what names in it can mean. -/
structure ModuleScope where
  path : ModulePath
  file : SourcePath
  imports : ImportScope

structure Site where
  file : SourcePath
  span : Span
deriving DecidableEq, Repr

/-- What looking up a path comes to. -/
inductive Lookup where
  | found (name : QualName)
  | hidden (name : QualName)
  | unknownModule (written : String)
  | missing
deriving DecidableEq, Repr

namespace ModuleScope

def site (scope : ModuleScope) (span : Span) : Site := ⟨scope.file, span⟩

/-- The module that a qualifier means.  An alias stands for its module, and further
segments lead below it. -/
def resolveQualifier (scope : ModuleScope) (index : ModuleIndex) :
    List String → Option ModulePath
  | [] => none
  | first :: rest =>
    match scope.imports.alias? first with
    | some target =>
      let m : ModulePath := ⟨target.package, target.segments ++ rest⟩
      if index.contains m then some m else none
    | none => index.resolve scope.path (first :: rest)

/-- The imported name, in the two namespaces that imports have. -/
def imported? (scope : ModuleScope) (space : Namespace) (name : String) : Option QualName :=
  match space with
  | .function => scope.imports.function? name
  | .type => scope.imports.type? name
  | .const | .trait => none

end ModuleScope

namespace ModuleIndex

/-- A public name of the prelude. -/
def prelude? (index : ModuleIndex) (space : Namespace) (name : String) : Option QualName :=
  match index.lookup Prelude.module space name with
  | some info => if info.isPublic then some (Prelude.module.qualify name) else none
  | none => none

/-- Looks up a name of the module `owner` from `source`. -/
def lookupIn (index : ModuleIndex) (source owner : ModulePath) (space : Namespace)
    (name : String) : Lookup :=
  match index.lookup owner space name with
  | none => .missing
  | some info =>
    if canAccess source owner info.isPublic then .found (owner.qualify name)
    else .hidden (owner.qualify name)

/-- Looks up a name in the root module of the package, unless that is the module
itself. -/
def lookupRoot (index : ModuleIndex) (source : ModulePath) (space : Namespace) (name : String) :
    Lookup :=
  if source.packageRoot == source then .missing
  else index.lookupIn source source.packageRoot space name

/-- Looks up a name without a qualifier. -/
def lookupSimple (index : ModuleIndex) (scope : ModuleScope) (space : Namespace) (name : String)
    (withPrelude : Bool) : Lookup :=
  if (index.lookup scope.path space name).isSome then .found (scope.path.qualify name)
  else
    match scope.imported? space name with
    | some target => .found target
    | none =>
      match index.lookupRoot scope.path space name with
      | .found target => .found target
      | other =>
        match if withPrelude then index.prelude? space name else none with
        | some target => .found target
        | none => other

def lookupPath (index : ModuleIndex) (scope : ModuleScope) (path : List String)
    (space : Namespace) (withPrelude : Bool) : Lookup :=
  match path.getLast? with
  | none => .missing
  | some name =>
    match path.dropLast with
    | [] => index.lookupSimple scope space name withPrelude
    | qualifier =>
      match scope.resolveQualifier index qualifier with
      | none => .unknownModule (String.intercalate "::" qualifier)
      | some owner => index.lookupIn scope.path owner space name

end ModuleIndex

end Keel

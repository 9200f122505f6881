/-
# The index of modules

Which names every module declares.  There are four namespaces: functions, types
(structs, enums and aliases together), constants and traits.  The first declaration of
a name in its namespace counts; a second one is reported.

Files with the same module path form one module.
-/
import Keel.Diagnostic
import Keel.Syntax

namespace Keel

/-- A complaint about a place in a file. -/
structure Report (π : Type) where
  path : SourcePath
  span : Span
  problem : π
deriving DecidableEq, Repr

def Report.map {π ρ : Type} (f : π → ρ) (r : Report π) : Report ρ := ⟨r.path, r.span, f r.problem⟩

inductive Namespace where
  | function | type | const | trait
deriving DecidableEq, Repr

def Namespace.describe : Namespace → String
  | function => "function"
  | type => "type"
  | const => "constant"
  | trait => "trait"

inductive NameProblem where
  | duplicateDefinition (space : Namespace) (name : String) (module : ModulePath)
  | unknownModule (path : String)
  | aliasTaken (name : String)
  | duplicateImport (name : String)
  | ambiguousImport (name : String) (module : ModulePath)
  | noSuchExport (name : String) (module : ModulePath)
  | privateName (name : String) (module : ModulePath)
deriving DecidableEq, Repr

namespace NameProblem

def message : NameProblem → String
  | duplicateDefinition space name module =>
    s!"duplicate definition of {space.describe} `{name}` in `{module.text}`"
  | unknownModule path => s!"unknown module `{path}`"
  | aliasTaken name => s!"import alias `{name}` is already defined"
  | duplicateImport name => s!"duplicate import `{name}`"
  | ambiguousImport name module =>
    s!"`{name}` is ambiguous: `{module.text}` has both a function and a type with that name"
  | noSuchExport name module => s!"`{module.text}` has no function or type named `{name}`"
  | privateName name module => s!"`{name}` is private to `{module.text}`"

def help : NameProblem → Option String
  | ambiguousImport .. => some "import the module and qualify the name instead"
  | _ => none

end NameProblem

def Report.ofName (r : Report NameProblem) : Diagnostic :=
  { path := r.path, span := r.span, message := r.problem.message, help := r.problem.help }

/-- A declaration seen from outside: whether other modules may name it, and where it
stands. -/
structure DeclInfo where
  isPublic : Bool
  span : Span
deriving DecidableEq, Repr

/-- Something owned by `owner` can be named from there, or from everywhere if it is
public. -/
def canAccess (source owner : ModulePath) (isPublic : Bool) : Bool := isPublic || source == owner

structure ModuleDecls where
  functions : Std.TreeMap String DeclInfo := ∅
  types : Std.TreeMap String DeclInfo := ∅
  consts : Std.TreeMap String DeclInfo := ∅
  traits : Std.TreeMap String DeclInfo := ∅

namespace ModuleDecls

def table (decls : ModuleDecls) : Namespace → Std.TreeMap String DeclInfo
  | .function => decls.functions
  | .type => decls.types
  | .const => decls.consts
  | .trait => decls.traits

def lookup (decls : ModuleDecls) (space : Namespace) (name : String) : Option DeclInfo :=
  (decls.table space).get? name

def insert (decls : ModuleDecls) (space : Namespace) (name : String) (info : DeclInfo) :
    ModuleDecls :=
  match space with
  | .function => { decls with functions := decls.functions.insert name info }
  | .type => { decls with types := decls.types.insert name info }
  | .const => { decls with consts := decls.consts.insert name info }
  | .trait => { decls with traits := decls.traits.insert name info }

end ModuleDecls

/-- The namespace, name and visibility of a declaration; `impl` declares nothing. -/
def Item.declared? : Item → Option (Namespace × String × DeclInfo)
  | .struct d => some (.type, d.name, ⟨d.isPublic, d.span⟩)
  | .enum d => some (.type, d.name, ⟨d.isPublic, d.span⟩)
  | .typeAlias d => some (.type, d.name, ⟨d.isPublic, d.span⟩)
  | .function d => some (.function, d.name, ⟨d.isPublic, d.span⟩)
  | .const d => some (.const, d.name, ⟨d.isPublic, d.span⟩)
  | .trait d => some (.trait, d.name, ⟨d.isPublic, d.span⟩)
  | .impl _ => none

/-- A file that has been read, with the module it belongs to. -/
structure ModuleFile where
  module : ModulePath
  text : ModuleDef

structure ModuleIndex where
  modules : Std.TreeMap ModulePath ModuleDecls := ∅

namespace ModuleIndex

/-- Adds declarations of one file to those of its module. -/
def addItems (module : ModulePath) (file : SourcePath) :
    ModuleDecls → List Item → ModuleDecls × List (Report NameProblem)
  | decls, [] => (decls, [])
  | decls, item :: rest =>
    match item.declared? with
    | none => addItems module file decls rest
    | some (space, name, info) =>
      match decls.lookup space name with
      | some _ =>
        let (decls, reports) := addItems module file decls rest
        (decls, ⟨file, info.span, .duplicateDefinition space name module⟩ :: reports)
      | none => addItems module file (decls.insert space name info) rest

def addFiles (index : ModuleIndex) : List ModuleFile → ModuleIndex × List (Report NameProblem)
  | [] => (index, [])
  | file :: rest =>
    let (decls, here) :=
      addItems file.module file.text.path (index.modules.getD file.module {}) file.text.items
    let (index, later) := addFiles ⟨index.modules.insert file.module decls⟩ rest
    (index, here ++ later)

/-- The index of all files, and the names they declare twice. -/
def build (files : List ModuleFile) : ModuleIndex × List (Report NameProblem) :=
  addFiles {} files

def contains (index : ModuleIndex) (module : ModulePath) : Bool := index.modules.contains module

def get? (index : ModuleIndex) (module : ModulePath) : Option ModuleDecls :=
  index.modules.get? module

def lookup (index : ModuleIndex) (module : ModulePath) (space : Namespace) (name : String) :
    Option DeclInfo :=
  (index.get? module).bind (·.lookup space name)

/-- The module that written segments mean: one of the own package first, and then one
with its package written in front. -/
def resolve (index : ModuleIndex) (current : ModulePath) : List String → Option ModulePath
  | [] => none
  | first :: rest =>
    let own : ModulePath := ⟨current.package, first :: rest⟩
    let full : ModulePath := ⟨first, rest⟩
    if index.contains own then some own
    else if index.contains full then some full
    else none

end ModuleIndex

end Keel

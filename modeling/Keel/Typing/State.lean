/-
# The checker's knowledge

The declarations of the program are fixed before checking starts.  What the checker
adds to is its state: the signatures, the instances of generic declarations, the
values of constants and aliases, the resolutions of nodes, and the reports.
-/
import Keel.Checked
import Keel.Typing.Problem
import Keel.Typing.Scope

namespace Keel.Typing

/-- How deep instances may be nested in each other. -/
def maxDepth : Nat := 64

/-! ### Declarations -/

structure Declared (α : Type) where
  scope : ModuleScope
  decl : α

structure FunctionDecl extends Declared FunctionDef where
  /-- What `Self` means inside an `impl`. -/
  selfType : Option Ty

inductive Nominal where
  | struct (decl : Declared StructDef)
  | enum (decl : Declared EnumDef)

namespace Nominal

def params : Nominal → List String
  | struct d => d.decl.params
  | enum d => d.decl.params

def isEnum : Nominal → Bool
  | struct _ => false
  | enum _ => true

def ty (n : Nominal) (name : QualName) : Ty := if n.isEnum then .enum name else .struct name

end Nominal

/-- All declarations but those of functions, whose number grows. -/
structure Declarations where
  index : ModuleIndex := {}
  structs : Std.TreeMap QualName (Declared StructDef) := ∅
  enums : Std.TreeMap QualName (Declared EnumDef) := ∅
  aliases : Std.TreeMap QualName (Declared AliasDef) := ∅
  consts : Std.TreeMap QualName (Declared ConstDef) := ∅
  traits : Std.TreeMap QualName (Declared TraitDef) := ∅

namespace Declarations

def nominal? (d : Declarations) (name : QualName) : Option Nominal :=
  match d.structs.get? name with
  | some s => some (.struct s)
  | none => (d.enums.get? name).map .enum

end Declarations

/-! ### State -/

/-- How far something has come that must not ask for itself. -/
inductive Progress (α : Type) where
  | started
  | done (value : α)

structure State where
  functions : Std.TreeMap QualName FunctionDecl := ∅
  aliases : Std.TreeMap QualName (Progress Ty) := ∅
  consts : Std.TreeMap QualName (Progress CheckedConst) := ∅
  signatures : Signatures := {}
  /-- Instances of generic types over type parameters.  They are matched against, and
  never part of the program. -/
  patterns : Std.TreeMap QualName Origin := ∅
  /-- The instances of types whose parts are being resolved, the innermost first.  Each is put in
  and taken out once, so their number is the depth that `maxDepth` bounds. -/
  building : List QualName := []
  /-- Instances of functions still to be checked, the newest first. -/
  pending : List QualName := []
  checked : Std.TreeMap QualName CheckedFunction := ∅
  resolutions : Resolutions := {}
  nextId : NodeId
  /-- The newest first. -/
  reports : List (Report Problem) := []

abbrev Check := ReaderT Declarations (StateM State)

def report (site : Site) (problem : Problem) : Check Unit :=
  modify fun s => { s with reports := ⟨site.file, site.span, problem⟩ :: s.reports }

/-- Reports a problem and yields the error type. -/
def reject (site : Site) (problem : Problem) : Check Ty := do
  report site problem
  return .error

/-! ### Tables -/

def setFunction (name : QualName) (decl : FunctionDecl) : Check Unit :=
  modify fun s => { s with functions := s.functions.insert name decl }

def setAlias (name : QualName) (progress : Progress Ty) : Check Unit :=
  modify fun s => { s with aliases := s.aliases.insert name progress }

def setConst (name : QualName) (progress : Progress CheckedConst) : Check Unit :=
  modify fun s => { s with consts := s.consts.insert name progress }

def setPattern (name : QualName) (origin : Origin) : Check Unit :=
  modify fun s => { s with patterns := s.patterns.insert name origin }

def setStruct (sig : StructSig) : Check Unit :=
  modify fun s =>
    { s with signatures :=
      { s.signatures with structs := s.signatures.structs.insert sig.name sig } }

def setEnum (sig : EnumSig) : Check Unit :=
  modify fun s =>
    { s with signatures := { s.signatures with enums := s.signatures.enums.insert sig.name sig } }

def setSignature (sig : FunctionSig) : Check Unit :=
  modify fun s =>
    { s with signatures :=
      { s.signatures with functions := s.signatures.functions.insert sig.name sig } }

def function? (name : QualName) : Check (Option FunctionDecl) :=
  return (← get).functions.get? name

def signature? (name : QualName) : Check (Option FunctionSig) :=
  return (← get).signatures.functions.get? name

def struct? (name : QualName) : Check (Option StructSig) :=
  return (← get).signatures.structs.get? name

def enum? (name : QualName) : Check (Option EnumSig) :=
  return (← get).signatures.enums.get? name

/-! ### Nodes -/

def modifyResolutions (f : Resolutions → Resolutions) : Check Unit :=
  modify fun s => { s with resolutions := f s.resolutions }

def recordType (id : NodeId) (ty : Ty) : Check Unit :=
  modifyResolutions fun r => { r with exprTypes := r.exprTypes.insert id ty }

def recordLet (id : NodeId) (ty : Ty) : Check Unit :=
  modifyResolutions fun r => { r with letTypes := r.letTypes.insert id ty }

def recordCall (id : NodeId) (target : CallTarget) : Check Unit :=
  modifyResolutions fun r => { r with calls := r.calls.insert id target }

def recordVariant (id : NodeId) (variant : VariantRef) : Check Unit :=
  modifyResolutions fun r => { r with variants := r.variants.insert id variant }

def recordIntrinsic (id : NodeId) (op : Intrinsic) : Check Unit :=
  modifyResolutions fun r => { r with intrinsics := r.intrinsics.insert id op }

def recordConst (id : NodeId) (name : QualName) : Check Unit :=
  modifyResolutions fun r => { r with constRefs := r.constRefs.insert id name }

def recordLiteral (id : NodeId) (name : QualName) : Check Unit :=
  modifyResolutions fun r => { r with structLiterals := r.structLiterals.insert id name }

/-! ### Names -/

def lookup (scope : ModuleScope) (path : List String) (space : Namespace)
    (withPrelude : Bool) : Check Lookup :=
  return (← read).index.lookupPath scope path space withPrelude

/-- The name that was found; what stands in the way is reported. -/
def found? (site : Site) (kind : NameKind) (written : String) : Lookup → Check (Option QualName)
  | .found name => return some name
  | .hidden name => do
    report site (.privateDecl kind name)
    return none
  | .unknownModule module => do
    report site (.naming (.unknownModule module))
    return none
  | .missing => do
    report site (.notFound kind written)
    return none

end Keel.Typing

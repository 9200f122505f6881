/-
# Checked programs

What the checker hands on: functions without type parameters, the signatures of
functions, structs and enums, the values of constants, and, under the numbers of the
nodes, what it found out about each expression, `let` and pattern.

Every generic declaration occurs once for each choice of its type arguments, under a
name that spells them out.
-/
import Keel.Prelude

namespace Keel

/-! ### Signatures -/

structure ParamSig where
  name : String
  ty : Ty
  isMutable : Bool
deriving Repr

structure FunctionSig where
  name : QualName
  params : List ParamSig
  ret : Ty
  owner : ModulePath
  isPublic : Bool
  span : Span
deriving Repr

structure FieldSig where
  name : String
  ty : Ty
  isPublic : Bool
deriving Repr

/-- The generic declaration that a type is an instance of, and its arguments. -/
structure Origin where
  base : QualName
  args : List Ty
deriving Repr

structure StructSig where
  name : QualName
  fields : List FieldSig
  owner : ModulePath
  isPublic : Bool
  origin : Option Origin
deriving Repr

structure VariantSig where
  name : String
  payload : Option Ty
deriving Repr

structure EnumSig where
  name : QualName
  variants : List VariantSig
  owner : ModulePath
  isPublic : Bool
  origin : Option Origin
deriving Repr

namespace StructSig

def field? (sig : StructSig) (name : String) : Option (Nat × FieldSig) :=
  (sig.fields.zipIdx.find? (·.1.name == name)).map fun (f, i) => (i, f)

def base? (sig : StructSig) : Option QualName := sig.origin.map (·.base)

end StructSig

namespace EnumSig

def variant? (sig : EnumSig) (name : String) : Option (Nat × VariantSig) :=
  (sig.variants.zipIdx.find? (·.1.name == name)).map fun (v, i) => (i, v)

def base? (sig : EnumSig) : Option QualName := sig.origin.map (·.base)

end EnumSig

structure Signatures where
  functions : Std.TreeMap QualName FunctionSig := ∅
  structs : Std.TreeMap QualName StructSig := ∅
  enums : Std.TreeMap QualName EnumSig := ∅

/-! ### Constants -/

inductive ConstValue where
  /-- There is none, and the reason has been reported. -/
  | bad
  | int (value : Int)
  | bool (value : Bool)
  | str (value : String)
deriving DecidableEq, Repr

structure CheckedConst where
  ty : Ty
  value : ConstValue
deriving Repr

/-! ### What is known about nodes -/

inductive CallTarget where
  | function (name : QualName)
  | builtin (which : Builtin)
deriving DecidableEq, Repr

/-- A variant by its position in its enum. -/
structure VariantRef where
  enum : QualName
  index : Nat
deriving DecidableEq, Repr

/-- Methods of lists and strings. -/
inductive Intrinsic where
  | listPush | listLen | listGet | listSet | strLen | strConcat | strByteAt
deriving DecidableEq, Repr

/-- Does the method change the variable it is called on? -/
def Intrinsic.mutates : Intrinsic → Bool
  | listPush | listSet => true
  | _ => false

structure Resolutions where
  exprTypes : Std.TreeMap NodeId Ty := ∅
  letTypes : Std.TreeMap NodeId Ty := ∅
  /-- Calls of functions and builtins. -/
  calls : Std.TreeMap NodeId CallTarget := ∅
  /-- Variants that are built, and variants in patterns. -/
  variants : Std.TreeMap NodeId VariantRef := ∅
  intrinsics : Std.TreeMap NodeId Intrinsic := ∅
  constRefs : Std.TreeMap NodeId QualName := ∅
  structLiterals : Std.TreeMap NodeId QualName := ∅

/-! ### Programs -/

structure CheckedFunction where
  name : QualName
  module : ModulePath
  file : SourcePath
  decl : FunctionDef

structure CheckedProgram where
  functions : Std.TreeMap QualName CheckedFunction := ∅
  signatures : Signatures := {}
  consts : Std.TreeMap QualName CheckedConst := ∅
  resolutions : Resolutions := {}

end Keel

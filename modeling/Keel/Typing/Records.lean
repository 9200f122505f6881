/-
# Fields, struct literals and paths that name types

A generic type may be written without arguments where a value of it is built; the
arguments then come from the expected type or from the values given.
-/
import Keel.Typing.Frame

namespace Keel.Typing

/-- What a path that names a type denotes. -/
inductive TypeRef where
  | concrete (ty : Ty)
  | genericStruct (name : QualName)
  | genericEnum (name : QualName)

/-- The type that a path in an expression names, if it names one. -/
def typeRef? (f : Frame) (path : PathExpr) (span : Span) : Check (Option TypeRef) := do
  if path.args.isEmpty then
    if let some ty := path.simple?.bind f.types.get? then
      return some (.concrete ty)
  match ← lookup f.scope path.segments .type true with
  | .unknownModule _ | .missing => return none
  | .hidden name =>
    report (f.site span) (.privateDecl .type name)
    return some (.concrete .error)
  | .found name =>
    match (← read).nominal? name with
    | some nominal =>
      if !nominal.params.isEmpty && path.args.isEmpty then
        return some (if nominal.isEnum then .genericEnum name else .genericStruct name)
    | none => pure ()
    let args ← typesOf f.scope f.types path.args
    return some (.concrete (← nominalType (← resolver) name args (f.site span)))

/-! ### Fields -/

/-- The type of a field.  A private field is reported, and has its type all the same. -/
def fieldType (f : Frame) (base : Ty) (field : String) (span : Span) : Check Ty := do
  match base with
  | .error => return .error
  | .struct name =>
    match ← struct? name with
    | none => return .error
    | some sig =>
      match sig.field? field with
      | none => reject (f.site span) (.noField name.name field)
      | some (_, found) =>
        if !canAccess f.scope.path sig.owner found.isPublic then
          report (f.site span) (.privateField field name.name)
        return found.ty
  | other => reject (f.site span) (.typeHasNoField other field)

def fieldPathType (f : Frame) (span : Span) : Ty → List String → Check Ty
  | ty, [] => return ty
  | ty, field :: rest => do
    fieldPathType f span (← fieldType f ty field span) rest

/-! ### Struct literals -/

structure FieldOperand where
  name : String
  span : Span
  value : Operand

/-- Types of values that were checked to find the type arguments. -/
abbrev Prechecked := List (String × Ty)

/-- Checks the values of a literal of a generic struct against its open fields. -/
def inferFields (f : Frame) (d : Declared StructDef) (env : TypeEnv) :
    List FieldOperand → Bindings → Prechecked → Check (Bindings × Prechecked)
  | [], b, seen => return (b, seen)
  | field :: rest, b, seen => do
    match d.decl.fields.find? (·.name == field.name), seen.lookup field.name with
    | some declared, none =>
      let pattern ← typeOf d.scope env declared.ty
      let hint := if (← get).mentionsParam pattern then none else some pattern
      let ty ← field.value.check f hint
      let b ← unify pattern ty b
      inferFields f d env rest b ((field.name, ty) :: seen)
    | _, _ => inferFields f d env rest b seen

/-- The instance that a literal of a generic struct belongs to. -/
def inferLiteral (f : Frame) (span : Span) (base : QualName) (fields : List FieldOperand) :
    Check (Ty × Prechecked) := do
  match (← read).structs.get? base with
  | none => return (.error, [])
  | some d =>
    let params := d.decl.params
    let (b, seen) ← inferFields f d (openParams params) fields {} []
    match (b.withDefaults params).resolve params with
    | .ok args => return (← (← resolver).instantiate base args (f.site span), seen)
    | .error param =>
      report (f.site span) (.cannotInfer param base.name params .literal)
      return (.error, seen)

def isInstanceOf (name base : QualName) : Check Bool := do
  return ((← struct? name).bind StructSig.base?) == some base

/-- The type of a struct literal, and the values checked on the way. -/
def literalType (f : Frame) (span : Span) (path : PathExpr) (fields : List FieldOperand)
    (expected : Option Ty) : Check (Ty × Prechecked) := do
  match ← typeRef? f path span with
  | none => return (← reject (f.site span) (.notFound .struct path.text), [])
  | some (.concrete ty) => return (ty, [])
  | some (.genericEnum name) => return (← reject (f.site span) (.enumAsStruct name.name), [])
  | some (.genericStruct base) =>
    if let some (.struct name) := expected then
      if ← isInstanceOf name base then
        return (.struct name, [])
    inferLiteral f span base fields

/-- Checks the fields of a literal one by one and collects their names. -/
def checkFields (f : Frame) (sig : StructSig) (known : Prechecked) :
    List FieldOperand → (seen : List String) → Check (List String)
  | [], seen => return seen
  | field :: rest, seen => do
    let site := f.site field.span
    let again := seen.contains field.name
    if again then
      report site (.repeatedField field.name)
    match sig.field? field.name with
    | none =>
      report site (.unknownField sig.name.name field.name)
      discard f field.value
    | some (_, declared) =>
      if !canAccess f.scope.path sig.owner declared.isPublic then
        report site (.privateField field.name sig.name.name)
      let actual ← match if again then none else known.lookup field.name with
        | some ty => pure ty
        | none => field.value.check f (some declared.ty)
      expectType f.scope.file field.value.expr actual declared.ty
    checkFields f sig known rest (field.name :: seen)

def checkRecord (f : Frame) (id : NodeId) (span : Span) (path : PathExpr)
    (fields : List FieldOperand) (expected : Option Ty) : Check Ty := do
  let (ty, known) ← literalType f span path fields expected
  match ty with
  | .error =>
    discardAll f ((fields.filter fun field => (known.lookup field.name).isNone).map (·.value))
    return .error
  | .struct name =>
    match ← struct? name with
    | none => return .error
    | some sig =>
      let seen ← checkFields f sig known fields []
      let missing := (sig.fields.map (·.name)).filter fun field => !seen.contains field
      if !missing.isEmpty then
        report (f.site span) (.missingFields missing name.name)
      recordLiteral id name
      return .struct name
  | other => reject (f.site span) (.notAStruct other)

end Keel.Typing

/-
# Generic declarations

A call of a generic function, or a literal of a generic type, is matched against the
declaration with its type parameters left open.  What the parts of the actual types
say about a parameter is a binding; the first one counts.  A parameter met only by
numbers without a type is an `i64`.

Every instance of a function is queued for checking when it is first asked for.
-/
import Keel.Syntax.Copy
import Keel.Typing.Resolve

namespace Keel.Typing

/-- Each type parameter standing for itself. -/
def openParams (params : List String) : TypeEnv := bindParams params (params.map .param)

/-! ### Substitution -/

/-- Replaces parameters; patterns become instances.  The arguments of an instance are
spelled out in its name, so the weight of a type bounds its nesting. -/
def substituteWithin (r : Resolver) (env : TypeEnv) (site : Site) : Nat → Ty → Check Ty
  | _, .param name => return env.getD name (.param name)
  | n + 1, .list t => return .list (← substituteWithin r env site n t)
  | n + 1, .struct name => do
    match (← get).patterns.get? name with
    | none => return .struct name
    | some origin =>
      let args ← origin.args.mapM (substituteWithin r env site n)
      r.instantiate origin.base args site
  | n + 1, .enum name => do
    match (← get).patterns.get? name with
    | none => return .enum name
    | some origin =>
      let args ← origin.args.mapM (substituteWithin r env site n)
      r.instantiate origin.base args site
  | _, t => return t

/-- The type with its parameters replaced, through lists and instances. -/
def substitute (env : TypeEnv) (site : Site) (ty : Ty) : Check Ty := do
  substituteWithin (← resolver) env site (ty.weight + 1) ty

/-! ### Inference -/

/-- What is known about type parameters. -/
structure Bindings where
  types : TypeEnv := ∅
  /-- Parameters that met a number without a type. -/
  untyped : List String := []

namespace Bindings

/-- Binds a parameter, unless it is bound. -/
def bind (b : Bindings) (name : String) (ty : Ty) : Bindings :=
  if b.types.contains name then b else { b with types := b.types.insert name ty }

/-- Parameters known only from untyped numbers become `i64`. -/
def withDefaults (b : Bindings) (params : List String) : Bindings :=
  (params.filter b.untyped.contains).foldl (fun b name => b.bind name .i64) b

/-- The types of the parameters, or the first one that is not known. -/
def resolve (b : Bindings) : List String → Except String (List Ty)
  | [] => .ok []
  | name :: rest =>
    match b.types.get? name with
    | none => .error name
    | some ty =>
      match b.resolve rest with
      | .ok types => .ok (ty :: types)
      | .error name => .error name

end Bindings

/-- The arguments of an instance of that declaration. -/
def instanceArgs (sigs : Signatures) (base name : QualName) : Option (List Ty) :=
  let ofOrigin (origin : Option Origin) : Option (List Ty) :=
    origin.bind fun o => if o.base == base then some o.args else none
  match (sigs.structs.get? name).bind fun sig => ofOrigin sig.origin with
  | some args => some args
  | none => (sigs.enums.get? name).bind fun sig => ofOrigin sig.origin

/-- The arguments of two instances of one declaration, side by side. -/
def matchingArgs (s : State) (pattern actual : QualName) : List (Ty × Ty) :=
  match s.patterns.get? pattern with
  | none => []
  | some origin => origin.args.zip ((instanceArgs s.signatures origin.base actual).getD [])

/-- Binds the parameters of a pattern by the matching parts of a type. -/
def unifyWithin (s : State) : Nat → Ty → Ty → Bindings → Bindings
  | _, .param name, .untyped, b => { b with untyped := name :: b.untyped }
  | _, .param _, .error, b => b
  | _, .param name, actual, b => b.bind name actual
  | n + 1, .list pattern, .list actual, b => unifyWithin s n pattern actual b
  | n + 1, .struct pattern, .struct actual, b
  | n + 1, .enum pattern, .enum actual, b =>
    (matchingArgs s pattern actual).foldl (fun b (p, a) => unifyWithin s n p a b) b
  | _, _, _, b => b

def unify (pattern actual : Ty) (b : Bindings) : Check Bindings :=
  return unifyWithin (← get) (pattern.weight + 1) pattern actual b

/-! ### Functions -/

/-- The parameters of a function; a repeated name is reported. -/
def functionParams (scope : ModuleScope) (env : TypeEnv) :
    List ParamDef → (seen : List String) → Check (List ParamSig)
  | [], _ => return []
  | p :: rest, seen => do
    if seen.contains p.name then
      report (scope.site p.span) (.duplicateParam p.name)
    let ty ← typeOf scope env p.ty
    return ⟨p.name, ty, p.isMutable⟩ :: (← functionParams scope env rest (p.name :: seen))

/-- The type of a result; without an annotation it is `unit`. -/
def returnTypeOf (scope : ModuleScope) (env : TypeEnv) : Option TypeAnn → Check Ty
  | none => return .unit
  | some ann => typeOf scope env ann

/-- What `Self` means in a function. -/
def FunctionDecl.env (f : FunctionDecl) : TypeEnv :=
  match f.selfType with
  | some ty => bindParams ["Self"] [ty]
  | none => ∅

def buildFunction (name : QualName) : Check Unit := do
  match ← function? name with
  | none => return
  | some f =>
    let params ← functionParams f.scope f.env f.decl.params []
    let ret ← returnTypeOf f.scope f.env f.decl.ret
    setSignature ⟨name, params, ret, f.scope.path, f.decl.isPublic, f.decl.span⟩

/-- Hands out numbers for a copy. -/
def numbered {α : Type} (copy : Copy.Numbering α) : Check α := do
  let s ← get
  let (a, next) := copy.run s.nextId
  set { s with nextId := next }
  return a

/-- The instance of a function for these arguments, asked for by a function of the
given depth. -/
def instantiateFunction (base : QualName) (f : FunctionDecl) (args : List Ty) (depth : Nat)
    (site : Site) : Check (Option QualName) := do
  let name := instanceName base f.decl.typeParams args
  if (← signature? name).isSome then
    return some name
  if depth + 1 > maxDepth then
    report site (.instanceDepth base.name maxDepth)
    return none
  let decl ← numbered (f.decl.instance name.name (bindParams f.decl.typeParams args))
  setFunction name { scope := f.scope, decl := decl, selfType := none }
  buildFunction name
  modify fun s => { s with pending := name :: s.pending }
  return some name

end Keel.Typing

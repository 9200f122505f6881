/-
# Calls and members

| written             | meaning                                            |
|---------------------|----------------------------------------------------|
| `f(x)`, `m::f(x)`   | a function; `f[T](x)` gives its type arguments     |
| `print(x)`          | a builtin, if no declared function has the name    |
| `xs.push(x)`        | a method of a list or string, on a local variable  |
| `E.V`, `E.V(x)`     | a variant of an enum                               |
| `T.method(x)`       | a function of an `impl`                            |
| `x.field`           | a field                                            |

After an error in a call its arguments are still checked, each for itself.
-/
import Keel.Typing.Records

namespace Keel.Typing

/-- A call whose target is wrong. -/
def rejectCall (f : Frame) (site : Site) (problem : Problem) (args : List Operand) :
    Check Ty := do
  report site problem
  discardAll f args
  return .error

/-! ### Functions -/

/-- Checks arguments against types, one by one. -/
def checkEach (f : Frame) : List Operand → List Ty → Check Unit
  | arg :: args, ty :: types => do
    checkAgainst f arg ty
    checkEach f args types
  | _, _ => return

def checkArguments (f : Frame) (span : Span) (sig : FunctionSig) (args : List Operand) :
    Check Unit := do
  if args.length ≠ sig.params.length then
    report (f.site span) (.argCount sig.name.name sig.params.length args.length)
    discardAll f args
  else
    checkEach f args (sig.params.map (·.ty))

/-- Type arguments that are written are bound before any argument is looked at. -/
def explicitBindings (f : Frame) : List String → List TypeAnn → Bindings → Check Bindings
  | param :: params, ann :: anns, b => do
    let ty ← typeOf f.scope f.types ann
    explicitBindings f params anns { b with types := b.types.insert param ty }
  | _, _, b => return b

/-- Checks the arguments of a generic call against its open parameters.  A parameter
that is known by then is a hint for the argument. -/
def inferArgs (f : Frame) :
    List Operand → List Ty → Bindings → Check (Bindings × List Ty)
  | arg :: args, pattern :: patterns, b => do
    let hint ← substitute b.types (f.site arg.expr.span) pattern
    let hint := if (← get).mentionsParam hint then none else some hint
    let ty ← arg.check f hint
    let b ← unify pattern ty b
    let (b, types) ← inferArgs f args patterns b
    return (b, ty :: types)
  | _, _, b => return (b, [])

/-- Demands that the arguments have the types of the instance. -/
def expectArgs (f : Frame) (env : TypeEnv) : List Operand → List Ty → List Ty → Check Unit
  | arg :: args, pattern :: patterns, actual :: actuals => do
    let concrete ← substitute env (f.site arg.expr.span) pattern
    expectType f.scope.file arg.expr actual concrete
    expectArgs f env args patterns actuals
  | _, _, _ => return

/-- A call of a generic function, once its parameters and result are known as patterns. -/
def checkOpenCall (f : Frame) (id : NodeId) (span : Span) (base : QualName) (g : FunctionDecl)
    (patterns : List Ty) (retPattern : Ty) (b : Bindings) (args : List Operand)
    (expected : Option Ty) : Check Ty := do
  let site := f.site span
  let params := g.decl.typeParams
  let (b, actuals) ← inferArgs f args patterns b
  let b ← match expected with
    | some ty => unify retPattern ty b
    | none => pure b
  let b := b.withDefaults params
  match b.resolve params with
  | .error param => reject site (.cannotInfer param g.decl.name params .call)
  | .ok resolved =>
    if resolved.any Ty.hasError then
      return .error
    expectArgs f b.types args patterns actuals
    match ← instantiateFunction base g resolved f.depth site with
    | none => return .error
    | some name =>
      recordCall id (.function name)
      substitute b.types site retPattern

def checkGenericCall (f : Frame) (id : NodeId) (span : Span) (base : QualName)
    (g : FunctionDecl) (explicit : List TypeAnn) (args : List Operand) (expected : Option Ty) :
    Check Ty := do
  let site := f.site span
  let params := g.decl.typeParams
  if !explicit.isEmpty && explicit.length ≠ params.length then
    return ← rejectCall f site (.typeArgCount g.decl.name params.length explicit.length) args
  let b ← explicitBindings f params explicit {}
  let env := openParams params
  let patterns ← typesOf g.scope env (g.decl.params.map (·.ty))
  let retPattern ← returnTypeOf g.scope env g.decl.ret
  if args.length ≠ patterns.length then
    return ← rejectCall f site (.argCount g.decl.name patterns.length args.length) args
  checkOpenCall f id span base g patterns retPattern b args expected

def checkFunctionCall (f : Frame) (id : NodeId) (span : Span) (target : QualName)
    (path : PathExpr) (args : List Operand) (expected : Option Ty) : Check Ty := do
  match ← function? target with
  | some g =>
    if !g.decl.typeParams.isEmpty then
      return ← checkGenericCall f id span target g path.args args expected
  | none => pure ()
  if !path.args.isEmpty then
    report (f.site span) (.notGenericFunction target.name)
  match ← signature? target with
  | none =>
    discardAll f args
    return .error
  | some sig =>
    checkArguments f span sig args
    recordCall id (.function target)
    return sig.ret

/-! ### Builtins -/

def checkPrint (f : Frame) (arg : Operand) : Check Ty := do
  let ty ← arg.check f none
  if ty.isUntyped then
    settle f.scope.file .i64 arg.expr
  else if !(ty.isIntegral || ty == .bool || ty == .str || ty.isError) then
    report (f.site arg.expr.span) (.printType ty)
  return .unit

/-- The type of an empty list, which only what is expected can tell. -/
def emptyListType (site : Site) : Option Ty → Check Ty
  | some (.list elem) => return .list elem
  | some .error => return .error
  | _ => reject site .listElement

def checkBuiltin (f : Frame) (id : NodeId) (span : Span) (b : Builtin) (args : List Operand)
    (expected : Option Ty) : Check Ty := do
  if args.length ≠ b.arity then
    return ← rejectCall f (f.site span) (.builtinArgCount b.name b.arity args.length) args
  recordCall id (.builtin b)
  match b, args with
  | .print, [arg] => checkPrint f arg
  | .assert, [arg] =>
    checkAgainst f arg .bool
    return .unit
  | .panic, [arg] =>
    checkAgainst f arg .str
    return .unit
  | _, _ => emptyListType (f.site span) expected

/-- A call of a function by its name alone: local variables hide functions, and
builtins come between the declared functions and the prelude. -/
def checkSimpleCall (f : Frame) (id : NodeId) (span calleeSpan : Span) (name : String)
    (path : PathExpr) (args : List Operand) (expected : Option Ty) : Check Ty := do
  let site := f.site calleeSpan
  if (f.find? name).isSome then
    return ← rejectCall f site (.notAFunction name) args
  match ← lookup f.scope path.segments .function false with
  | .found target => checkFunctionCall f id span target path args expected
  | other =>
    match Builtin.ofName? name with
    | some b =>
      if !path.args.isEmpty then
        report site (.builtinTypeArgs name)
      checkBuiltin f id span b args expected
    | none =>
      match (← read).index.prelude? .function name, other with
      | some target, _ => checkFunctionCall f id span target path args expected
      | none, .hidden target => rejectCall f site (.privateDecl .function target) args
      | none, _ => rejectCall f site (.notFound .function name) args

def checkPathCall (f : Frame) (id : NodeId) (span calleeSpan : Span) (path : PathExpr)
    (args : List Operand) (expected : Option Ty) : Check Ty := do
  match path.simple? with
  | some name => checkSimpleCall f id span calleeSpan name path args expected
  | none =>
    let lookup ← lookup f.scope path.segments .function false
    match ← found? (f.site calleeSpan) .function path.text lookup with
    | some target => checkFunctionCall f id span target path args expected
    | none =>
      discardAll f args
      return .error

/-! ### Variants -/

/-- The instance of a generic enum that a variant is built for: the expected one, or
one found from the value it carries.  The type of that value is returned if it had to
be checked. -/
def inferEnum (f : Frame) (span : Span) (base : QualName) (variant : String)
    (payload : Option Operand) (expected : Option Ty) : Check (Ty × Option Ty) := do
  if let some (.enum name) := expected then
    if ((← enum? name).bind EnumSig.base?) == some base then
      return (.enum name, none)
  match (← read).enums.get? base with
  | none => return (.error, none)
  | some d =>
    let params := d.decl.params
    let declared := (d.decl.variants.find? (·.name == variant)).bind (·.fields.head?)
    let (b, payloadTy) ← match declared, payload with
      | some ann, some value => do
        let pattern ← typeOf d.scope (openParams params) ann
        let ty ← value.check f none
        pure (← unify pattern ty {}, some ty)
      | _, _ => pure ({}, none)
    match (b.withDefaults params).resolve params with
    | .ok args => return (← (← resolver).instantiate base args (f.site span), payloadTy)
    | .error param =>
      report (f.site span) (.cannotInfer param base.name params (.variant variant))
      return (.error, payloadTy)

/-- Builds a variant; `known` is the type of the value it carries, if that was checked. -/
def checkVariant (f : Frame) (id : NodeId) (span nameSpan : Span) (enum : QualName)
    (variant : String) (args : List Operand) (known : Option Ty) : Check Ty := do
  match ← enum? enum with
  | none => return .error
  | some sig =>
    match sig.variant? variant with
    | none => rejectCall f (f.site nameSpan) (.noVariant enum.name variant) args
    | some (index, v) =>
      match v.payload, args with
      | some payload, [arg] =>
        let actual ← match known with
          | some ty => pure ty
          | none => arg.check f (some payload)
        expectType f.scope.file arg.expr actual payload
      | some _, _ =>
        report (f.site span) (.variantNeedsValue enum.name variant args.length)
        discardAll f args
      | none, [] => pure ()
      | none, _ =>
        report (f.site span) (.variantTakesNone enum.name variant)
        discardAll f args
      recordVariant id ⟨enum, index⟩
      return .enum enum

/-! ### Methods -/

/-- `T.method(x)` for a function of an `impl`. -/
def checkMethodCall (f : Frame) (id : NodeId) (span nameSpan : Span) (owner : QualName)
    (name : String) (args : List Operand) : Check Ty := do
  let method := owner.withName (owner.name ++ "." ++ name)
  match ← signature? method with
  | none =>
    let onEnum := (← enum? owner).isSome
    rejectCall f (f.site nameSpan) (.noAssociatedMethod onEnum name owner.name) args
  | some sig =>
    if !canAccess f.scope.path sig.owner sig.isPublic then
      report (f.site nameSpan) (.privateMethod owner.name name sig.owner)
    checkArguments f span sig args
    recordCall id (.function method)
    return sig.ret

def checkTypeCall (f : Frame) (id : NodeId) (span nameSpan : Span) (name : String)
    (args : List Operand) (expected : Option Ty) : TypeRef → Check Ty
  | .concrete .error => do
    discardAll f args
    return .error
  | .concrete (.enum enum) => do
    if (((← enum? enum).bind (·.variant? name)).isSome) then
      checkVariant f id span nameSpan enum name args none
    else
      checkMethodCall f id span nameSpan enum name args
  | .concrete (.struct struct) => checkMethodCall f id span nameSpan struct name args
  | .concrete other => rejectCall f (f.site nameSpan) (.noAssociatedFunction other name) args
  | .genericStruct base => rejectCall f (f.site nameSpan) (.genericStructCall base.name) args
  | .genericEnum base => do
    match ← inferEnum f span base name args.head? expected with
    | (.enum enum, known) => checkVariant f id span nameSpan enum name args known
    | (_, some _) => return .error
    | (_, none) =>
      discardAll f args
      return .error

/-- The method of that name on values of a type: its parameters and its result. -/
def intrinsic? : Ty → String → Option (Intrinsic × List Ty × Ty)
  | .list elem, "push" => some (.listPush, [elem], .unit)
  | .list _, "len" => some (.listLen, [], .i64)
  | .list elem, "get" => some (.listGet, [.i64], elem)
  | .list elem, "set" => some (.listSet, [.i64, elem], .unit)
  | .str, "len" => some (.strLen, [], .i64)
  | .str, "concat" => some (.strConcat, [.str], .str)
  | .str, "byte_at" => some (.strByteAt, [.i64], .int .u8)
  | _, _ => none

/-- Why a value of the type has no such method. -/
def noIntrinsic (ty : Ty) (name receiver : String) : Problem :=
  match ty with
  | .struct owner | .enum owner => .methodOfType name ty owner.name receiver
  | _ => .noMethod name ty

/-- A method call on a local variable. -/
def checkIntrinsic (f : Frame) (id : NodeId) (span nameSpan : Span) (receiver : String)
    (l : Local) (name : String) (args : List Operand) : Check Ty := do
  match intrinsic? l.ty name with
  | none =>
    if l.ty.isError then
      discardAll f args
      return .error
    rejectCall f (f.site nameSpan) (noIntrinsic l.ty name receiver) args
  | some (op, params, ret) =>
    if op.mutates && !l.isMutable then
      report (f.site span) (.mutatesImmutable receiver)
    if args.length ≠ params.length then
      return ← rejectCall f (f.site span) (.methodArgCount name params.length args.length) args
    checkEach f args params
    recordIntrinsic id op
    return ret

/-- A method call on something that is neither a local variable nor a type. -/
def checkValueCall (f : Frame) (nameSpan : Span) (base : Operand) (name : String)
    (args : List Operand) : Check Ty := do
  match ← base.check f none with
  | .error =>
    discardAll f args
    return .error
  | .list _ | .str => rejectCall f (f.site base.expr.span) (.receiverNotLocal name) args
  | other => rejectCall f (f.site nameSpan) (.noMethod name other) args

/-- The path that an operand consists of. -/
def Operand.path? (o : Operand) : Option PathExpr :=
  match o.expr.kind with
  | .path p => some p
  | _ => none

/-- `base.name(args)`. -/
def checkMemberCall (f : Frame) (id : NodeId) (span : Span) (base : Operand) (name : String)
    (nameSpan : Span) (args : List Operand) (expected : Option Ty) : Check Ty := do
  match base.path? with
  | none => checkValueCall f nameSpan base name args
  | some path =>
    match f.local? path with
    | some l =>
      recordType base.expr.id l.ty
      checkIntrinsic f id span nameSpan path.last l name args
    | none =>
      match ← typeRef? f path base.expr.span with
      | some ref => checkTypeCall f id span nameSpan name args expected ref
      | none => checkValueCall f nameSpan base name args

/-! ### Members -/

/-- `T.name`, not called: a variant without a value. -/
def checkTypeMember (f : Frame) (id : NodeId) (span nameSpan : Span) (name : String)
    (expected : Option Ty) : TypeRef → Check Ty
  | .concrete .error => return .error
  | .concrete (.enum enum) => checkVariant f id span nameSpan enum name [] none
  | .concrete other => reject (f.site nameSpan) (.noAssociatedValue other name)
  | .genericStruct base => reject (f.site nameSpan) (.genericStructValue base.name name)
  | .genericEnum base => do
    match ← inferEnum f span base name none expected with
    | (.enum enum, _) => checkVariant f id span nameSpan enum name [] none
    | _ => return .error

/-- `base.name`. -/
def checkMember (f : Frame) (id : NodeId) (span : Span) (base : Operand) (name : String)
    (nameSpan : Span) (expected : Option Ty) : Check Ty := do
  let ref ← match base.path? with
    | none => pure none
    | some path =>
      if (f.local? path).isSome then pure none else typeRef? f path base.expr.span
  match ref with
  | some ref => checkTypeMember f id span nameSpan name expected ref
  | none => fieldType f (← base.check f none) name nameSpan

end Keel.Typing

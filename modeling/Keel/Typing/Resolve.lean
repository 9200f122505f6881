/-
# Types and constants

Written types are resolved and constant expressions evaluated together: the bounds of
a range are constant expressions, and a constant expression may cast to a type.

Both follow the syntax.  They leave it at three points, where a name stands for
something declared elsewhere: an alias, a constant, an instance of a generic type.
These three are the fields of a `Resolver`.  What is started there is marked, and an
alias or constant that asks for itself is reported; instances nest at most `maxDepth`
deep.  So a resolver that has as many levels as there are aliases, constants and
permitted instances, and one more, never comes to its last one.
-/
import Keel.Typing.Const
import Keel.Typing.State

namespace Keel.Typing

/-- What stands behind a name. -/
structure Resolver where
  typeAlias : QualName → Check Ty
  /-- The constant of that name; the site is where it is asked for. -/
  const : QualName → Option Site → Check CheckedConst
  /-- The instance of a generic type. -/
  instantiate : QualName → List Ty → Site → Check Ty

/-- Reports what is wrong with an operation and yields its result. -/
def conclude (site : Site) (outcome : Outcome) : Check CheckedConst := do
  match outcome.problem with
  | some problem => report site problem
  | none => pure ()
  return outcome.result

def failConst (site : Site) (problem : Problem) : Check CheckedConst :=
  conclude site (.fail .error problem)

/-! ### Types -/

/-- The type parameters and the types of the language, which are named by one word. -/
def simpleType? (env : TypeEnv) : List String → Option Ty
  | [name] =>
    match env.get? name with
    | some ty => some ty
    | none =>
      match IntKind.ofName? name with
      | some kind => some (.int kind)
      | none =>
        match name with
        | "bool" => some .bool
        | "string" => some .str
        | "unit" => some .unit
        | _ => none
  | _ => none

def nominalType (r : Resolver) (name : QualName) (args : List Ty) (site : Site) : Check Ty := do
  let decls ← read
  if decls.aliases.contains name then
    if !args.isEmpty then
      return ← reject site (.aliasArgs name.name)
    return ← r.typeAlias name
  match decls.nominal? name with
  | none => return .error
  | some nominal =>
    match nominal.params, args with
    | [], [] => return nominal.ty name
    | [], _ :: _ => reject site (.notGenericType name.name)
    | params, [] => reject site (.missingTypeArgs name.name params)
    | _, _ => r.instantiate name args site

/-- A range type, once its parts are known. -/
def rangeType (site : Site) (base : IntKind) : ConstValue → ConstValue → Check Ty
  | .int low, .int high =>
    if low > high then reject site (.emptyRange base low high)
    else return .range base low high
  | _, _ => return .error

mutual

def resolveType (r : Resolver) (scope : ModuleScope) (env : TypeEnv) : TypeAnn → Check Ty
  | ⟨.unit, _⟩ => return .unit
  | ⟨.resolved ty, _⟩ => return ty
  | ⟨.range base low high, span⟩ => do
    match ← resolveType r scope env base with
    | .int kind =>
      let low ← evalConst r scope low (some (.int kind))
      let high ← evalConst r scope high (some (.int kind))
      rangeType (scope.site span) kind low.value high.value
    | .error => return .error
    | other => reject (scope.site span) (.rangeBase other)
  | ⟨.named path args, span⟩ => do
    match if args.isEmpty then simpleType? env path else none with
    | some ty => return ty
    | none =>
      let site := scope.site span
      if path == ["List"] then
        listType r scope env site args
      else
        let resolved ← resolveTypes r scope env args
        let lookup ← lookup scope path .type true
        match ← found? site .type (String.intercalate "::" path) lookup with
        | none => return .error
        | some name => nominalType r name resolved site

/-- The type `List[…]` with these arguments. -/
def listType (r : Resolver) (scope : ModuleScope) (env : TypeEnv) (site : Site) :
    List TypeAnn → Check Ty
  | [arg] => do
    let elem ← resolveType r scope env arg
    return if elem.isError then .error else .list elem
  | _ => reject site .listArity

def resolveTypes (r : Resolver) (scope : ModuleScope) (env : TypeEnv) :
    List TypeAnn → Check (List Ty)
  | [] => return []
  | arg :: rest => do
    let ty ← resolveType r scope env arg
    return ty :: (← resolveTypes r scope env rest)

def evalConst (r : Resolver) (scope : ModuleScope) : Expr → Option Ty → Check CheckedConst
  | ⟨_, .literal (.int value), span⟩, expected =>
    conclude (scope.site span) (constLiteral value expected)
  | ⟨_, .literal (.bool value), _⟩, _ => return ⟨.bool, .bool value⟩
  | ⟨_, .literal (.str value), _⟩, _ => return ⟨.str, .str value⟩
  | ⟨_, .path path, span⟩, _ => do
    let site := scope.site span
    let lookup ← lookup scope path.segments .const false
    match ← found? site .constant path.text lookup with
    | none => return .failed
    | some name => r.const name (some site)
  | ⟨_, .unary .not operand, span⟩, _ => do
    conclude (scope.site span) (constNot (← evalConst r scope operand (some .bool)))
  | ⟨_, .unary op operand, span⟩, expected => do
    conclude (scope.site span)
      (constUnary op (← evalConst r scope operand (operandHint expected)))
  | ⟨_, .binary (.logic op) left right, span⟩, _ => do
    let site := scope.site span
    let unsupported := Problem.constOperands (.logic op) "bool"
    match (← evalConst r scope left (some .bool)).value with
    | .bad => return ⟨.bool, .bad⟩
    | .bool l =>
      if l == (op == .or) then
        return ⟨.bool, .bool l⟩
      match (← evalConst r scope right (some .bool)).value with
      | .bad => return ⟨.bool, .bad⟩
      | .bool b => return ⟨.bool, .bool b⟩
      | _ => failConst site unsupported
    | _ => failConst site unsupported
  | ⟨_, .binary (.compare op) left right, span⟩, _ => do
    let l ← evalConst r scope left none
    let b ← evalConst r scope right none
    conclude (scope.site span) (constBinary (.compare op) l b)
  | ⟨_, .binary (.arith op) left right, span⟩, expected => do
    let l ← evalConst r scope left (operandHint expected)
    let b ← evalConst r scope right (operandHint expected)
    conclude (scope.site span) (constBinary (.arith op) l b)
  | ⟨_, .cast operand ty, span⟩, _ => do
    let target ← resolveType r scope ∅ ty
    let value ← evalConst r scope operand none
    conclude (scope.site span) (constCastTo target value.value)
  | ⟨_, .cond choice, _⟩, expected => evalConditional r scope choice expected
  | ⟨_, .block body, _⟩, expected => evalBlock r scope body expected
  | ⟨_, _, span⟩, _ => failConst (scope.site span) .notConstant

/-- A block is constant if it is nothing but its value. -/
def evalBlock (r : Resolver) (scope : ModuleScope) : Block → Option Ty → Check CheckedConst
  | ⟨[], some tail, _⟩, expected => evalConst r scope tail expected
  | ⟨_, _, span⟩, _ => failConst (scope.site span) .notConstant

/-- Only the branch that is taken is evaluated. -/
def evalConditional (r : Resolver) (scope : ModuleScope) :
    Conditional → Option Ty → Check CheckedConst
  | ⟨condition, thenBlock, otherwise, span⟩, expected => do
    match (← evalConst r scope condition (some .bool)).value with
    | .bad => return .failed
    | .bool true => evalBlock r scope thenBlock expected
    | .bool false => evalElse r scope span otherwise expected
    | _ => failConst (scope.site condition.span) .constCondition

def evalElse (r : Resolver) (scope : ModuleScope) (span : Span) :
    ElseBranch → Option Ty → Check CheckedConst
  | .absent, _ => failConst (scope.site span) .constNeedsElse
  | .block body, expected => evalBlock r scope body expected
  | .elseIf choice, expected => evalConditional r scope choice expected

end

/-! ### Aliases and constants -/

def aliasType (r : Resolver) (name : QualName) : Check Ty := do
  match (← get).aliases.get? name, (← read).aliases.get? name with
  | some (.done ty), _ => return ty
  | some .started, some d => reject (d.scope.site d.decl.span) (.aliasCycle d.decl.name)
  | none, some d =>
    setAlias name .started
    let ty ← resolveType r d.scope ∅ d.decl.ty
    setAlias name (.done ty)
    return ty
  | _, none => return .error

/-- The value of a constant's expression under its declared type. -/
def evalDeclared (r : Resolver) (d : Declared ConstDef) : Check CheckedConst := do
  let site := d.scope.site d.decl.value.span
  match d.decl.ty with
  | some ann =>
    let declared ← resolveType r d.scope ∅ ann
    let actual ← evalConst r d.scope d.decl.value (some declared)
    if declared.isError then
      return .failed
    conclude site (constSettle declared actual)
  | none =>
    let actual ← evalConst r d.scope d.decl.value none
    if actual.ty.isError then
      return .failed
    let ty := if actual.ty.isUntyped then .i64 else actual.ty
    conclude site (constSettle ty ⟨ty, actual.value⟩)

/-- A constant, which is evaluated when it is first asked for. -/
def constValue (r : Resolver) (name : QualName) (site : Option Site) : Check CheckedConst := do
  match (← get).consts.get? name, (← read).consts.get? name with
  | some (.done value), _ => return value
  | some .started, decl =>
    match site <|> decl.map fun d => d.scope.site d.decl.span with
    | some site => failConst site (.constCycle name.name)
    | none => return .failed
  | none, none => return .failed
  | none, some d =>
    setConst name .started
    let result ← evalDeclared r d
    if !isConstType result.ty then
      report (d.scope.site d.decl.span) (.constType result.ty)
    setConst name (.done result)
    return result

/-! ### Structs and enums -/

/-- The fields of a struct; one that repeats a name is left out. -/
def structFields (r : Resolver) (scope : ModuleScope) (env : TypeEnv) :
    List FieldDef → (seen : List String) → Check (List FieldSig)
  | [], _ => return []
  | f :: rest, seen => do
    if seen.contains f.name then
      report (scope.site f.span) (.duplicateField f.name)
      structFields r scope env rest seen
    else
      let ty ← resolveType r scope env f.ty
      return ⟨f.name, ty, f.isPublic⟩ :: (← structFields r scope env rest (f.name :: seen))

/-- The variants of an enum; one that repeats a name is left out. -/
def enumVariants (r : Resolver) (scope : ModuleScope) (env : TypeEnv) :
    List VariantDef → (seen : List String) → Check (List VariantSig)
  | [], _ => return []
  | v :: rest, seen => do
    if seen.contains v.name then
      report (scope.site v.span) (.duplicateVariant v.name)
      enumVariants r scope env rest seen
    else
      if v.fields.length > 1 then
        report (scope.site v.span) (.widePayload v.name v.fields.length)
      let payload ← match v.fields with
        | [] => pure none
        | ann :: _ => some <$> resolveType r scope env ann
      return ⟨v.name, payload⟩ :: (← enumVariants r scope env rest (v.name :: seen))

def buildNominal (r : Resolver) (nominal : Nominal) (name : QualName) (env : TypeEnv)
    (origin : Option Origin) : Check Unit := do
  match nominal with
  | .struct d =>
    let fields ← structFields r d.scope env d.decl.fields []
    setStruct ⟨name, fields, d.scope.path, d.decl.isPublic, origin⟩
  | .enum d =>
    let variants ← enumVariants r d.scope env d.decl.variants []
    setEnum ⟨name, variants, d.scope.path, d.decl.isPublic, origin⟩

/-! ### Instances -/

/-- `T=i64,U=app::geo::Point`: the choice of type arguments, spelled out. -/
def instanceKey (params : List String) (args : List Ty) : String :=
  String.intercalate "," ((params.zip args).map fun (p, a) => p ++ "=" ++ a.canonical)

/-- `Pair[T=i64,U=bool]`: the name of an instance. -/
def instanceName (base : QualName) (params : List String) (args : List Ty) : QualName :=
  base.withName (base.name ++ "[" ++ instanceKey params args ++ "]")

/-- The arguments under the names of the parameters. -/
def bindParams (params : List String) (args : List Ty) : TypeEnv :=
  (params.zip args).foldl (fun env (p, a) => env.insert p a) ∅

/-- Does the type mention a type parameter, be it in the arguments of an instance? -/
def State.mentionsParam (s : State) : Ty → Bool
  | .param _ => true
  | .list t => s.mentionsParam t
  | .struct name | .enum name => s.patterns.contains name
  | _ => false

def State.knows (s : State) (nominal : Nominal) (name : QualName) : Bool :=
  if nominal.isEnum then s.signatures.enums.contains name
  else s.signatures.structs.contains name

/-- An instance of a generic type.  Over type parameters it is only a pattern.  An
instance may name itself through a field: while it is being built its name is enough. -/
def instantiateType (r : Resolver) (base : QualName) (args : List Ty) (site : Site) : Check Ty := do
  match (← read).nominal? base with
  | none => return .error
  | some nominal =>
    let params := nominal.params
    if args.length ≠ params.length then
      return ← reject site (.typeArity base.name params.length args.length)
    if args.any Ty.hasError then
      return .error
    let name := instanceName base params args
    let s ← get
    if args.any s.mentionsParam then
      setPattern name ⟨base, args⟩
      return nominal.ty name
    if s.knows nominal name || s.building.contains name then
      return nominal.ty name
    if s.building.length ≥ maxDepth then
      return ← reject site (.instanceDepth base.name maxDepth)
    modify fun t => { t with building := name :: t.building }
    buildNominal r nominal name (bindParams params args) (some ⟨base, args⟩)
    modify fun t => { t with building := t.building.tail }
    return nominal.ty name

/-! ### The resolver of a program -/

/-- Resolvers that follow names to a depth. -/
def Resolver.within : Nat → Resolver
  | 0 =>
    { typeAlias := fun _ => return .error
      const := fun _ _ => return .failed
      instantiate := fun _ _ _ => return .error }
  | depth + 1 =>
    let r := Resolver.within depth
    { typeAlias := aliasType r
      const := constValue r
      instantiate := instantiateType r }

/-- How many names can be followed, one inside the other. -/
def Declarations.depth (d : Declarations) : Nat := d.aliases.size + d.consts.size + maxDepth + 1

/-- The resolver of the program. -/
def resolver : Check Resolver := return Resolver.within (← read).depth

def typeOf (scope : ModuleScope) (env : TypeEnv) (ann : TypeAnn) : Check Ty := do
  resolveType (← resolver) scope env ann

def typesOf (scope : ModuleScope) (env : TypeEnv) (anns : List TypeAnn) : Check (List Ty) := do
  resolveTypes (← resolver) scope env anns

end Keel.Typing

/-
# What the checker complains about

A problem is a cause together with what a message has to name.  The wording is in
`Problem.message` and `Problem.help` alone.
-/
import Keel.Typing.Arith
import Keel.Module.Index

namespace Keel

/-- What a name was looked up as. -/
inductive NameKind where
  | type | trait | constant | function | binding | value | struct
deriving DecidableEq, Repr

def NameKind.text : NameKind → String
  | type => "type"
  | trait => "trait"
  | constant => "constant"
  | function => "function"
  | binding => "variable"
  | value => "value"
  | struct => "struct"

/-- The place where type arguments could be written. -/
inductive InferSite where
  | call
  | literal
  | variant (name : String)
deriving DecidableEq, Repr

inductive Problem where
  | naming (problem : NameProblem)
  | notFound (kind : NameKind) (written : String)
  | privateDecl (kind : NameKind) (name : QualName)
  -- declarations
  | duplicateField (name : String)
  | duplicateVariant (name : String)
  | widePayload (variant : String) (count : Nat)
  | duplicateParam (name : String)
  | implOnInstance
  | implTarget (found : Ty)
  | genericMethod (name : String)
  | duplicateMethod (name owner : String)
  | notATrait
  | missingMethod (name trait : String)
  | methodMismatch (name trait : String) (params : List Ty) (ret : Ty)
  | foreignMethod (name trait : String)
  -- types
  | rangeBase (found : Ty)
  | emptyRange (base : IntKind) (low high : Int)
  | listArity
  | aliasArgs (name : String)
  | notGenericType (name : String)
  | missingTypeArgs (name : String) (params : List String)
  | aliasCycle (name : String)
  | typeArity (name : String) (expected found : Nat)
  | instanceDepth (name : String) (limit : Nat)
  -- constants
  | constCycle (name : String)
  | constType (found : Ty)
  | constRange (value : Int) (ty : Ty)
  | constMismatch (expected found : Ty)
  | constCast
  | notConstant
  | constCondition
  | constNeedsElse
  | arith (problem : ArithProblem)
  | constOperands (op : BinaryOp) (found : String)
  -- statements
  | noReturnValue (function : String) (ty : Ty)
  | emptyReturn (expected : Ty)
  | reassigned (name : String)
  | fieldOfImmutable (name : String)
  | outsideLoop (word : String)
  | bareLet (name : String)
  -- expressions
  | mismatch (expected found : Ty)
  | needsRangeCheck (expected found : Ty)
  | literalRange (value : Int) (ty : Ty)
  | literalTooWide (value : Int)
  | functionAsValue (path : String)
  | negateUnsigned (ty : Ty)
  | unaryOperand (op : UnaryOp) (found : Ty)
  | compareOperand (op : BinaryOp) (found : Ty)
  | arithOperand (op : BinaryOp) (found : Ty)
  | operandMismatch (op : BinaryOp) (left right : Ty)
  | castTarget (ty : Ty)
  | castSource (source target : Ty)
  | castRange (value : Int) (ty : Ty)
  | branchMismatch (what : String) (first other : Ty)
  | typeHasNoField (ty : Ty) (field : String)
  | noField (struct field : String)
  | privateField (field struct : String)
  | notAStruct (ty : Ty)
  | enumAsStruct (name : String)
  | repeatedField (name : String)
  | unknownField (struct field : String)
  | missingFields (fields : List String) (struct : String)
  | cannotInfer (param owner : String) (params : List String) (site : InferSite)
  -- calls
  | notCallable
  | notAFunction (name : String)
  | builtinTypeArgs (name : String)
  | notGenericFunction (name : String)
  | typeArgCount (name : String) (expected found : Nat)
  | argCount (name : String) (expected found : Nat)
  | builtinArgCount (name : String) (expected found : Nat)
  | methodArgCount (name : String) (expected found : Nat)
  | printType (found : Ty)
  | listElement
  | receiverNotLocal (method : String)
  | noMethod (name : String) (ty : Ty)
  | methodOfType (name : String) (ty : Ty) (owner receiver : String)
  | mutatesImmutable (name : String)
  | genericStructCall (name : String)
  | noAssociatedFunction (ty : Ty) (name : String)
  | noAssociatedMethod (onEnum : Bool) (name owner : String)
  | privateMethod (owner name : String) (module : ModulePath)
  | noVariant (enum variant : String)
  | variantNeedsValue (enum variant : String) (found : Nat)
  | variantTakesNone (enum variant : String)
  | noAssociatedValue (ty : Ty) (name : String)
  | genericStructValue (struct name : String)
  -- matches
  | matchType (found : Ty)
  | armAfterCatchAll
  | repeatedArm
  | patternRange (value : Int) (ty : Ty)
  | patternEnum (path enum : String)
  | patternNeedsPayload (enum variant : String)
  | patternFieldCount (enum variant : String) (found : Nat)
  | patternNoPayload (enum variant : String)
  | patternType (found : String)
  | nestedPattern
  | missingVariants (names : List String)
  | missingBools (values : List Bool)
  | notExhaustive
deriving DecidableEq, Repr

namespace Problem

def quoted (name : String) : String := "`" ++ name ++ "`"

def commas (names : List String) : String := String.intercalate ", " names

def boolText (b : Bool) : String := if b then "true" else "false"

def message : Problem → String
  | naming problem => problem.message
  | notFound kind written => s!"cannot find {kind.text} `{written}` in this scope"
  | privateDecl kind name => s!"{kind.text} `{name.name}` is private to `{name.module.text}`"
  | duplicateField name => s!"field `{name}` is declared more than once"
  | duplicateVariant name => s!"variant `{name}` is declared more than once"
  | widePayload variant count =>
    s!"variant `{variant}` declares {count} payload types; variants carry at most one value"
  | duplicateParam name => s!"parameter `{name}` is declared more than once"
  | implOnInstance => "impl blocks for instantiated generic types are not supported"
  | implTarget found =>
    s!"impl blocks must target a struct or enum declared in this module, found `{found.text}`"
  | genericMethod name => s!"method `{name}` cannot declare type parameters"
  | duplicateMethod name owner => s!"duplicate method `{name}` for `{owner}`"
  | notATrait => "expected a trait name"
  | missingMethod name trait => s!"missing method `{name}` required by trait `{trait}`"
  | methodMismatch name trait params ret =>
    let shown := commas (params.map Ty.text)
    s!"method `{name}` does not match trait `{trait}`: expected `fn({shown}) -> {ret.text}`"
  | foreignMethod name trait => s!"method `{name}` is not a member of trait `{trait}`"
  | rangeBase found => s!"range types need an integer base type, found `{found.text}`"
  | emptyRange base low high => s!"range type `{base.name}[{low}..={high}]` is empty"
  | listArity => "`List` takes exactly one type argument"
  | aliasArgs name => s!"type alias `{name}` takes no type arguments"
  | notGenericType name => s!"type `{name}` is not generic"
  | missingTypeArgs name _ => s!"missing type arguments for `{name}`"
  | aliasCycle name => s!"type alias `{name}` refers to itself"
  | typeArity name expected found => s!"`{name}` takes {expected} type argument(s), found {found}"
  | instanceDepth name limit =>
    s!"recursive instantiation of `{name}` exceeds the depth limit of {limit}"
  | constCycle name => s!"cycle detected while evaluating constant `{name}`"
  | constType found =>
    s!"constants must have integer, bool or string type, found `{found.text}`"
  | constRange value ty => s!"constant value `{value}` does not fit in `{ty.text}`"
  | constMismatch expected found | mismatch expected found | needsRangeCheck expected found =>
    s!"mismatched types: expected `{expected.text}`, found `{found.text}`"
  | constCast => "only integer casts are allowed in constant expressions"
  | notConstant => "expression is not a constant"
  | constCondition => "condition of a constant `if` must be a bool"
  | constNeedsElse => "`if` in a constant expression needs an `else` branch"
  | arith problem => problem.message
  | constOperands op found =>
    s!"operator `{op.symbol}` is not supported for `{found}` in constant expressions"
  | noReturnValue function ty =>
    s!"function `{function}` must return a value of type `{ty.text}`"
  | emptyReturn expected => s!"missing return value: expected `{expected.text}`"
  | reassigned name => s!"cannot assign twice to immutable variable `{name}`"
  | fieldOfImmutable name => s!"cannot assign to a field of immutable variable `{name}`"
  | outsideLoop word => s!"`{word}` outside of a loop"
  | bareLet name => s!"`let {name}` needs a type annotation or an initializer"
  | literalRange value ty => s!"literal `{value}` does not fit in `{ty.text}`"
  | literalTooWide value => s!"literal `{value}` does not fit in any integer type"
  | functionAsValue path => s!"`{path}` is a function, not a value"
  | negateUnsigned ty => s!"cannot negate unsigned type `{ty.text}`"
  | unaryOperand op found => s!"cannot apply unary `{op.symbol}` to `{found.text}`"
  | compareOperand op found => s!"`{op.symbol}` is not supported for values of type `{found.text}`"
  | arithOperand op found => s!"`{op.symbol}` requires integer operands, found `{found.text}`"
  | operandMismatch op left right =>
    s!"mismatched operand types for `{op.symbol}`: `{left.text}` and `{right.text}`"
  | castTarget ty => s!"cannot cast to `{ty.text}`; only integer casts are supported"
  | castSource source target => s!"cannot cast `{source.text}` to `{target.text}`"
  | castRange value ty => s!"cast of `{value}` to `{ty.text}` is out of range"
  | branchMismatch what first other =>
    s!"{what} have incompatible types: `{first.text}` and `{other.text}`"
  | typeHasNoField ty field => s!"type `{ty.text}` has no field `{field}`"
  | noField struct field => s!"struct `{struct}` has no field `{field}`"
  | privateField field struct => s!"field `{field}` of struct `{struct}` is private"
  | notAStruct ty => s!"`{ty.text}` is not a struct and cannot be built with a literal"
  | enumAsStruct name => s!"`{name}` is an enum, not a struct"
  | repeatedField name => s!"field `{name}` is specified more than once"
  | unknownField struct field => s!"struct `{struct}` has no field named `{field}`"
  | missingFields fields struct =>
    let shown := commas (fields.map quoted)
    s!"missing field(s) {shown} in initializer of `{struct}`"
  | cannotInfer param owner _ _ => s!"cannot infer type parameter `{param}` of `{owner}`"
  | notCallable => "expression is not callable"
  | notAFunction name => s!"`{name}` is not a function"
  | builtinTypeArgs name => s!"`{name}` does not take type arguments"
  | notGenericFunction name => s!"function `{name}` is not generic"
  | typeArgCount name expected found =>
    s!"function `{name}` takes {expected} type argument(s), found {found}"
  | argCount name expected found =>
    s!"function `{name}` expects {expected} argument(s), found {found}"
  | builtinArgCount name expected found =>
    s!"`{name}` expects {expected} argument(s), found {found}"
  | methodArgCount name expected found =>
    s!"method `{name}` expects {expected} argument(s), found {found}"
  | printType found => s!"`print` accepts integers, bool and string, found `{found.text}`"
  | listElement => "cannot infer the element type of `list()`"
  | receiverNotLocal method => s!"method `{method}` needs a local variable as its receiver"
  | noMethod name ty => s!"no method named `{name}` on type `{ty.text}`"
  | methodOfType name ty _ _ => s!"no method named `{name}` on type `{ty.text}`"
  | mutatesImmutable name => s!"cannot mutate immutable variable `{name}`"
  | genericStructCall name => s!"generic struct `{name}` has no associated functions"
  | noAssociatedFunction ty name => s!"type `{ty.text}` has no associated function `{name}`"
  | noAssociatedMethod onEnum name owner =>
    let kind := if onEnum then "variant or method" else "method"
    s!"no {kind} named `{name}` on `{owner}`"
  | privateMethod owner name module =>
    s!"method `{owner}.{name}` is private to `{module.text}`"
  | noVariant enum variant => s!"enum `{enum}` has no variant `{variant}`"
  | variantNeedsValue enum variant found =>
    s!"variant `{enum}.{variant}` expects 1 value, found {found}"
  | variantTakesNone enum variant => s!"variant `{enum}.{variant}` takes no values"
  | noAssociatedValue ty name => s!"`{ty.text}` has no associated value `{name}`"
  | genericStructValue struct name => s!"`{struct}` has no associated value `{name}`"
  | matchType found => s!"cannot match on values of type `{found.text}`"
  | armAfterCatchAll => "unreachable match arm: an earlier arm already matches every value"
  | repeatedArm => "unreachable match arm: this pattern is already covered"
  | patternRange value ty => s!"pattern `{value}` can never match a value of type `{ty.text}`"
  | patternEnum path enum => s!"pattern names `{path}` but the value has type `{enum}`"
  | patternNeedsPayload enum variant =>
    s!"variant `{enum}.{variant}` carries a value; bind it or use `_`"
  | patternFieldCount enum variant found =>
    s!"variant `{enum}.{variant}` carries 1 value, found {found} sub-patterns"
  | patternNoPayload enum variant => s!"variant `{enum}.{variant}` carries no value"
  | patternType found => s!"pattern does not match values of type `{found}`"
  | nestedPattern => "only bindings and `_` are allowed inside variant patterns"
  | missingVariants names =>
    let shown := commas (names.map quoted)
    s!"non-exhaustive match: missing variant(s) {shown}"
  | missingBools values =>
    let shown := commas (values.map fun b => quoted (boolText b))
    s!"non-exhaustive match: missing {shown}"
  | notExhaustive => "non-exhaustive match: not every value is covered"

def help : Problem → Option String
  | naming problem => problem.help
  | widePayload .. => some "wrap the values in a struct"
  | missingTypeArgs name params =>
    let shown := commas params
    some s!"write `{name}[{shown}]`"
  | noReturnValue .. => some "end the body with a tail expression or a `return`"
  | reassigned name | fieldOfImmutable name | mutatesImmutable name =>
    some s!"declare it with `let mut {name}`"
  | bareLet name => some s!"write `let {name}: <type> = <value>;`"
  | needsRangeCheck expected _ =>
    some s!"convert with a range check: `value as {expected.text}`"
  | functionAsValue path => some s!"call it: `{path}(...)`"
  | enumAsStruct name => some s!"construct it with `{name}.Variant(...)`"
  | cannotInfer _ owner params site =>
    let shown := commas params
    match site with
    | .call => some s!"pass the type arguments explicitly: `{owner}[{shown}](...)`"
    | .literal => some s!"write the type arguments: `{owner}[{shown}] \x7b ... \x7d`"
    | .variant name => some s!"annotate the expected type or write `{owner}[{shown}].{name}`"
  | listElement => some "annotate the binding, e.g. `let xs: List[i32] = list();`"
  | receiverNotLocal _ => some "bind the value with `let` first"
  | methodOfType name _ owner receiver =>
    some s!"call it through the type: `{owner}.{name}({receiver}, ...)`"
  | noAssociatedValue ty name =>
    some s!"associated functions must be called: `{ty.text}.{name}(...)`"
  | nestedPattern => some "bind the payload and match on it in the arm body"
  | notExhaustive => some "add a `_` arm"
  | _ => none

end Problem

/-- A report as it is shown. -/
def Report.diagnostic (r : Report Problem) : Diagnostic :=
  { path := r.path, span := r.span, message := r.problem.message, help := r.problem.help }

end Keel

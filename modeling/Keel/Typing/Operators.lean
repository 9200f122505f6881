/-
# Literals, names, operators and casts

The rules for single expressions; the parts of an expression are operands, which a
rule checks in the order in which they are evaluated.
-/
import Keel.Typing.Frame

namespace Keel.Typing

/-- An integer literal takes the integer type that is expected.  Otherwise it has no
type yet, and has to fit into some integer type. -/
def checkInt (f : Frame) (span : Span) (value : Int) (expected : Option Ty) : Check Ty := do
  match expected.filter Ty.isSettledInt with
  | some target =>
    if !target.admits value then
      report (f.site span) (.literalRange value target)
    return target
  | none =>
    if IntKind.i64.contains value || IntKind.u64.contains value then
      return .untyped
    reject (f.site span) (.literalTooWide value)

def checkLiteral (f : Frame) (span : Span) (expected : Option Ty) : Literal → Check Ty
  | .bool _ => return .bool
  | .str _ => return .str
  | .int value => checkInt f span value expected

def checkConstant (f : Frame) (id : NodeId) (span : Span) (path : PathExpr) : Check Ty := do
  let site := f.site span
  match ← lookup f.scope path.segments .const false with
  | .found name =>
    let value ← (← resolver).const name (some site)
    recordConst id name
    return value.ty
  | .hidden name => reject site (.privateDecl .constant name)
  | .unknownModule module => reject site (.naming (.unknownModule module))
  | .missing =>
    match ← lookup f.scope path.segments .function true with
    | .found _ => reject site (.functionAsValue path.text)
    | _ => reject site (.notFound .value path.text)

def checkPath (f : Frame) (id : NodeId) (span : Span) (path : PathExpr) : Check Ty :=
  match f.local? path with
  | some l => return l.ty
  | none => checkConstant f id span path

/-- The type of a negation or complement, given that of its operand. -/
def negatedType (site : Site) (op : UnaryOp) (ty : Ty) : Check Ty :=
  match ty with
  | .untyped => return .untyped
  | .error => return .error
  | _ =>
    match ty.intKind? with
    | some kind =>
      if op = .neg ∧ !kind.signed then reject site (.negateUnsigned ty)
      else return .int kind
    | none => reject site (.unaryOperand op ty)

def checkUnary (f : Frame) (op : UnaryOp) (operand : Operand) (expected : Option Ty) :
    Check Ty := do
  match op with
  | .not =>
    checkAgainst f operand .bool
    return .bool
  | _ =>
    let ty ← operand.check f (operandHint expected)
    negatedType (f.site operand.expr.span) op ty

/-- The common type of two operands: numbers without a type take that of the other
side, and ranges give way to their base. -/
def commonType (f : Frame) (span : Span) (op : BinaryOp) (left right : Operand) (l r : Ty) :
    Check Ty := do
  if l.isError || r.isError then
    return .error
  if l.isUntyped && r.isUntyped then
    return .untyped
  if l.isUntyped && r.isIntegral then
    settle f.scope.file r.decay left.expr
    return r.decay
  if r.isUntyped && l.isIntegral then
    settle f.scope.file l.decay right.expr
    return l.decay
  if l.decay.agrees r.decay then
    return l.decay
  reject (f.site span) (.operandMismatch op l r)

/-- Can values of the type be compared this way? -/
def isComparable (op : CompareOp) (ty : Ty) : Bool :=
  ty.isIntegral || op.isEquality && (ty == .bool || ty == .str)

def checkCompare (f : Frame) (span : Span) (op : CompareOp) (left right : Operand) :
    Check Ty := do
  let l ← left.check f none
  let r ← right.check f none
  let operand ← commonType f span (.compare op) left right l r
  if operand.isUntyped then
    settle f.scope.file .i64 left.expr
    settle f.scope.file .i64 right.expr
  else if !operand.isError && !isComparable op operand then
    report (f.site span) (.compareOperand (.compare op) operand)
  return .bool

def checkArith (f : Frame) (span : Span) (op : ArithOp) (left right : Operand)
    (expected : Option Ty) : Check Ty := do
  let l ← left.check f (operandHint expected)
  let r ← right.check f (operandHint expected)
  let operand ← commonType f span (.arith op) left right l r
  if operand.isError || operand.isIntegral then
    return operand
  reject (f.site span) (.arithOperand (.arith op) operand)

def checkBinary (f : Frame) (span : Span) (op : BinaryOp) (left right : Operand)
    (expected : Option Ty) : Check Ty := do
  match op with
  | .logic _ =>
    checkAgainst f left .bool
    checkAgainst f right .bool
    return .bool
  | .compare op => checkCompare f span op left right
  | .arith op => checkArith f span op left right expected

/-- Is a checked expression made of integer literals, constants and operators only? -/
def isConstantExpr (refs : Std.TreeMap NodeId QualName) : Expr → Bool
  | ⟨_, .literal (.int _), _⟩ => true
  | ⟨id, .path _, _⟩ => refs.contains id
  | ⟨_, .unary _ operand, _⟩ => isConstantExpr refs operand
  | ⟨_, .binary (.logic _) _ _, _⟩ => false
  | ⟨_, .binary _ left right, _⟩ => isConstantExpr refs left && isConstantExpr refs right
  | ⟨_, .cast operand _, _⟩ => isConstantExpr refs operand
  | _ => false

/-- A cast of a constant has to be in range; other casts are checked when they run. -/
def checkConstantCast (f : Frame) (e : Expr) (target : Ty) : Check Unit := do
  if isConstantExpr (← get).resolutions.constRefs e then
    match (← evalConst (← resolver) f.scope e none).value with
    | .int value =>
      if !target.admits value then
        report (f.site e.span) (.castRange value target)
    | _ => return

def checkCast (f : Frame) (operand : Operand) (ann : TypeAnn) : Check Ty := do
  let target ← typeOf f.scope f.types ann
  let source ← operand.check f none
  if target.isError then
    return .error
  if !target.isSettledInt then
    return ← reject (f.site ann.span) (.castTarget target)
  if source.isError then
    return target
  if !source.isIntegral then
    report (f.site operand.expr.span) (.castSource source target)
    return target
  checkConstantCast f operand.expr target
  if source.isUntyped then
    settle f.scope.file .i64 operand.expr
  return target

end Keel.Typing

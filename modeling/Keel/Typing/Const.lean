/-
# The value of one operation

How the parts of a constant expression combine.  The operands have been evaluated; an
operation yields a typed value and perhaps a problem.  After a failed operand an
operation fails too, without a problem of its own.

A number without a type takes the type of the other operand, a range gives way to its
base, and operations on numbers without a type are done in `i64`.
-/
import Keel.Checked
import Keel.Typing.Problem

namespace Keel

namespace CheckedConst

def failed : CheckedConst := ⟨.error, .bad⟩

end CheckedConst

namespace Typing

/-- What an operation comes to. -/
structure Outcome where
  result : CheckedConst
  problem : Option Problem := none

namespace Outcome

def ok (ty : Ty) (value : ConstValue) : Outcome := ⟨⟨ty, value⟩, none⟩

/-- No value, for a reason that is known already. -/
def silent (ty : Ty) : Outcome := ⟨⟨ty, .bad⟩, none⟩

/-- No value; the type may still be known. -/
def fail (ty : Ty) (problem : Problem) : Outcome := ⟨⟨ty, .bad⟩, some problem⟩

def ofArith (ty : Ty) : Except ArithProblem Int → Outcome
  | .ok value => ok ty (.int value)
  | .error problem => fail ty (.arith problem)

end Outcome

/-- The type that an integer operation asks of its operands. -/
def operandHint (expected : Option Ty) : Option Ty :=
  (expected.filter Ty.isIntegral).map Ty.decay

/-- The kind in which integers of the type are computed. -/
def workingKind (ty : Ty) : IntKind := ty.intKind?.getD .i64

def constLiteral (value : Int) (expected : Option Ty) : Outcome :=
  match expected.filter Ty.isIntegral with
  | some target =>
    if target.admits value then .ok target (.int value)
    else .fail .error (.literalRange value target)
  | none => .ok .untyped (.int value)

def constNot : CheckedConst → Outcome
  | ⟨_, .bool value⟩ => .ok .bool (.bool !value)
  | ⟨_, .bad⟩ => .silent .bool
  | ⟨ty, _⟩ => .fail .error (.unaryOperand .not ty)

def constUnary (op : UnaryOp) : CheckedConst → Outcome
  | ⟨ty, .int value⟩ =>
    let kind := workingKind ty.decay
    .ofArith ty.decay (if op = .neg then kind.neg value else kind.complement value)
  | ⟨ty, .bad⟩ => .silent ty
  | ⟨ty, _⟩ => .fail .error (.unaryOperand op ty)

def constCastTo (target : Ty) : ConstValue → Outcome
  | .bad => .silent target
  | .int value =>
    if target.isIntegral then
      if target.admits value then .ok target (.int value)
      else .fail target (.castRange value target)
    else .fail .error .constCast
  | _ => .fail .error .constCast

/-- The type that an untyped number takes from the other operand. -/
def adoptType (value : ConstValue) (other : Ty) : Except Outcome Ty :=
  let target := other.decay
  match value with
  | .int v => if target.admits v then .ok target else .error (.fail target (.literalRange v target))
  | _ => .ok target

/-- The common type of two operands. -/
def constOperandType (op : BinaryOp) (left right : CheckedConst) : Except Outcome Ty :=
  if left.ty.isUntyped && right.ty.isUntyped then .ok .untyped
  else if left.ty.isUntyped && right.ty.isIntegral then adoptType left.value right.ty
  else if right.ty.isUntyped && left.ty.isIntegral then adoptType right.value left.ty
  else if left.ty.decay.agrees right.ty.decay then .ok left.ty.decay
  else .error (.fail .error (.operandMismatch op left.ty right.ty))

/-- The value of an operation on two values that have a type in common. -/
def constApply (op : BinaryOp) (ty : Ty) (left right : ConstValue) : Outcome :=
  let unsupported : Outcome := .fail .error (.constOperands op ty.text)
  match op, left, right with
  | .compare c, .int a, .int b => .ok .bool (.bool (c.holds a b))
  | .arith o, .int a, .int b => .ofArith ty (o.apply (workingKind ty) a b)
  | .compare .eq, .bool a, .bool b => .ok .bool (.bool (a == b))
  | .compare .ne, .bool a, .bool b => .ok .bool (.bool (a != b))
  | .compare .eq, .str a, .str b => .ok .bool (.bool (a == b))
  | .compare .ne, .str a, .str b => .ok .bool (.bool (a != b))
  | _, _, _ => unsupported

def constBinary (op : BinaryOp) (left right : CheckedConst) : Outcome :=
  if left.value = .bad ∨ right.value = .bad then
    match op with
    | .compare _ => .silent .bool
    | _ => .silent left.ty.decay
  else
    match constOperandType op left right with
    | .error outcome => outcome
    | .ok ty => constApply op ty left.value right.value

/-- A value that is to be a constant of the declared type. -/
def constSettle (declared : Ty) (actual : CheckedConst) : Outcome :=
  if actual.ty.isError ∨ actual.value = .bad then .silent declared
  else if !constFits declared actual.ty then .fail declared (.constMismatch declared actual.ty)
  else
    match actual.value with
    | .int v =>
      if declared.admits v then .ok declared actual.value
      else .fail declared (.constRange v declared)
    | value => .ok declared value
where
  /-- The declared type itself, a number without a type, or a range of the declared
  kind. -/
  constFits (declared : Ty) : Ty → Bool
    | .untyped => declared.isIntegral
    | .range base low high => (Ty.range base low high).agrees declared || declared == .int base
    | actual => actual.agrees declared

/-- Integers, bools and strings can be constants. -/
def isConstType : Ty → Bool
  | .int _ | .range _ _ _ | .bool | .str | .error => true
  | _ => false

end Typing
end Keel

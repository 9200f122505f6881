/-
# Constant arithmetic

Operations on constants are those of the integer kind they are done in, but a result
that does not fit is an error, where a running program would wrap around.  Division
goes toward zero, and a shift count has to be less than the width.
-/
import Keel.Syntax

namespace Keel

/-- Why a constant operation has no value. -/
inductive ArithProblem where
  | overflow (kind : IntKind)
  | divisionByZero
  | remainderByZero
  | divisionOverflow (kind : IntKind)
  | shiftCount (count : Int) (kind : IntKind)
deriving DecidableEq, Repr

def ArithProblem.message : ArithProblem → String
  | overflow kind =>
    s!"arithmetic overflow in constant expression: result does not fit in `{kind.name}`"
  | divisionByZero => "division by zero in constant expression"
  | remainderByZero => "remainder by zero in constant expression"
  | divisionOverflow kind =>
    s!"overflow in constant expression: `{kind.name}` minimum divided by -1"
  | shiftCount count kind => s!"shift count `{count}` is out of range for `{kind.name}`"

/-- A word wide enough for every literal. -/
def widest : Nat := 128

/-- A bitwise operation on integers in two's complement. -/
def bitwise (f : BitVec widest → BitVec widest → BitVec widest) (a b : Int) : Int :=
  (f (BitVec.ofInt widest a) (BitVec.ofInt widest b)).toInt

/-- A result, if it is a value of the kind. -/
def IntKind.fit (kind : IntKind) (value : Int) : Except ArithProblem Int :=
  if kind.contains value then .ok value else .error (.overflow kind)

namespace ArithOp

/-- The shift count as a number of bits. -/
def shiftBy (kind : IntKind) (count : Int) : Except ArithProblem Nat :=
  if count < 0 ∨ count ≥ kind.bits then .error (.shiftCount count kind) else .ok count.toNat

/-- The value of an operation in an integer kind. -/
def apply (op : ArithOp) (kind : IntKind) (a b : Int) : Except ArithProblem Int :=
  match op with
  | add => kind.fit (a + b)
  | sub => kind.fit (a - b)
  | mul => kind.fit (a * b)
  | div =>
    if b = 0 then .error .divisionByZero
    else if kind.signed ∧ a = kind.min ∧ b = -1 then .error (.divisionOverflow kind)
    else kind.fit (a.tdiv b)
  | rem =>
    if b = 0 then .error .remainderByZero
    else if kind.signed ∧ a = kind.min ∧ b = -1 then .error (.divisionOverflow kind)
    else kind.fit (a.tmod b)
  | bitAnd => kind.fit (bitwise (· &&& ·) a b)
  | bitOr => kind.fit (bitwise (· ||| ·) a b)
  | bitXor => kind.fit (bitwise (· ^^^ ·) a b)
  | shl => do kind.fit (a <<< (← shiftBy kind b))
  | shr => do kind.fit (a >>> (← shiftBy kind b))

end ArithOp

def IntKind.neg (kind : IntKind) (a : Int) : Except ArithProblem Int := kind.fit (-a)

/-- Complement in an integer kind: all bits turned over. -/
def IntKind.complement (kind : IntKind) (a : Int) : Except ArithProblem Int :=
  kind.fit (if kind.signed then -a - 1 else kind.max - a)

end Keel

/-
# Code for instructions

Every instruction becomes a few statements.

Integer arithmetic must not run into what C leaves undefined.  Sums, differences and
products are computed in an unsigned type of at least 32 bits, so that they wrap, and
converted back.  Division stops the program if the divisor is zero or the quotient does
not fit, and a shift if the amount is not below the width.
-/
import Keel.Fault
import Keel.Target.Syntax

namespace Keel.Target

open Ir (Storage Operand Instr Terminator TempId)

def ofConstant : Ir.Constant → Expr
  | .unit => .number 0
  | .bool value => .bool value
  | .int value kind => .int value kind
  | .str value => .str value

def ofOperand : Operand → Expr
  | .param index => .param index
  | .temp id => .temp id
  | .const value => ofConstant value

/-! ### Integers -/

/-- The unsigned kind in which sums, differences and products of a kind are computed. -/
def wrappingKind (kind : IntKind) : IntKind := if kind.bits ≤ 32 then .u32 else .u64

def negateCode (dest : TempId) (kind : IntKind) (e : Expr) : List Stmt :=
  let wide := wrappingKind kind
  [.assign (.temp dest) (.cast kind (.arith .sub (.cast wide (.number 0)) (.cast wide e)))]

def complementCode (dest : TempId) (kind : IntKind) (e : Expr) : List Stmt :=
  [.assign (.temp dest) (.cast kind (.complement e))]

/-- Stops the program if a quotient does not fit: only the least value by `-1`. -/
def quotientGuard (kind : IntKind) (l r : Expr) : List Stmt :=
  if kind.signed then
    [.failIf (.logic .and (.compare .eq r (.number (-1))) (.compare .eq l (.int kind.min kind)))
      "integer overflow in division"]
  else
    []

def shiftGuard (kind : IntKind) (r : Expr) : Stmt :=
  .failIf (.compare .ge (.cast .u64 r) (.number kind.bits)) "shift amount out of range"

def arithCode (dest : TempId) (op : ArithOp) (kind : IntKind) (l r : Expr) : List Stmt :=
  let wide := wrappingKind kind
  match op with
  | .add | .sub | .mul =>
    [.assign (.temp dest) (.cast kind (.arith op (.cast wide l) (.cast wide r)))]
  | .div | .rem =>
    .failIf (.compare .eq r (.number 0)) "division by zero" :: quotientGuard kind l r ++
      [.assign (.temp dest) (.cast kind (.arith op l r))]
  | .bitAnd | .bitOr | .bitXor => [.assign (.temp dest) (.cast kind (.arith op l r))]
  | .shl => [shiftGuard kind r, .assign (.temp dest) (.cast kind (.arith .shl (.cast wide l) r))]
  | .shr => [shiftGuard kind r, .assign (.temp dest) (.cast kind (.arith .shr l r))]

/-- The tests that a value is within bounds, as far as its kind leaves them open. -/
def boundTests (value : Expr) (kind : IntKind) (low high : Int) : List Expr :=
  (if low > kind.min then [.compare .lt value (.int low kind)] else []) ++
    if high < kind.max then [.compare .gt value (.int high kind)] else []

/-- Stops the program unless the value is within the bounds. -/
def rangeCheckCode (value : Expr) (kind : IntKind) (low high : Int) : List Stmt :=
  let message := s!"value out of range {low}..={high}"
  if low > kind.max ∨ high < kind.min then
    [.fail message]
  else
    match boundTests value kind low high with
    | [] => []
    | test :: rest => [.failIf (rest.foldl (.logic .or) test) message]

/-! ### Operators -/

def unaryCode (function : String) (dest : TempId) (op : UnaryOp) (e : Expr) (ty : Storage) :
    Except Fault (List Stmt) :=
  match op, ty with
  | .not, _ => .ok [.assign (.temp dest) (.not e)]
  | .neg, .int kind => .ok (negateCode dest kind e)
  | .bitNot, .int kind => .ok (complementCode dest kind e)
  | op, ty => .error (.operatorType function op.symbol ty)

/-- Operators on `bool` and `unit`: comparisons, and `&`, `|`, `^` without a cast. -/
def plainOperator (op : Ir.EagerOp) (l r : Expr) : Option Expr :=
  match op with
  | .compare op => some (.compare op l r)
  | .arith .bitAnd => some (.arith .bitAnd l r)
  | .arith .bitOr => some (.arith .bitOr l r)
  | .arith .bitXor => some (.arith .bitXor l r)
  | .arith _ => none

def binaryCode (function : String) (dest : TempId) (op : Ir.EagerOp) (l r : Expr) (ty : Storage) :
    Except Fault (List Stmt) :=
  match ty, op with
  | .str, .compare .eq => .ok [.assign (.temp dest) (.call "kl_str_eq" [l, r])]
  | .str, .compare .ne => .ok [.assign (.temp dest) (.not (.call "kl_str_eq" [l, r]))]
  | .str, op => .error (.stringOperator function op.symbol)
  | .int _, .compare op => .ok [.assign (.temp dest) (.compare op l r)]
  | .int kind, .arith op => .ok (arithCode dest op kind l r)
  | .bool, op | .unit, op =>
    match plainOperator op l r with
    | some e => .ok [.assign (.temp dest) e]
    | none => .error (.operatorType function op.symbol ty)
  | ty, op => .error (.operatorType function op.symbol ty)

/-! ### Calls -/

def serviceCode (function : String) (which : Ir.Service) (arg : Expr) (ty : Storage) :
    Except Fault (List Stmt) :=
  match which, ty with
  | .print, .int kind =>
    .ok [.perform (if kind.signed then .call "kl_print_i64" [.cast .i64 arg]
      else .call "kl_print_u64" [.cast .u64 arg])]
  | .print, .bool => .ok [.perform (.call "kl_print_bool" [arg])]
  | .print, .str => .ok [.perform (.call "kl_print_str" [arg])]
  | .assert, .bool => .ok [.perform (.call "kl_assert" [arg])]
  | .panic, .str => .ok [.perform (.call "kl_panic" [arg])]
  | which, ty => .error (.serviceType function which ty)

def argument (function : String) (op : Intrinsic) (args : List Expr) (index : Nat) :
    Except Fault Expr :=
  match args[index]? with
  | some e => .ok e
  | none => .error (.missingArgument function op index)

def elementType (function : String) (op : Intrinsic) : Option Storage → Except Fault Storage
  | some ty => .ok ty
  | none => .error (.receiverNotList function op)

def intrinsicCode (function : String) (dest : TempId) (op : Intrinsic) (receiver : Expr)
    (args : List Expr) (element : Option Storage) : Except Fault (List Stmt) := do
  let done : Stmt := .assign (.temp dest) (.number 0)
  match op with
  | .listPush =>
    let ty ← elementType function op element
    return [.push ty receiver (← argument function op args 0), done]
  | .listLen => return [.assign (.temp dest) (.memberAt receiver "len")]
  | .listGet =>
    let ty ← elementType function op element
    return [.assign (.temp dest) (.element ty receiver (← argument function op args 0))]
  | .listSet =>
    let ty ← elementType function op element
    let index ← argument function op args 0
    return [.assign (.element ty receiver index) (← argument function op args 1), done]
  | .strLen => return [.assign (.temp dest) (.member receiver "len")]
  | .strConcat =>
    let other ← argument function op args 0
    return [.assign (.temp dest) (.call "kl_str_concat" [receiver, other])]
  | .strByteAt =>
    let index ← argument function op args 0
    return [.assign (.temp dest) (.call "kl_str_byte_at" [receiver, index])]

/-! ### Instructions -/

/-- The member for the field at a position. -/
def fieldName (index : Nat) : String := s!"f{index}"

/-- An empty struct has a member too, which is never read. -/
def structFields (fields : List Operand) : List Expr :=
  if fields.isEmpty then [.number 0] else fields.map ofOperand

def instrCode (f : Ir.Function) : Instr → Except Fault (List Stmt)
  | .load dest slot => .ok [.assign (.temp dest) (.slot slot)]
  | .store slot value => .ok [.assign (.slot slot) (ofOperand value)]
  | .storeField slot path value =>
    let target := path.foldl (fun e field => .member e (fieldName field.index)) (.slot slot)
    .ok [.assign target (ofOperand value)]
  | .unary dest op e =>
    match f.temps[dest.index]? with
    | some ty => unaryCode f.name dest op (ofOperand e) ty
    | none => .error (.unknownTemp f.name dest)
  | .binary dest op l r ty => binaryCode f.name dest op (ofOperand l) (ofOperand r) ty
  | .cast dest value _ target => .ok [.assign (.temp dest) (.cast target (ofOperand value))]
  | .rangeCheck value kind low high => .ok (rangeCheckCode (ofOperand value) kind low high)
  | .call dest function args =>
    .ok [.assign (.temp dest) (.call (functionSymbol function) (args.map ofOperand))]
  | .service which arg ty => serviceCode f.name which (ofOperand arg) ty
  | .makeStruct dest name fields =>
    .ok [.assign (.temp dest) (.structValue name (structFields fields))]
  | .getField dest base field =>
    .ok [.assign (.temp dest) (.member (ofOperand base) (fieldName field.index))]
  | .makeVariant dest enum variant value =>
    .ok [.assign (.temp dest) (.variantValue enum variant (value.map ofOperand))]
  | .tag dest value => .ok [.assign (.temp dest) (.member (ofOperand value) "tag")]
  | .payload dest value _ _ index field =>
    .ok [.assign (.temp dest)
      (.member (.member (.member (ofOperand value) "u") s!"v{index}") (fieldName field))]
  | .newList dest element => .ok [.assign (.temp dest) (.call "kl_list_new" [.size element])]
  | .intrinsic dest op receiver args element =>
    intrinsicCode f.name dest op (.slot receiver) (args.map ofOperand) element

def terminatorCode : Terminator → Stmt
  | .ret value => .ret (ofOperand value)
  | .jump target => .jump target
  | .branch condition thenBlock elseBlock => .branch (ofOperand condition) thenBlock elseBlock
  | .unreachable => .fail "entered unreachable code"

end Keel.Target

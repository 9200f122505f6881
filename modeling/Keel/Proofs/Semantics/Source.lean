/-
# Running a checked program

An evaluator for checked bodies.  Operands, arguments and the fields of a struct literal
are evaluated from left to right as they are written; the variable that a method is
called on is read after the arguments.  `&&` and `||` leave their right side alone if the
left one decides.  A `match` takes the first arm whose pattern the value has.  `break`
and `continue` are for the innermost loop whose body they stand in.

Numbers wrap around to the kind of the node that computes them.  Division by zero, the
one quotient that does not fit, shifts by no less than the width and casts to a range
from outside it are failures, as are an assertion that does not hold, a panic, and an
index beyond the end.

A run has no result if it reads a variable that has not been given a value, if an
operation is applied to values it is not for, and if it takes more than the given number
of rounds of a loop or of calls inside each other.
-/
import Keel.Proofs.Semantics.Resolved

namespace Keel.Source

/-! ### States -/

structure Local where
  name : String
  ty : Ty
  value : Option Value

structure State where
  locals : List Local := []
  world : World := {}

/-- Leaves the oldest variables only. -/
def State.trim (σ : State) (size : Nat) : State :=
  { σ with locals := σ.locals.drop (σ.locals.length - size) }

inductive Exit where
  | brk
  | cont
  | ret (value : Value)
  | fail (failure : Failure)

/-- A computation that reads and changes a state.  It may have no result. -/
def Eval (α : Type) : Type := State → Option (Except Exit α × State)

namespace Eval

variable {α β : Type}

instance : Monad Eval where
  pure a := fun σ => some (.ok a, σ)
  bind m k := fun σ =>
    match m σ with
    | some (.ok a, σ') => k a σ'
    | some (.error e, σ') => some (.error e, σ')
    | none => none

def exit (e : Exit) : Eval α := fun σ => some (.error e, σ)

def stuck : Eval α := fun _ => none

def expect : Option α → Eval α
  | some a => pure a
  | none => stuck

def outcome : Option (Except Failure α) → Eval α
  | some (.ok a) => pure a
  | some (.error f) => exit (.fail f)
  | none => stuck

def act (f : World → Option (Except Failure α × World)) : Eval α := fun σ =>
  match f σ.world with
  | some (.ok a, w) => some (.ok a, { σ with world := w })
  | some (.error e, w) => some (.error (.fail e), { σ with world := w })
  | none => none

def change (f : List Local → Option (List Local)) : Eval Unit := fun σ =>
  match f σ.locals with
  | some locals => some (.ok (), { σ with locals := locals })
  | none => none

def seek (name : String) : Eval (Option Local) := fun σ =>
  some (.ok (σ.locals.find? (·.name == name)), σ)

def read (name : String) : Eval Value := do
  expect ((← seek name).bind (·.value))

/-- Runs with more variables, which are gone afterwards, as are those declared on the way. -/
def within (declared : List Local) (m : Eval α) : Eval α := fun σ =>
  match m { σ with locals := declared ++ σ.locals } with
  | some (r, σ') => some (r, σ'.trim σ.locals.length)
  | none => none

/-- The body of a loop, run once: is there to be another round? -/
def round (body : Eval Value) : Eval Bool := fun σ =>
  match body σ with
  | some (.ok _, σ') => some (.ok true, σ')
  | some (.error .cont, σ') => some (.ok true, σ')
  | some (.error .brk, σ') => some (.ok false, σ')
  | some (.error e, σ') => some (.error e, σ')
  | none => none

/-- A loop of less than the given number of rounds. -/
def loop : Nat → Eval Value → Eval Value → Eval Unit
  | 0, _, _ => stuck
  | n + 1, condition, body => do
    match ← condition with
    | .bool false => return
    | .bool true => if ← round body then loop n condition body
    | _ => stuck

end Eval

open Eval

def update (name : String) (f : Local → Option Value) : List Local → Option (List Local)
  | [] => none
  | l :: rest =>
    if l.name == name then (f l).map fun value => { l with value := some value } :: rest
    else (update name f rest).map (l :: ·)

/-! ### Rules -/

/-- What a body can refer to, and how often its loops may turn. -/
structure Setting where
  program : CheckedProgram
  call : QualName → List Value → World → Option (Except Failure Value × World)
  limit : Nat

namespace Setting

variable (c : Setting)

def typeOf (id : NodeId) : Eval Ty := expect (c.program.resolutions.exprTypes.get? id)

def kindOf (id : NodeId) : Eval IntKind :=
  expect ((c.program.resolutions.exprTypes.get? id).bind Ty.width?)

/-- An operand has to be of the type that is recorded for it. -/
def operand (id : NodeId) (m : Eval Value) : Eval Value := do
  let value ← m
  if value.isOf (← c.typeOf id) then return value else stuck

def joined (id : NodeId) (m : Eval Value) : Eval Value := do
  let value ← m
  match ← c.typeOf id with
  | .unit => return .unit
  | t => if value.isOf t then return value else stuck

def literal (id : NodeId) : Literal → Eval Value
  | .bool value => return .bool value
  | .str value => return .str value
  | .int value => return .int (.ofInt (← c.kindOf id) value)

def path (id : NodeId) (path : PathExpr) : Eval Value := fun σ =>
  match path.simple?.bind fun name => σ.locals.find? (·.name == name) with
  | some l => expect l.value σ
  | none => expect (((c.program.resolutions.constRefs.get? id).bind
      c.program.consts.get?).bind (·.value?)) σ

/-- The operators on numbers give a number of the kind of the node. -/
def unary (id : NodeId) (op : UnaryOp) (value : Value) : Eval Value :=
  match value with
  | .int n => do
    if n.kind = (← c.kindOf id) then expect (Value.unary? op (.int n)) else stuck
  | value => expect (Value.unary? op value)

def arith (id : NodeId) (op : ArithOp) (left right : Eval Value) : Eval Value := do
  let l ← left
  let r ← right
  outcome (Value.arith? op (← c.kindOf id) l r)

def compare (op : CompareOp) (left right : Eval Value) : Eval Value := do
  let l ← left
  let r ← right
  return .bool (← expect (Value.compare? op l r))

def logic (op : LogicOp) (left right : Eval Value) : Eval Value := do
  match ← left with
  | .bool value => if value == (op == .or) then return .bool value else right
  | _ => stuck

/-- Fails unless the number is within the bounds of the type, if it has some. -/
def checkRange (t : Ty) (n : Number) : Eval Unit :=
  match t with
  | .range _ low high =>
    if low ≤ n.value ∧ n.value ≤ high then return else exit (.fail (.outOfRange low high))
  | _ => return

def cast (id : NodeId) (value : Eval Value) : Eval Value := do
  match ← value with
  | .int n =>
    let t ← c.typeOf id
    checkRange t n
    return .int (.ofInt (← expect t.width?) n.value)
  | _ => stuck

def variant (ref : VariantRef) (payload : Option Value) : Eval Value :=
  return .variant (← expect ref.tag?) payload

def member (id : NodeId) (base : NodeId) (value : Eval Value) (name : String) : Eval Value := do
  match c.program.resolutions.variants.get? id with
  | some ref => variant ref none
  | none =>
    let value ← value
    let path ← expect (c.program.signatures.fieldPath? (← c.typeOf base) [name])
    expect (path.head?.bind value.field?)

/-- The fields in the order of the declaration; the last value given to a field counts. -/
def record (id : NodeId) (fields : Eval (List (String × Value))) : Eval Value := do
  let values ← fields
  let name ← expect (c.program.resolutions.structLiterals.get? id)
  let sig ← expect (c.program.signatures.structs.get? name)
  return .struct (← expect (sig.fields.mapM fun f => values.reverse.lookup f.name))

/-! ### Calls -/

def arguments : List (Eval Value) → Eval (List Value)
  | [] => return []
  | arg :: rest => do
    let value ← arg
    return value :: (← arguments rest)

def construct (ref : VariantRef) : List (Eval Value) → Eval Value
  | [] => variant ref none
  | [arg] => do variant ref (some (← arg))
  | _ => stuck

def builtin (which : Builtin) (args : List (Eval Value)) : Eval Value :=
  match which, args with
  | .list, [] => act fun w => some (.ok w.newList.1, w.newList.2)
  | .list, _ :: _ => stuck
  | which, [arg] => do
    let value ← arg
    act (which.perform value)
    return .unit
  | _, _ => stuck

def method (op : Intrinsic) (receiver : Option String) (args : List (Eval Value)) : Eval Value := do
  let values ← arguments args
  let value ← read (← expect receiver)
  act (op.perform value values)

def invoke (id : NodeId) (callee : Expr) (args : List (NodeId × Eval Value)) : Eval Value := do
  match c.program.resolutions.callee? id with
  | some (.intrinsic op) => method op callee.receiver? (args.map (·.2))
  | some (.variant ref) => construct ref (args.map (·.2))
  | some (.builtin which) => builtin which (args.map fun (id, arg) => c.operand id arg)
  | some (.function name) =>
    let values ← arguments (args.map (·.2))
    act (c.call name values)
  | none => stuck

/-! ### Matches -/

/-- Does the value have the pattern? -/
def isMatch (p : Pattern) (value : Value) : Option Bool :=
  match c.program.resolutions.variants.get? p.id with
  | some ref =>
    match value with
    | .variant tag _ => ref.tag?.map (· == tag)
    | _ => none
  | none =>
    match p.kind, value with
    | .wildcard, _ | .bind _, _ => some true
    | .int expected, .int n => some (Number.ofInt n.kind expected == n)
    | .bool expected, .bool b => some (expected == b)
    | .str expected, .str text => some (expected == text)
    | _, _ => none

def payloadLocal (p : Pattern) (value : Value) : Option (List Local) :=
  match p.kind with
  | .wildcard => some []
  | .bind name => do
    let ty ← c.program.resolutions.exprTypes.get? p.id
    let payload ← value.payload?
    return [⟨name, ty, some payload⟩]
  | _ => none

/-- A variant carries one value at most. -/
def payloadLocals (value : Value) : List Pattern → Option (List Local)
  | [] => some []
  | [field] => c.payloadLocal field value
  | _ => none

def bindings (p : Pattern) (ty : Ty) (value : Value) : Option (List Local) :=
  match p.kind, c.program.resolutions.variants.get? p.id with
  | .bind name, none => some [⟨name, ty, some value⟩]
  | .variant _ _ fields, some _ => c.payloadLocals value fields
  | _, _ => some []

def firstMatch (value : Value) : List (Pattern × Eval Value) → Option (Pattern × Eval Value)
  | [] => none
  | (p, body) :: rest => do
    if ← c.isMatch p value then some (p, body) else firstMatch value rest

def select (scrutinee : NodeId) (value : Eval Value) (arms : List (Pattern × Eval Value)) :
    Eval Value := do
  let ty ← c.typeOf scrutinee
  let value ← value
  let (p, body) ← expect (c.firstMatch value arms)
  within (← expect (c.bindings p ty value)) body

/-! ### The recursion -/

mutual

def evalExpr : Expr → Eval Value
  | ⟨id, .literal value, _⟩ => c.literal id value
  | ⟨id, .path path, _⟩ => c.path id path
  | ⟨id, .unary op e, _⟩ => do c.unary id op (← evalExpr e)
  | ⟨_, .binary (.logic op) left right, _⟩ => logic op (evalExpr left) (evalExpr right)
  | ⟨_, .binary (.compare op) left right, _⟩ =>
    compare op (c.operand left.id (evalExpr left)) (evalExpr right)
  | ⟨id, .binary (.arith op) left right, _⟩ =>
    c.arith id op (c.operand left.id (evalExpr left)) (evalExpr right)
  | ⟨id, .cast e _, _⟩ => c.cast id (c.operand e.id (evalExpr e))
  | ⟨id, .call callee args, _⟩ => c.invoke id callee (evalArgs args)
  | ⟨id, .member base name _, _⟩ => c.member id base.id (evalExpr base) name
  | ⟨id, .record _ fields, _⟩ => c.record id (evalFields fields)
  | ⟨id, .select scrutinee arms, _⟩ =>
    c.joined id (c.select scrutinee.id (c.operand scrutinee.id (evalExpr scrutinee)) (evalArms arms))
  | ⟨id, .cond choice, _⟩ => c.joined id (evalConditional choice)
  | ⟨_, .block body, _⟩ => evalBlock body

def evalArgs : List Expr → List (NodeId × Eval Value)
  | [] => []
  | e :: rest => (e.id, evalExpr e) :: evalArgs rest

def evalFields : List FieldInit → Eval (List (String × Value))
  | [] => return []
  | ⟨name, value, _⟩ :: rest => do
    let value ← evalExpr value
    return (name, value) :: (← evalFields rest)

def evalArms : List Arm → List (Pattern × Eval Value)
  | [] => []
  | ⟨pattern, body, _⟩ :: rest => (pattern, evalExpr body) :: evalArms rest

def evalConditional : Conditional → Eval Value
  | ⟨condition, thenBlock, otherwise, _⟩ => do
    match ← evalExpr condition with
    | .bool true => evalBlock thenBlock
    | .bool false => evalElse otherwise
    | _ => stuck

def evalElse : ElseBranch → Eval Value
  | .absent => return .unit
  | .block body => evalBlock body
  | .elseIf choice => evalConditional choice

def evalBlock : Block → Eval Value
  | ⟨stmts, tail, _⟩ => within [] do
    evalStmts stmts
    evalTail tail

def evalTail : Option Expr → Eval Value
  | none => return .unit
  | some e => evalExpr e

def evalStmts : List Stmt → Eval Unit
  | [] => return
  | stmt :: rest => do
    evalStmt stmt
    evalStmts rest

def evalStmt : Stmt → Eval Unit
  | .bind id name _ value _ _ => do
    let ty ← expect (c.program.resolutions.letTypes.get? id)
    let value ← evalInit value
    change fun locals => some (⟨name, ty, value⟩ :: locals)
  | .assign target value _ => do
    let value ← evalExpr value
    change (update target fun _ => some value)
  | .assignField base fields value _ => do
    let value ← evalExpr value
    change (update base fun l => do
      let path ← c.program.signatures.fieldPath? l.ty fields
      (← l.value).setField? path value)
  | .expr e => do
    let _ ← evalExpr e
  | .ret value _ => do
    let value ← evalTail value
    exit (.ret value)
  | .cond choice => do
    let _ ← evalConditional choice
  | .loop condition body _ => Eval.loop c.limit (evalExpr condition) (evalBlock body)
  | .brk _ => exit .brk
  | .cont _ => exit .cont
  | .block body => do
    let _ ← evalBlock body

def evalInit : Option Expr → Eval (Option Value)
  | none => return none
  | some e => do
    let value ← evalExpr e
    return some value

end

end Setting

/-! ### Functions -/

/-- The parameters as variables: the last one is the newest. -/
def parameters (decl : FunctionDef) (sig : FunctionSig) (args : List Value) : List Local :=
  (List.zipWith (fun name (ty, value) => (⟨name, ty, some value⟩ : Local))
    (decl.params.map (·.name)) ((sig.params.map (·.ty)).zip args)).reverse

/-- How the body of a function ends the call.  A body without a value may only end by
itself if the function gives none. -/
def callResult (decl : FunctionDef) (sig : FunctionSig) :
    Except Exit Value × State → Option (Except Failure Value × World)
  | (.ok value, σ) => if decl.body.tail.isSome || sig.ret == .unit then some (.ok value, σ.world) else none
  | (.error (.ret value), σ) => some (.ok value, σ.world)
  | (.error (.fail failure), σ) => some (.error failure, σ.world)
  | (.error _, _) => none

/-- Runs a function.  Calls inside each other and rounds of loops are limited. -/
def run (program : CheckedProgram) :
    Nat → QualName → List Value → World → Option (Except Failure Value × World)
  | 0, _, _, _ => none
  | n + 1, name, args, w => do
    let f ← program.functions.get? name
    let sig ← program.signatures.functions.get? name
    if args.length = sig.params.length then
      let c : Setting := ⟨program, run program n, n⟩
      callResult f.decl sig (← c.evalBlock f.decl.body ⟨parameters f.decl sig args, w⟩)
    else none

def Ends (program : CheckedProgram) (name : QualName) (args : List Value) (w : World)
    (result : Except Failure Value) (w' : World) : Prop :=
  ∃ limit, run program limit name args w = some (result, w')

end Keel.Source

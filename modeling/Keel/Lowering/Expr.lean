/-
# Expressions

Operands, arguments and fields are evaluated from left to right, in the order they are
written.  A rule is given its parts as computations that lower them, and runs these
where the parts are evaluated.

`&&`, `||`, `if` and `match` become branches that meet in a common block; their value
goes through a slot.
-/
import Keel.Lowering.Builder

namespace Keel.Lowering

open Ir (Storage Operand Instr Terminator BlockId TempId SlotId)

/-- A part of an expression: its number and the computation that lowers it. -/
structure Part where
  id : NodeId
  lower : Lower Operand

/-! ### Simple expressions -/

def lowerLiteral (id : NodeId) : Literal → Lower Operand
  | .bool value => return .bool value
  | .str value => return .str value
  | .int value => do
    match ← typeOf id with
    | .int kind => return .int value kind
    | other => throw (.literalType other)

def lowerConst (name : QualName) : Lower Operand := do
  match (← read).program.consts.get? name with
  | none => throw (.constMissing name)
  | some c =>
    match c.value, ← liftStorage c.ty with
    | .int value, .int kind => return .int value kind
    | .bool value, _ => return .bool value
    | .str value, _ => return .str value
    | _, _ => throw (.constUnusable name)

/-- A local variable, or else the constant that the checker found. -/
def lowerPath (id : NodeId) (path : PathExpr) (s : Scope) : Lower Operand := do
  match path.simple?.bind s.find? with
  | some slot => load slot
  | none =>
    match (← resolutions).constRefs.get? id with
    | some name => lowerConst name
    | none => throw (.unresolvedValue path.text)

/-- The negation of a constant is a constant. -/
def lowerUnary (id : NodeId) (op : UnaryOp) (operand : Operand) : Lower Operand := do
  match op, operand with
  | .neg, .const (.int value kind) => return .int (-value) kind
  | _, _ => define (← typeOf id) fun dest => .unary dest op operand

def lowerEager (id : NodeId) (op : Ir.EagerOp) (left right : Part) : Lower Operand := do
  let ty ← typeOf left.id
  let l ← left.lower
  let r ← right.lower
  define (← typeOf id) fun dest => .binary dest op l r ty

/-- The right side runs only if the left one does not decide. -/
def lowerLogic (op : LogicOp) (left right : Lower Operand) : Lower Operand := do
  let result ← newSlot .bool
  let l ← left
  let rightBlock ← newBlock
  let shortBlock ← newBlock
  let join ← newBlock
  match op with
  | .and => terminate (.branch l rightBlock shortBlock)
  | .or => terminate (.branch l shortBlock rightBlock)
  switchTo shortBlock
  emit (.store result (.bool (op == .or)))
  terminate (.jump join)
  switchTo rightBlock
  let r ← right
  emit (.store result r)
  terminate (.jump join)
  switchTo join
  load result

def convert (target : Ty) (value : Operand) (source : IntKind) : Lower Operand := do
  match ← liftStorage target with
  | .int kind =>
    if source = kind then
      return value
    define (.int kind) fun dest => .cast dest value source kind
  | _ => throw (.castTarget target)

/-- A cast to a range is checked when it runs. -/
def lowerCast (id : NodeId) (operand : Part) : Lower Operand := do
  let target ← checkedType id
  match ← typeOf operand.id with
  | .int source =>
    let value ← operand.lower
    if let .range _ low high := target then
      emit (.rangeCheck value source low high)
    convert target value source
  | _ => throw .castSource

def lowerVariant (v : VariantRef) (payload : Option Operand) : Lower Operand :=
  define (.enum v.enum.text) fun dest => .makeVariant dest v.enum.text v.index payload

def lowerMember (id : NodeId) (base : Part) (name : String) : Lower Operand := do
  match (← resolutions).variants.get? id with
  | some v => lowerVariant v none
  | none =>
    match ← typeOf base.id with
    | .struct struct =>
      let value ← base.lower
      let (field, ty) ← fieldOf struct name
      define ty fun dest => .getField dest value field
    | _ => throw (.memberOfNonStruct name)

/-- Values in the order of the declaration.  A value is used once, so a field declared
twice is left without one. -/
def arrange (struct : String) :
    List (String × Operand) → List (String × Storage) → Lower (List Operand)
  | _, [] => return []
  | values, (field, _) :: rest => do
    match values.lookup field with
    | some value => return value :: (← arrange struct (values.filter (·.1 != field)) rest)
    | none => throw (.uninitialized field struct)

/-- Fields are evaluated as written and put in the order of the declaration. -/
def lowerRecord (id : NodeId) (fields : Lower (List (String × Operand))) : Lower Operand := do
  match (← resolutions).structLiterals.get? id with
  | none => throw (.literalUnresolved id)
  | some name =>
    let values ← fields
    match (← read).structs.get? name.text with
    | none => throw (.unknownStruct name.text)
    | some layout =>
      let ordered ← arrange name.text values.reverse layout.fields
      define (.struct name.text) fun dest => .makeStruct dest name.text ordered

/-! ### Calls -/

def lowerParts (parts : List Part) : Lower (List Operand) := parts.mapM (·.lower)

def receiverOf (s : Scope) (callee : Expr) : Lower SlotId :=
  match callee.kind with
  | .member ⟨_, .path path, _⟩ _ _ =>
    match path.simple? with
    | some name => localSlot s name
    | none => throw .receiverNotLocal
  | .member _ _ _ => throw .receiverNotLocal
  | _ => throw .noReceiver

def elementOf? : Storage → Option Storage
  | .list element => some element
  | _ => none

def lowerIntrinsic (id : NodeId) (op : Intrinsic) (s : Scope) (callee : Expr)
    (args : List Part) : Lower Operand := do
  let receiver ← receiverOf s callee
  let element := elementOf? (← slotType receiver)
  let values ← lowerParts args
  define (← typeOf id) fun dest => .intrinsic dest op receiver values element

def lowerService (which : Ir.Service) (b : Builtin) (args : List Part) : Lower Operand := do
  match args.head? with
  | none => throw (.noArgument b)
  | some arg =>
    let ty ← typeOf arg.id
    let value ← arg.lower
    emit (.service which value ty)
    return .unit

def lowerBuiltin (id : NodeId) (b : Builtin) (args : List Part) : Lower Operand := do
  match b with
  | .list =>
    match ← typeOf id with
    | .list element => define (.list element) fun dest => .newList dest element
    | _ => throw .listType
  | .print => lowerService .print b args
  | .assert => lowerService .assert b args
  | .panic => lowerService .panic b args

def lowerVariantCall (v : VariantRef) (args : List Part) : Lower Operand := do
  let payload ← args.head?.mapM (·.lower)
  lowerVariant v payload

def lowerFunctionCall (id : NodeId) (name : QualName) (args : List Part) : Lower Operand := do
  let values ← lowerParts args
  define (← typeOf id) fun dest => .call dest name.text values

def lowerCall (id : NodeId) (s : Scope) (callee : Expr) (args : List Part) : Lower Operand := do
  let found ← resolutions
  match found.intrinsics.get? id with
  | some op => lowerIntrinsic id op s callee args
  | none =>
    match found.variants.get? id with
    | some v => lowerVariantCall v args
    | none =>
      match found.calls.get? id with
      | none => throw (.noCallTarget id)
      | some (.builtin b) => lowerBuiltin id b args
      | some (.function name) => lowerFunctionCall id name args

/-! ### Matches -/

/-- What the discriminant has to equal for an arm to be taken; `none` if the arm takes
everything. -/
def armTest (p : Pattern) (ty : Storage) : Lower (Option Operand) := do
  match (← resolutions).variants.get? p.id with
  | some v => return some (.int v.index .i32)
  | none =>
    match p.kind, ty with
    | .wildcard, _ | .bind _, _ => return none
    | .int value, .int kind => return some (.int value kind)
    | .bool value, .bool => return some (.bool value)
    | .str value, .str => return some (.str value)
    | _, _ => throw (.patternType ty)

def bindPayload (scrutinee : Operand) (v : VariantRef) (variant : String) :
    List (Pattern × Nat) → Scope → Lower Scope
  | [], s => return s
  | (p, field) :: rest, s => do
    match p.kind with
    | .bind name =>
      match (← resolutions).exprTypes.get? p.id with
      | none => throw (.payloadType name)
      | some ty =>
        let ty ← liftStorage ty
        let value ← define ty fun dest =>
          .payload dest scrutinee v.enum.text variant v.index field
        let slot ← newSlot ty
        emit (.store slot value)
        bindPayload scrutinee v variant rest (s.declare name slot)
    | _ => bindPayload scrutinee v variant rest s

def bindPattern (scrutinee : Operand) (ty : Storage) (p : Pattern) (s : Scope) : Lower Scope := do
  match p.kind, (← resolutions).variants.get? p.id with
  | .bind name, none =>
    let slot ← newSlot ty
    emit (.store slot scrutinee)
    return s.declare name slot
  | .variant _ variant fields, some v => bindPayload scrutinee v variant fields.zipIdx s
  | _, _ => return s

/-- An arm with the computation that lowers its body. -/
structure ArmPart where
  pattern : Pattern
  body : Scope → Lower Operand

/-- The tests, one after the other.  Yields the arms that can be taken with their
blocks; what no arm takes goes to `join`. -/
def lowerTests (discriminant : Operand) (compared ty : Storage) (join : BlockId) :
    List ArmPart → Lower (List (BlockId × ArmPart))
  | [] => do
    terminate (.jump join)
    return []
  | arm :: rest => do
    let block ← newBlock
    match ← armTest arm.pattern ty with
    | none =>
      terminate (.jump block)
      return [(block, arm)]
    | some expected =>
      let condition ← define .bool fun dest =>
        .binary dest (.compare .eq) discriminant expected compared
      let next ← newBlock
      terminate (.branch condition block next)
      switchTo next
      return (block, arm) :: (← lowerTests discriminant compared ty join rest)

/-- The bodies of arms, each ending in `join`. -/
def lowerArms (scrutinee : Operand) (ty : Storage) (result : Option SlotId) (join : BlockId)
    (s : Scope) : List (BlockId × ArmPart) → Lower Unit
  | [] => return
  | (block, arm) :: rest => do
    switchTo block
    let inner ← bindPattern scrutinee ty arm.pattern s
    let value ← arm.body inner
    storeResult result value
    terminate (.jump join)
    lowerArms scrutinee ty result join s rest

/-- What the tests look at: the tag of an enum, and other values themselves. -/
def discriminantOf (scrutinee : Operand) (ty : Storage) : Lower (Operand × Storage) := do
  match ty with
  | .enum _ => return (← define (.int .i32) fun dest => .tag dest scrutinee, .int .i32)
  | _ => return (scrutinee, ty)

def lowerSelect (id : NodeId) (scrutinee : Part) (arms : List ArmPart) (s : Scope) :
    Lower Operand := do
  let ty ← typeOf scrutinee.id
  let value ← scrutinee.lower
  let (discriminant, compared) ← discriminantOf value ty
  let result ← resultSlot id
  let join ← newBlock
  let chosen ← lowerTests discriminant compared ty join arms
  lowerArms value ty result join s chosen
  switchTo join
  loadResult result

/-! ### Statements -/

def fieldPath : Storage → List String → Lower (List Ir.FieldRef)
  | _, [] => return []
  | .struct struct, field :: rest => do
    let (ref, ty) ← fieldOf struct field
    return ref :: (← fieldPath ty rest)
  | ty, _ :: _ => throw (.fieldOfNonStruct ty)

def lowerJump (s : Scope) (target : LoopTargets → BlockId) : Lower Unit := do
  match s.loop with
  | some targets => leave (.jump (target targets))
  | none => throw (.outsideLoop (← read).name)

/-! ### The recursion -/

mutual

def lowerExpr : Expr → Scope → Lower Operand
  | ⟨id, .literal value, _⟩, _ => lowerLiteral id value
  | ⟨id, .path path, _⟩, s => lowerPath id path s
  | ⟨id, .unary op operand, _⟩, s => do
    lowerUnary id op (← lowerExpr operand s)
  | ⟨_, .binary (.logic op) left right, _⟩, s =>
    lowerLogic op (lowerExpr left s) (lowerExpr right s)
  | ⟨id, .binary (.compare op) left right, _⟩, s =>
    lowerEager id (.compare op) ⟨left.id, lowerExpr left s⟩ ⟨right.id, lowerExpr right s⟩
  | ⟨id, .binary (.arith op) left right, _⟩, s =>
    lowerEager id (.arith op) ⟨left.id, lowerExpr left s⟩ ⟨right.id, lowerExpr right s⟩
  | ⟨id, .cast operand _, _⟩, s => lowerCast id ⟨operand.id, lowerExpr operand s⟩
  | ⟨id, .call callee args, _⟩, s => lowerCall id s callee (exprParts args s)
  | ⟨id, .member base name _, _⟩, s => lowerMember id ⟨base.id, lowerExpr base s⟩ name
  | ⟨id, .record _ fields, _⟩, s => lowerRecord id (lowerFields fields s)
  | ⟨id, .select scrutinee arms, _⟩, s =>
    lowerSelect id ⟨scrutinee.id, lowerExpr scrutinee s⟩ (armParts arms) s
  | ⟨id, .cond choice, _⟩, s => do
    lowerConditional choice s (← resultSlot id)
  | ⟨_, .block body, _⟩, s => lowerBlock body s

def exprParts : List Expr → Scope → List Part
  | [], _ => []
  | e :: rest, s => ⟨e.id, lowerExpr e s⟩ :: exprParts rest s

def lowerFields : List FieldInit → Scope → Lower (List (String × Operand))
  | [], _ => return []
  | ⟨name, value, _⟩ :: rest, s => do
    let value ← lowerExpr value s
    return (name, value) :: (← lowerFields rest s)

def armParts : List Arm → List ArmPart
  | [] => []
  | ⟨pattern, body, _⟩ :: rest => ⟨pattern, lowerExpr body⟩ :: armParts rest

/-- Both branches store to the slot of the result, if there is one. -/
def lowerConditional : Conditional → Scope → Option SlotId → Lower Operand
  | ⟨condition, thenBlock, otherwise, _⟩, s, result => do
    let c ← lowerExpr condition s
    let yes ← newBlock
    let join ← newBlock
    let no ← if otherwise.isPresent then newBlock else pure join
    terminate (.branch c yes no)
    switchTo yes
    let value ← lowerBlock thenBlock s
    storeResult result value
    terminate (.jump join)
    lowerElse otherwise s result no join
    switchTo join
    loadResult result

/-- The branch under `else`, which starts in the block `no`. -/
def lowerElse : ElseBranch → Scope → Option SlotId → (no join : BlockId) → Lower Unit
  | .absent, _, _, _, _ => return
  | .block body, s, result, no, join => do
    switchTo no
    let value ← lowerBlock body s
    storeResult result value
    terminate (.jump join)
  | .elseIf choice, s, result, no, join => do
    switchTo no
    let _ ← lowerConditional choice s result
    terminate (.jump join)

def lowerBlock : Block → Scope → Lower Operand
  | ⟨stmts, tail, _⟩, s => do
    let inner ← lowerStmts stmts s
    lowerTail tail inner

def lowerTail : Option Expr → Scope → Lower Operand
  | none, _ => return .unit
  | some e, s => lowerExpr e s

def lowerStmts : List Stmt → Scope → Lower Scope
  | [], s => return s
  | stmt :: rest, s => do
    let s ← lowerStmt stmt s
    lowerStmts rest s

/-- Yields the scope for the statements after it. -/
def lowerStmt : Stmt → Scope → Lower Scope
  | .bind id name _ value _ _, s => do
    match (← resolutions).letTypes.get? id with
    | none => throw (.noLetType name)
    | some ty =>
      let slot ← newSlot (← liftStorage ty)
      lowerInit value s slot
      return s.declare name slot
  | .assign target value _, s => do
    let value ← lowerExpr value s
    emit (.store (← localSlot s target) value)
    return s
  | .assignField base fields value _, s => do
    let value ← lowerExpr value s
    let slot ← localSlot s base
    let path ← fieldPath (← slotType slot) fields
    emit (.storeField slot path value)
    return s
  | .expr e, s => do
    let _ ← lowerExpr e s
    return s
  | .ret value _, s => do
    let value ← lowerTail value s
    leave (.ret value)
    return s
  | .cond choice, s => do
    let _ ← lowerConditional choice s none
    return s
  | .loop condition body _, s => do
    let head ← newBlock
    let inside ← newBlock
    let after ← newBlock
    terminate (.jump head)
    switchTo head
    let c ← lowerExpr condition s
    terminate (.branch c inside after)
    switchTo inside
    let _ ← lowerBlock body { s with loop := some ⟨head, after⟩ }
    terminate (.jump head)
    switchTo after
    return s
  | .brk _, s => do
    lowerJump s (·.done)
    return s
  | .cont _, s => do
    lowerJump s (·.next)
    return s
  | .block body, s => do
    let _ ← lowerBlock body s
    return s

def lowerInit : Option Expr → Scope → SlotId → Lower Unit
  | none, _, _ => return
  | some e, s, slot => do
    let value ← lowerExpr e s
    emit (.store slot value)

end

end Keel.Lowering

/-
# Bodies

Expressions, blocks and statements are checked by recursion on the syntax: each rule
is given the parts of its expression as operands.  The type of every expression is
recorded under its number.

A statement yields the frame for those after it; a `let` adds a variable to it.
-/
import Keel.Typing.Calls
import Keel.Typing.Matching
import Keel.Typing.Operators

namespace Keel.Typing

/-! ### Rules for statements -/

/-- A `let`, with its value as an operand. -/
def checkLet (f : Frame) (span : Span) (name : String) (ann : Option TypeAnn)
    (value : Option Operand) : Check Ty := do
  match ann, value with
  | some ann, some value =>
    let declared ← typeOf f.scope f.types ann
    checkAgainst f value declared
    return declared
  | some ann, none => typeOf f.scope f.types ann
  | none, some value =>
    let actual ← value.check f none
    if actual.isUntyped then
      settle f.scope.file .i64 value.expr
      return .i64
    return actual
  | none, none => reject (f.site span) (.bareLet name)

def checkAssign (f : Frame) (span : Span) (target : String) (value : Operand) : Check Unit := do
  match f.find? target with
  | none =>
    report (f.site span) (.notFound .binding target)
    discard f value
  | some l =>
    if !l.isMutable then
      report (f.site span) (.reassigned target)
    checkAgainst f value l.ty

def checkAssignField (f : Frame) (span : Span) (base : String) (fields : List String)
    (value : Operand) : Check Unit := do
  match f.find? base with
  | none =>
    report (f.site span) (.notFound .binding base)
    discard f value
  | some l =>
    if !l.isMutable then
      report (f.site span) (.fieldOfImmutable base)
    checkAgainst f value (← fieldPathType f span l.ty fields)

def checkReturn (f : Frame) (span : Span) (value : Option Operand) : Check Unit := do
  match value with
  | some value => checkAgainst f value f.ret
  | none =>
    if f.ret ≠ .unit ∧ !f.ret.isError then
      report (f.site span) (.emptyReturn f.ret)

def checkInLoop (f : Frame) (span : Span) (word : String) : Check Unit := do
  if !f.inLoop then
    report (f.site span) (.outsideLoop word)

/-! ### The recursion -/

mutual

def checkExpr : Expr → Frame → Option Ty → Check Ty
  | ⟨id, kind, span⟩, f, expected => do
    let ty ← checkKind id span kind f expected
    recordType id ty
    return ty

def checkKind (id : NodeId) (span : Span) : ExprKind → Frame → Option Ty → Check Ty
  | .literal value, f, expected => checkLiteral f span expected value
  | .path path, f, _ => checkPath f id span path
  | .unary op operand, f, expected => checkUnary f op ⟨operand, checkExpr operand⟩ expected
  | .binary op left right, f, expected =>
    checkBinary f span op ⟨left, checkExpr left⟩ ⟨right, checkExpr right⟩ expected
  | .cast operand ty, f, _ => checkCast f ⟨operand, checkExpr operand⟩ ty
  | .call ⟨_, .member base name nameSpan, _⟩ args, f, expected =>
    checkMemberCall f id span ⟨base, checkExpr base⟩ name nameSpan (operands args) expected
  | .call ⟨_, .path path, calleeSpan⟩ args, f, expected =>
    checkPathCall f id span calleeSpan path (operands args) expected
  | .call ⟨_, _, calleeSpan⟩ args, f, _ =>
    rejectCall f (f.site calleeSpan) .notCallable (operands args)
  | .member base name nameSpan, f, expected =>
    checkMember f id span ⟨base, checkExpr base⟩ name nameSpan expected
  | .record path fields, f, expected =>
    checkRecord f id span path (fieldOperands fields) expected
  | .select scrutinee arms, f, expected =>
    checkSelect f span ⟨scrutinee, checkExpr scrutinee⟩ (armOperands arms) expected
  | .cond choice, f, expected => checkConditional choice f expected
  | .block body, f, expected => checkBlock body f expected

def operands : List Expr → List Operand
  | [] => []
  | e :: rest => ⟨e, checkExpr e⟩ :: operands rest

def operand? : Option Expr → Option Operand
  | none => none
  | some e => some ⟨e, checkExpr e⟩

def fieldOperands : List FieldInit → List FieldOperand
  | [] => []
  | ⟨name, value, span⟩ :: rest => ⟨name, span, ⟨value, checkExpr value⟩⟩ :: fieldOperands rest

def armOperands : List Arm → List ArmOperand
  | [] => []
  | ⟨pattern, body, _⟩ :: rest => ⟨pattern, ⟨body, checkExpr body⟩⟩ :: armOperands rest

/-- Without an `else` the value of the branch is dropped. -/
def checkConditional : Conditional → Frame → Option Ty → Check Ty
  | ⟨condition, thenBlock, otherwise, span⟩, f, expected => do
    checkAgainst f ⟨condition, checkExpr condition⟩ .bool
    let thenTy ← checkBlock thenBlock f expected
    match ← checkElse otherwise f expected with
    | none =>
      settleBlock f.scope.file .i64 thenBlock
      return .unit
    | some elseTy =>
      let branches := [(thenTy, thenBlock.diverges), (elseTy, otherwise.diverges)]
      let joined ← joinTypes (f.site span) branches expected "`if` and `else`"
      if joined.isSettledInt then
        settleConditional f.scope.file joined ⟨condition, thenBlock, otherwise, span⟩
      return joined

def checkElse : ElseBranch → Frame → Option Ty → Check (Option Ty)
  | .absent, _, _ => return none
  | .block body, f, expected => return some (← checkBlock body f expected)
  | .elseIf choice, f, expected => return some (← checkConditional choice f expected)

/-- What a block declares ends with it. -/
def checkBlock : Block → Frame → Option Ty → Check Ty
  | ⟨stmts, tail, _⟩, f, expected => do
    let inner ← checkStmts stmts f
    checkTail tail inner expected

def checkTail : Option Expr → Frame → Option Ty → Check Ty
  | none, _, _ => return .unit
  | some e, f, expected => checkExpr e f expected

def checkStmts : List Stmt → Frame → Check Frame
  | [], f => return f
  | s :: rest, f => do
    let f ← checkStmt s f
    checkStmts rest f

def checkStmt : Stmt → Frame → Check Frame
  | .bind id name ann value isMutable span, f => do
    let ty ← checkLet f span name ann (operand? value)
    recordLet id ty
    return f.declare name ty isMutable
  | .assign target value span, f => do
    checkAssign f span target ⟨value, checkExpr value⟩
    return f
  | .assignField base fields value span, f => do
    checkAssignField f span base fields ⟨value, checkExpr value⟩
    return f
  | .expr e, f => do
    discard f ⟨e, checkExpr e⟩
    return f
  | .ret value span, f => do
    checkReturn f span (operand? value)
    return f
  | .cond choice, f => do
    let _ ← checkConditional choice f none
    settleConditional f.scope.file .i64 choice
    return f
  | .loop condition body _, f => do
    checkAgainst f ⟨condition, checkExpr condition⟩ .bool
    let _ ← checkBlock body { f with inLoop := true } none
    settleBlock f.scope.file .i64 body
    return f
  | .brk span, f => do
    checkInLoop f span "break"
    return f
  | .cont span, f => do
    checkInLoop f span "continue"
    return f
  | .block body, f => do
    let _ ← checkBlock body f none
    settleBlock f.scope.file .i64 body
    return f

end

/-! ### Functions -/

/-- Demands that the body of a function yields its result. -/
def checkResult (scope : ModuleScope) (decl : FunctionDef) (bodyTy ret : Ty) : Check Unit := do
  match decl.body.tail with
  | some tail => expectType scope.file tail bodyTy ret
  | none =>
    if ret ≠ .unit ∧ !ret.isError ∧ !decl.body.diverges then
      report (scope.site decl.span) (.noReturnValue decl.name ret)

/-- What is in scope where the body of a function starts that is `depth` instances deep. -/
def FunctionDecl.frame (g : FunctionDecl) (sig : FunctionSig) (depth : Nat) : Frame :=
  { scope := g.scope
    ret := sig.ret
    types := g.env
    depth := depth
    inLoop := false
    locals := (sig.params.map fun p => (p.name, (⟨p.ty, p.isMutable⟩ : Local))).reverse }

def checkBody (g : FunctionDecl) (sig : FunctionSig) (depth : Nat) : Check Unit := do
  let bodyTy ← checkBlock g.decl.body (g.frame sig depth) (some sig.ret)
  checkResult g.scope g.decl bodyTy sig.ret

def FunctionDecl.checked (g : FunctionDecl) (name : QualName) : CheckedFunction :=
  ⟨name, g.scope.path, g.scope.file, g.decl⟩

def checkFunction (depth : Nat) (name : QualName) : Check Unit := do
  match ← function? name, ← signature? name with
  | some g, some sig =>
    checkBody g sig depth
    modify fun s => { s with checked := s.checked.insert name (g.checked name) }
  | _, _ => return

end Keel.Typing

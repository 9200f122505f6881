/-
# Copies of declarations

An instance of a generic function is a copy of it in which types stand for the type
parameters and every expression, pattern and `let` has a new number, so that what is
found out about one instance is kept apart from the others.  Numbers are given in the
order in which nodes begin.
-/
import Keel.Syntax

namespace Keel

mutual

/-- Puts types in the place of type parameters.  The bounds of ranges stay. -/
def TypeExpr.substitute (env : TypeEnv) : TypeExpr → TypeExpr
  | .named path args =>
    match path, args with
    | [name], [] =>
      match env.get? name with
      | some ty => .resolved ty
      | none => .named path args
    | _, _ => .named path (TypeAnn.substituteAll env args)
  | .range base low high => .range (base.substitute env) low high
  | .unit => .unit
  | .resolved ty => .resolved (ty.substitute env)

def TypeAnn.substitute (env : TypeEnv) : TypeAnn → TypeAnn
  | ⟨expr, span⟩ => ⟨expr.substitute env, span⟩

def TypeAnn.substituteAll (env : TypeEnv) : List TypeAnn → List TypeAnn
  | [] => []
  | ann :: rest => ann.substitute env :: TypeAnn.substituteAll env rest

end

def PathExpr.substitute (env : TypeEnv) (p : PathExpr) : PathExpr :=
  ⟨p.segments, TypeAnn.substituteAll env p.args⟩

namespace Copy

/-- A computation that hands out node numbers. -/
abbrev Numbering := StateM NodeId

def fresh : Numbering NodeId := modifyGet fun n => (n, n + 1)

mutual

def pattern : Pattern → Numbering Pattern
  | ⟨_, kind, span⟩ => do
    let id ← fresh
    return ⟨id, ← patternKind kind, span⟩

def patternKind : PatternKind → Numbering PatternKind
  | .variant enum name fields => return .variant enum name (← patterns fields)
  | .wildcard => return .wildcard
  | .bind name => return .bind name
  | .int value => return .int value
  | .bool value => return .bool value
  | .str value => return .str value

def patterns : List Pattern → Numbering (List Pattern)
  | [] => return []
  | p :: rest => do
    let p ← pattern p
    return p :: (← patterns rest)

end

mutual

def expr (env : TypeEnv) : Expr → Numbering Expr
  | ⟨_, kind, span⟩ => do
    let id ← fresh
    return ⟨id, ← exprKind env kind, span⟩

def exprKind (env : TypeEnv) : ExprKind → Numbering ExprKind
  | .path p => return .path (p.substitute env)
  | .literal value => return .literal value
  | .unary op operand => return .unary op (← expr env operand)
  | .binary op left right => do
    let left ← expr env left
    return .binary op left (← expr env right)
  | .cast operand ty => return .cast (← expr env operand) (ty.substitute env)
  | .call callee args => do
    let callee ← expr env callee
    return .call callee (← exprs env args)
  | .member base name nameSpan => return .member (← expr env base) name nameSpan
  | .record p fields => return .record (p.substitute env) (← fieldInits env fields)
  | .select scrutinee cases => do
    let scrutinee ← expr env scrutinee
    return .select scrutinee (← arms env cases)
  | .cond choice => return .cond (← conditional env choice)
  | .block body => return .block (← block env body)

def exprs (env : TypeEnv) : List Expr → Numbering (List Expr)
  | [] => return []
  | e :: rest => do
    let e ← expr env e
    return e :: (← exprs env rest)

def fieldInits (env : TypeEnv) : List FieldInit → Numbering (List FieldInit)
  | [] => return []
  | ⟨name, value, span⟩ :: rest => do
    let value ← expr env value
    return ⟨name, value, span⟩ :: (← fieldInits env rest)

def arms (env : TypeEnv) : List Arm → Numbering (List Arm)
  | [] => return []
  | ⟨p, body, span⟩ :: rest => do
    let p ← pattern p
    let body ← expr env body
    return ⟨p, body, span⟩ :: (← arms env rest)

def conditional (env : TypeEnv) : Conditional → Numbering Conditional
  | ⟨condition, thenBlock, otherwise, span⟩ => do
    let condition ← expr env condition
    let thenBlock ← block env thenBlock
    return ⟨condition, thenBlock, ← elseBranch env otherwise, span⟩

def elseBranch (env : TypeEnv) : ElseBranch → Numbering ElseBranch
  | .absent => return .absent
  | .block body => return .block (← block env body)
  | .elseIf choice => return .elseIf (← conditional env choice)

def block (env : TypeEnv) : Block → Numbering Block
  | ⟨body, tail, span⟩ => do
    let body ← stmts env body
    return ⟨body, ← exprOpt env tail, span⟩

def exprOpt (env : TypeEnv) : Option Expr → Numbering (Option Expr)
  | none => return none
  | some e => return some (← expr env e)

def stmts (env : TypeEnv) : List Stmt → Numbering (List Stmt)
  | [] => return []
  | s :: rest => do
    let s ← stmt env s
    return s :: (← stmts env rest)

def stmt (env : TypeEnv) : Stmt → Numbering Stmt
  | .bind _ name ty value isMutable span => do
    let id ← fresh
    return .bind id name (ty.map (TypeAnn.substitute env)) (← exprOpt env value) isMutable span
  | .assign target value span => return .assign target (← expr env value) span
  | .assignField base fields value span =>
    return .assignField base fields (← expr env value) span
  | .expr value => return .expr (← expr env value)
  | .ret value span => return .ret (← exprOpt env value) span
  | .cond choice => return .cond (← conditional env choice)
  | .loop condition body span => do
    let condition ← expr env condition
    return .loop condition (← block env body) span
  | .brk span => return .brk span
  | .cont span => return .cont span
  | .block body => return .block (← block env body)

end

def param (env : TypeEnv) (p : ParamDef) : ParamDef := { p with ty := p.ty.substitute env }

end Copy

/-- The copy of a generic function for one choice of its type arguments. -/
def FunctionDef.instance (f : FunctionDef) (name : String) (env : TypeEnv) :
    Copy.Numbering FunctionDef := do
  return {
    f with
    name := name
    typeParams := []
    params := f.params.map (Copy.param env)
    ret := f.ret.map (TypeAnn.substitute env)
    body := ← Copy.block env f.body }

end Keel

/-
# Checking inside a function

A frame holds what a piece of a body may use: its scope, the type of the function's
result, and the local variables, the newest first, so that an inner variable hides an
outer one of the same name.

An expression that is only a number, or is built from such numbers, has no type of
its own at first.  It is settled when the type it is needed at becomes known: every
part of it then has that type.
-/
import Keel.Typing.Diverge
import Keel.Typing.Generic

namespace Keel.Typing

structure Local where
  ty : Ty
  isMutable : Bool

structure Frame where
  scope : ModuleScope
  /-- The type of the function's result. -/
  ret : Ty
  /-- What `Self` means. -/
  types : TypeEnv
  /-- How many instances have led here. -/
  depth : Nat
  inLoop : Bool
  locals : List (String × Local)

namespace Frame

def find? (f : Frame) (name : String) : Option Local := f.locals.lookup name

def declare (f : Frame) (name : String) (ty : Ty) (isMutable : Bool) : Frame :=
  { f with locals := (name, ⟨ty, isMutable⟩) :: f.locals }

def site (f : Frame) (span : Span) : Site := f.scope.site span

/-- The local variable that a path names. -/
def local? (f : Frame) (path : PathExpr) : Option Local := path.simple?.bind f.find?

end Frame

/-- A part of an expression together with the way to check it. -/
structure Operand where
  expr : Expr
  check : Frame → (expected : Option Ty) → Check Ty

/-! ### Settling -/

mutual

/-- Gives an expression without a type this one, down to its numbers. -/
def settle (file : SourcePath) (target : Ty) : Expr → Check Unit
  | ⟨id, kind, span⟩ => do
    match (← get).resolutions.exprTypes.get? id with
    | some .untyped =>
      recordType id target
      settleKind file target span kind
    | _ => return

def settleKind (file : SourcePath) (target : Ty) (span : Span) : ExprKind → Check Unit
  | .literal (.int value) => do
    if !target.admits value then
      report ⟨file, span⟩ (.literalRange value target)
  | .unary _ operand => settle file target operand
  | .binary (.arith _) left right => do
    settle file target left
    settle file target right
  | .cond choice => settleConditional file target choice
  | .block body => settleBlock file target body
  | .select _ arms => settleArms file target arms
  | _ => return

def settleConditional (file : SourcePath) (target : Ty) : Conditional → Check Unit
  | ⟨_, thenBlock, otherwise, _⟩ => do
    settleBlock file target thenBlock
    settleElse file target otherwise

def settleElse (file : SourcePath) (target : Ty) : ElseBranch → Check Unit
  | .absent => return
  | .block body => settleBlock file target body
  | .elseIf choice => settleConditional file target choice

def settleBlock (file : SourcePath) (target : Ty) : Block → Check Unit
  | ⟨_, some tail, _⟩ => settle file target tail
  | ⟨_, none, _⟩ => return

def settleArms (file : SourcePath) (target : Ty) : List Arm → Check Unit
  | [] => return
  | ⟨_, body, _⟩ :: rest => do
    settle file target body
    settleArms file target rest

end

/-- Checks an expression whose value is not used. -/
def discard (f : Frame) (o : Operand) : Check Unit := do
  if (← o.check f none).isUntyped then
    settle f.scope.file .i64 o.expr

/-- Checks arguments whose call is already in error. -/
def discardAll (f : Frame) (args : List Operand) : Check Unit := args.forM (discard f)

/-! ### Agreement -/

/-- Is a value of the one type also one of the other without a check? -/
def isWithin : Ty → Ty → Bool
  | .range base _ _, .int kind => base == kind
  | _, _ => false

def expectType (file : SourcePath) (e : Expr) (actual expected : Ty) : Check Unit := do
  if actual.isError || expected.isError || actual.agrees expected then
    return
  if actual.isUntyped && expected.isIntegral then
    settle file expected e
  else if isWithin actual expected then
    return
  else
    match expected with
    | .range .. =>
      if actual.isIntegral then
        report ⟨file, e.span⟩ (.needsRangeCheck expected actual)
      else
        report ⟨file, e.span⟩ (.mismatch expected actual)
    | _ => report ⟨file, e.span⟩ (.mismatch expected actual)

def checkAgainst (f : Frame) (o : Operand) (expected : Ty) : Check Unit := do
  let ty ← o.check f (some expected)
  expectType f.scope.file o.expr ty expected

/-- The type that branches have in common, or two that do not go together.  Branches
that do not come to their end take no part. -/
def joinBranches (branches : List (Ty × Bool)) (expected : Option Ty) : Except (Ty × Ty) Ty :=
  let live := (branches.filter fun b => !b.2).map (·.1)
  if live.any Ty.isError then .ok .error
  else
    match live.find? fun ty => !ty.isUntyped with
    | none => .ok (if live.isEmpty then expected.getD .unit else .untyped)
    | some first =>
      let fits (ty : Ty) : Bool := if ty.isUntyped then first.isIntegral else ty.agrees first
      match live.find? fun ty => !fits ty with
      | some other => .error (first, other)
      | none => .ok first

/-- The type of an expression with branches; `what` names them in a report. -/
def joinTypes (site : Site) (branches : List (Ty × Bool)) (expected : Option Ty)
    (what : String) : Check Ty :=
  match joinBranches branches expected with
  | .ok ty => return ty
  | .error (first, other) => reject site (.branchMismatch what first other)

end Keel.Typing

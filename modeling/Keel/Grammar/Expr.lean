/-
# Types, expressions and blocks

From the loosest to the tightest: binary operators by precedence, casts, unary
operators, calls and members, and the expressions that stand for themselves.  Binary
operators of one precedence group to the left.

| precedence | operators           |
|------------|---------------------|
| 1          | `\|\|`              |
| 2          | `&&`                |
| 3          | `==` `!=`           |
| 4          | `<` `<=` `>` `>=`   |
| 5          | `\|`                |
| 6          | `^`                 |
| 7          | `&`                 |
| 8          | `<<` `>>`           |
| 9          | `+` `-`             |
| 10         | `*` `/` `%`         |

A condition and the value a `match` looks at are followed by `{`, so in them a name
before `{` does not start a struct literal, unless it stands in brackets.  The cursor
says whether a struct literal may start, and each rule that changes this puts it back.

The rules call each other only after taking a token.  They are written over a record
of the parsers one level down, and `Level.within` ties the knot for any depth.
-/
import Keel.Grammar.Pattern

namespace Keel.Grammar

/-- The parsers that the rules call for what is nested inside. -/
structure Level where
  /-- An expression whose operators bind at least as tight as the bound. -/
  binary : (least : Nat) → Parser Expr
  unary : Parser Expr
  type : Parser TypeAnn
  block : Parser Block
  /-- What follows `if`, which was read before. -/
  conditional : Parser Conditional

def Level.expr (sub : Level) : Parser Expr := sub.binary 0

/-- A condition or the value of a `match`. -/
def Level.condition (sub : Level) : Parser Expr := withLiterals false sub.expr

/-- An expression in which struct literals are allowed again. -/
def Level.inner (sub : Level) : Parser Expr := withLiterals true sub.expr

/-! ### Types -/

def typeRule (sub : Level) : Parser TypeExpr := do
  if ← accept (.symbol .lParen) then
    let _ ← expect (.symbol .rParen)
    return .unit
  let first ← ident "type"
  let (segments, stop) ← pathTail "type path segment"
  let path := first.1 :: segments
  if !(← sees (.symbol .lBracket)) then
    return .named path []
  let _ ← next
  if segments.isEmpty && (IntKind.ofName? first.1).isSome then
    let low ← sub.expr
    let _ ← expect (.symbol .dotDotEq)
    let high ← sub.expr
    let _ ← expect (.symbol .rBracket)
    return .range ⟨.named path [], ⟨first.2.start, stop.stop⟩⟩ low high
  let args ← commaList .rBracket sub.type
  let _ ← expect (.symbol .rBracket)
  return .named path args

def typeAnnRule (sub : Level) : Parser TypeAnn := do
  let start := (← here).start
  let expr ← typeRule sub
  return ⟨expr, ⟨start, max (← taken).stop start⟩⟩

/-! ### Statements -/

/-- The rest of an `if`: condition, block, and what stands under `else`. -/
def conditionalRule (sub : Level) : Parser Conditional := do
  let start := (← taken).start
  let condition ← sub.condition
  let thenBlock ← sub.block
  if ← accept (.keyword .elseKw) then
    if ← accept (.keyword .ifKw) then
      let nested ← sub.conditional
      return ⟨condition, thenBlock, .elseIf nested, ⟨start, nested.span.stop⟩⟩
    let body ← sub.block
    return ⟨condition, thenBlock, .block body, ⟨start, body.span.stop⟩⟩
  return ⟨condition, thenBlock, .absent, ⟨start, thenBlock.span.stop⟩⟩

/-- The binding and the fields that an expression names as a place to assign to. -/
def assignTarget : Expr → Except SyntaxError (String × List String)
  | ⟨_, .path ⟨[name], []⟩, _⟩ => .ok (name, [])
  | ⟨_, .member base field _, _⟩ =>
    match assignTarget base with
    | .ok (name, fields) => .ok (name, fields ++ [field])
    | .error e => .error e
  | ⟨_, _, span⟩ => .error ⟨.invalidTarget, span⟩

/-- What a block consists of: statements, and at its end perhaps a value. -/
inductive Piece where
  | stmt (s : Stmt)
  | tail (e : Expr)

def bindRest (sub : Level) (start : Nat) (isMutable : Bool) : Parser Stmt := do
  let (name, _) ← ident "binding name"
  let ty ← if ← accept (.symbol .colon) then some <$> typeAnnRule sub else pure none
  let value ← if ← accept (.symbol .eq) then some <$> sub.expr else pure none
  let close ← expect (.symbol .semi)
  return .bind (← freshId) name ty value isMutable ⟨start, close.stop⟩

def bindRule (sub : Level) : Parser Stmt := do
  let start := (← taken).start
  bindRest sub start (← accept (.keyword .mutKw))

def returnRule (sub : Level) : Parser Stmt := do
  let start := (← taken).start
  if ← accept (.symbol .semi) then
    return .ret none ⟨start, (← taken).stop⟩
  let value ← sub.expr
  let close ← expect (.symbol .semi)
  return .ret (some value) ⟨start, close.stop⟩

def loopRule (sub : Level) : Parser Stmt := do
  let start := (← taken).start
  let condition ← sub.condition
  let body ← sub.block
  return .loop condition body ⟨start, body.span.stop⟩

/-- A `match` or a block may end a statement without `;`. -/
def closesItself : ExprKind → Bool
  | .select .. | .block _ => true
  | _ => false

/-- A statement that starts with an expression. -/
def exprPiece (sub : Level) : Parser Piece := do
  let e ← sub.expr
  if ← accept (.symbol .eq) then
    let value ← sub.expr
    let close ← expect (.symbol .semi)
    let span : Span := ⟨e.span.start, close.stop⟩
    match assignTarget e with
    | .ok (name, []) => return .stmt (.assign name value span)
    | .ok (name, fields) => return .stmt (.assignField name fields value span)
    | .error problem => throw problem
  if ← accept (.symbol .semi) then
    return .stmt (.expr e)
  if ← sees (.symbol .rBrace) then
    return .tail e
  if closesItself e.kind then
    return .stmt (.expr e)
  fail (.missing "`;` after expression")

def pieceRule (sub : Level) : Parser Piece := do
  match ← peek with
  | .keyword .letKw =>
    let _ ← next
    return .stmt (← bindRule sub)
  | .keyword .returnKw =>
    let _ ← next
    return .stmt (← returnRule sub)
  | .keyword .whileKw =>
    let _ ← next
    return .stmt (← loopRule sub)
  | .keyword .breakKw =>
    let span ← next
    let _ ← expect (.symbol .semi)
    return .stmt (.brk span)
  | .keyword .continueKw =>
    let span ← next
    let _ ← expect (.symbol .semi)
    return .stmt (.cont span)
  | .keyword .ifKw =>
    let _ ← next
    let choice ← conditionalRule sub
    if choice.otherwise.isPresent then
      if ← sees (.symbol .rBrace) then
        return .tail (← mkExpr (.cond choice) choice.span)
    let _ ← accept (.symbol .semi)
    return .stmt (.cond choice)
  | .symbol .lBrace =>
    let body ← sub.block
    if body.tail.isSome then
      if ← sees (.symbol .rBrace) then
        return .tail (← mkExpr (.block body) body.span)
    return .stmt (.block body)
  | _ => exprPiece sub

def blockRounds (sub : Level) : Nat → Parser (List Stmt × Option Expr)
  | 0 => return ([], none)
  | n + 1 => do
    if ← ended .rBrace then return ([], none)
    if ← accept (.symbol .semi) then
      blockRounds sub n
    else
      match ← pieceRule sub with
      | .stmt s =>
        let (stmts, tail) ← blockRounds sub n
        return (s :: stmts, tail)
      | .tail e => return ([], some e)

/-- Statements in braces; a `;` more than needed is skipped. -/
def blockRule (sub : Level) : Parser Block := do
  let opening ← expect (.symbol .lBrace)
  let (stmts, tail) ← withLiterals true do blockRounds sub ((← get).rest.length + 1)
  let close ← expect (.symbol .rBrace)
  return ⟨stmts, tail, ⟨opening.start, close.stop⟩⟩

/-! ### Expressions -/

def fieldInit (sub : Level) : Parser FieldInit := do
  let (name, nameSpan) ← ident "field name"
  let _ ← expect (.symbol .colon)
  let value ← sub.expr
  return ⟨name, value, nameSpan.cover value.span⟩

/-- Does the name start with a capital letter, as those of types do? -/
def isTypeName (name : String) : Bool :=
  match name.toList with
  | c :: _ => c.isUpper
  | [] => false

/-- The fields of a struct literal may follow its path. -/
def pathRest (sub : Level) (path : PathExpr) (start stop : Nat) : Parser Expr := do
  if isTypeName path.last && (← literalsAllowed) then
    if ← accept (.symbol .lBrace) then
      let fields ← commaList .rBrace (fieldInit sub)
      let close ← expect (.symbol .rBrace)
      return ← mkExpr (.record path fields) ⟨start, close.stop⟩
  mkExpr (.path path) ⟨start, stop⟩

def pathRule (sub : Level) : Parser Expr := do
  let (first, firstSpan) ← ident "identifier"
  let (segments, pathStop) ← pathTail "path segment after `::`"
  let (args, stop) ←
    if ← accept (.symbol .lBracket) then do
      let args ← commaList .rBracket sub.type
      pure (args, ← expect (.symbol .rBracket))
    else pure ([], pathStop)
  pathRest sub ⟨first :: segments, args⟩ firstSpan.start stop.stop

def armRounds (sub : Level) : Nat → Parser (List Arm)
  | 0 => return []
  | n + 1 => do
    if ← ended .rBrace then return []
    let p ← pattern
    let _ ← expect (.symbol .fatArrow)
    let body ← sub.inner
    let arm : Arm := ⟨p, body, p.span.cover body.span⟩
    if !(← accept (.symbol .comma)) then
      if !(← sees (.symbol .rBrace)) then
        fail (.missing "`,` between match arms")
    return arm :: (← armRounds sub n)

def selectRule (sub : Level) : Parser Expr := do
  let start := (← taken).start
  let scrutinee ← sub.condition
  let _ ← expect (.symbol .lBrace)
  let arms ← armRounds sub ((← get).rest.length + 1)
  let close ← expect (.symbol .rBrace)
  mkExpr (.select scrutinee arms) ⟨start, close.stop⟩

/-- An expression that stands for itself.  Brackets leave no trace in the tree. -/
def primaryRule (sub : Level) : Parser Expr := do
  match ← peek with
  | .keyword .matchKw =>
    let _ ← next
    selectRule sub
  | .keyword .ifKw =>
    let _ ← next
    let choice ← conditionalRule sub
    mkExpr (.cond choice) choice.span
  | .symbol .lBrace =>
    let body ← blockRule sub
    mkExpr (.block body) body.span
  | .ident _ => pathRule sub
  | .int value => mkExpr (.literal (.int value)) (← next)
  | .str value => mkExpr (.literal (.str value)) (← next)
  | .keyword .trueKw => mkExpr (.literal (.bool true)) (← next)
  | .keyword .falseKw => mkExpr (.literal (.bool false)) (← next)
  | .symbol .lParen =>
    let _ ← next
    let inner ← sub.inner
    let _ ← expect (.symbol .rParen)
    return inner
  | _ => failExpected "expression"

def postfixStep (sub : Level) (e : Expr) : Parser (Round Expr) := do
  if ← accept (.symbol .lParen) then
    let args ← withLiterals true (commaList .rParen sub.expr)
    let close ← expect (.symbol .rParen)
    return .again (← mkExpr (.call e args) ⟨e.span.start, close.stop⟩)
  if ← accept (.symbol .dot) then
    let (name, nameSpan) ← ident "member name after `.`"
    return .again (← mkExpr (.member e name nameSpan) (e.span.cover nameSpan))
  return .stop e

/-- Calls and members, any number of them. -/
def postfixRule (sub : Level) : Parser Expr := do
  iterate (postfixStep sub) (← primaryRule sub)

def unaryOp? : Lexeme → Option UnaryOp
  | .symbol .minus => some .neg
  | .symbol .bang => some .not
  | .symbol .tilde => some .bitNot
  | _ => none

/-- Unary operators.  A minus before a number is part of the number, so that `-128` is
one literal. -/
def unaryRule (sub : Level) : Parser Expr := do
  match unaryOp? (← peek) with
  | none => postfixRule sub
  | some op =>
    let start := (← next).start
    match op, ← peek with
    | .neg, .int value =>
      let last ← next
      mkExpr (.literal (.int (-(value : Int)))) ⟨start, last.stop⟩
    | _, _ =>
      let operand ← sub.unary
      mkExpr (.unary op operand) ⟨start, operand.span.stop⟩

def castRule (sub : Level) : Parser Expr := do
  let e ← unaryRule sub
  iterate (fun e => do
    if ← accept (.keyword .asKw) then
      let ty ← typeAnnRule sub
      return .again (← mkExpr (.cast e ty) (e.span.cover ty.span))
    return .stop e) e

/-- How tight an operator binds. -/
def precedence : BinaryOp → Nat
  | .logic .or => 1
  | .logic .and => 2
  | .compare .eq | .compare .ne => 3
  | .compare _ => 4
  | .arith .bitOr => 5
  | .arith .bitXor => 6
  | .arith .bitAnd => 7
  | .arith .shl | .arith .shr => 8
  | .arith .add | .arith .sub => 9
  | .arith .mul | .arith .div | .arith .rem => 10

def binaryOp? : Lexeme → Option BinaryOp
  | .symbol .pipePipe => some (.logic .or)
  | .symbol .ampAmp => some (.logic .and)
  | .symbol .eqEq => some (.compare .eq)
  | .symbol .bangEq => some (.compare .ne)
  | .symbol .lt => some (.compare .lt)
  | .symbol .ltEq => some (.compare .le)
  | .symbol .gt => some (.compare .gt)
  | .symbol .gtEq => some (.compare .ge)
  | .symbol .pipe => some (.arith .bitOr)
  | .symbol .caret => some (.arith .bitXor)
  | .symbol .amp => some (.arith .bitAnd)
  | .symbol .ltLt => some (.arith .shl)
  | .symbol .gtGt => some (.arith .shr)
  | .symbol .plus => some (.arith .add)
  | .symbol .minus => some (.arith .sub)
  | .symbol .star => some (.arith .mul)
  | .symbol .slash => some (.arith .div)
  | .symbol .percent => some (.arith .rem)
  | _ => none

/-- One more operator, if it binds at least as tight as `least`.  Its right side takes only
those that bind tighter than it, so equal ones group to the left. -/
def binaryStep (sub : Level) (least : Nat) (left : Expr) : Parser (Round Expr) := do
  match binaryOp? (← peek) with
  | none => return .stop left
  | some op =>
    if precedence op < least then
      return .stop left
    let _ ← next
    let right ← sub.binary (precedence op + 1)
    return .again (← mkExpr (.binary op left right) (left.span.cover right.span))

def binaryRule (sub : Level) (least : Nat) : Parser Expr := do
  iterate (binaryStep sub least) (← castRule sub)

/-! ### Nesting -/

/-- The parsers for text nested less than `depth` deep. -/
def Level.within : Nat → Level
  | 0 =>
    { binary := fun _ => failExpected "expression"
      unary := failExpected "expression"
      type := failExpected "type"
      block := failExpected (Lexeme.symbol .lBrace).describe
      conditional := failExpected "expression" }
  | depth + 1 =>
    let sub := Level.within depth
    { binary := binaryRule sub
      unary := unaryRule sub
      type := typeAnnRule sub
      block := blockRule sub
      conditional := conditionalRule sub }

end Keel.Grammar

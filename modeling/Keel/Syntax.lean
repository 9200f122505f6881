/-
# Syntax trees

A module is a list of imports and a list of declarations.  Types, expressions,
statements and blocks refer to each other: the bounds of a range type are
expressions, and an expression may name types.

Expressions, patterns and `let` statements carry a node number.  What the checker
finds out about a node is kept in tables under that number.
-/
import Keel.Source.Span
import Keel.Ty

namespace Keel

/-- The number of an expression, pattern or `let`. -/
abbrev NodeId := Nat

namespace NodeId

def text (id : NodeId) : String := "#" ++ toString id

end NodeId

/-! ### Operators -/

/-- Operators on integers that give an integer. -/
inductive ArithOp where
  | add | sub | mul | div | rem | bitAnd | bitOr | bitXor | shl | shr
deriving DecidableEq, Repr

inductive CompareOp where
  | eq | ne | lt | le | gt | ge
deriving DecidableEq, Repr

/-- Operators that may leave their right side alone. -/
inductive LogicOp where
  | and | or
deriving DecidableEq, Repr

inductive BinaryOp where
  | arith (op : ArithOp)
  | compare (op : CompareOp)
  | logic (op : LogicOp)
deriving DecidableEq, Repr

inductive UnaryOp where
  | neg | not | bitNot
deriving DecidableEq, Repr

namespace ArithOp

def symbol : ArithOp → String
  | add => "+"
  | sub => "-"
  | mul => "*"
  | div => "/"
  | rem => "%"
  | bitAnd => "&"
  | bitOr => "|"
  | bitXor => "^"
  | shl => "<<"
  | shr => ">>"

def isShift : ArithOp → Bool
  | shl | shr => true
  | _ => false

end ArithOp

namespace CompareOp

def symbol : CompareOp → String
  | eq => "=="
  | ne => "!="
  | lt => "<"
  | le => "<="
  | gt => ">"
  | ge => ">="

/-- Equality and its negation, which also compare other values than integers. -/
def isEquality : CompareOp → Bool
  | eq | ne => true
  | _ => false

/-- The comparison of two integers. -/
def holds : CompareOp → Int → Int → Bool
  | eq, a, b => a == b
  | ne, a, b => a != b
  | lt, a, b => a < b
  | le, a, b => a ≤ b
  | gt, a, b => a > b
  | ge, a, b => a ≥ b

end CompareOp

def LogicOp.symbol : LogicOp → String
  | and => "&&"
  | or => "||"

namespace BinaryOp

def symbol : BinaryOp → String
  | arith op => op.symbol
  | compare op => op.symbol
  | logic op => op.symbol

def isShift : BinaryOp → Bool
  | arith op => op.isShift
  | _ => false

end BinaryOp

def UnaryOp.symbol : UnaryOp → String
  | neg => "-"
  | not => "!"
  | bitNot => "~"

/-! ### Patterns -/

mutual

structure Pattern where
  id : NodeId
  kind : PatternKind
  span : Span

inductive PatternKind where
  | wildcard
  | bind (name : String)
  | int (value : Int)
  | bool (value : Bool)
  | str (value : String)
  /-- `.Name(p)`, `Name(p)` or `Enum.Name(p)`; the path of the enum may be left out. -/
  | variant (enum : Option (List String)) (name : String) (fields : List Pattern)

end

/-- Patterns that take every value, unless the name is that of a variant. -/
def PatternKind.isCatchAll : PatternKind → Bool
  | wildcard | bind _ => true
  | _ => false

/-! ### Types, expressions, statements -/

inductive Literal where
  | int (value : Int)
  | bool (value : Bool)
  | str (value : String)
deriving DecidableEq, Repr

mutual

inductive TypeExpr where
  /-- `i32`, `geo::Point`, `List[T]`. -/
  | named (path : List String) (args : List TypeAnn)
  /-- `i32[0..=9]`. -/
  | range (base : TypeAnn) (low high : Expr)
  /-- `()`. -/
  | unit
  /-- A type already found, put in place of a type parameter. -/
  | resolved (ty : Ty)

/-- A written type and where it stands. -/
structure TypeAnn where
  expr : TypeExpr
  span : Span

/-- A name, qualified or not, with type arguments. -/
structure PathExpr where
  segments : List String
  args : List TypeAnn

structure Expr where
  id : NodeId
  kind : ExprKind
  span : Span

inductive ExprKind where
  | path (path : PathExpr)
  | literal (value : Literal)
  | unary (op : UnaryOp) (operand : Expr)
  | binary (op : BinaryOp) (left right : Expr)
  | cast (operand : Expr) (ty : TypeAnn)
  | call (callee : Expr) (args : List Expr)
  | member (base : Expr) (name : String) (nameSpan : Span)
  | record (path : PathExpr) (fields : List FieldInit)
  | select (scrutinee : Expr) (arms : List Arm)
  | cond (choice : Conditional)
  | block (body : Block)

/-- `name: value` in a struct literal. -/
structure FieldInit where
  name : String
  value : Expr
  span : Span

/-- `pattern => body`. -/
structure Arm where
  pattern : Pattern
  body : Expr
  span : Span

/-- `if condition { … } else …`. -/
structure Conditional where
  condition : Expr
  thenBlock : Block
  otherwise : ElseBranch
  span : Span

inductive ElseBranch where
  | absent
  | block (body : Block)
  | elseIf (choice : Conditional)

/-- Statements and, if the block has a value, the expression at its end. -/
structure Block where
  stmts : List Stmt
  tail : Option Expr
  span : Span

inductive Stmt where
  | bind (id : NodeId) (name : String) (ty : Option TypeAnn) (value : Option Expr)
      (isMutable : Bool) (span : Span)
  | assign (target : String) (value : Expr) (span : Span)
  /-- `base.f.g = value`. -/
  | assignField (base : String) (fields : List String) (value : Expr) (span : Span)
  | expr (value : Expr)
  | ret (value : Option Expr) (span : Span)
  | cond (choice : Conditional)
  | loop (condition : Expr) (body : Block) (span : Span)
  | brk (span : Span)
  | cont (span : Span)
  | block (body : Block)

end

namespace PathExpr

def isSimple (p : PathExpr) : Bool := p.segments.length == 1

def last (p : PathExpr) : String := p.segments.getLastD ""

/-- What stands before the name. -/
def qualifier (p : PathExpr) : List String := p.segments.dropLast

def text (p : PathExpr) : String := String.intercalate "::" p.segments

/-- The name, if nothing stands before it. -/
def simple? (p : PathExpr) : Option String :=
  match p.segments with
  | [name] => some name
  | _ => none

end PathExpr

def ElseBranch.isPresent : ElseBranch → Bool
  | absent => false
  | _ => true

mutual

/-- A written type as messages repeat it; the bounds of a range are left out. -/
def TypeExpr.text : TypeExpr → String
  | .named path args =>
    let name := String.intercalate "::" path
    match args with
    | [] => name
    | _ => name ++ "[" ++ String.intercalate ", " (TypeAnn.texts args) ++ "]"
  | .range base _ _ => base.text ++ "[..]"
  | .unit => "unit"
  | .resolved ty => ty.text

def TypeAnn.text : TypeAnn → String
  | ⟨expr, _⟩ => expr.text

def TypeAnn.texts : List TypeAnn → List String
  | [] => []
  | a :: rest => a.text :: TypeAnn.texts rest

end

/-! ### Declarations -/

structure FieldDef where
  name : String
  ty : TypeAnn
  isPublic : Bool
  span : Span

structure StructDef where
  name : String
  params : List String
  fields : List FieldDef
  span : Span
  isPublic : Bool

structure VariantDef where
  name : String
  fields : List TypeAnn
  span : Span

structure EnumDef where
  name : String
  params : List String
  variants : List VariantDef
  span : Span
  isPublic : Bool

structure ParamDef where
  name : String
  ty : TypeAnn
  isMutable : Bool
  span : Span

/-- A method that a trait asks for. -/
structure MethodSpec where
  name : String
  params : List ParamDef
  ret : Option TypeAnn
  span : Span

structure TraitDef where
  name : String
  methods : List MethodSpec
  span : Span
  isPublic : Bool

structure FunctionDef where
  name : String
  typeParams : List String
  params : List ParamDef
  ret : Option TypeAnn
  body : Block
  span : Span
  isPublic : Bool

/-- Methods of a type, with the trait they are meant to satisfy. -/
structure ImplBlock where
  traitExpr : Option TypeExpr
  target : TypeAnn
  methods : List FunctionDef
  span : Span

structure ConstDef where
  name : String
  ty : Option TypeAnn
  value : Expr
  span : Span
  isPublic : Bool

structure AliasDef where
  name : String
  ty : TypeAnn
  span : Span
  isPublic : Bool

inductive Item where
  | struct (decl : StructDef)
  | enum (decl : EnumDef)
  | trait (decl : TraitDef)
  | impl (block : ImplBlock)
  | function (decl : FunctionDef)
  | const (decl : ConstDef)
  | typeAlias (decl : AliasDef)

/-- `name` or `name as alias` between the braces of an import. -/
structure Selector where
  name : String
  renamed : Option String
  span : Span
deriving DecidableEq, Repr

/-- The name a selector binds in the importing file. -/
def Selector.localName (s : Selector) : String := s.renamed.getD s.name

inductive ImportKind where
  | module (renamed : Option String)
  | names (selectors : List Selector)
deriving DecidableEq, Repr

structure Import where
  segments : List String
  kind : ImportKind
  span : Span
deriving DecidableEq, Repr

def Import.text (i : Import) : String := String.intercalate "::" i.segments

/-- One file, read. -/
structure ModuleDef where
  path : SourcePath
  imports : List Import
  items : List Item

end Keel

/-
# Writing syntax trees

A tree can be written so that the grammar has no choice when it reads it again: every
expression stands in round brackets, every statement is followed by `;`, and every item of a
list by `,`.

| tree                    | written                             |
|-------------------------|-------------------------------------|
| `a + b * c`             | `((a) + ((b) * (c)))`               |
| `f(x, -1)`              | `((f)((x), (-1),))`                 |
| `p.x = 1`               | `p.x = (1);`                        |
| `if c { 1 } else { 2 }` | `(if (c) { (1) } else { (2) })`     |

* `print` gives the lexemes.
* `shape` is a tree without its numbers and spans.  Trees of one shape differ in nothing else.
* `Writable` is what a tree needs to be written: paths have a name, the literal of a struct
  names a type, an integer type has no arguments but bounds, and no type has been put in the
  place of a type parameter.
-/
import Keel.Grammar.Module

namespace Keel

/-! ### Pieces -/

def UnaryOp.lexeme : UnaryOp → Lexeme
  | neg => .symbol .minus
  | not => .symbol .bang
  | bitNot => .symbol .tilde

def BinaryOp.lexeme : BinaryOp → Lexeme
  | logic .or => .symbol .pipePipe
  | logic .and => .symbol .ampAmp
  | compare .eq => .symbol .eqEq
  | compare .ne => .symbol .bangEq
  | compare .lt => .symbol .lt
  | compare .le => .symbol .ltEq
  | compare .gt => .symbol .gt
  | compare .ge => .symbol .gtEq
  | arith .bitOr => .symbol .pipe
  | arith .bitXor => .symbol .caret
  | arith .bitAnd => .symbol .amp
  | arith .shl => .symbol .ltLt
  | arith .shr => .symbol .gtGt
  | arith .add => .symbol .plus
  | arith .sub => .symbol .minus
  | arith .mul => .symbol .star
  | arith .div => .symbol .slash
  | arith .rem => .symbol .percent

namespace Print

/-- A word that stands there or not. -/
def flag (word : Keyword) (given : Bool) : List Lexeme := if given then [.keyword word] else []

def int : Int → List Lexeme
  | .ofNat n => [.int n]
  | .negSucc n => [.symbol .minus, .int (n + 1)]

def bool (value : Bool) : List Lexeme := [.keyword (if value then .trueKw else .falseKw)]

def segments (names : List String) : List Lexeme :=
  names.flatMap fun name => [.symbol .colonColon, .ident name]

def path : List String → List Lexeme
  | [] => []
  | first :: rest => .ident first :: segments rest

def place (name : String) (fields : List String) : List Lexeme :=
  .ident name :: fields.flatMap fun field => [.symbol .dot, .ident field]

def items {α : Type} (print : α → List Lexeme) (as : List α) : List Lexeme :=
  as.flatMap fun a => print a ++ [.symbol .comma]

/-- A list in brackets, which are left out with it. -/
def enclosed (left right : Symbol) : List Lexeme → List Lexeme
  | [] => []
  | l :: ls => .symbol left :: l :: (ls ++ [.symbol right])

theorem enclosed_append {left right : Symbol} {ls : List Lexeme} (h : ls ≠ []) (rest : List Lexeme) :
    enclosed left right ls ++ rest = .symbol left :: (ls ++ .symbol right :: rest) := by
  cases ls with
  | nil => exact absurd rfl h
  | cons l ls => simp [enclosed]

section Lists

variable {α : Type}

theorem eq_items {f : List α → List Lexeme} {print : α → List Lexeme} (hnil : f [] = [])
    (hcons : ∀ a as, f (a :: as) = print a ++ .symbol .comma :: f as) (as : List α) : f as = items print as := by
  induction as with
  | nil => exact hnil
  | cons a as ih => rw [hcons, ih, items, items, List.flatMap_cons, List.append_assoc]; rfl

theorem eq_map {f : List α → List α} {shape : α → α} (hnil : f [] = [])
    (hcons : ∀ a as, f (a :: as) = shape a :: f as) (as : List α) : f as = as.map shape := by
  induction as with
  | nil => exact hnil
  | cons a as ih => rw [hcons, ih, List.map_cons]

theorem iff_forall {f : List α → Prop} {holds : α → Prop} (hnil : f [])
    (hcons : ∀ a as, f (a :: as) ↔ holds a ∧ f as) (as : List α) : f as ↔ ∀ a ∈ as, holds a := by
  induction as with
  | nil => simpa using hnil
  | cons a as ih => rw [hcons, ih, List.forall_mem_cons]

end Lists

end Print

def intKind? : List String → Option IntKind
  | [name] => IntKind.ofName? name
  | _ => none

theorem isSome_intKind? (first : String) (segments : List String) :
    (segments.isEmpty && (IntKind.ofName? first).isSome) = (intKind? (first :: segments)).isSome := by
  cases segments <;> rfl

/-! ### Patterns -/

mutual

def Pattern.print : Pattern → List Lexeme
  | ⟨_, kind, _⟩ => kind.print

def PatternKind.print : PatternKind → List Lexeme
  | .wildcard => [.keyword .underscore]
  | .bind name => [.ident name]
  | .int value => Print.int value
  | .bool value => Print.bool value
  | .str value => [.str value]
  | .variant enum name fields =>
    (enum.elim [] Print.path) ++ .symbol .dot :: .ident name ::
      Print.enclosed .lParen .rParen (Pattern.printAll fields)

def Pattern.printAll : List Pattern → List Lexeme
  | [] => []
  | p :: rest => p.print ++ .symbol .comma :: Pattern.printAll rest

end

mutual

def Pattern.shape : Pattern → Pattern
  | ⟨_, kind, _⟩ => ⟨0, kind.shape, .zero⟩

def PatternKind.shape : PatternKind → PatternKind
  | .variant enum name fields => .variant enum name (Pattern.shapeAll fields)
  | .wildcard => .wildcard
  | .bind name => .bind name
  | .int value => .int value
  | .bool value => .bool value
  | .str value => .str value

def Pattern.shapeAll : List Pattern → List Pattern
  | [] => []
  | p :: rest => p.shape :: Pattern.shapeAll rest

end

mutual

def Pattern.Writable : Pattern → Prop
  | ⟨_, kind, _⟩ => kind.Writable

def PatternKind.Writable : PatternKind → Prop
  | .variant enum _ fields => enum ≠ some [] ∧ Pattern.AllWritable fields
  | _ => True

def Pattern.AllWritable : List Pattern → Prop
  | [] => True
  | p :: rest => p.Writable ∧ Pattern.AllWritable rest

end

/-! ### Types, expressions and blocks -/

def Literal.print : Literal → List Lexeme
  | int value => Print.int value
  | bool value => Print.bool value
  | str value => [.str value]

mutual

def TypeExpr.print : TypeExpr → List Lexeme
  | .named path args => Print.path path ++ Print.enclosed .lBracket .rBracket (TypeAnn.printAll args)
  | .range base low high =>
    base.print ++ .symbol .lBracket :: (low.print ++ .symbol .dotDotEq :: (high.print ++ [.symbol .rBracket]))
  | .unit => [.symbol .lParen, .symbol .rParen]
  | .resolved _ => []

def TypeAnn.print : TypeAnn → List Lexeme
  | ⟨expr, _⟩ => expr.print

def TypeAnn.printAll : List TypeAnn → List Lexeme
  | [] => []
  | ann :: rest => ann.print ++ .symbol .comma :: TypeAnn.printAll rest

/-- A type that may be missing, behind the symbol that announces it. -/
def TypeAnn.printOpt (lead : Symbol) : Option TypeAnn → List Lexeme
  | none => []
  | some ann => .symbol lead :: ann.print

def PathExpr.print : PathExpr → List Lexeme
  | ⟨segments, args⟩ => Print.path segments ++ Print.enclosed .lBracket .rBracket (TypeAnn.printAll args)

def Expr.print : Expr → List Lexeme
  | ⟨_, kind, _⟩ => .symbol .lParen :: (kind.print ++ [.symbol .rParen])

/-- What stands between the brackets of an expression. -/
def ExprKind.print : ExprKind → List Lexeme
  | .path p => p.print
  | .literal value => value.print
  | .unary op operand => op.lexeme :: operand.print
  | .binary op left right => left.print ++ op.lexeme :: right.print
  | .cast operand ty => operand.print ++ .keyword .asKw :: ty.print
  | .call callee args => callee.print ++ .symbol .lParen :: (Expr.printAll args ++ [.symbol .rParen])
  | .member base name _ => base.print ++ [.symbol .dot, .ident name]
  | .record p fields => p.print ++ .symbol .lBrace :: (FieldInit.printAll fields ++ [.symbol .rBrace])
  | .select scrutinee arms =>
    .keyword .matchKw :: (scrutinee.print ++ .symbol .lBrace :: (Arm.printAll arms ++ [.symbol .rBrace]))
  | .cond choice => .keyword .ifKw :: choice.print
  | .block body => body.print

def Expr.printAll : List Expr → List Lexeme
  | [] => []
  | e :: rest => e.print ++ .symbol .comma :: Expr.printAll rest

/-- An expression that may be missing, behind what announces it. -/
def Expr.printOpt (lead : List Lexeme) : Option Expr → List Lexeme
  | none => []
  | some e => lead ++ e.print

def FieldInit.print : FieldInit → List Lexeme
  | ⟨name, value, _⟩ => .ident name :: .symbol .colon :: value.print

def FieldInit.printAll : List FieldInit → List Lexeme
  | [] => []
  | f :: rest => f.print ++ .symbol .comma :: FieldInit.printAll rest

def Arm.print : Arm → List Lexeme
  | ⟨pattern, body, _⟩ => pattern.print ++ .symbol .fatArrow :: body.print

def Arm.printAll : List Arm → List Lexeme
  | [] => []
  | arm :: rest => arm.print ++ .symbol .comma :: Arm.printAll rest

def Conditional.print : Conditional → List Lexeme
  | ⟨condition, thenBlock, otherwise, _⟩ => condition.print ++ (thenBlock.print ++ otherwise.print)

def ElseBranch.print : ElseBranch → List Lexeme
  | .absent => []
  | .block body => .keyword .elseKw :: body.print
  | .elseIf choice => .keyword .elseKw :: .keyword .ifKw :: choice.print

def Block.print : Block → List Lexeme
  | ⟨stmts, tail, _⟩ =>
    .symbol .lBrace :: (Stmt.printAll stmts ++ (Expr.printOpt [] tail ++ [.symbol .rBrace]))

def Stmt.printAll : List Stmt → List Lexeme
  | [] => []
  | s :: rest => s.print ++ .symbol .semi :: Stmt.printAll rest

def Stmt.print : Stmt → List Lexeme
  | .bind _ name ty value isMutable _ =>
    .keyword .letKw :: (Print.flag .mutKw isMutable ++ .ident name ::
      (TypeAnn.printOpt .colon ty ++ Expr.printOpt [.symbol .eq] value))
  | .assign target value _ => Print.place target [] ++ .symbol .eq :: value.print
  | .assignField base fields value _ => Print.place base fields ++ .symbol .eq :: value.print
  | .expr value => value.print
  | .ret value _ => .keyword .returnKw :: Expr.printOpt [] value
  | .cond choice => .keyword .ifKw :: choice.print
  | .loop condition body _ => .keyword .whileKw :: (condition.print ++ body.print)
  | .brk _ => [.keyword .breakKw]
  | .cont _ => [.keyword .continueKw]
  | .block body => body.print

end

mutual

def TypeExpr.shape : TypeExpr → TypeExpr
  | .named path args => .named path (TypeAnn.shapeAll args)
  | .range base low high => .range base.shape low.shape high.shape
  | .unit => .unit
  | .resolved ty => .resolved ty

def TypeAnn.shape : TypeAnn → TypeAnn
  | ⟨expr, _⟩ => ⟨expr.shape, .zero⟩

def TypeAnn.shapeAll : List TypeAnn → List TypeAnn
  | [] => []
  | ann :: rest => ann.shape :: TypeAnn.shapeAll rest

def TypeAnn.shapeOpt : Option TypeAnn → Option TypeAnn
  | none => none
  | some ann => some ann.shape

def PathExpr.shape : PathExpr → PathExpr
  | ⟨segments, args⟩ => ⟨segments, TypeAnn.shapeAll args⟩

def Expr.shape : Expr → Expr
  | ⟨_, kind, _⟩ => ⟨0, kind.shape, .zero⟩

def ExprKind.shape : ExprKind → ExprKind
  | .path p => .path p.shape
  | .literal value => .literal value
  | .unary op operand => .unary op operand.shape
  | .binary op left right => .binary op left.shape right.shape
  | .cast operand ty => .cast operand.shape ty.shape
  | .call callee args => .call callee.shape (Expr.shapeAll args)
  | .member base name _ => .member base.shape name .zero
  | .record p fields => .record p.shape (FieldInit.shapeAll fields)
  | .select scrutinee arms => .select scrutinee.shape (Arm.shapeAll arms)
  | .cond choice => .cond choice.shape
  | .block body => .block body.shape

def Expr.shapeAll : List Expr → List Expr
  | [] => []
  | e :: rest => e.shape :: Expr.shapeAll rest

def Expr.shapeOpt : Option Expr → Option Expr
  | none => none
  | some e => some e.shape

def FieldInit.shape : FieldInit → FieldInit
  | ⟨name, value, _⟩ => ⟨name, value.shape, .zero⟩

def FieldInit.shapeAll : List FieldInit → List FieldInit
  | [] => []
  | f :: rest => f.shape :: FieldInit.shapeAll rest

def Arm.shape : Arm → Arm
  | ⟨pattern, body, _⟩ => ⟨pattern.shape, body.shape, .zero⟩

def Arm.shapeAll : List Arm → List Arm
  | [] => []
  | arm :: rest => arm.shape :: Arm.shapeAll rest

def Conditional.shape : Conditional → Conditional
  | ⟨condition, thenBlock, otherwise, _⟩ => ⟨condition.shape, thenBlock.shape, otherwise.shape, .zero⟩

def ElseBranch.shape : ElseBranch → ElseBranch
  | .absent => .absent
  | .block body => .block body.shape
  | .elseIf choice => .elseIf choice.shape

def Block.shape : Block → Block
  | ⟨stmts, tail, _⟩ => ⟨Stmt.shapeAll stmts, Expr.shapeOpt tail, .zero⟩

def Stmt.shapeAll : List Stmt → List Stmt
  | [] => []
  | s :: rest => s.shape :: Stmt.shapeAll rest

def Stmt.shape : Stmt → Stmt
  | .bind _ name ty value isMutable _ =>
    .bind 0 name (TypeAnn.shapeOpt ty) (Expr.shapeOpt value) isMutable .zero
  | .assign target value _ => .assign target value.shape .zero
  | .assignField base fields value _ => .assignField base fields value.shape .zero
  | .expr value => .expr value.shape
  | .ret value _ => .ret (Expr.shapeOpt value) .zero
  | .cond choice => .cond choice.shape
  | .loop condition body _ => .loop condition.shape body.shape .zero
  | .brk _ => .brk .zero
  | .cont _ => .cont .zero
  | .block body => .block body.shape

end

mutual

def TypeExpr.Writable : TypeExpr → Prop
  | .named path args => path ≠ [] ∧ (args = [] ∨ intKind? path = none) ∧ TypeAnn.AllWritable args
  | .range base low high =>
    (∃ path, base.expr = .named path [] ∧ intKind? path ≠ none) ∧ low.Writable ∧ high.Writable
  | .unit => True
  | .resolved _ => False

def TypeAnn.Writable : TypeAnn → Prop
  | ⟨expr, _⟩ => expr.Writable

def TypeAnn.AllWritable : List TypeAnn → Prop
  | [] => True
  | ann :: rest => ann.Writable ∧ TypeAnn.AllWritable rest

def TypeAnn.OptWritable : Option TypeAnn → Prop
  | none => True
  | some ann => ann.Writable

def PathExpr.Writable : PathExpr → Prop
  | ⟨segments, args⟩ => segments ≠ [] ∧ TypeAnn.AllWritable args

def Expr.Writable : Expr → Prop
  | ⟨_, kind, _⟩ => kind.Writable

def ExprKind.Writable : ExprKind → Prop
  | .path p => p.Writable
  | .literal _ => True
  | .unary _ operand => operand.Writable
  | .binary _ left right => left.Writable ∧ right.Writable
  | .cast operand ty => operand.Writable ∧ ty.Writable
  | .call callee args => callee.Writable ∧ Expr.AllWritable args
  | .member base _ _ => base.Writable
  | .record p fields => Grammar.isTypeName p.last ∧ p.Writable ∧ FieldInit.AllWritable fields
  | .select scrutinee arms => scrutinee.Writable ∧ Arm.AllWritable arms
  | .cond choice => choice.Writable
  | .block body => body.Writable

def Expr.AllWritable : List Expr → Prop
  | [] => True
  | e :: rest => e.Writable ∧ Expr.AllWritable rest

def Expr.OptWritable : Option Expr → Prop
  | none => True
  | some e => e.Writable

def FieldInit.Writable : FieldInit → Prop
  | ⟨_, value, _⟩ => value.Writable

def FieldInit.AllWritable : List FieldInit → Prop
  | [] => True
  | f :: rest => f.Writable ∧ FieldInit.AllWritable rest

def Arm.Writable : Arm → Prop
  | ⟨pattern, body, _⟩ => pattern.Writable ∧ body.Writable

def Arm.AllWritable : List Arm → Prop
  | [] => True
  | arm :: rest => arm.Writable ∧ Arm.AllWritable rest

def Conditional.Writable : Conditional → Prop
  | ⟨condition, thenBlock, otherwise, _⟩ =>
    condition.Writable ∧ thenBlock.Writable ∧ otherwise.Writable

def ElseBranch.Writable : ElseBranch → Prop
  | .absent => True
  | .block body => body.Writable
  | .elseIf choice => choice.Writable

def Block.Writable : Block → Prop
  | ⟨stmts, tail, _⟩ => Stmt.AllWritable stmts ∧ Expr.OptWritable tail

def Stmt.AllWritable : List Stmt → Prop
  | [] => True
  | s :: rest => s.Writable ∧ Stmt.AllWritable rest

def Stmt.Writable : Stmt → Prop
  | .bind _ _ ty value _ _ => TypeAnn.OptWritable ty ∧ Expr.OptWritable value
  | .assign _ value _ | .expr value => value.Writable
  | .assignField _ fields value _ => fields ≠ [] ∧ value.Writable
  | .ret value _ => Expr.OptWritable value
  | .cond choice => choice.Writable
  | .loop condition body _ => condition.Writable ∧ body.Writable
  | .brk _ | .cont _ => True
  | .block body => body.Writable

end

theorem Expr.print_append (e : Expr) (rest : List Lexeme) :
    e.print ++ rest = .symbol .lParen :: (e.kind.print ++ .symbol .rParen :: rest) := by
  cases e
  simp [Expr.print]

/-! ### Lists

The recursions over lists are the usual functions on lists. -/

theorem Pattern.printAll_eq (ps : List Pattern) : printAll ps = Print.items print ps :=
  Print.eq_items rfl (fun _ _ => rfl) ps

theorem TypeAnn.printAll_eq (anns : List TypeAnn) : printAll anns = Print.items print anns :=
  Print.eq_items rfl (fun _ _ => rfl) anns

theorem Expr.printAll_eq (es : List Expr) : printAll es = Print.items print es :=
  Print.eq_items rfl (fun _ _ => rfl) es

theorem FieldInit.printAll_eq (fs : List FieldInit) : printAll fs = Print.items print fs :=
  Print.eq_items rfl (fun _ _ => rfl) fs

theorem Arm.printAll_eq (arms : List Arm) : printAll arms = Print.items print arms :=
  Print.eq_items rfl (fun _ _ => rfl) arms

theorem Pattern.shapeAll_eq (ps : List Pattern) : shapeAll ps = ps.map shape :=
  Print.eq_map rfl (fun _ _ => rfl) ps

theorem TypeAnn.shapeAll_eq (anns : List TypeAnn) : shapeAll anns = anns.map shape :=
  Print.eq_map rfl (fun _ _ => rfl) anns

theorem Expr.shapeAll_eq (es : List Expr) : shapeAll es = es.map shape :=
  Print.eq_map rfl (fun _ _ => rfl) es

theorem FieldInit.shapeAll_eq (fs : List FieldInit) : shapeAll fs = fs.map shape :=
  Print.eq_map rfl (fun _ _ => rfl) fs

theorem Pattern.allWritable_iff (ps : List Pattern) : AllWritable ps ↔ ∀ p ∈ ps, p.Writable :=
  Print.iff_forall trivial (fun _ _ => Iff.rfl) ps

theorem TypeAnn.allWritable_iff (anns : List TypeAnn) : AllWritable anns ↔ ∀ ann ∈ anns, ann.Writable :=
  Print.iff_forall trivial (fun _ _ => Iff.rfl) anns

theorem Expr.allWritable_iff (es : List Expr) : AllWritable es ↔ ∀ e ∈ es, e.Writable :=
  Print.iff_forall trivial (fun _ _ => Iff.rfl) es

theorem FieldInit.allWritable_iff (fs : List FieldInit) : AllWritable fs ↔ ∀ f ∈ fs, f.Writable :=
  Print.iff_forall trivial (fun _ _ => Iff.rfl) fs

theorem Arm.allWritable_iff (arms : List Arm) : AllWritable arms ↔ ∀ arm ∈ arms, arm.Writable :=
  Print.iff_forall trivial (fun _ _ => Iff.rfl) arms

/-! ### Declarations -/

namespace Print

def typeParams (names : List String) : List Lexeme :=
  enclosed .lBracket .rBracket (items (fun name => [.ident name]) names)

def braced (ls : List Lexeme) : List Lexeme := .symbol .lBrace :: (ls ++ [.symbol .rBrace])

end Print

section

open Print

def Selector.print (s : Selector) : List Lexeme :=
  .ident s.name :: s.renamed.elim [] fun name => [.keyword .asKw, .ident name]

def ImportKind.print : ImportKind → List Lexeme
  | module renamed => renamed.elim [] fun name => [.keyword .asKw, .ident name]
  | names selectors => .symbol .colonColon :: braced (items Selector.print selectors)

def Import.print (i : Import) : List Lexeme :=
  .keyword .importKw :: (path i.segments ++ (i.kind.print ++ [.symbol .semi]))

def FieldDef.print (f : FieldDef) : List Lexeme :=
  flag .pubKw f.isPublic ++ .ident f.name :: .symbol .colon :: f.ty.print

def VariantDef.print (v : VariantDef) : List Lexeme :=
  .ident v.name :: enclosed .lParen .rParen (items TypeAnn.print v.fields)

def ParamDef.print (p : ParamDef) : List Lexeme :=
  flag .mutKw p.isMutable ++ .ident p.name :: .symbol .colon :: p.ty.print

def Print.signature (params : List ParamDef) (ret : Option TypeAnn) : List Lexeme :=
  .symbol .lParen :: (items ParamDef.print params ++ .symbol .rParen :: TypeAnn.printOpt .arrow ret)

def MethodSpec.print (m : MethodSpec) : List Lexeme :=
  .keyword .fnKw :: .ident m.name :: (signature m.params m.ret ++ [.symbol .semi])

def FunctionDef.print (f : FunctionDef) : List Lexeme :=
  .ident f.name :: (Print.typeParams f.typeParams ++ (signature f.params f.ret ++ f.body.print))

def FunctionDef.printMethod (f : FunctionDef) : List Lexeme :=
  flag .pubKw f.isPublic ++ .keyword .fnKw :: f.print

def ImplBlock.print (block : ImplBlock) : List Lexeme :=
  block.traitExpr.elim [] (fun expr => expr.print ++ [.keyword .forKw]) ++
    (block.target.print ++ braced (block.methods.flatMap FunctionDef.printMethod))

def Item.print : Item → List Lexeme
  | struct d => flag .pubKw d.isPublic ++ .keyword .structKw :: .ident d.name ::
      (typeParams d.params ++ braced (items FieldDef.print d.fields))
  | enum d => flag .pubKw d.isPublic ++ .keyword .enumKw :: .ident d.name ::
      (typeParams d.params ++ braced (items VariantDef.print d.variants))
  | trait d => flag .pubKw d.isPublic ++ .keyword .traitKw :: .ident d.name ::
      braced (d.methods.flatMap MethodSpec.print)
  | impl block => .keyword .implKw :: block.print
  | function f => f.printMethod
  | const d => flag .pubKw d.isPublic ++ .keyword .constKw :: .ident d.name ::
      (TypeAnn.printOpt .colon d.ty ++ .symbol .eq :: (d.value.print ++ [.symbol .semi]))
  | typeAlias d => flag .pubKw d.isPublic ++ .keyword .typeKw :: .ident d.name :: .symbol .eq ::
      (d.ty.print ++ [.symbol .semi])

def ModuleDef.print (m : ModuleDef) : List Lexeme :=
  m.imports.flatMap Import.print ++ m.items.flatMap Item.print

end

def Selector.shape (s : Selector) : Selector := { s with span := .zero }

def ImportKind.shape : ImportKind → ImportKind
  | module renamed => module renamed
  | names selectors => names (selectors.map Selector.shape)

def Import.shape (i : Import) : Import := ⟨i.segments, i.kind.shape, .zero⟩

def FieldDef.shape (f : FieldDef) : FieldDef := ⟨f.name, f.ty.shape, f.isPublic, .zero⟩

def VariantDef.shape (v : VariantDef) : VariantDef := ⟨v.name, v.fields.map TypeAnn.shape, .zero⟩

def ParamDef.shape (p : ParamDef) : ParamDef := ⟨p.name, p.ty.shape, p.isMutable, .zero⟩

def MethodSpec.shape (m : MethodSpec) : MethodSpec :=
  ⟨m.name, m.params.map ParamDef.shape, m.ret.map TypeAnn.shape, .zero⟩

def FunctionDef.shape (f : FunctionDef) : FunctionDef :=
  ⟨f.name, f.typeParams, f.params.map ParamDef.shape, f.ret.map TypeAnn.shape, f.body.shape, .zero,
    f.isPublic⟩

def ImplBlock.shape (block : ImplBlock) : ImplBlock :=
  ⟨block.traitExpr.map TypeExpr.shape, block.target.shape, block.methods.map FunctionDef.shape, .zero⟩

def Item.shape : Item → Item
  | struct d => struct ⟨d.name, d.params, d.fields.map FieldDef.shape, .zero, d.isPublic⟩
  | enum d => enum ⟨d.name, d.params, d.variants.map VariantDef.shape, .zero, d.isPublic⟩
  | trait d => trait ⟨d.name, d.methods.map MethodSpec.shape, .zero, d.isPublic⟩
  | impl block => impl block.shape
  | function f => function f.shape
  | const d => const ⟨d.name, d.ty.map TypeAnn.shape, d.value.shape, .zero, d.isPublic⟩
  | typeAlias d => typeAlias ⟨d.name, d.ty.shape, .zero, d.isPublic⟩

def ModuleDef.shape (m : ModuleDef) : ModuleDef :=
  ⟨m.path, m.imports.map Import.shape, m.items.map Item.shape⟩

def Import.Writable (i : Import) : Prop := i.segments ≠ []

def Print.SignatureWritable (params : List ParamDef) (ret : Option TypeAnn) : Prop :=
  (∀ p ∈ params, p.ty.Writable) ∧ TypeAnn.OptWritable ret

def FunctionDef.Writable (f : FunctionDef) : Prop :=
  Print.SignatureWritable f.params f.ret ∧ f.body.Writable

def Item.Writable : Item → Prop
  | struct d => ∀ f ∈ d.fields, f.ty.Writable
  | enum d => ∀ v ∈ d.variants, ∀ ann ∈ v.fields, ann.Writable
  | trait d => ∀ m ∈ d.methods, Print.SignatureWritable m.params m.ret
  | impl block => (∀ expr ∈ block.traitExpr, expr.Writable) ∧ block.target.Writable ∧
      ∀ f ∈ block.methods, f.Writable
  | function f => f.Writable
  | const d => TypeAnn.OptWritable d.ty ∧ d.value.Writable
  | typeAlias d => d.ty.Writable

def ModuleDef.Writable (m : ModuleDef) : Prop :=
  (∀ i ∈ m.imports, i.Writable) ∧ ∀ item ∈ m.items, item.Writable

end Keel

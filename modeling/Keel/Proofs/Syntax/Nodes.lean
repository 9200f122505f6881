/-
# The nodes of a body

A body holds expressions, patterns and `let` statements, each with a number.  `nodes`
lists them, a node before its parts; what stands inside a written type is left out.

Beside it stand two more views of a body: `foundTypes`, the types that have been put in
the place of type parameters, and `erase`, the body without its numbers and its types.
-/
import Keel.Syntax
import Mathlib.Data.List.Nodup

namespace Keel

open List

/-- A part of a body that has a number. -/
inductive Node where
  | expr (e : Expr)
  | pattern (p : Pattern)
  | bind (id : NodeId)

def Node.id : Node → Nat
  | expr e => e.id
  | pattern p => p.id
  | bind id => id

/-! ### Nodes -/

mutual

def Pattern.nodes : Pattern → List Node
  | ⟨id, kind, span⟩ => .pattern ⟨id, kind, span⟩ :: kind.nodes

def PatternKind.nodes : PatternKind → List Node
  | .variant _ _ fields => Pattern.allNodes fields
  | _ => []

def Pattern.allNodes : List Pattern → List Node
  | [] => []
  | p :: rest => p.nodes ++ Pattern.allNodes rest

end

mutual

def Expr.nodes : Expr → List Node
  | ⟨id, kind, span⟩ => .expr ⟨id, kind, span⟩ :: kind.nodes

def ExprKind.nodes : ExprKind → List Node
  | .path _ | .literal _ => []
  | .unary _ operand => operand.nodes
  | .binary _ left right => left.nodes ++ right.nodes
  | .cast operand _ => operand.nodes
  | .call callee args => callee.nodes ++ Expr.allNodes args
  | .member base _ _ => base.nodes
  | .record _ fields => FieldInit.allNodes fields
  | .select scrutinee arms => scrutinee.nodes ++ Arm.allNodes arms
  | .cond choice => choice.nodes
  | .block body => body.nodes

def Expr.allNodes : List Expr → List Node
  | [] => []
  | e :: rest => e.nodes ++ Expr.allNodes rest

def Expr.optNodes : Option Expr → List Node
  | none => []
  | some e => e.nodes

def FieldInit.allNodes : List FieldInit → List Node
  | [] => []
  | ⟨_, value, _⟩ :: rest => value.nodes ++ FieldInit.allNodes rest

def Arm.allNodes : List Arm → List Node
  | [] => []
  | ⟨pattern, body, _⟩ :: rest => pattern.nodes ++ (body.nodes ++ Arm.allNodes rest)

def Conditional.nodes : Conditional → List Node
  | ⟨condition, thenBlock, otherwise, _⟩ =>
    condition.nodes ++ (thenBlock.nodes ++ otherwise.nodes)

def ElseBranch.nodes : ElseBranch → List Node
  | .absent => []
  | .block body => body.nodes
  | .elseIf choice => choice.nodes

def Block.nodes : Block → List Node
  | ⟨stmts, tail, _⟩ => Stmt.allNodes stmts ++ Expr.optNodes tail

def Stmt.allNodes : List Stmt → List Node
  | [] => []
  | s :: rest => s.nodes ++ Stmt.allNodes rest

def Stmt.nodes : Stmt → List Node
  | .bind id _ _ value _ _ => .bind id :: Expr.optNodes value
  | .assign _ value _ | .assignField _ _ value _ | .expr value => value.nodes
  | .ret value _ => Expr.optNodes value
  | .cond choice => choice.nodes
  | .loop condition body _ => condition.nodes ++ body.nodes
  | .brk _ | .cont _ => []
  | .block body => body.nodes

end

theorem Expr.mem_nodes : ∀ e : Expr, Node.expr e ∈ e.nodes
  | ⟨_, _, _⟩ => mem_cons_self

theorem Block.mem_nodes_of_tail {b : Block} {e : Expr} {node : Node} (h : b.tail = some e)
    (hnode : node ∈ e.nodes) : node ∈ b.nodes := by
  obtain ⟨stmts, _, span⟩ := b
  subst h
  exact mem_append_right _ hnode

/-! ### Types that have been found -/

mutual

def TypeExpr.foundTypes : TypeExpr → List Ty
  | .named _ args => TypeAnn.allFoundTypes args
  | .range base low high => base.foundTypes ++ (low.foundTypes ++ high.foundTypes)
  | .unit => []
  | .resolved ty => [ty]

def TypeAnn.foundTypes : TypeAnn → List Ty
  | ⟨expr, _⟩ => expr.foundTypes

def TypeAnn.allFoundTypes : List TypeAnn → List Ty
  | [] => []
  | ann :: rest => ann.foundTypes ++ TypeAnn.allFoundTypes rest

def PathExpr.foundTypes : PathExpr → List Ty
  | ⟨_, args⟩ => TypeAnn.allFoundTypes args

def Expr.foundTypes : Expr → List Ty
  | ⟨_, kind, _⟩ => kind.foundTypes

def ExprKind.foundTypes : ExprKind → List Ty
  | .path p => p.foundTypes
  | .literal _ => []
  | .unary _ operand => operand.foundTypes
  | .binary _ left right => left.foundTypes ++ right.foundTypes
  | .cast operand ty => operand.foundTypes ++ ty.foundTypes
  | .call callee args => callee.foundTypes ++ Expr.allFoundTypes args
  | .member base _ _ => base.foundTypes
  | .record p fields => p.foundTypes ++ FieldInit.allFoundTypes fields
  | .select scrutinee arms => scrutinee.foundTypes ++ Arm.allFoundTypes arms
  | .cond choice => choice.foundTypes
  | .block body => body.foundTypes

def Expr.allFoundTypes : List Expr → List Ty
  | [] => []
  | e :: rest => e.foundTypes ++ Expr.allFoundTypes rest

def Expr.optFoundTypes : Option Expr → List Ty
  | none => []
  | some e => e.foundTypes

def FieldInit.allFoundTypes : List FieldInit → List Ty
  | [] => []
  | ⟨_, value, _⟩ :: rest => value.foundTypes ++ FieldInit.allFoundTypes rest

def Arm.allFoundTypes : List Arm → List Ty
  | [] => []
  | ⟨_, body, _⟩ :: rest => body.foundTypes ++ Arm.allFoundTypes rest

def Conditional.foundTypes : Conditional → List Ty
  | ⟨condition, thenBlock, otherwise, _⟩ =>
    condition.foundTypes ++ (thenBlock.foundTypes ++ otherwise.foundTypes)

def ElseBranch.foundTypes : ElseBranch → List Ty
  | .absent => []
  | .block body => body.foundTypes
  | .elseIf choice => choice.foundTypes

def Block.foundTypes : Block → List Ty
  | ⟨stmts, tail, _⟩ => Stmt.allFoundTypes stmts ++ Expr.optFoundTypes tail

def Stmt.allFoundTypes : List Stmt → List Ty
  | [] => []
  | s :: rest => s.foundTypes ++ Stmt.allFoundTypes rest

def Stmt.foundTypes : Stmt → List Ty
  | .bind _ _ ty value _ _ => TypeAnn.optFoundTypes ty ++ Expr.optFoundTypes value
  | .assign _ value _ | .assignField _ _ value _ | .expr value => value.foundTypes
  | .ret value _ => Expr.optFoundTypes value
  | .cond choice => choice.foundTypes
  | .loop condition body _ => condition.foundTypes ++ body.foundTypes
  | .brk _ | .cont _ => []
  | .block body => body.foundTypes

def TypeAnn.optFoundTypes : Option TypeAnn → List Ty
  | none => []
  | some ann => ann.foundTypes

end

def FunctionDef.foundTypes (f : FunctionDef) : List Ty :=
  f.params.flatMap (·.ty.foundTypes) ++ (TypeAnn.optFoundTypes f.ret ++ f.body.foundTypes)

/-! ### Bodies without numbers and types -/

/-- Only where the type stands is kept. -/
def TypeAnn.erase (ann : TypeAnn) : TypeAnn := ⟨.unit, ann.span⟩

def PathExpr.erase (p : PathExpr) : PathExpr := ⟨p.segments, p.args.map TypeAnn.erase⟩

mutual

def Pattern.erase : Pattern → Pattern
  | ⟨_, kind, span⟩ => ⟨0, kind.erase, span⟩

def PatternKind.erase : PatternKind → PatternKind
  | .variant enum name fields => .variant enum name (Pattern.eraseAll fields)
  | .wildcard => .wildcard
  | .bind name => .bind name
  | .int value => .int value
  | .bool value => .bool value
  | .str value => .str value

def Pattern.eraseAll : List Pattern → List Pattern
  | [] => []
  | p :: rest => p.erase :: Pattern.eraseAll rest

end

mutual

def Expr.erase : Expr → Expr
  | ⟨_, kind, span⟩ => ⟨0, kind.erase, span⟩

def ExprKind.erase : ExprKind → ExprKind
  | .path p => .path p.erase
  | .literal value => .literal value
  | .unary op operand => .unary op operand.erase
  | .binary op left right => .binary op left.erase right.erase
  | .cast operand ty => .cast operand.erase ty.erase
  | .call callee args => .call callee.erase (Expr.eraseAll args)
  | .member base name nameSpan => .member base.erase name nameSpan
  | .record p fields => .record p.erase (FieldInit.eraseAll fields)
  | .select scrutinee arms => .select scrutinee.erase (Arm.eraseAll arms)
  | .cond choice => .cond choice.erase
  | .block body => .block body.erase

def Expr.eraseAll : List Expr → List Expr
  | [] => []
  | e :: rest => e.erase :: Expr.eraseAll rest

def Expr.eraseOpt : Option Expr → Option Expr
  | none => none
  | some e => some e.erase

def FieldInit.eraseAll : List FieldInit → List FieldInit
  | [] => []
  | ⟨name, value, span⟩ :: rest => ⟨name, value.erase, span⟩ :: FieldInit.eraseAll rest

def Arm.eraseAll : List Arm → List Arm
  | [] => []
  | ⟨pattern, body, span⟩ :: rest => ⟨pattern.erase, body.erase, span⟩ :: Arm.eraseAll rest

def Conditional.erase : Conditional → Conditional
  | ⟨condition, thenBlock, otherwise, span⟩ =>
    ⟨condition.erase, thenBlock.erase, otherwise.erase, span⟩

def ElseBranch.erase : ElseBranch → ElseBranch
  | .absent => .absent
  | .block body => .block body.erase
  | .elseIf choice => .elseIf choice.erase

def Block.erase : Block → Block
  | ⟨stmts, tail, span⟩ => ⟨Stmt.eraseAll stmts, Expr.eraseOpt tail, span⟩

def Stmt.eraseAll : List Stmt → List Stmt
  | [] => []
  | s :: rest => s.erase :: Stmt.eraseAll rest

def Stmt.erase : Stmt → Stmt
  | .bind _ name ty value isMutable span =>
    .bind 0 name (ty.map TypeAnn.erase) (Expr.eraseOpt value) isMutable span
  | .assign target value span => .assign target value.erase span
  | .assignField base fields value span => .assignField base fields value.erase span
  | .expr value => .expr value.erase
  | .ret value span => .ret (Expr.eraseOpt value) span
  | .cond choice => .cond choice.erase
  | .loop condition body span => .loop condition.erase body.erase span
  | .brk span => .brk span
  | .cont span => .cont span
  | .block body => .block body.erase

end

/-! ### Numbers handed out -/

/-- The nodes have different numbers, from `low` up to but not including `high`. -/
structure Numbered (low high : Nat) (nodes : List Node) : Prop where
  le : low ≤ high
  nodup : (nodes.map Node.id).Nodup
  bounds : ∀ node ∈ nodes, low ≤ node.id ∧ node.id < high

namespace Numbered

variable {low mid high : Nat} {nodes more : List Node}

theorem nil (h : low ≤ high) : Numbered low high [] := ⟨h, by simp, by simp⟩

theorem append (h : Numbered low mid nodes) (h' : Numbered mid high more) :
    Numbered low high (nodes ++ more) where
  le := Nat.le_trans h.le h'.le
  nodup := by
    rw [map_append]
    refine h.nodup.append h'.nodup fun i hi hi' => ?_
    obtain ⟨node, hnode, rfl⟩ := mem_map.1 hi
    obtain ⟨other, hother, heq⟩ := mem_map.1 hi'
    have := (h.bounds node hnode).2
    have := (h'.bounds other hother).1
    omega
  bounds node hnode := by
    have := h.le
    have := h'.le
    rcases mem_append.1 hnode with hm | hm
    · have := h.bounds node hm
      omega
    · have := h'.bounds node hm
      omega

theorem cons_last (h : Numbered low mid nodes) {node : Node} (hid : node.id = mid) :
    Numbered low (mid + 1) (node :: nodes) where
  le := Nat.le_trans h.le (Nat.le_succ mid)
  nodup := by
    rw [map_cons, nodup_cons, hid]
    refine ⟨fun hmem => ?_, h.nodup⟩
    obtain ⟨other, hother, heq⟩ := mem_map.1 hmem
    have := (h.bounds other hother).2
    omega
  bounds other hother := by
    have := h.le
    rcases mem_cons.1 hother with rfl | hm
    · omega
    · have := h.bounds other hm
      omega

theorem cons_first {node : Node} (hid : node.id = low) (h : Numbered (low + 1) high nodes) :
    Numbered low high (node :: nodes) := by
  have hnode : Numbered low (low + 1) [node] := (nil (Nat.le_refl low)).cons_last hid
  exact hnode.append h

theorem widen (h : Numbered low mid nodes) (hle : mid ≤ high) : Numbered low high nodes where
  le := Nat.le_trans h.le hle
  nodup := h.nodup
  bounds node hnode := ⟨(h.bounds node hnode).1, Nat.lt_of_lt_of_le (h.bounds node hnode).2 hle⟩

theorem mono (h : Numbered mid high nodes) (hle : low ≤ mid) : Numbered low high nodes where
  le := Nat.le_trans hle h.le
  nodup := h.nodup
  bounds node hnode := ⟨Nat.le_trans hle (h.bounds node hnode).1, (h.bounds node hnode).2⟩

end Numbered

end Keel

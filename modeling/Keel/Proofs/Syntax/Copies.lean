/-
# Copies have numbers of their own

A copy of a body takes the numbers that are handed out for it, each once; but for the
numbers and the written types it is the body it was made from; and if no types had been
found in that one, those in the copy are the types put in for parameters.  For a whole
function this is `copied_instance`.
-/
import Keel.Proofs.Syntax.Nodes
import Keel.Syntax.Copy

namespace Keel

open List

/-- Each of the types is bound to some name. -/
def TypeEnv.Binds (env : TypeEnv) (types : List Ty) : Prop :=
  ∀ ty ∈ types, ∃ name, env.get? name = some ty

namespace TypeEnv

variable {env : TypeEnv} {types more : List Ty}

theorem binds_nil : env.Binds [] := by simp [Binds]

theorem Binds.append (h : env.Binds types) (h' : env.Binds more) : env.Binds (types ++ more) := by
  intro ty hty
  rcases mem_append.1 hty with hm | hm
  · exact h ty hm
  · exact h' ty hm

end TypeEnv

/-! ### Written types -/

mutual

theorem TypeExpr.binds_substitute (env : TypeEnv) :
    ∀ t : TypeExpr, t.foundTypes = [] → env.Binds (t.substitute env).foundTypes
  | .named path args, h => by
    unfold TypeExpr.substitute
    split
    · split
      · rename_i name _ ty hty
        intro t ht
        cases mem_singleton.1 ht
        exact ⟨name, hty⟩
      · exact TypeEnv.binds_nil
    · exact TypeAnn.binds_substituteAll env args h
  | .range base low high, h => by
    simp only [TypeExpr.foundTypes, append_eq_nil_iff] at h
    simp only [TypeExpr.substitute, TypeExpr.foundTypes, h.2.1, h.2.2, append_nil]
    exact TypeAnn.binds_substitute env base h.1
  | .unit, _ => TypeEnv.binds_nil
  | .resolved ty, h => by cases h

theorem TypeAnn.binds_substitute (env : TypeEnv) :
    ∀ ann : TypeAnn, ann.foundTypes = [] → env.Binds (ann.substitute env).foundTypes
  | ⟨expr, _⟩, h => TypeExpr.binds_substitute env expr h

theorem TypeAnn.binds_substituteAll (env : TypeEnv) : ∀ anns : List TypeAnn, TypeAnn.allFoundTypes anns = [] →
      env.Binds (TypeAnn.allFoundTypes (TypeAnn.substituteAll env anns))
  | [], _ => TypeEnv.binds_nil
  | ann :: rest, h => by
    obtain ⟨hann, hrest⟩ := append_eq_nil_iff.1 h
    exact (TypeAnn.binds_substitute env ann hann).append (TypeAnn.binds_substituteAll env rest hrest)

end

theorem TypeAnn.binds_substituteOpt (env : TypeEnv) (ann : Option TypeAnn) (h : TypeAnn.optFoundTypes ann = []) :
    env.Binds (TypeAnn.optFoundTypes (ann.map (TypeAnn.substitute env))) := by
  cases ann with
  | none => exact TypeEnv.binds_nil
  | some ann => exact TypeAnn.binds_substitute env ann h

theorem TypeAnn.erase_substitute (env : TypeEnv) : ∀ ann : TypeAnn, (ann.substitute env).erase = ann.erase
  | ⟨_, _⟩ => rfl

theorem TypeAnn.erase_substituteAll (env : TypeEnv) (anns : List TypeAnn) :
    (TypeAnn.substituteAll env anns).map TypeAnn.erase = anns.map TypeAnn.erase := by
  induction anns with
  | nil => rfl
  | cons ann rest ih => rw [substituteAll, map_cons, map_cons, ih, erase_substitute]

theorem PathExpr.erase_substitute (env : TypeEnv) (p : PathExpr) : (p.substitute env).erase = p.erase := by
  rw [erase, erase, substitute, TypeAnn.erase_substituteAll]

theorem PathExpr.binds_substitute (env : TypeEnv) : ∀ p : PathExpr, p.foundTypes = [] →
    env.Binds (p.substitute env).foundTypes
  | ⟨_, args⟩, h => TypeAnn.binds_substituteAll env args h

namespace Copy

/-! ### Handing out numbers -/

/-- Started at the number `n`, the computation ends with a value and a next number that
are as said. -/
def Hands {α : Type} (n : Nat) (m : Numbering α) (Q : α → Nat → Prop) : Prop :=
  Q (m n).1 (m n).2

section Hands

variable {α β : Type} {n : Nat} {Q : α → Nat → Prop}

theorem Hands.bind {m : Numbering β} {k : β → Numbering α} {R : β → Nat → Prop}
    (hm : Hands n m R) (hk : ∀ b n', R b n' → Hands n' (k b) Q) : Hands n (m >>= k) Q :=
  hk _ _ hm

theorem Hands.map {m : Numbering β} {f : β → α} {R : β → Nat → Prop} (hm : Hands n m R)
    (hf : ∀ b n', R b n' → Q (f b) n') : Hands n (m >>= fun b => pure (f b)) Q := hf _ _ hm

theorem hands_fresh {k : NodeId → Numbering α} (hk : Hands (n + 1) (k n) Q) : Hands n (fresh >>= k) Q := hk

end Hands

/-- The nodes of a copy have the numbers from `n` up to `n'`, and if no types were found
before, those found after the copy were put in for parameters. -/
structure Copied (env : TypeEnv) (n n' : Nat) (nodes : List Node) (before after : List Ty) : Prop where
  numbered : Numbered n n' nodes
  found : before = [] → env.Binds after

namespace Copied

variable {env : TypeEnv} {n n₁ n₂ : Nat} {nodes more : List Node} {before after before' after' : List Ty}

theorem nil : Copied env n n [] before [] := ⟨.nil (Nat.le_refl n), fun _ => TypeEnv.binds_nil⟩

theorem append (h : Copied env n n₁ nodes before after) (h' : Copied env n₁ n₂ more before' after') :
    Copied env n n₂ (nodes ++ more) (before ++ before') (after ++ after') where
  numbered := h.numbered.append h'.numbered
  found heq := by
    obtain ⟨hb, hb'⟩ := append_eq_nil_iff.1 heq
    exact (h.found hb).append (h'.found hb')

theorem types (h : Copied env n n₁ nodes before after) (ht : before' = [] → env.Binds after') :
    Copied env n n₁ nodes (before' ++ before) (after' ++ after) where
  numbered := h.numbered
  found heq := by
    obtain ⟨hb', hb⟩ := append_eq_nil_iff.1 heq
    exact (ht hb').append (h.found hb)

theorem cons {node : Node} (hid : node.id = n) (h : Copied env (n + 1) n₁ nodes before after) :
    Copied env n n₁ (node :: nodes) before after := ⟨h.numbered.cons_first hid, h.found⟩

end Copied

/-! ### Patterns -/

mutual

theorem hands_pattern (n : Nat) : ∀ p : Pattern, Hands n (pattern p) fun p' n' =>
    Numbered n n' p'.nodes ∧ p'.erase = p.erase
  | ⟨_, kind, span⟩ =>
    hands_fresh <| (hands_patternKind (n + 1) kind).map fun kind' n' ⟨h, he⟩ =>
      ⟨h.cons_first rfl, by rw [Pattern.erase, Pattern.erase, he]⟩

theorem hands_patternKind (n : Nat) : ∀ kind : PatternKind, Hands n (patternKind kind) fun kind' n' =>
    Numbered n n' kind'.nodes ∧ kind'.erase = kind.erase
  | .variant enum name fields =>
    (hands_patterns n fields).map fun fields' n' ⟨h, he⟩ =>
      ⟨h, by rw [PatternKind.erase, PatternKind.erase, he]⟩
  | .wildcard | .bind _ | .int _ | .bool _ | .str _ => ⟨.nil (Nat.le_refl n), rfl⟩

theorem hands_patterns (n : Nat) : ∀ ps : List Pattern, Hands n (patterns ps) fun ps' n' =>
    Numbered n n' (Pattern.allNodes ps') ∧ Pattern.eraseAll ps' = Pattern.eraseAll ps
  | [] => ⟨.nil (Nat.le_refl n), rfl⟩
  | p :: rest =>
    (hands_pattern n p).bind fun p' n₁ ⟨h, he⟩ =>
      (hands_patterns n₁ rest).map fun rest' n₂ ⟨h', he'⟩ =>
        ⟨h.append h', by rw [Pattern.eraseAll, Pattern.eraseAll, he, he']⟩

end

/-! ### Bodies -/

variable (env : TypeEnv)

mutual

theorem hands_expr (n : Nat) : ∀ e : Expr, Hands n (expr env e) fun e' n' =>
    Copied env n n' e'.nodes e.foundTypes e'.foundTypes ∧ e'.erase = e.erase
  | ⟨_, kind, span⟩ =>
    hands_fresh <| (hands_exprKind (n + 1) kind).map fun kind' n' ⟨h, he⟩ =>
      ⟨h.cons rfl, by rw [Expr.erase, Expr.erase, he]⟩

theorem hands_exprKind (n : Nat) : ∀ kind : ExprKind, Hands n (exprKind env kind) fun kind' n' =>
    Copied env n n' kind'.nodes kind.foundTypes kind'.foundTypes ∧ kind'.erase = kind.erase
  | .path p =>
    ⟨⟨.nil (Nat.le_refl n), PathExpr.binds_substitute env p⟩,
      congrArg ExprKind.path (PathExpr.erase_substitute env p)⟩
  | .literal _ => ⟨.nil, rfl⟩
  | .unary op operand =>
    (hands_expr n operand).map fun e' n' ⟨h, he⟩ =>
      ⟨h, by rw [ExprKind.erase, ExprKind.erase, he]⟩
  | .binary op left right =>
    (hands_expr n left).bind fun l n₁ ⟨h, he⟩ =>
      (hands_expr n₁ right).map fun r n₂ ⟨h', he'⟩ =>
        ⟨h.append h', by rw [ExprKind.erase, ExprKind.erase, he, he']⟩
  | .cast operand ty =>
    (hands_expr n operand).map fun e' n' ⟨h, he⟩ =>
      ⟨⟨h.numbered, fun heq => by
          obtain ⟨hop, hty⟩ := append_eq_nil_iff.1 heq
          exact (h.found hop).append (TypeAnn.binds_substitute env ty hty)⟩,
        by rw [ExprKind.erase, ExprKind.erase, he, TypeAnn.erase_substitute]⟩
  | .call callee args =>
    (hands_expr n callee).bind fun c n₁ ⟨h, he⟩ =>
      (hands_exprs n₁ args).map fun as n₂ ⟨h', he'⟩ =>
        ⟨h.append h', by rw [ExprKind.erase, ExprKind.erase, he, he']⟩
  | .member base _ _ =>
    (hands_expr n base).map fun e' n' ⟨h, he⟩ =>
      ⟨h, by rw [ExprKind.erase, ExprKind.erase, he]⟩
  | .record p fields =>
    (hands_fieldInits n fields).map fun fs n' ⟨h, he⟩ =>
      ⟨h.types (PathExpr.binds_substitute env p), by
        rw [ExprKind.erase, ExprKind.erase, he, PathExpr.erase_substitute]⟩
  | .select scrutinee cases =>
    (hands_expr n scrutinee).bind fun e' n₁ ⟨h, he⟩ =>
      (hands_arms n₁ cases).map fun as n₂ ⟨h', he'⟩ =>
        ⟨h.append h', by rw [ExprKind.erase, ExprKind.erase, he, he']⟩
  | .cond choice =>
    (hands_conditional n choice).map fun c n' ⟨h, he⟩ =>
      ⟨h, by rw [ExprKind.erase, ExprKind.erase, he]⟩
  | .block body =>
    (hands_block n body).map fun b n' ⟨h, he⟩ =>
      ⟨h, by rw [ExprKind.erase, ExprKind.erase, he]⟩

theorem hands_exprs (n : Nat) : ∀ es : List Expr, Hands n (exprs env es) fun es' n' =>
    Copied env n n' (Expr.allNodes es') (Expr.allFoundTypes es) (Expr.allFoundTypes es') ∧
      Expr.eraseAll es' = Expr.eraseAll es
  | [] => ⟨.nil, rfl⟩
  | e :: rest =>
    (hands_expr n e).bind fun e' n₁ ⟨h, he⟩ =>
      (hands_exprs n₁ rest).map fun rest' n₂ ⟨h', he'⟩ =>
        ⟨h.append h', by rw [Expr.eraseAll, Expr.eraseAll, he, he']⟩

theorem hands_fieldInits (n : Nat) : ∀ fs : List FieldInit, Hands n (fieldInits env fs) fun fs' n' =>
    Copied env n n' (FieldInit.allNodes fs') (FieldInit.allFoundTypes fs) (FieldInit.allFoundTypes fs') ∧
      FieldInit.eraseAll fs' = FieldInit.eraseAll fs
  | [] => ⟨.nil, rfl⟩
  | ⟨name, value, span⟩ :: rest =>
    (hands_expr n value).bind fun e' n₁ ⟨h, he⟩ =>
      (hands_fieldInits n₁ rest).map fun rest' n₂ ⟨h', he'⟩ =>
        ⟨h.append h', by rw [FieldInit.eraseAll, FieldInit.eraseAll, he, he']⟩

theorem hands_arms (n : Nat) : ∀ as : List Arm, Hands n (arms env as) fun as' n' =>
    Copied env n n' (Arm.allNodes as') (Arm.allFoundTypes as) (Arm.allFoundTypes as') ∧
      Arm.eraseAll as' = Arm.eraseAll as
  | [] => ⟨.nil, rfl⟩
  | ⟨p, body, span⟩ :: rest =>
    (hands_pattern n p).bind fun p' n₁ ⟨hp, hep⟩ =>
      (hands_expr n₁ body).bind fun e' n₂ ⟨h, he⟩ =>
        (hands_arms n₂ rest).map fun rest' n₃ ⟨h', he'⟩ =>
          ⟨⟨hp.append (h.append h').numbered, (h.append h').found⟩, by
            rw [Arm.eraseAll, Arm.eraseAll, hep, he, he']⟩

theorem hands_conditional (n : Nat) : ∀ c : Conditional, Hands n (conditional env c) fun c' n' =>
    Copied env n n' c'.nodes c.foundTypes c'.foundTypes ∧ c'.erase = c.erase
  | ⟨condition, thenBlock, otherwise, span⟩ =>
    (hands_expr n condition).bind fun e' n₁ ⟨h, he⟩ =>
      (hands_block n₁ thenBlock).bind fun b' n₂ ⟨h', he'⟩ =>
        (hands_elseBranch n₂ otherwise).map fun o' n₃ ⟨h'', he''⟩ =>
          ⟨h.append (h'.append h''), by
            rw [Conditional.erase, Conditional.erase, he, he', he'']⟩

theorem hands_elseBranch (n : Nat) : ∀ o : ElseBranch, Hands n (elseBranch env o) fun o' n' =>
    Copied env n n' o'.nodes o.foundTypes o'.foundTypes ∧ o'.erase = o.erase
  | .absent => ⟨.nil, rfl⟩
  | .block body =>
    (hands_block n body).map fun b n' ⟨h, he⟩ =>
      ⟨h, by rw [ElseBranch.erase, ElseBranch.erase, he]⟩
  | .elseIf choice =>
    (hands_conditional n choice).map fun c n' ⟨h, he⟩ =>
      ⟨h, by rw [ElseBranch.erase, ElseBranch.erase, he]⟩

theorem hands_block (n : Nat) : ∀ b : Block, Hands n (block env b) fun b' n' =>
    Copied env n n' b'.nodes b.foundTypes b'.foundTypes ∧ b'.erase = b.erase
  | ⟨body, tail, span⟩ =>
    (hands_stmts n body).bind fun ss n₁ ⟨h, he⟩ =>
      (hands_exprOpt n₁ tail).map fun t n₂ ⟨h', he'⟩ =>
        ⟨h.append h', by rw [Block.erase, Block.erase, he, he']⟩

theorem hands_exprOpt (n : Nat) : ∀ e : Option Expr, Hands n (exprOpt env e) fun e' n' =>
    Copied env n n' (Expr.optNodes e') (Expr.optFoundTypes e) (Expr.optFoundTypes e') ∧
      Expr.eraseOpt e' = Expr.eraseOpt e
  | none => ⟨.nil, rfl⟩
  | some e =>
    (hands_expr n e).map fun e' n' ⟨h, he⟩ =>
      ⟨h, by rw [Expr.eraseOpt, Expr.eraseOpt, he]⟩

theorem hands_stmts (n : Nat) : ∀ ss : List Stmt, Hands n (stmts env ss) fun ss' n' =>
    Copied env n n' (Stmt.allNodes ss') (Stmt.allFoundTypes ss) (Stmt.allFoundTypes ss') ∧
      Stmt.eraseAll ss' = Stmt.eraseAll ss
  | [] => ⟨.nil, rfl⟩
  | s :: rest =>
    (hands_stmt n s).bind fun s' n₁ ⟨h, he⟩ =>
      (hands_stmts n₁ rest).map fun rest' n₂ ⟨h', he'⟩ =>
        ⟨h.append h', by rw [Stmt.eraseAll, Stmt.eraseAll, he, he']⟩

theorem hands_stmt (n : Nat) : ∀ s : Stmt, Hands n (stmt env s) fun s' n' =>
    Copied env n n' s'.nodes s.foundTypes s'.foundTypes ∧ s'.erase = s.erase
  | .bind _ name ty value isMutable span =>
    hands_fresh <| (hands_exprOpt (n + 1) value).map fun v n' ⟨h, he⟩ =>
      ⟨(h.types (TypeAnn.binds_substituteOpt env ty)).cons rfl, by
        cases ty <;> simp [Stmt.erase, he, TypeAnn.erase_substitute]⟩
  | .assign _ value _ | .assignField _ _ value _ | .expr value =>
    (hands_expr n value).map fun e' n' ⟨h, he⟩ =>
      ⟨h, by rw [Stmt.erase, Stmt.erase, he]⟩
  | .ret value _ =>
    (hands_exprOpt n value).map fun v n' ⟨h, he⟩ =>
      ⟨h, by rw [Stmt.erase, Stmt.erase, he]⟩
  | .cond choice =>
    (hands_conditional n choice).map fun c n' ⟨h, he⟩ =>
      ⟨h, by rw [Stmt.erase, Stmt.erase, he]⟩
  | .loop condition body _ =>
    (hands_expr n condition).bind fun e' n₁ ⟨h, he⟩ =>
      (hands_block n₁ body).map fun b n₂ ⟨h', he'⟩ =>
        ⟨h.append h', by rw [Stmt.erase, Stmt.erase, he, he']⟩
  | .brk _ | .cont _ => ⟨.nil, rfl⟩
  | .block body =>
    (hands_block n body).map fun b n' ⟨h, he⟩ =>
      ⟨h, by rw [Stmt.erase, Stmt.erase, he]⟩

end

end Copy

/-! ### Functions -/

theorem binds_params (env : TypeEnv) (params : List ParamDef) (h : params.flatMap (·.ty.foundTypes) = []) :
    env.Binds ((params.map (Copy.param env)).flatMap (·.ty.foundTypes)) := by
  intro ty hty
  obtain ⟨p', hp', hty⟩ := mem_flatMap.1 hty
  obtain ⟨p, hp, rfl⟩ := mem_map.1 hp'
  exact TypeAnn.binds_substitute env p.ty (flatMap_eq_nil_iff.1 h p hp) ty hty

/-- **The copy of a function has its own numbers.**  Its body is that of the function but
for the numbers and the written types, and if no types had been found in the function,
those in the copy were put in for parameters. -/
theorem FunctionDef.copied_instance (f : FunctionDef) (name : String) (env : TypeEnv) (n : Nat) :
    Copy.Hands n (f.instance name env) fun g n' =>
      Copy.Copied env n n' g.body.nodes f.foundTypes g.foundTypes ∧
        g.body.erase = f.body.erase ∧ g.name = name ∧ g.typeParams = [] :=
  (Copy.hands_block env n f.body).map fun _ _ ⟨h, he⟩ =>
    ⟨(h.types (TypeAnn.binds_substituteOpt env f.ret)).types (binds_params env f.params), he, rfl, rfl⟩

end Keel

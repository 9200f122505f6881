/-
# Code that does not come to its end

A block diverges if one of its statements does: a `return`, or an `if`, block or
`match` all of whose branches diverge.  The end of such a block is never reached, so
it needs no value there.
-/
import Keel.Syntax

namespace Keel

mutual

def Block.diverges : Block → Bool
  | ⟨stmts, _, _⟩ => Stmt.anyDiverges stmts

def Stmt.anyDiverges : List Stmt → Bool
  | [] => false
  | s :: rest => s.diverges || Stmt.anyDiverges rest

def Stmt.diverges : Stmt → Bool
  | .ret _ _ => true
  | .cond choice => choice.diverges
  | .block body => body.diverges
  | .expr e => e.diverges
  | _ => false

def Conditional.diverges : Conditional → Bool
  | ⟨_, thenBlock, otherwise, _⟩ => thenBlock.diverges && otherwise.diverges

def ElseBranch.diverges : ElseBranch → Bool
  | .absent => false
  | .block body => body.diverges
  | .elseIf choice => choice.diverges

def Expr.diverges : Expr → Bool
  | ⟨_, .block body, _⟩ => body.diverges
  | ⟨_, .cond choice, _⟩ => choice.diverges
  | ⟨_, .select _ (arm :: arms), _⟩ => arm.diverges && Arm.allDiverge arms
  | _ => false

def Arm.diverges : Arm → Bool
  | ⟨_, body, _⟩ => body.diverges

def Arm.allDiverge : List Arm → Bool
  | [] => true
  | arm :: rest => arm.diverges && Arm.allDiverge rest

end

end Keel

/-
# Where temporaries are set and used

A temporary is set by an instruction and then used by others.  `Function.InRange`,
`Function.SingleAssignment` and `Function.SetBeforeUse` say what a function has to keep
to: it names only slots, temporaries and parameters that it has; no temporary is set by
two instructions; and whichever way control comes to a use of a temporary, it has come
past the instruction that sets it.

A way that control can take is a `Function.Path`: it starts at the first block and goes
from block to block along the targets of their terminators.
-/
import Keel.Ir.Basic

namespace Keel.Ir

/-! ### Instructions -/

def Instr.dest? : Instr → Option TempId
  | load dest _ | unary dest _ _ | binary dest _ _ _ _ | cast dest _ _ _ | call dest _ _
  | makeStruct dest _ _ | getField dest _ _ | makeVariant dest _ _ _ | tag dest _
  | payload dest _ _ _ _ _ | newList dest _ | intrinsic dest _ _ _ _ => some dest
  | store _ _ | storeField _ _ _ | rangeCheck _ _ _ _ | service _ _ _ => none

def Instr.operands : Instr → List Operand
  | load _ _ | newList _ _ => []
  | store _ value | storeField _ _ value | unary _ _ value | cast _ value _ _
  | rangeCheck value _ _ _ | service _ value _ | getField _ value _ | tag _ value
  | payload _ value _ _ _ _ => [value]
  | binary _ _ left right _ => [left, right]
  | call _ _ args | makeStruct _ _ args | intrinsic _ _ _ args _ => args
  | makeVariant _ _ _ carried => carried.toList

def Instr.slots : Instr → List SlotId
  | load _ slot | store slot _ | storeField slot _ _ | intrinsic _ _ slot _ _ => [slot]
  | _ => []

def Terminator.operands : Terminator → List Operand
  | ret value => [value]
  | branch condition _ _ => [condition]
  | jump _ | unreachable => []

def dests (instrs : List Instr) : List TempId := instrs.filterMap Instr.dest?

@[simp] theorem dests_nil : dests [] = [] := rfl

@[simp] theorem dests_append (xs ys : List Instr) : dests (xs ++ ys) = dests xs ++ dests ys :=
  List.filterMap_append

/-! ### Functions -/

namespace Function

/-- Names a parameter or temporary that the function has. -/
def HasOperand (f : Function) : Operand → Prop
  | .param index => index < f.params.length
  | .temp id => id.index < f.temps.length
  | .const _ => True

/-- Every index that occurs is one of the function's. -/
structure InRange (f : Function) : Prop where
  slots : ∀ b ∈ f.blocks, ∀ i ∈ b.instrs, ∀ slot ∈ i.slots, slot.index < f.slots.length
  dests : ∀ b ∈ f.blocks, ∀ i ∈ b.instrs, ∀ id, i.dest? = some id → id.index < f.temps.length
  operands : ∀ b ∈ f.blocks, ∀ i ∈ b.instrs, ∀ o ∈ i.operands, f.HasOperand o
  terminators : ∀ b ∈ f.blocks, ∀ o ∈ b.terminator.operands, f.HasOperand o

def SingleAssignment (f : Function) : Prop := (f.blocks.flatMap fun b => Ir.dests b.instrs).Nodup

/-- `Path f before b`: control can go through the blocks `before` and then come to `b`. -/
inductive Path (f : Function) : List Block → Block → Prop where
  | start {b : Block} : f.blocks.head? = some b → Path f [] b
  | step {before : List Block} {b c : Block} :
      Path f before b → c ∈ f.blocks → c.id ∈ b.terminator.targets → Path f (before ++ [b]) c

/-- On every path, a temporary that is used has been set before. -/
structure SetBeforeUse (f : Function) : Prop where
  instrs : ∀ before b, f.Path before b → ∀ earlier i later, b.instrs = earlier ++ i :: later →
    ∀ id, .temp id ∈ i.operands → id ∈ Ir.dests (before.flatMap (·.instrs) ++ earlier)
  terminators : ∀ before b, f.Path before b → ∀ id, .temp id ∈ b.terminator.operands →
    id ∈ Ir.dests (before.flatMap (·.instrs) ++ b.instrs)

theorem Path.mem {f : Function} {before : List Block} {b : Block} (h : f.Path before b) : b ∈ f.blocks := by
  cases h with
  | start h => exact List.mem_of_head? h
  | step _ h _ => exact h

end Function

end Keel.Ir
